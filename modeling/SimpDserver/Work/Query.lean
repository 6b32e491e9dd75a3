import SimpDserver.Work.Parser

/-!
# Well-formed queries

A query for the address of a name, built from its parts so that nothing else can be built, and what the
request parser makes of it: it accepts, and the name without its first length byte and its ending zero,
the other length bytes turned into dots, is in `shost`.
-/

namespace SimpDserver.Daemon

/-- The labels of a name on the wire, without the ending zero byte. -/
def encodeLabels : List (List Byte) → List Byte
  | [] => []
  | l :: ls => BitVec.ofNat 8 l.length :: (l ++ encodeLabels ls)

def encodeName (labels : List (List Byte)) : List Byte := encodeLabels labels ++ [0]

/-- The labels with dots in between. -/
def joinLabels : List (List Byte) → List Byte
  | [] => []
  | [l] => l
  | l :: ls => l ++ 0x2e :: joinLabels ls

/-- A name of one or more labels of 1 to 63 bytes, at most 255 bytes on the wire. -/
structure Name where
  labels : List (List Byte)
  ne_nil : labels ≠ []
  label_pos : ∀ l ∈ labels, 0 < l.length
  label_le : ∀ l ∈ labels, l.length ≤ 63
  wire_le : (encodeName labels).length ≤ 255
  deriving DecidableEq

/-- A query with one question of type A and any class, perhaps an additional record, and any bytes after
the question. -/
structure Query where
  iden : Byte × Byte
  flags : Byte × Byte
  arcount : Byte × Byte
  name : Name
  qclass : Byte × Byte
  rest : List Byte
  arcount_le : ntohs arcount.1 arcount.2 ≤ 1
  length_le : 12 + (encodeName name.labels).length + 4 + rest.length ≤ reqDataLen
  deriving DecidableEq

namespace Query

theorem no_additional : ntohs 0 0 ≤ 1 := by decide

/-- The plain query with this ID for the name of one label, of one character. -/
def single (iden : Byte × Byte) (c : Byte) : Query where
  iden := iden
  flags := (1, 0)
  arcount := (0, 0)
  name := {
    labels := [[c]]
    ne_nil := List.cons_ne_nil _ _
    label_pos := by simp
    label_le := by simp
    wire_le := by simp [encodeName, encodeLabels] }
  qclass := (0, 1)
  rest := []
  arcount_le := no_additional
  length_le := by simp [encodeName, encodeLabels, reqDataLen]

def header (q : Query) : List Byte :=
  [q.iden.1, q.iden.2, q.flags.1, q.flags.2, 0, 1, 0, 0, 0, 0, q.arcount.1, q.arcount.2]

/-- The question: the name, QTYPE A and QCLASS. -/
def question (q : Query) : List Byte :=
  encodeName q.name.labels ++ [0, 1, q.qclass.1, q.qclass.2]

def encode (q : Query) : List Byte := q.header ++ q.question ++ q.rest

/-- The name as `shost` has it. -/
def host (q : Query) : List Byte := joinLabels q.name.labels

end Query

theorem encodeName_cons (l : List Byte) (ls : List (List Byte)) :
    encodeName (l :: ls) = BitVec.ofNat 8 l.length :: (l ++ encodeName ls) := by
  simp [encodeName, encodeLabels]

theorem length_encodeLabels {labels : List (List Byte)} (h : labels ≠ []) :
    (encodeLabels labels).length = (joinLabels labels).length + 1 := by
  induction labels with
  | nil => exact absurd rfl h
  | cons l ls ih =>
      cases ls with
      | nil => simp [encodeLabels, joinLabels]
      | cons l' ls =>
          have := ih (List.cons_ne_nil l' ls)
          simp only [encodeLabels, joinLabels, List.length_cons, List.length_append] at this ⊢
          omega

theorem length_le_length_encodeLabels (labels : List (List Byte)) :
    labels.length ≤ (encodeLabels labels).length := by
  induction labels with
  | nil => simp [encodeLabels]
  | cons l ls ih =>
      simp only [encodeLabels, List.length_cons, List.length_append]
      omega

/-! ### The parser on a name -/

variable {data : Nat → Byte}

theorem pushHost_eq {shost : Nat → Byte} {len : Nat} (c : Byte) (h : len < hostDataLen) :
    pushHost shost len c = some (put shost len [c], len + 1) := by
  rw [pushHost, if_pos h, update_eq_put]

theorem copyLabel_eq {label : List Byte} {pos2 len : Nat} {shost : Nat → Byte} (hdata : Holds data pos2 label)
    (hlen : len + label.length ≤ hostDataLen) :
    copyLabel data label.length pos2 shost len =
      some (pos2 + label.length, put shost len label, len + label.length) := by
  induction label generalizing pos2 len shost with
  | nil => simp [copyLabel, put_nil]
  | cons c label ih =>
      rw [List.length_cons] at hlen ⊢
      rw [copyLabel, hdata.1, pushHost_eq c (by omega)]
      simp only [Option.bind_eq_bind, Option.bind_some]
      have hput : put (put shost len [c]) (len + 1) label = put shost len (c :: label) :=
        put_put shost len [c] label
      rw [ih hdata.2 (by omega), hput, show pos2 + 1 + label.length = pos2 + (label.length + 1) by omega,
        show len + 1 + label.length = len + (label.length + 1) by omega]

theorem toInt_ofNat_length {l : List Byte} (h : l.length ≤ 63) : (BitVec.ofNat 8 l.length).toInt = l.length := by
  have hnat : (BitVec.ofNat 8 l.length).toNat = l.length := by
    rw [BitVec.toNat_ofNat]
    omega
  rw [BitVec.toInt_eq_toNat_of_lt (by omega), hnat]

theorem ofNat_length_ne_zero {l : List Byte} (hpos : 0 < l.length) (h : l.length ≤ 63) :
    BitVec.ofNat 8 l.length ≠ 0 := by
  intro h0
  have := toInt_ofNat_length h
  rw [h0] at this
  simp at this
  omega

theorem parseLabels_eq {labels : List (List Byte)} {fuel pos2 len : Nat} {shost : Nat → Byte}
    (hne : labels ≠ []) (hpos : ∀ l ∈ labels, 0 < l.length) (hle : ∀ l ∈ labels, l.length ≤ 63)
    (hdata : Holds data pos2 (encodeName labels)) (hlen : len + (joinLabels labels).length ≤ hostDataLen)
    (hfuel : labels.length < fuel) :
    parseLabels data fuel pos2 shost len =
      some (pos2 + (encodeLabels labels).length, put shost len (joinLabels labels),
        len + (joinLabels labels).length) := by
  induction labels generalizing fuel pos2 len shost with
  | nil => exact absurd rfl hne
  | cons l ls ih =>
      obtain ⟨f, rfl⟩ := Nat.exists_eq_add_of_lt hfuel
      have hl := hle l List.mem_cons_self
      have hl0 := hpos l List.mem_cons_self
      rw [encodeName_cons] at hdata
      obtain ⟨hhead, htail⟩ := hdata
      rw [holds_append] at htail
      have htmp : (data pos2).toInt ≠ 0 := by
        rw [hhead, toInt_ofNat_length hl]
        omega
      have hjoin : l.length ≤ (joinLabels (l :: ls)).length := by
        cases ls <;> simp [joinLabels]
      have hcopy : copyLabel data l.length (pos2 + 1) shost len = some _ := copyLabel_eq htail.1 (by omega)
      rw [parseLabels, if_pos htmp, hhead, toInt_ofNat_length hl, Int.toNat_natCast, hcopy]
      simp only [Option.bind_eq_bind, Option.bind_some]
      cases ls with
      | nil =>
          have hzero : data (pos2 + 1 + l.length) = 0 := htail.2.1
          have hend : ¬(data (pos2 + 1 + l.length)).toInt ≠ 0 := by
            rw [hzero]
            decide
          rw [if_neg (by simpa using hzero), List.length_cons, List.length_nil,
            show 0 + 1 + f = f + 1 by omega, parseLabels, if_neg hend]
          simp only [encodeLabels, joinLabels, List.append_nil, List.length_cons]
          rw [show pos2 + 1 + l.length = pos2 + (l.length + 1) by omega]
      | cons l' ls =>
          have hnext : data (pos2 + 1 + l.length) = BitVec.ofNat 8 l'.length := htail.2.1
          have hne' : data (pos2 + 1 + l.length) ≠ 0 := by
            rw [hnext]
            exact ofNat_length_ne_zero (hpos l' (by simp)) (hle l' (by simp))
          simp only [joinLabels, List.length_append, List.length_cons] at hlen
          rw [if_pos hne', pushHost_eq _ (by omega)]
          simp only [Option.bind_some]
          rw [ih (List.cons_ne_nil l' ls) (fun m hm => hpos m (List.mem_cons_of_mem _ hm))
            (fun m hm => hle m (List.mem_cons_of_mem _ hm)) htail.2 (by omega)
            (by simp only [List.length_cons]; omega)]
          have hput : put (put (put shost len l) (len + l.length) [0x2e]) (len + l.length + 1)
              (joinLabels (l' :: ls)) = put shost len (joinLabels (l :: l' :: ls)) := by
            rw [put_put, show len + l.length + 1 = len + (l ++ [(0x2e : Byte)]).length by simp; omega, put_put,
              List.append_assoc]
            rfl
          rw [hput]
          simp only [encodeLabels, joinLabels, List.length_append, List.length_cons]
          congr 2
          · omega
          · congr 1
            omega

/-! ### The parser on a query -/

namespace Name

theorem host_length (name : Name) : (encodeLabels name.labels).length = (joinLabels name.labels).length + 1 :=
  length_encodeLabels name.ne_nil

theorem wire_length (name : Name) : (encodeName name.labels).length = (joinLabels name.labels).length + 2 := by
  rw [encodeName, List.length_append, name.host_length, List.length_singleton]

theorem host_le (name : Name) : (joinLabels name.labels).length ≤ 253 := by
  have := name.wire_le
  rw [name.wire_length] at this
  omega

theorem labels_length_lt (name : Name) : name.labels.length < parserRounds := by
  have := length_le_length_encodeLabels name.labels
  have hhost := name.host_length
  have hle := name.host_le
  simp only [parserRounds, hostDataLen]
  omega

end Name

namespace Query

variable (q : Query)

theorem length_header : q.header.length = 12 := rfl

theorem length_encode : q.encode.length = 12 + (encodeName q.name.labels).length + 4 + q.rest.length := by
  simp only [encode, question, length_header, List.length_append, List.length_cons, List.length_nil]
  omega

theorem length_question : q.question.length = q.host.length + 6 := by
  rw [question, List.length_append, q.name.wire_length, host]
  rfl

theorem holds_parts {data : Nat → Byte} (h : Holds data 0 q.encode) :
    Holds data 0 q.header ∧ Holds data 12 (encodeName q.name.labels) ∧
      Holds data (12 + (encodeName q.name.labels).length) [0, 1, q.qclass.1, q.qclass.2] ∧
      Holds data (12 + (encodeName q.name.labels).length + 4) q.rest := by
  simp only [encode, question, List.append_assoc, holds_append, length_header, Nat.zero_add, List.length_cons,
    List.length_nil] at h
  exact h

/-- The node an accepted query leaves the parser with, before the address is looked up. -/
def parsed (q : Query) (fd : Int) (cliaddr : SockAddr) : Node :=
  { received fd cliaddr q.encode with
    iden := load16 q.iden.1 q.iden.2
    flags := some 2
    shost := put (fun _ => 0) 0 q.host
    hostLen := q.host.length }

/-- Where the parser sends it. -/
def passedOn (node : Node) (ipaddr : Ipv4) : ParserResult :=
  if ipaddr = 0 then ⟨node, 0, some .forward⟩ else ⟨node.setIpv4 ipaddr, 0, some .bundle⟩

theorem encode_le : q.encode.length ≤ reqDataLen := by
  rw [length_encode]
  exact q.length_le

theorem parseLabels_query {data : Nat → Byte} (h : Holds data 12 (encodeName q.name.labels)) :
    parseLabels data parserRounds 12 (fun _ => 0) 0 =
      some (12 + (encodeName q.name.labels).length - 1, put (fun _ => 0) 0 q.host, q.host.length) := by
  have hhost := q.name.host_le
  have hhost' := q.name.host_length
  have hwire := q.name.wire_length
  rw [parseLabels_eq q.name.ne_nil q.name.label_pos q.name.label_le h (by simp only [hostDataLen]; omega)
    q.name.labels_length_lt, Nat.zero_add, hhost', hwire]
  rfl

theorem not_root {data : Nat → Byte} (h : Holds data 12 (encodeName q.name.labels)) : ¬(data 12).toInt ≤ 0 := by
  obtain ⟨l, ls, hl⟩ := List.exists_cons_of_ne_nil q.name.ne_nil
  have hmem : l ∈ q.name.labels := hl ▸ List.mem_cons_self
  rw [hl, encodeName_cons] at h
  rw [h.1, toInt_ofNat_length (q.name.label_le l hmem)]
  have := q.name.label_pos l hmem
  omega

theorem enters (fd : Int) (cliaddr : SockAddr) : EntersLoop (received fd cliaddr q.encode) := by
  obtain ⟨hheader, hname, -, -⟩ := q.holds_parts (received_holds fd cliaddr q.encode_le)
  obtain ⟨-, -, -, -, h4, h5, h6, h7, h8, h9, h10, h11, -⟩ := hheader
  refine ⟨?_, ?_, ?_, ?_, not_le.mp (q.not_root hname)⟩
  · rw [h4, h5]
    decide
  · rw [h6, h7]
    decide
  · rw [h8, h9]
    decide
  · rw [h10, h11]
    exact q.arcount_le

/-- The parser accepts every well-formed query. -/
theorem insideParser_eq (search : (Nat → Byte) → Int → Ipv4) (fd : Int) (cliaddr : SockAddr) :
    insideParser search (received fd cliaddr q.encode) =
      some (passedOn (q.parsed fd cliaddr) (search (put (fun _ => 0) 0 q.host) q.host.length)) := by
  obtain ⟨hheader, hname, htype, -⟩ := q.holds_parts (received_holds fd cliaddr q.encode_le)
  have hiden : load16 ((received fd cliaddr q.encode).data 0) ((received fd cliaddr q.encode).data 1) =
      load16 q.iden.1 q.iden.2 := congrArg₂ load16 hheader.1 hheader.2.1
  have hwire := q.name.wire_length
  have hstop : 12 + (encodeName q.name.labels).length - 1 + 1 = 12 + (encodeName q.name.labels).length := by omega
  have hqtype : ¬ntohs ((received fd cliaddr q.encode).data (12 + (encodeName q.name.labels).length))
      ((received fd cliaddr q.encode).data (12 + (encodeName q.name.labels).length + 1)) ≠ 1 := by
    rw [htype.1, htype.2.1]
    decide
  rw [insideParser_of_enters search (q.enters fd cliaddr),
    show (received fd cliaddr q.encode).shost = fun _ => 0 from rfl, q.parseLabels_query hname, Option.map_some]
  dsimp only [afterLabels]
  rw [show 12 + (encodeName q.name.labels).length - 1 + 2 = 12 + (encodeName q.name.labels).length - 1 + 1 + 1 from rfl,
    hstop, if_neg hqtype, hiden]
  rfl

/-- Every valid name is decoded: the labels with dots in between and a zero byte after them, the header's ID,
and one ring, the bundle ring with the address found or the forward ring. -/
theorem insideParser_decodes (search : (Nat → Byte) → Int → Ipv4) (fd : Int) (cliaddr : SockAddr) :
    ∃ node queue, insideParser search (received fd cliaddr q.encode) = some ⟨node, 0, some queue⟩ ∧
      node.hostLen = (joinLabels q.name.labels).length ∧ Holds node.shost 0 (joinLabels q.name.labels ++ [0]) ∧
      node.iden = load16 q.iden.1 q.iden.2 ∧
      (search node.shost node.hostLen ≠ 0 → queue = .bundle ∧ node.ipv4 = search node.shost node.hostLen) ∧
      (search node.shost node.hostLen = 0 → queue = .forward) := by
  have hhost : Holds (put (fun _ => 0) 0 q.host) 0 (joinLabels q.name.labels ++ [0]) := by
    refine holds_append.mpr ⟨holds_put _ 0 q.host, ?_, trivial⟩
    exact put_of_ge q.host (by rw [host])
  rw [insideParser_eq, passedOn]
  by_cases hzero : search (put (fun _ => 0) 0 q.host) q.host.length = 0
  · rw [if_pos hzero]
    exact ⟨_, _, rfl, rfl, hhost, rfl, fun hne => absurd hzero hne, fun _ => rfl⟩
  · rw [if_neg hzero]
    exact ⟨_, _, rfl, rfl, hhost, rfl, fun _ => ⟨rfl, rfl⟩, fun h => absurd h hzero⟩

theorem of_accepts {search : (Nat → Byte) → Int → Ipv4} {fd : Int} {cliaddr : SockAddr} {node : Node}
    (h : Accepts search (received fd cliaddr q.encode) node) :
    node = q.parsed fd cliaddr ∨ ∃ ip, node = (q.parsed fd cliaddr).setIpv4 ip := by
  obtain ⟨queue, h⟩ := h
  rw [insideParser_eq, passedOn] at h
  have h := Option.some.inj h
  split at h
  · exact Or.inl (congrArg ParserResult.node h).symm
  · exact Or.inr ⟨_, (congrArg ParserResult.node h).symm⟩

end Query

end SimpDserver.Daemon

import SimpDserver.Common.Node

/-!
# Parsing a request

`net_work_module_inside_parser`: the header's counts, the question's name copied to `shost` with dots
between the labels, the query type, and the search that decides where the node goes. A store outside
`shost` has no result; it comes before any read outside `data.request`, since every round of the
loop that moves the read position moves the write position with it.
-/

namespace SimpDserver.Daemon

/-- The ring a parsed node is passed to. -/
inductive Queue where
  | forward
  | bundle
  deriving DecidableEq

/-- What a run of the parser leaves: the node, the return value, and the ring it enqueued the node on. -/
structure ParserResult where
  node : Node
  ret : Int
  passed : Option Queue

/-- `*h++ = c; len++`, where `h` is `shost + len`. -/
def pushHost (shost : Nat → Byte) (len : Nat) (c : Byte) : Option ((Nat → Byte) × Nat) :=
  if len < hostDataLen then some (Function.update shost len c, len + 1) else none

/-- The `for` loop over the characters of one label. -/
def copyLabel (data : Nat → Byte) : (tmp : Nat) → (pos2 : Nat) → (shost : Nat → Byte) → (len : Nat) →
    Option (Nat × (Nat → Byte) × Nat)
  | 0, pos2, shost, len => some (pos2, shost, len)
  | tmp + 1, pos2, shost, len => do
      let (shost, len) ← pushHost shost len (data pos2)
      copyLabel data tmp (pos2 + 1) shost len

/-- The `while` loop over the labels, for at most `fuel` tests of its condition. A label's length is a
signed character, and a negative one copies nothing. -/
def parseLabels (data : Nat → Byte) : (fuel : Nat) → (pos2 : Nat) → (shost : Nat → Byte) → (len : Nat) →
    Option (Nat × (Nat → Byte) × Nat)
  | 0, _, _, _ => none
  | fuel + 1, pos2, shost, len =>
      let tmp := (data pos2).toInt
      if tmp ≠ 0 then do
        let (pos2, shost, len) ← copyLabel data tmp.toNat (pos2 + 1) shost len
        if data pos2 ≠ 0 then do
          let (shost, len) ← pushHost shost len 0x2e
          parseLabels data fuel pos2 shost len
        else parseLabels data fuel pos2 shost len
      else some (pos2, shost, len)

/-- Rounds of the loop that are never exceeded: each but the last two fills a byte of `shost`. -/
def parserRounds : Nat := hostDataLen + 2

/-- `net_work_module_inside_parser`, `search` being `net_hashmap_core_module.search`. -/
def insideParser (search : (Nat → Byte) → Int → Ipv4) (node : Node) : Option ParserResult :=
  let data := node.data
  let reject (node : Node) : ParserResult := ⟨node, -1, none⟩
  if ntohs (data 4) (data 5) ≠ 1 then some (reject node)
  else if ntohs (data 6) (data 7) ≠ 0 then some (reject node)
  else if ntohs (data 8) (data 9) ≠ 0 then some (reject node)
  else if ntohs (data 10) (data 11) > 1 then some (reject node)
  else
    let node := { node with iden := load16 (data 0) (data 1), flags := some 2 }
    if (data 12).toInt ≤ 0 then some (reject node)
    else do
      let (pos2, shost, len) ← parseLabels data parserRounds 12 node.shost 0
      let node := { node with shost := shost }
      -- skip the ending zero
      let pos2 := pos2 + 1
      if ntohs (data pos2) (data (pos2 + 1)) ≠ 1 then some (reject node)
      else
        let node := { node with hostLen := len }
        let ipaddr := search node.shost node.hostLen
        if ipaddr = 0 then some ⟨node, 0, some .forward⟩
        else some ⟨node.setIpv4 ipaddr, 0, some .bundle⟩

/-- The parser accepts a node, and this is what it makes of it. -/
def Accepts (search : (Nat → Byte) → Int → Ipv4) (node parsed : Node) : Prop :=
  ∃ queue, insideParser search node = some ⟨parsed, 0, some queue⟩

/-! ### The tests before the labels, and what comes after -/

/-- The tests of the counts and of the first length byte. -/
structure EntersLoop (node : Node) : Prop where
  qdcount : ntohs (node.data 4) (node.data 5) = 1
  ancount : ntohs (node.data 6) (node.data 7) = 0
  nscount : ntohs (node.data 8) (node.data 9) = 0
  arcount : ntohs (node.data 10) (node.data 11) ≤ 1
  not_root : 0 < (node.data 12).toInt

theorem EntersLoop.first_ne_zero {node : Node} (h : EntersLoop node) : node.data 12 ≠ 0 := by
  intro h0
  have := h.not_root
  rw [h0] at this
  exact absurd this (by decide)

/-- What becomes of the node when the loop has stopped at `pos2`. -/
def afterLabels (search : (Nat → Byte) → Int → Ipv4) (node : Node) (pos2 : Nat) (shost : Nat → Byte) (len : Nat) :
    ParserResult :=
  let node := { node with iden := load16 (node.data 0) (node.data 1), flags := some 2, shost := shost }
  if ntohs (node.data (pos2 + 1)) (node.data (pos2 + 2)) ≠ 1 then ⟨node, -1, none⟩
  else
    let node := { node with hostLen := len }
    if search shost len = 0 then ⟨node, 0, some .forward⟩ else ⟨node.setIpv4 (search shost len), 0, some .bundle⟩

theorem insideParser_of_enters (search : (Nat → Byte) → Int → Ipv4) {node : Node} (h : EntersLoop node) :
    insideParser search node = (parseLabels node.data parserRounds 12 node.shost 0).map
      fun r => afterLabels search node r.1 r.2.1 r.2.2 := by
  have hroot := h.not_root
  dsimp only [insideParser]
  rw [if_neg (not_not.mpr h.qdcount), if_neg (not_not.mpr h.ancount), if_neg (not_not.mpr h.nscount),
    if_neg (not_lt.mpr h.arcount), if_neg (not_le.mpr hroot), Option.bind_eq_bind, Option.map_eq_bind]
  refine congrArg _ (funext fun r => ?_)
  simp only [Function.comp_apply, afterLabels, ← apply_ite some]

theorem insideParser_of_not_enters (search : (Nat → Byte) → Int → Ipv4) {node : Node} (h : ¬EntersLoop node) :
    insideParser search node = some ⟨node, -1, none⟩ ∨
      insideParser search node =
        some ⟨{ node with iden := load16 (node.data 0) (node.data 1), flags := some 2 }, -1, none⟩ := by
  dsimp only [insideParser]
  by_cases hqdcount : ntohs (node.data 4) (node.data 5) ≠ 1
  · exact Or.inl (if_pos hqdcount)
  by_cases hancount : ntohs (node.data 6) (node.data 7) ≠ 0
  · exact Or.inl (by rw [if_neg hqdcount, if_pos hancount])
  by_cases hnscount : ntohs (node.data 8) (node.data 9) ≠ 0
  · exact Or.inl (by rw [if_neg hqdcount, if_neg hancount, if_pos hnscount])
  by_cases harcount : ntohs (node.data 10) (node.data 11) > 1
  · exact Or.inl (by rw [if_neg hqdcount, if_neg hancount, if_neg hnscount, if_pos harcount])
  rw [if_neg hqdcount, if_neg hancount, if_neg hnscount, if_neg harcount]
  by_cases hroot : (node.data 12).toInt ≤ 0
  · exact Or.inr (if_pos hroot)
  exact absurd ⟨not_not.mp hqdcount, not_not.mp hancount, not_not.mp hnscount, not_lt.mp harcount, not_le.mp hroot⟩ h

/-- A node that is passed on has been through the loop, which left the host and its length. -/
theorem loop_of_passed {search : (Nat → Byte) → Int → Ipv4} {node : Node} {r : ParserResult}
    (h : insideParser search node = some r) (hpassed : r.passed ≠ none) :
    EntersLoop node ∧ ∃ stop shost len, parseLabels node.data parserRounds 12 node.shost 0 = some (stop, shost, len) ∧
      r.node.shost = shost ∧ r.node.hostLen = len ∧ ntohs (node.data (stop + 1)) (node.data (stop + 2)) = 1 ∧
      (r.passed = some .forward → search shost len = 0) := by
  by_cases henters : EntersLoop node
  · rw [insideParser_of_enters search henters, Option.map_eq_some_iff] at h
    obtain ⟨⟨stop, shost, len⟩, hloop, rfl⟩ := h
    refine ⟨henters, stop, shost, len, hloop, ?_⟩
    dsimp only [afterLabels] at hpassed ⊢
    by_cases htype : ntohs (node.data (stop + 1)) (node.data (stop + 2)) ≠ 1
    · rw [if_pos htype] at hpassed
      exact absurd rfl hpassed
    rw [if_neg htype]
    by_cases hzero : search shost len = 0
    · rw [if_pos hzero]
      exact ⟨rfl, rfl, not_not.mp htype, fun _ => hzero⟩
    · rw [if_neg hzero]
      exact ⟨rfl, rfl, not_not.mp htype, fun hforward => by cases hforward⟩
  · rcases insideParser_of_not_enters search henters with heq | heq
    · rw [heq, Option.some.injEq] at h
      exact absurd (congrArg ParserResult.passed h).symm hpassed
    · rw [heq, Option.some.injEq] at h
      exact absurd (congrArg ParserResult.passed h).symm hpassed

/-- What the parser leaves as it was: the socket, the sender and the datagram. A node it passes on has its
flags. -/
theorem insideParser_keeps {search : (Nat → Byte) → Int → Ipv4} {node : Node} {r : ParserResult}
    (h : insideParser search node = some r) :
    r.node.fd = node.fd ∧ r.node.cliaddr = node.cliaddr ∧ r.node.datalen = node.datalen ∧
      r.node.data = node.data ∧ (r.passed = none ∨ r.node.flags = some 2) := by
  by_cases henters : EntersLoop node
  · rw [insideParser_of_enters search henters, Option.map_eq_some_iff] at h
    obtain ⟨⟨pos2, shost, len⟩, -, rfl⟩ := h
    dsimp only [afterLabels]
    split
    · exact ⟨rfl, rfl, rfl, rfl, Or.inl rfl⟩
    · split <;> exact ⟨rfl, rfl, rfl, rfl, Or.inr rfl⟩
  · rcases insideParser_of_not_enters search henters with heq | heq <;>
      (rw [heq] at h; cases h; exact ⟨rfl, rfl, rfl, rfl, Or.inl rfl⟩)

end SimpDserver.Daemon

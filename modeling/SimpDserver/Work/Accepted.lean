import SimpDserver.Work.HostRoom

/-!
# What the parser lets through

The parser never looks at `datalen`, and of the length bytes it looks at the first alone. So it lets
datagrams through that end within the question, and such whose later length bytes are reserved ones or
pointers, and a name of any length that it has room for. Where the length bytes are lawful, the name is short
enough and the question is complete, the datagram is a query.
-/

namespace SimpDserver.Daemon

/-- The parser does not surely reject the node: it passes it on, or what it does is undefined. -/
def MayPass (search : (Nat → Byte) → Int → Ipv4) (node : Node) : Prop :=
  ∀ r, insideParser search node = some r → r.passed ≠ none

/-- If the parser may pass the datagram on, it is a well-formed query. -/
def OnlyQuery (fd : Int) (cliaddr : SockAddr) (bytes : List Byte) : Prop :=
  ∀ search, MayPass search (received fd cliaddr bytes) → ∃ q : Query, q.encode = bytes.take reqDataLen

/-- One of the parser's tests turns the node away: one before the labels, or the one of the type behind a chain
of length bytes that `shost` has room for. -/
def TurnedAway (node : Node) : Prop :=
  ¬EntersLoop node ∨
    ∃ stop ≤ 525, Chain node.data 12 stop ∧ ntohs (node.data (stop + 1)) (node.data (stop + 2)) ≠ 1

/-- Lawful length bytes from the header on, a name of at most 255 bytes, and a question inside the datagram. -/
def WholeQuestion (node : Node) : Prop := ∃ stop ≤ 266, LabelChain node.data 12 stop ∧ stop + 5 ≤ node.datalen

section Tests

variable {search : (Nat → Byte) → Int → Ipv4} {node : Node}

theorem not_mayPass_of_turnedAway (h : TurnedAway node) : ¬MayPass search node := by
  intro hmay
  by_cases henters : EntersLoop node
  · obtain ⟨stop, hstop, hchain, htype⟩ := h.resolve_left (not_not.mpr henters)
    obtain ⟨shost, len, hloop⟩ := hchain.loop_ends hstop
      (show stop < 12 + parserRounds by rw [parserRounds, hostDataLen]; omega)
    have hret := insideParser_of_enters search henters
    rw [hloop, Option.map_some, afterLabels] at hret
    exact hmay _ hret (by rw [if_pos htype])
  · rcases insideParser_of_not_enters search henters with heq | heq
    · exact hmay _ heq rfl
    · exact hmay _ heq rfl

theorem mayPass_of_not_turnedAway (h : ¬TurnedAway node) : MayPass search node := by
  intro r hr
  simp only [TurnedAway, not_or, not_not, not_exists, not_and] at h
  obtain ⟨henters, htype⟩ := h
  rw [insideParser_of_enters search henters, Option.map_eq_some_iff] at hr
  obtain ⟨⟨stop, shost, len⟩, hloop, rfl⟩ := hr
  obtain ⟨hchain, hcount, hlen, -⟩ := henters.loop_eq_some hloop
  rw [hostDataLen] at hlen
  dsimp only [afterLabels]
  rw [if_neg (not_not.mpr (htype stop (by omega) hchain))]
  split <;> exact Option.some_ne_none _

end Tests

/-! ### A whole question is a query -/

theorem received_holds_take (fd : Int) (cliaddr : SockAddr) (bytes : List Byte) :
    Holds (received fd cliaddr bytes).data 0 (bytes.take reqDataLen) := by
  rw [holds_iff]
  intro k _
  rw [Nat.zero_add]
  rfl

theorem received_datalen (fd : Int) (cliaddr : SockAddr) (bytes : List Byte) :
    (received fd cliaddr bytes).datalen = (bytes.take reqDataLen).length := by
  rw [List.length_take, Nat.min_comm]
  rfl

theorem ntohs_eq_iff {a b : Byte} {n : Nat} (hn : n < 256) : ntohs a b = n ↔ a = 0 ∧ b = BitVec.ofNat 8 n := by
  rw [← BitVec.toNat_inj, ← BitVec.toNat_inj, BitVec.toNat_ofNat, ntohs]
  have := b.isLt
  constructor
  · intro h
    exact ⟨show a.toNat = 0 by omega, by omega⟩
  · intro h
    have ha : a.toNat = 0 := h.1
    omega

/-- The query in a datagram that enters the loop and has a whole question of type A. -/
theorem exists_query {node : Node} {bytes : List Byte} (hall : Holds node.data 0 bytes)
    (hdatalen : node.datalen = bytes.length) (hmax : bytes.length ≤ reqDataLen) (henters : EntersLoop node)
    {stop : Nat} (hstop : stop ≤ 266) (hchain : LabelChain node.data 12 stop) (hwhole : stop + 5 ≤ node.datalen)
    (htype : ntohs (node.data (stop + 1)) (node.data (stop + 2)) = 1) : ∃ q : Query, q.encode = bytes := by
  obtain ⟨labels, hpos, hle, hname, hend⟩ := hchain.holds
  have hne : labels ≠ [] := by
    rintro rfl
    exact henters.first_ne_zero hname.1
  have hwire : (encodeName labels).length = (encodeLabels labels).length + 1 := by
    rw [encodeName, List.length_append, List.length_singleton]
  let q : Query := {
    iden := (node.data 0, node.data 1)
    flags := (node.data 2, node.data 3)
    arcount := (node.data 10, node.data 11)
    name := ⟨labels, hne, hpos, hle, by omega⟩
    qclass := (node.data (stop + 3), node.data (stop + 4))
    rest := bytes.drop (stop + 5)
    arcount_le := henters.arcount
    length_le := by
      rw [List.length_drop]
      exact show 12 + (encodeName labels).length + 4 + (bytes.length - (stop + 5)) ≤ reqDataLen by omega }
  have hencode : Holds node.data 0 q.encode := by
    obtain ⟨hqd, hqd'⟩ := (ntohs_eq_iff (by decide)).mp henters.qdcount
    obtain ⟨han, han'⟩ := (ntohs_eq_iff (by decide)).mp henters.ancount
    obtain ⟨hns, hns'⟩ := (ntohs_eq_iff (by decide)).mp henters.nscount
    obtain ⟨ht, ht'⟩ := (ntohs_eq_iff (by decide)).mp htype
    have hrest := holds_drop hall (show stop + 5 ≤ bytes.length by omega)
    have hafter : 12 + (encodeName labels).length = stop + 1 := by omega
    simp only [Query.encode, Query.question, List.append_assoc, holds_append]
    refine ⟨⟨rfl, rfl, rfl, rfl, hqd, hqd', han, han', hns, hns', rfl, rfl, trivial⟩, hname, ?_, ?_⟩
    · rw [Query.length_header, Nat.zero_add, hafter]
      exact ⟨ht, ht', rfl, rfl, trivial⟩
    · rw [Query.length_header, Nat.zero_add, hafter]
      exact hrest
  refine ⟨q, holds_ext hencode hall ?_⟩
  rw [Query.length_encode, List.length_drop]
  exact show 12 + (encodeName labels).length + 4 + (bytes.length - (stop + 5)) = bytes.length by omega

theorem Query.wholeQuestion (q : Query) {node : Node} (hholds : Holds node.data 0 q.encode)
    (hdatalen : node.datalen = q.encode.length) : WholeQuestion node := by
  obtain ⟨-, hname, -⟩ := q.holds_parts hholds
  have hlength := q.length_encode
  have hwire := q.name.wire_length
  have hhost := q.name.host_length
  have hle := q.name.host_le
  exact ⟨_, by omega, labelChain_of_holds q.name.label_pos q.name.label_le hname, by omega⟩

/-- The parser lets nothing but a well-formed query through just when it turns the datagram away, or the
datagram holds a whole question with lawful length bytes. -/
theorem onlyQuery_iff (fd : Int) (cliaddr : SockAddr) (bytes : List Byte) :
    OnlyQuery fd cliaddr bytes ↔
      TurnedAway (received fd cliaddr bytes) ∨ WholeQuestion (received fd cliaddr bytes) := by
  have hdatalen := received_datalen fd cliaddr bytes
  constructor
  · intro h
    by_cases haway : TurnedAway (received fd cliaddr bytes)
    · exact Or.inl haway
    obtain ⟨q, hq⟩ := h (fun _ _ => 0) (mayPass_of_not_turnedAway haway)
    have hholds := received_holds_take fd cliaddr bytes
    rw [← hq] at hholds hdatalen
    exact Or.inr (q.wholeQuestion hholds hdatalen)
  · intro h search hmay
    have haway : ¬TurnedAway (received fd cliaddr bytes) := fun haway => not_mayPass_of_turnedAway haway hmay
    obtain ⟨stop, hstop, hchain, hwhole⟩ := h.resolve_left haway
    simp only [TurnedAway, not_or, not_not, not_exists, not_and] at haway
    exact exists_query (received_holds_take fd cliaddr bytes) hdatalen (List.length_take_le _ _) haway.1 hstop
      hchain hwhole (haway.2 stop (by omega) hchain.chain)

/-- A question whose name ends in a compression pointer. -/
def pointerQuery : List Byte :=
  [0x12, 0x34, 1, 0, 0, 1, 0, 0, 0, 0, 0, 0, 1, 0x61, 0xc0, 0, 0, 1, 0, 1]

set_option maxRecDepth 4000 in
/-- It is passed on. -/
theorem pointerQuery_not_onlyQuery : ¬ ∀ (bytes : List Byte) (search : (Nat → Byte) → Int → Ipv4) (fd : Int)
    (cliaddr : SockAddr) (parsed : Node), Accepts search (received fd cliaddr bytes) parsed →
      ∃ q : Query, q.encode = bytes.take reqDataLen := by
  intro hall
  obtain ⟨q, hq⟩ := hall pointerQuery (fun _ _ => 0) 3 ⟨5, 6⟩ _ ⟨.forward, rfl⟩
  have hholds := received_holds_take 3 ⟨5, 6⟩ pointerQuery
  have hdatalen := received_datalen 3 ⟨5, 6⟩ pointerQuery
  rw [← hq] at hholds hdatalen
  obtain ⟨stop, -, hchain, -⟩ := q.wholeQuestion hholds hdatalen
  cases hchain with
  | nil zero => exact absurd zero (by decide)
  | cons _ _ rest =>
      cases rest with
      | nil zero => exact absurd zero (by decide)
      | cons _ lawful _ => exact absurd lawful (by decide)

end SimpDserver.Daemon

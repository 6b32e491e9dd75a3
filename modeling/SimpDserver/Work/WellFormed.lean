import SimpDserver.Lib.DnsMessage
import SimpDserver.Work.Query

/-!
# The parser on any message

Whatever its counts, its types and its records are, a datagram that is a message does not make the parser
write outside `shost`: the first name has no pointer and at most 255 bytes, so the loop over its labels
ends at its zero byte.
-/

namespace SimpDserver.Daemon

open DnsMessage Reader

theorem holds_of_bytes {n : Nat} {p : Packet} {pos next : Nat} {bs : List Byte}
    (h : Reader.bytes n p pos = some (bs, next)) : Holds p.data pos bs := by
  induction n generalizing pos bs with
  | zero =>
      obtain ⟨rfl, -⟩ := pure_eq_some.mp h
      exact trivial
  | succ n ih =>
      simp only [Reader.bytes, bind_eq_some, byte_eq_some, pure_eq_some] at h
      obtain ⟨_, _, ⟨_, rfl, rfl⟩, tail, _, htail, rfl, rfl⟩ := h
      exact ⟨rfl, ih htail⟩

/-- A name right behind the header is its labels, one by one, and a zero byte. -/
theorem holds_of_labels {fuel start : Nat} {p : Packet} {pos next : Nat} {ls : List Label}
    (h : labels fuel start p pos = some (ls, next)) (hstart : start ≤ headerSize) :
    Holds p.data pos (encodeName ls) ∧ ∀ l ∈ ls, 0 < l.length ∧ l.length ≤ 63 := by
  induction fuel generalizing pos ls with
  | zero => exact absurd h.symm (Option.some_ne_none _)
  | succ fuel ih =>
      rcases labels_cases h with
        ⟨-, hzero, rfl, -⟩ | ⟨l, ls', -, hzero, hlabel, hl, hls, rfl⟩ | ⟨_, hlow, hhigh, -, -⟩
      · exact ⟨⟨hzero, trivial⟩, by simp⟩
      · obtain ⟨hholds, hle⟩ := ih hls
        have hlength := (bytes_eq_some hl).1
        have hpos : 0 < (p.data pos).toNat := Nat.pos_of_ne_zero fun h0 => hzero (BitVec.eq_of_toNat_eq h0)
        rw [encodeName_cons, List.forall_mem_cons]
        refine ⟨⟨?_, holds_append.mpr ⟨holds_of_bytes hl, hlength ▸ hholds⟩⟩, by omega, hle⟩
        rw [hlength, BitVec.ofNat_toNat, BitVec.setWidth_eq]
      · omega

theorem length_encodeName (ls : List Label) : (encodeName ls).length = wireLength ls := by
  induction ls with
  | nil => rfl
  | cons l ls ih =>
      rw [encodeName_cons, List.length_cons, List.length_append, ih]
      simp only [wireLength, List.map_cons, List.sum_cons]
      omega

theorem toNat_word (p : Packet) (i : Nat) : (p.word i).toNat = ntohs (p.data i) (p.data (i + 1)) := by
  have hlow := (p.data (i + 1)).isLt
  rw [Packet.word, BitVec.toNat_append, ntohs, ← Nat.shiftLeft_add_eq_or_of_lt hlow, Nat.shiftLeft_eq]

theorem insideParser_returns {search : (Nat → Byte) → Int → Ipv4} {node : Node}
    (h : EntersLoop node → ∃ x, parseLabels node.data parserRounds 12 node.shost 0 = some x) :
    ∃ r, insideParser search node = some r := by
  by_cases henters : EntersLoop node
  · obtain ⟨x, hx⟩ := h henters
    exact ⟨_, by rw [insideParser_of_enters search henters, hx, Option.map_some]⟩
  · rcases insideParser_of_not_enters search henters with heq | heq <;> exact ⟨_, heq⟩

/-- The datagram is a message. -/
def WellFormed (bytes : List Byte) : Prop := ∃ m, decode (Packet.ofBytes bytes) = some m

theorem WellFormed.headerSize_le {bytes : List Byte} (h : WellFormed bytes) : 12 ≤ bytes.length := by
  obtain ⟨m, hm⟩ := h
  exact (decode_eq_some.mp hm).1

/-- On a message the parser returns, accepting it or not. -/
theorem WellFormed.insideParser {bytes : List Byte} (h : WellFormed bytes) (search : (Nat → Byte) → Int → Ipv4)
    (fd : Int) (cliaddr : SockAddr) : ∃ r, insideParser search (received fd cliaddr bytes) = some r := by
  obtain ⟨m, hm⟩ := h
  obtain ⟨-, -, -, hsections⟩ := decode_eq_some.mp hm
  have hdata : ∀ i < reqDataLen, (received fd cliaddr bytes).data i = (Packet.ofBytes bytes).data i := by
    intro i hi
    simp only [received, Packet.ofBytes, List.getD_eq_getElem?_getD, List.getElem?_take, if_pos hi]
  apply insideParser_returns
  intro henters
  have hword : ((Packet.ofBytes bytes).word 4).toNat = 1 := by
    rw [toNat_word, ← hdata 4 (by decide), ← hdata 5 (by decide), henters.qdcount]
  obtain ⟨questions, answers, authority, additional⟩ := m
  rw [hword, sections_eq_some] at hsections
  obtain ⟨_, _, _, hquestions, -⟩ := hsections
  obtain ⟨q, hquestion, -⟩ := many_one.mp hquestions
  obtain ⟨-, mid, hname⟩ := name_of_question hquestion
  obtain ⟨hlabels, hle⟩ := name_eq_some.mp hname
  obtain ⟨hholds, hlength⟩ := holds_of_labels hlabels le_rfl
  have hwire := length_encodeName q.name
  have hholds' : Holds (received fd cliaddr bytes).data 12 (encodeName q.name) := by
    apply hholds.congr
    intro i _ hi
    apply hdata i
    simp only [headerSize, reqDataLen] at hi ⊢
    omega
  have hne : q.name ≠ [] := by
    intro hnil
    rw [hnil] at hholds'
    exact henters.first_ne_zero hholds'.1
  have hhost := length_encodeLabels hne
  rw [encodeName, List.length_append, List.length_singleton, hhost] at hwire
  have hcount := length_le_length_encodeLabels q.name
  exact ⟨_, parseLabels_eq hne (fun l hl => (hlength l hl).1) (fun l hl => (hlength l hl).2) hholds'
    (by simp only [hostDataLen]; omega) (by simp only [parserRounds, hostDataLen]; omega)⟩

end SimpDserver.Daemon

import SimpDserver.Work.Accepted
import SimpDserver.Work.WellFormed

/-!
# The query in a message

A message that the parser passes on is a query: its first name is the one question's, and the question is
complete. So the node is the one the parser makes of that query, whatever is behind the question.
-/

namespace SimpDserver.Daemon

open DnsMessage Reader

/-- The first name has no pointer, and takes the room of its labels. -/
theorem next_of_labels {fuel start : Nat} {p : Packet} {pos next : Nat} {ls : List Label}
    (h : labels fuel start p pos = some (ls, next)) (hstart : start ≤ headerSize) : next = pos + wireLength ls := by
  induction fuel generalizing pos ls with
  | zero => exact absurd h.symm (Option.some_ne_none _)
  | succ fuel ih =>
      rcases labels_cases h with ⟨-, -, rfl, rfl⟩ | ⟨l, ls', -, -, -, hl, hls, rfl⟩ | ⟨_, hlow, hhigh, -, -⟩
      · rfl
      · have hlength := (bytes_eq_some hl).1
        have hnext := ih hls
        simp only [wireLength, List.map_cons, List.sum_cons] at hnext ⊢
        omega
      · omega

/-- A node holds what is kept of a datagram. -/
theorem received_take (fd : Int) (cliaddr : SockAddr) (bytes : List Byte) :
    received fd cliaddr (bytes.take reqDataLen) = received fd cliaddr bytes := by
  simp only [received, List.take_take, min_self, List.length_take, Node.mk.injEq, true_and, and_true]
  omega

/-- The question of a message with one is complete, and its length bytes are lawful. -/
theorem WellFormed.wholeQuestion {bytes : List Byte} (h : WellFormed bytes) (fd : Int) (cliaddr : SockAddr)
    (henters : EntersLoop (received fd cliaddr bytes)) : WholeQuestion (received fd cliaddr bytes) := by
  obtain ⟨m, hm⟩ := h
  obtain ⟨-, -, -, hsections⟩ := decode_eq_some.mp hm
  have hdata : ∀ i < reqDataLen, (received fd cliaddr bytes).data i = (Packet.ofBytes bytes).data i := by
    intro i hi
    simp only [received, Packet.ofBytes, List.getD_eq_getElem?_getD, List.getElem?_take, if_pos hi]
  have hword : ((Packet.ofBytes bytes).word 4).toNat = 1 := by
    rw [toNat_word, ← hdata 4 (by decide), ← hdata 5 (by decide), henters.qdcount]
  obtain ⟨questions, answers, authority, additional⟩ := m
  rw [hword, sections_eq_some] at hsections
  obtain ⟨_, _, _, hquestions, -⟩ := hsections
  obtain ⟨q, hquestion, -⟩ := many_one.mp hquestions
  obtain ⟨mid, hname, hnext, hsize⟩ := question_eq_some hquestion
  obtain ⟨hlabels, hwire⟩ := name_eq_some.mp hname
  obtain ⟨hholds, hlength⟩ := holds_of_labels hlabels le_rfl
  have hmid := next_of_labels hlabels le_rfl
  have hencode : (encodeLabels q.name).length + 1 = wireLength q.name := by
    rw [← length_encodeName, encodeName, List.length_append, List.length_singleton]
  have hdatalen : (received fd cliaddr bytes).datalen = min bytes.length reqDataLen := rfl
  have hbytes : (Packet.ofBytes bytes).size = bytes.length := rfl
  have hroom : headerSize + 255 + 4 ≤ reqDataLen := by decide
  refine ⟨headerSize + (encodeLabels q.name).length, by rw [headerSize]; omega, ?_, by omega⟩
  apply labelChain_of_holds (fun l hl => (hlength l hl).1) fun l hl => (hlength l hl).2
  apply hholds.congr
  intro i _ hi
  apply hdata i
  rw [length_encodeName] at hi
  omega

/-- What the parser passes on of a message is a query, and this is what it makes of it. -/
theorem WellFormed.query {bytes : List Byte} (h : WellFormed bytes) {search : (Nat → Byte) → Int → Ipv4} {fd : Int}
    {cliaddr : SockAddr} {r : ParserResult} (hr : Daemon.insideParser search (received fd cliaddr bytes) = some r)
    (hpassed : r.passed ≠ none) :
    ∃ q : Query, q.encode = bytes.take reqDataLen ∧
      r = Query.passedOn (q.parsed fd cliaddr) (search (put (fun _ => 0) 0 q.host) q.host.length) := by
  obtain ⟨henters, stop, shost, len, hloop, -, -, htype, -⟩ := loop_of_passed hr hpassed
  obtain ⟨stop', hle, hchain, hwhole⟩ := h.wholeQuestion fd cliaddr henters
  obtain rfl : stop = stop' := (henters.loop_eq_some hloop).1.unique hchain.chain
  obtain ⟨q, hq⟩ := exists_query (received_holds_take fd cliaddr bytes) (received_datalen fd cliaddr bytes)
    (List.length_take_le _ _) henters hle hchain hwhole htype
  refine ⟨q, hq, ?_⟩
  rw [← received_take, ← hq, q.insideParser_eq] at hr
  exact (Option.some.inj hr).symm

end SimpDserver.Daemon

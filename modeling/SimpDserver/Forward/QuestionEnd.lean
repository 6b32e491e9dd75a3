import SimpDserver.Forward.Response
import SimpDserver.Work.Accepted

/-!
# Where the question ends

The parser counts what it copies and the dots it adds; the decoder skips that many bytes and six more. For
every chain of length bytes that the parser gets through, lawful ones or not, the two differ by the first
length byte and the ending zero: each length byte behind the first became a dot. So in a response that
repeats the question, the decoder starts right behind it.
-/

namespace SimpDserver.Daemon

/-- A chain lies in the bytes it leads through. -/
theorem Chain.congr {data data' : Nat → Byte} {pos stop : Nat} (h : Chain data pos stop)
    (heq : ∀ k, pos ≤ k → k ≤ stop → data' k = data k) : Chain data' pos stop := by
  induction h with
  | @nil pos zero =>
      apply Chain.nil
      rw [heq pos le_rfl le_rfl, zero]
  | @cons pos stop length rest ih =>
      have hle := rest.le
      have hpos : data' pos = data pos := heq pos le_rfl (by omega)
      apply Chain.cons
      · rwa [hpos]
      · rw [hpos]
        exact ih fun k hk hk' => heq k (by omega) hk'

/-- A question behind the header, of a name, QTYPE and QCLASS, ends before `next`. -/
def QuestionEnds (data : Nat → Byte) (next : Nat) : Prop := ∃ stop, Chain data 12 stop ∧ next = stop + 1 + 2 + 2

/-- A packet repeats the bytes of another from behind the header up to `next`. -/
def Repeats (buff : Int → Byte) (data : Nat → Byte) (next : Nat) : Prop :=
  ∀ k : Nat, 12 ≤ k → k < next → buff k = data k

/-- Whenever `parse_response` takes the request for this packet, its walk over the packet starts at `next`. -/
def StartsAt (parsed : Node) (buff : Int → Byte) (next : Nat) : Prop :=
  ∀ (fuel : Nat) (s s' : Forward) (bufflen : Int) (room : Bool) (seen : List Ref) (id : Nat),
    s.node (.node id) = some (parsed.setRd 2) → parseResponse fuel s buff bufflen room = some (s', seen) →
    seen.getLast? = some (.node id) →
    ∃ visits stored, walk buff bufflen fuel next = some (visits, stored) ∧
      s'.node (.node id) = some (storeIpv4 buff (parsed.setRd 2) stored)

theorem startsAt_answerPos {parsed : Node} {next : Nat} (h : answerPos parsed = next) (buff : Int → Byte) :
    StartsAt parsed buff next := by
  intro fuel s s' bufflen room seen id hnode hparse hlast
  obtain ⟨item, s₁, seen₁, n, visits, stored, hmatch, hn, hwalk, rfl, rfl⟩ := parseResponse_eq_some_iff.mp hparse
  rw [List.getLast?_concat, Option.some.injEq] at hlast
  subst hlast
  obtain ⟨links, rfl⟩ := exists_links_of_matchItem hmatch
  rw [hnode, Option.some.injEq] at hn
  subst hn
  refine ⟨visits, stored, ?_, ?_⟩
  · rw [← h]
    exact hwalk
  · rw [Forward.finish_node, Function.update_self]

theorem Accepts.chain {search : (Nat → Byte) → Int → Ipv4} {node parsed : Node} (h : Accepts search node parsed) :
    ∃ stop, Chain node.data 12 stop ∧ (stop : Int) = parsed.hostLen + 13 := by
  obtain ⟨queue, hparse⟩ := h
  obtain ⟨henters, stop, shost, len, hloop, -, hlen, -⟩ := loop_of_passed hparse (Option.some_ne_none queue)
  obtain ⟨hchain, hcount, -⟩ := henters.loop_eq_some hloop
  dsimp only at hlen
  exact ⟨stop, hchain, by omega⟩

/-- For every datagram that the parser accepts: the name in it has two bytes more than `host_len` says, and in
every packet that repeats the question, the question ends where the decoder starts. -/
theorem decoder_starts_behind_question {search : (Nat → Byte) → Int → Ipv4} {fd : Int} {cliaddr : SockAddr}
    {bytes : List Byte} {parsed : Node} (h : Accepts search (received fd cliaddr bytes) parsed) :
    ∃ stop next : Nat, Chain (received fd cliaddr bytes).data 12 stop ∧
      ((stop + 1 - 12 : Nat) : Int) = parsed.hostLen + 2 ∧
      QuestionEnds (received fd cliaddr bytes).data next ∧ (next : Int) = 12 + parsed.hostLen + 6 ∧
      ∀ buff, Repeats buff (received fd cliaddr bytes).data next →
        QuestionEnds (fun k : Nat => buff k) next ∧ StartsAt parsed buff next := by
  obtain ⟨stop, hchain, hlen⟩ := h.chain
  have hle := hchain.le
  have hnext : ((stop + 1 + 2 + 2 : Nat) : Int) = 12 + parsed.hostLen + 6 := by omega
  refine ⟨stop, stop + 1 + 2 + 2, hchain, by omega, ⟨stop, hchain, rfl⟩, hnext, fun buff hrepeats => ⟨?_, ?_⟩⟩
  · exact ⟨stop, hchain.congr fun k hk hk' => hrepeats k hk (by omega), rfl⟩
  · exact startsAt_answerPos hnext.symm buff

set_option maxRecDepth 4000 in
/-- A length byte that copies nothing leaves a dot: the host `a.` takes four bytes in the question. -/
theorem decoder_starts_behind_pointer : ∃ parsed : Node, parsed.hostLen = 2 ∧
    QuestionEnds (fun k : Nat => pointerQuery.getD k 0) 20 ∧
    StartsAt parsed (fun k => pointerQuery.getD k.toNat 0) 20 := by
  have haccepts : Accepts (fun _ _ => 0) (received 3 ⟨5, 6⟩ pointerQuery) _ := ⟨.forward, rfl⟩
  obtain ⟨stop, next, -, -, -, hnext, hbehind⟩ := decoder_starts_behind_question haccepts
  obtain rfl : next = 20 := Int.ofNat_inj.mp hnext
  exact ⟨_, rfl, hbehind (fun k => pointerQuery.getD k.toNat 0) fun k _ _ => rfl⟩

end SimpDserver.Daemon

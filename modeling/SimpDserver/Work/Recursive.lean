import SimpDserver.Bundle.ReplyFormat
import SimpDserver.Forward.RoundTrip
import SimpDserver.Work.WellFormed

/-!
# The query on its way upstream

The forward thread sets the flag that asks for recursion in the client's datagram and sends that. What it sends is
the client's message with the flag, whatever else is in the message, and the reply that is made of it afterwards is
a reply to the client's message.
-/

namespace SimpDserver.Daemon

open DnsMessage Reader

namespace Query

variable (q : Query) (fd : Int) (cliaddr : SockAddr)

/-- The query that asks for recursion. -/
def withRd : Query := { q with flags := (q.flags.1 ||| 1, q.flags.2) }

theorem withRd_withRd : q.withRd.withRd = q.withRd := by
  have hbyte : q.flags.1 ||| 1 ||| 1 = q.flags.1 ||| 1 := by rw [BitVec.or_assoc, BitVec.or_self]
  rw [withRd, withRd, hbyte]

theorem getD_encode_withRd {i : Nat} (hi : i ≠ 2) : q.withRd.encode.getD i 0 = q.encode.getD i 0 := by
  match i with
  | 0 | 1 => rfl
  | i + 3 => rfl

theorem encode_two : q.withRd.encode.getD 2 0 = q.encode.getD 2 0 ||| 1 := rfl

theorem parsed_data : (q.parsed fd cliaddr).data = fun i => q.encode.getD i 0 := by
  funext i
  change (q.encode.take reqDataLen).getD i 0 = q.encode.getD i 0
  rw [List.take_of_length_le q.encode_le]

/-- Asking sets the flag and leaves all else. -/
theorem setRd_parsed (ip : Ipv4) :
    ((q.parsed fd cliaddr).setIpv4 ip).setRd 2 = (q.withRd.parsed fd cliaddr).setIpv4 ip := by
  have hdata : Function.update (q.parsed fd cliaddr).data 2 ((q.parsed fd cliaddr).data 2 ||| 1) =
      (q.withRd.parsed fd cliaddr).data := by
    rw [parsed_data, parsed_data]
    funext i
    by_cases hi : i = 2
    · subst hi
      rw [Function.update_self, encode_two]
    · rw [Function.update_of_ne hi, getD_encode_withRd q hi]
  rw [Node.setRd, Node.setIpv4_data, hdata]
  rfl

theorem datagram_parsed : (q.parsed fd cliaddr).datagram = q.encode := by
  rw [Node.datagram, parsed_datalen, parsed_data]
  apply List.ext_getElem (by rw [List.length_map, List.length_range])
  intro i _ hi
  rw [List.getElem_map, List.getElem_range, List.getD_eq_getElem _ _ hi]

/-- What is sent upstream reads as the client's message, with the flag set. -/
theorem decode_withRd {m : Message} (hm : decode (Packet.ofBytes q.encode) = some m) :
    decode (Packet.ofBytes q.withRd.encode) = some { m with flags := m.flags ||| 0x0100 } := by
  obtain ⟨hsize, hiden, hflags, hsections⟩ := decode_eq_some.mp hm
  have hword : ∀ i, i ≠ 1 → i ≠ 2 → (Packet.ofBytes q.withRd.encode).word i = (Packet.ofBytes q.encode).word i := by
    intro i h1 h2
    apply congrArg₂ (· ++ ·)
    · exact getD_encode_withRd q h2
    · exact getD_encode_withRd q (by omega)
  have hext : Extends (Packet.ofBytes q.encode) (Packet.ofBytes q.withRd.encode) :=
    ⟨le_rfl, fun i hi _ => getD_encode_withRd q (by rw [headerSize] at hi; omega)⟩
  refine decode_eq_some.mpr ⟨hsize, ?_, ?_, ?_⟩
  · rw [hword 0 (by decide) (by decide)]
    exact hiden
  · change m.flags ||| (1#8 ++ 0#8) = (q.flags.1 ||| 1) ++ q.flags.2
    have hflags : m.flags = q.flags.1 ++ q.flags.2 := hflags
    rw [hflags, BitVec.or_append, BitVec.or_zero]
    rfl
  · rw [hword 4 (by decide) (by decide), hword 6 (by decide) (by decide), hword 8 (by decide) (by decide),
      hword 10 (by decide) (by decide)]
    exact (sections_stable _ _ _ _ hext le_rfl hsections).1

end Query

/-! ### The reply -/

/-- The datagram is a response to the message, with one record more than it: the address of the name asked for. The
first record behind the question is the answer. -/
structure Responds (m : Message) (question : Question) (ip : Ipv4) (reply : Message) : Prop where
  iden : reply.iden = m.iden
  qr : reply.qr = true
  ra : reply.ra = true
  questions : reply.questions = m.questions
  authority : reply.authority = []
  one : reply.answers.length = 1
  records : ∃ ttl, reply.answers ++ reply.additional = m.additional ++ [addressRecord question.name ttl ip]

theorem OneQuestion.withFlags {m : Message} {question : Question} (h : OneQuestion m question) (flags : BitVec 16) :
    OneQuestion { m with flags := flags } question := ⟨h.questions, h.answers, h.authority⟩

/-- Two names at one place are the same. -/
theorem labels_unique {data : Nat → Byte} {pos : Nat} {ls ls' : List Label} (h : Holds data pos (encodeName ls))
    (h' : Holds data pos (encodeName ls')) (hls : ∀ l ∈ ls, 0 < l.length ∧ l.length ≤ 63)
    (hls' : ∀ l ∈ ls', 0 < l.length ∧ l.length ≤ 63) : ls = ls' := by
  induction ls generalizing pos ls' with
  | nil =>
      cases ls' with
      | nil => rfl
      | cons l' ls' =>
          obtain ⟨hpos, hle⟩ := hls' l' List.mem_cons_self
          exact absurd (h'.1.symm.trans h.1) (ofNat_length_ne_zero hpos hle)
  | cons l ls ih =>
      obtain ⟨hpos, hle⟩ := hls l List.mem_cons_self
      cases ls' with
      | nil => exact absurd (h.1.symm.trans h'.1) (ofNat_length_ne_zero hpos hle)
      | cons l' ls' =>
          obtain ⟨-, hle'⟩ := hls' l' List.mem_cons_self
          rw [encodeName_cons] at h h'
          have hint := congrArg BitVec.toInt (h.1.symm.trans h'.1)
          rw [toInt_ofNat_length hle, toInt_ofNat_length hle', Int.ofNat_inj] at hint
          obtain ⟨hl, hrest⟩ := holds_append.mp h.2
          obtain ⟨hl', hrest'⟩ := holds_append.mp h'.2
          obtain rfl := holds_ext hl hl' hint
          rw [ih hrest hrest' (fun l hl => hls l (List.mem_cons_of_mem _ hl)) fun l hl => hls' l (List.mem_cons_of_mem _ hl)]

namespace Query

variable (q : Query) (fd : Int) (cliaddr : SockAddr) {m : Message} {question : Question}

theorem accepts_parsed : Accepts (fun _ _ => 0) (received fd cliaddr q.encode) (q.parsed fd cliaddr) :=
  ⟨.forward, q.insideParser_eq (fun _ _ => 0) fd cliaddr⟩

/-- A query that is a message has one question, for the query's name. -/
theorem oneQuestion (hm : decode (Packet.ofBytes q.encode) = some m) :
    ∃ question, OneQuestion m question ∧ question.name = q.name.labels := by
  obtain ⟨-, -, -, hsections⟩ := decode_eq_some.mp hm
  obtain ⟨_, _, _, hquestions, hanswers, hauthority, -⟩ := sections_eq_some.mp hsections
  have hqd : (Packet.ofBytes q.encode).word 4 = 0#8 ++ 1#8 := rfl
  have han : (Packet.ofBytes q.encode).word 6 = 0#8 ++ 0#8 := rfl
  have hns : (Packet.ofBytes q.encode).word 8 = 0#8 ++ 0#8 := rfl
  rw [hqd] at hquestions
  rw [han] at hanswers
  rw [hns] at hauthority
  obtain ⟨question, hquestion, hsingle⟩ := many_one.mp hquestions
  refine ⟨question, ⟨hsingle, List.length_eq_zero_iff.mp (length_of_many hanswers),
    List.length_eq_zero_iff.mp (length_of_many hauthority)⟩, ?_⟩
  obtain ⟨-, _, hname⟩ := name_of_question hquestion
  obtain ⟨hholds, hlabels⟩ := holds_of_labels (name_eq_some.mp hname).1 le_rfl
  have hencode : Holds (Packet.ofBytes q.encode).data 0 q.encode := holds_iff.mpr fun k _ => by rw [Nat.zero_add]; rfl
  exact labels_unique hholds (q.holds_parts hencode).2.1 hlabels fun l hl => ⟨q.name.label_pos l hl, q.name.label_le l hl⟩

theorem responds (hm : decode (Packet.ofBytes q.encode) = some m) (hq : OneQuestion m question) (ip : Ipv4) :
    ∃ reply, decode (Packet.ofBytes (writeBack ((q.parsed fd cliaddr).setIpv4 ip)).datagram) = some reply ∧
      Responds m question ip reply := by
  obtain ⟨reply, low, hreply, hiden, hqr, hra, hquestions, hauthority, hone, hrecords, -⟩ :=
    decode_reply q.encode_le hm hq (q.accepts_parsed fd cliaddr) ip
  exact ⟨reply, hreply, hiden, hqr, hra, hquestions, hauthority, hone, _, hrecords⟩

/-- The reply to what was sent upstream is one to the client's message. -/
theorem responds_withRd (hm : decode (Packet.ofBytes q.encode) = some m) (hq : OneQuestion m question) (ip : Ipv4) :
    ∃ reply, decode (Packet.ofBytes (writeBack ((q.withRd.parsed fd cliaddr).setIpv4 ip)).datagram) = some reply ∧
      Responds m question ip reply := by
  obtain ⟨reply, hreply, h⟩ := q.withRd.responds fd cliaddr (q.decode_withRd hm) (hq.withFlags _) ip
  exact ⟨reply, hreply, h.iden, h.qr, h.ra, h.questions, h.authority, h.one, h.records⟩

end Query

end SimpDserver.Daemon

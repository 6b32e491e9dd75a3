import SimpDserver.Bundle.WriteBack
import SimpDserver.Lib.DnsMessage
import SimpDserver.Work.Query

/-!
# The reply as a message

A reply is the datagram received with one more record behind all of it, counted as an answer. The
question is read as before; the answer section starts right behind it, where the query's additional
record is if it has one, and the record put at the end is read as the answer only if it has none.
-/

namespace SimpDserver.Daemon

open DnsMessage Reader

/-- A message with one question, and no records in its answer and authority sections. -/
structure OneQuestion (m : Message) (q : Question) : Prop where
  questions : m.questions = [q]
  answers : m.answers = []
  authority : m.authority = []

/-- A query for the address of the name in its only question. -/
structure AddressQuery (m : Message) (q : Question) : Prop extends OneQuestion m q where
  qtype : q.qtype = 1
  qclass : q.qclass = 1
  additional : m.additional.length ≤ 1

def addressRecord (name : List Label) (ttl : BitVec 32) (ip : Ipv4) : Record := ⟨name, 1, 1, ttl, store32 ip⟩

/-- The datagram is a response to `m` with the one answer `ip`. -/
structure Answers (m : Message) (q : Question) (ip : Ipv4) (reply : List Byte) : Prop where
  fits : reply.length ≤ reqDataLen
  response : ∃ m', decode (Packet.ofBytes reply) = some m' ∧ m'.iden = m.iden ∧ m'.qr = true ∧ m'.ra = true ∧
    m'.questions = m.questions ∧ (∃ ttl, m'.answers = [addressRecord q.name ttl ip]) ∧ m'.authority = [] ∧
    m'.additional = m.additional

variable {search : (Nat → Byte) → Int → Ipv4} {fd : Int} {cliaddr : SockAddr} {bytes : List Byte} {node : Node}
  {m : Message} {q : Question}

theorem data_of_accepts (hlen : bytes.length ≤ reqDataLen) (h : Accepts search (received fd cliaddr bytes) node) :
    node.datalen = bytes.length ∧ node.data = fun i => bytes.getD i 0 := by
  obtain ⟨queue, h⟩ := h
  obtain ⟨-, -, hdatalen, hdata, -⟩ := insideParser_keeps h
  refine ⟨hdatalen.trans (min_eq_left hlen), hdata.trans ?_⟩
  funext i
  rw [received, List.take_of_length_le hlen]

/-- The reply reads, from its header on, as the node's memory after the stores. -/
theorem packet_reply (item : Node) {i : Nat} (hi : i < item.datalen + 16) :
    (Packet.ofBytes (writeBack item).datagram).data i = (writeBack item).data i := by
  dsimp only [Packet.ofBytes]
  rw [Node.datagram, writeBack_datalen, List.getD_eq_getElem _ _ (by simpa using hi), List.getElem_map,
    List.getElem_range]

theorem size_reply (item : Node) : (Packet.ofBytes (writeBack item).datagram).size = item.datalen + 16 := by
  rw [Packet.ofBytes, Node.datagram, List.length_map, List.length_range, writeBack_datalen]

/-- Behind the header, the reply is the datagram received and more. -/
theorem reply_extends (hlen : bytes.length ≤ reqDataLen)
    (h : Accepts search (received fd cliaddr bytes) node) (ip : Ipv4) :
    Extends (Packet.ofBytes bytes) (Packet.ofBytes (writeBack (node.setIpv4 ip)).datagram) := by
  obtain ⟨hdatalen, hdata⟩ := data_of_accepts hlen h
  constructor
  · rw [size_reply, Node.setIpv4_datalen, hdatalen]
    exact Nat.le_add_right ..
  · intro i hi hlt
    have hlt' : i < (node.setIpv4 ip).datalen := hlt.trans_eq hdatalen.symm
    simp only [headerSize] at hi
    rw [packet_reply _ (by omega), writeBack_data_of_lt _ (by omega) hlt', Node.setIpv4_data, hdata]
    rfl

theorem reply_header (hlen : bytes.length ≤ reqDataLen) (hsize : headerSize ≤ bytes.length)
    (h : Accepts search (received fd cliaddr bytes) node) (ip : Ipv4) :
    (∀ i ∈ [0, 4, 8, 10],
        (Packet.ofBytes (writeBack (node.setIpv4 ip)).datagram).word i = (Packet.ofBytes bytes).word i) ∧
      (Packet.ofBytes (writeBack (node.setIpv4 ip)).datagram).word 6 = 1 ∧
      ((Packet.ofBytes (writeBack (node.setIpv4 ip)).datagram).word 2).getLsbD 15 = true ∧
      ((Packet.ofBytes (writeBack (node.setIpv4 ip)).datagram).word 2).getLsbD 7 = true := by
  obtain ⟨hdatalen, hdata⟩ := data_of_accepts hlen h
  have h12 : 12 ≤ (node.setIpv4 ip).datalen := hsize.trans_eq hdatalen.symm
  obtain ⟨h2, h3, h6, h7⟩ := writeBack_header (node.setIpv4 ip) h12
  have hbyte : ∀ i < 12, i ≠ 2 ∧ i ≠ 3 ∧ i ≠ 6 ∧ i ≠ 7 →
      (Packet.ofBytes (writeBack (node.setIpv4 ip)).datagram).data i = (Packet.ofBytes bytes).data i := by
    intro i hi hne
    rw [packet_reply _ (by omega), writeBack_data_header _ h12 hi hne, Node.setIpv4_data, hdata]
    rfl
  refine ⟨fun i hi => ?_, ?_, ?_, ?_⟩
  · have hi' : i = 0 ∨ i = 4 ∨ i = 8 ∨ i = 10 := by simpa using hi
    rw [Packet.word, Packet.word, hbyte i (by omega) (by omega), hbyte (i + 1) (by omega) (by omega)]
  · rw [Packet.word, packet_reply _ (by omega), packet_reply _ (by omega), h6, h7]
    rfl
  · rw [Packet.word, packet_reply _ (by omega), packet_reply _ (by omega), h2, h3]
    simp only [BitVec.getLsbD_append, BitVec.getLsbD_or]
    exact Bool.or_true _
  · rw [Packet.word, packet_reply _ (by omega), packet_reply _ (by omega), h2, h3]
    simp only [BitVec.getLsbD_append, BitVec.getLsbD_or]
    exact Bool.or_true _

/-- The encoder's record is one of type A and class IN, for the name right behind the header. -/
theorem record_answerRecord {p : Packet} {pos mid : Nat} {ls : List Label} {ip : Ipv4} {low : Byte × Byte}
    (hname : name p headerSize = some (ls, mid)) (hpos : headerSize < pos) (hsize : pos + 16 ≤ p.size)
    (hrecord : Holds p.data pos (answerRecord ip low)) :
    record p pos = some (addressRecord ls (0x80#16 ++ (low.1 ++ low.2)) ip, pos + 16) := by
  simp only [answerRecord, store32, List.cons_append, List.nil_append, Holds, and_true, add_assoc,
    Nat.reduceAdd] at hrecord
  obtain ⟨h0, h1, h2, h3, h4, h5, h6, h7, h8, h9, h10, h11, h12, h13, h14, h15⟩ := hrecord
  have hword : ∀ i, p.word (pos + i) = p.data (pos + i) ++ p.data (pos + (i + 1)) := fun _ => rfl
  have hrdata : Reader.bytes 4 p (pos + 12) = some (store32 ip, pos + 12 + 4) := by
    simp only [Reader.bytes, bind_eq, add_assoc, Nat.reduceAdd, byte_eq (show pos + 12 < p.size by omega),
      byte_eq (show pos + 13 < p.size by omega), byte_eq (show pos + 14 < p.size by omega),
      byte_eq (show pos + 15 < p.size by omega), h12, h13, h14, h15, Option.bind_some, pure_eq]
    rfl
  have hread := record_of_pointer hname hpos h0 h1 (by rw [hword, h10, h11]; rfl) hrdata (by omega)
  rw [hread, hword, hword, hword, hword, h2, h3, h4, h5, h6, h7, h8, h9]
  rfl

theorem reply_record (hlen : bytes.length ≤ reqDataLen)
    (h : Accepts search (received fd cliaddr bytes) node) (ip : Ipv4) {next : Nat}
    (hquestion : question (Packet.ofBytes (writeBack (node.setIpv4 ip)).datagram) headerSize = some (q, next))
    (hnext : next ≤ bytes.length) :
    ∃ low : Byte × Byte, (bytes.length + 16 ≤ reqDataLen → low = (0, 0)) ∧
      record (Packet.ofBytes (writeBack (node.setIpv4 ip)).datagram) bytes.length =
        some (addressRecord q.name (0x80#16 ++ (low.1 ++ low.2)) ip, bytes.length + 16) := by
  obtain ⟨hdatalen, hdata⟩ := data_of_accepts hlen h
  obtain ⟨hpos, mid, hname⟩ := name_of_question hquestion
  have hsize := size_reply (node.setIpv4 ip)
  rw [Node.setIpv4_datalen, hdatalen] at hsize
  have hrecord := writeBack_holds_record (node.setIpv4 ip)
    (by rw [Node.setIpv4_datalen, hdatalen]; simp only [headerSize] at hpos; omega)
  rw [Node.setIpv4_datalen, Node.setIpv4_data, hdatalen, hdata] at hrecord
  have hpacket : Holds (Packet.ofBytes (writeBack (node.setIpv4 ip)).datagram).data bytes.length
      (answerRecord ip (bytes.getD (bytes.length + 8) 0, bytes.getD (bytes.length + 9) 0)) := by
    apply hrecord.congr
    intro i _ hi
    apply packet_reply
    rw [Node.setIpv4_datalen, hdatalen]
    exact hi
  refine ⟨_, fun _ => ?_, record_answerRecord hname (hpos.trans_le hnext) hsize.ge hpacket⟩
  rw [List.getD_eq_default _ _ (by omega), List.getD_eq_default _ _ (by omega)]

theorem OneQuestion.sections (hq : OneQuestion m q) (hm : decode (Packet.ofBytes bytes) = some m) :
    ((Packet.ofBytes bytes).word 4).toNat = 1 ∧ ((Packet.ofBytes bytes).word 8).toNat = 0 ∧
      ((Packet.ofBytes bytes).word 10).toNat = m.additional.length ∧
      ∃ pos, many question 1 (Packet.ofBytes bytes) headerSize = some ([q], pos) ∧
        many record m.additional.length (Packet.ofBytes bytes) pos = some (m.additional, bytes.length) := by
  obtain ⟨-, -, -, hsections⟩ := decode_eq_some.mp hm
  rw [hq.questions, hq.answers, hq.authority, sections_eq_some] at hsections
  obtain ⟨pos₁, pos₂, pos₃, hquestions, hanswers, hauthority, hadditional⟩ := hsections
  have hqd := length_of_many hquestions
  have han := length_of_many hanswers
  have hns := length_of_many hauthority
  have har := length_of_many hadditional
  rw [← hqd, List.length_singleton] at hquestions
  rw [← han, List.length_nil] at hanswers
  rw [← hns, List.length_nil] at hauthority
  rw [← har] at hadditional
  obtain ⟨-, rfl⟩ := pure_eq_some.mp hanswers
  obtain ⟨-, rfl⟩ := pure_eq_some.mp hauthority
  exact ⟨hqd.symm, hns.symm, har.symm, pos₁, hquestions, hadditional⟩

/-- What the reply decodes to: the records behind the question are the query's and then the one put
there, and the first of them is the answer. -/
theorem decode_reply (hlen : bytes.length ≤ reqDataLen) (hm : decode (Packet.ofBytes bytes) = some m)
    (hq : OneQuestion m q) (h : Accepts search (received fd cliaddr bytes) node) (ip : Ipv4) :
    ∃ m' low, decode (Packet.ofBytes (writeBack (node.setIpv4 ip)).datagram) = some m' ∧ m'.iden = m.iden ∧
      m'.qr = true ∧ m'.ra = true ∧ m'.questions = m.questions ∧ m'.authority = [] ∧ m'.answers.length = 1 ∧
      m'.answers ++ m'.additional =
        m.additional ++ [addressRecord q.name (0x80#16 ++ (low : BitVec 16)) ip] ∧
      (bytes.length + 16 ≤ reqDataLen → low = 0) := by
  obtain ⟨hsize, hiden, -, -⟩ := decode_eq_some.mp hm
  obtain ⟨hqd, hns, har, pos₁, hquestions, hadditional⟩ := hq.sections hm
  obtain ⟨hwords, hancount, hqr, hra⟩ := reply_header hlen hsize h ip
  simp only [List.mem_cons, List.not_mem_nil, or_false, forall_eq_or_imp, forall_eq] at hwords
  obtain ⟨hw0, hw4, hw8, hw10⟩ := hwords
  have hext := reply_extends hlen h ip
  obtain ⟨hquestions', hpos⟩ := question_stable.many _ hext le_rfl hquestions
  obtain ⟨hadditional', hend⟩ := record_stable.many _ hext hpos hadditional
  obtain ⟨_, hquestion', hsingle⟩ := many_one.mp hquestions'
  cases hsingle
  obtain ⟨low, hlow, hrecord⟩ := reply_record hlen h ip hquestion' hend
  -- one more record is read than the query had, and the first of them now is the answer
  have hall := many_add.mpr ⟨_, _, _, hadditional', many_one.mpr ⟨_, hrecord, rfl⟩, rfl⟩
  rw [Nat.add_comm, many_add] at hall
  obtain ⟨answers, additional, mid, hfirst, hrest, happend⟩ := hall
  refine ⟨⟨m.iden, (Packet.ofBytes (writeBack (node.setIpv4 ip)).datagram).word 2, [q], answers, [],
      additional⟩, low.1 ++ low.2, decode_eq_some.mpr ⟨?_, ?_, rfl, ?_⟩, rfl, hqr, hra, hq.questions.symm,
    rfl, length_of_many hfirst, happend.symm, fun hfits => ?_⟩
  · exact hsize.trans hext.size_le
  · rw [hw0]
    exact hiden
  · have hsize' := size_reply (node.setIpv4 ip)
    rw [Node.setIpv4_datalen, (data_of_accepts hlen h).1] at hsize'
    rw [hw4, hw8, hw10, hancount, hqd, hns, har, hsize']
    exact sections_eq_some.mpr ⟨_, _, _, hquestions', hfirst, rfl, hrest⟩
  · rw [hlow hfits]
    rfl

theorem query_length (hm : decode (Packet.ofBytes bytes) = some m) (hq : OneQuestion m q) :
    (m.additional = [] → bytes.length ≤ 272) ∧
      ∀ r, m.additional = [r] → bytes.length ≤ 538 + r.rdata.length := by
  obtain ⟨-, -, -, pos₁, hquestions, hadditional⟩ := hq.sections hm
  obtain ⟨_, hquestion, -⟩ := many_one.mp hquestions
  have hle := (le_of_question hquestion).1
  simp only [headerSize] at hle
  constructor
  · intro hnone
    rw [hnone, List.length_nil] at hadditional
    have := (pure_eq_some.mp hadditional).2
    omega
  · intro r hone
    rw [hone, List.length_singleton, many_one] at hadditional
    obtain ⟨_, hrecord, hr⟩ := hadditional
    cases hr
    have := le_of_record hrecord
    omega

/-- The reply to a query for an address is a well-formed response with that answer exactly when the query
has no additional record, or has the very record the encoder puts behind it. -/
theorem answers_iff (hlen : bytes.length ≤ reqDataLen) (hm : decode (Packet.ofBytes bytes) = some m)
    (hq : AddressQuery m q) (h : Accepts search (received fd cliaddr bytes) node) (ip : Ipv4) :
    Answers m q ip (writeBack (node.setIpv4 ip)).datagram ↔
      m.additional = [] ∨ m.additional = [addressRecord q.name 0x00800000 ip] := by
  obtain ⟨m', low, hdecode, hiden, hqr, hra, hquestions, hauthority, hone, happend, hlow⟩ :=
    decode_reply hlen hm hq.toOneQuestion h ip
  obtain ⟨hnone, hsome⟩ := query_length hm hq.toOneQuestion
  have hreply : (writeBack (node.setIpv4 ip)).datagram.length = bytes.length + 16 := by
    rw [Node.datagram, List.length_map, List.length_range, writeBack_datalen, Node.setIpv4_datalen,
      (data_of_accepts hlen h).1]
  obtain ⟨answer, hanswer⟩ := List.length_eq_one_iff.mp hone
  rw [hanswer, List.singleton_append] at happend
  constructor
  · intro hanswers
    obtain ⟨hfits, m'', hdecode', -, -, -, -, -, -, hadditional⟩ := hanswers
    obtain rfl : m' = m'' := Option.some.inj (hdecode.symm.trans hdecode')
    rw [hreply] at hfits
    rw [hlow hfits, hadditional] at happend
    cases hm' : m.additional with
    | nil => exact Or.inl rfl
    | cons r rest =>
        have hrest := hq.additional
        rw [hm', List.length_cons, Nat.succ_le_succ_iff, Nat.le_zero, List.length_eq_zero_iff] at hrest
        rw [hm', hrest] at happend
        obtain ⟨-, hlast⟩ := List.cons.inj happend
        rw [hrest]
        exact Or.inr hlast
  · rintro (hm' | hm') <;> rw [hm'] at happend
    · obtain ⟨rfl, hadditional⟩ := List.cons.inj happend
      refine ⟨?_, m', hdecode, hiden, hqr, hra, hquestions, ⟨_, hanswer⟩, hauthority,
        hadditional.trans hm'.symm⟩
      have := hnone hm'
      rw [hreply, reqDataLen]
      omega
    · have hfits : bytes.length + 16 ≤ reqDataLen := by
        have := hsome _ hm'
        simp only [addressRecord, store32, List.length_cons, List.length_nil] at this
        simp only [reqDataLen]
        omega
      rw [hlow hfits] at happend
      obtain ⟨rfl, hadditional⟩ := List.cons.inj happend
      exact ⟨hreply.trans_le hfits, m', hdecode, hiden, hqr, hra, hquestions, ⟨_, hanswer⟩, hauthority,
        hadditional.trans hm'.symm⟩

/-- The query for `a`, with an additional record of type OPT. -/
def Query.withOpt : Query :=
  { Query.single (0x12, 0x34) 0x61 with
    arcount := (0, 1)
    rest := [0, 0, 41, 16, 0, 0, 0, 0, 0, 0, 0]
    arcount_le := by decide
    length_le := by simp [single, encodeName, encodeLabels, reqDataLen] }

/-- The OPT record is where the answer has to be. -/
theorem not_answers_withOpt : ∃ m q,
    Query.withOpt.encode.length ≤ reqDataLen ∧ decode (Packet.ofBytes Query.withOpt.encode) = some m ∧
      AddressQuery m q ∧
      Accepts (fun _ _ => 0) (received 3 ⟨5, 6⟩ Query.withOpt.encode) (Query.withOpt.parsed 3 ⟨5, 6⟩) ∧
      ¬Answers m q 0x04030201 (writeBack ((Query.withOpt.parsed 3 ⟨5, 6⟩).setIpv4 0x04030201)).datagram := by
  refine ⟨⟨0x1234, 0x0100, [⟨[[0x61]], 1, 1⟩], [], [], [⟨[], 41, 0x1000, 0, []⟩]⟩,
    ⟨[[0x61]], 1, 1⟩, by decide, by decide +kernel, ⟨⟨rfl, rfl, rfl⟩, rfl, rfl, le_rfl⟩,
    ⟨.forward, Query.insideParser_eq ..⟩, ?_⟩
  intro h
  obtain ⟨-, m', hdecode, -, -, -, -, ⟨ttl, hanswers⟩, -⟩ := h
  have hreply :
      decode (Packet.ofBytes (writeBack ((Query.withOpt.parsed 3 ⟨5, 6⟩).setIpv4 0x04030201)).datagram) =
        some ⟨0x1234, 0x8180, [⟨[[0x61]], 1, 1⟩], [⟨[], 41, 0x1000, 0, []⟩], [],
          [⟨[[0x61]], 1, 1, 0x00800000, [1, 2, 3, 4]⟩]⟩ := by
    decide +kernel
  rw [hreply] at hdecode
  cases hdecode
  have htype : (41 : BitVec 16) = 1 := congrArg Record.type (List.cons.inj hanswers).1
  exact absurd htype (by decide)

theorem answers_single :
    Answers ⟨0x1234, 0x0100, [⟨[[0x61]], 1, 1⟩], [], [], []⟩ ⟨[[0x61]], 1, 1⟩ 0x04030201
      (writeBack (((Query.single (0x12, 0x34) 0x61).parsed 3 ⟨5, 6⟩).setIpv4 0x04030201)).datagram :=
  (answers_iff (by decide) (by decide +kernel) ⟨⟨rfl, rfl, rfl⟩, rfl, rfl, by decide⟩
    (show Accepts (fun _ _ => 0) _ _ from ⟨.forward, Query.insideParser_eq ..⟩) 0x04030201).mpr (Or.inl rfl)

end SimpDserver.Daemon

import SimpDserver.Bundle.WriteBack
import SimpDserver.Forward.Response
import SimpDserver.Work.Query

/-!
# One server behind another

What the reply encoder appends to a query is what the response decoder reads: the request parser's
`host_len` makes the decoder skip exactly the header and the question, and the ten bytes it skips of a
compressed record end at the length field.
-/

namespace SimpDserver.Daemon

/-- The walk over a datagram whose record at `pos` is the encoder's. -/
theorem walk_answerRecord {buff : Int → Byte} {pos : Nat} {ip : Ipv4} {low : Byte × Byte} {bufflen : Int}
    (fuel : Nat) (h : Holds (fun k : Nat => buff k) pos (answerRecord ip low)) (hlen : (pos : Int) < bufflen) :
    walk buff bufflen (fuel + 1) pos = some ([(pos : Int)], some ((pos : Int) + 12)) ∧
      load32 (buff (pos + 12)) (buff (pos + 12 + 1)) (buff (pos + 12 + 2)) (buff (pos + 12 + 3)) = ip := by
  simp only [answerRecord, store32, List.cons_append, List.nil_append, Holds, Nat.cast_add, Nat.cast_one,
    and_true] at h
  obtain ⟨h0, -, -, -, -, -, -, -, -, -, h10, h11, h12, h13, h14, h15⟩ := h
  simp only [add_assoc, Int.reduceAdd] at h10 h11 h12 h13 h14 h15
  constructor
  · rw [walk, if_neg (by omega), h0, if_pos (by decide)]
    simp only [Option.bind_eq_bind, Option.bind_some, add_assoc, Int.reduceAdd, h10, h11]
    rw [if_pos (by decide)]
    rfl
  · simp only [add_assoc, Int.reduceAdd, h12, h13, h14, h15]
    exact load32_store32 ip

/-- The header and a question as long as the item's own is what `answerPos` skips. -/
theorem Query.answerPos_setRd {p q : Query} {fd : Int} {cliaddr : SockAddr} (h : p.question.length = q.question.length) :
    answerPos ((p.parsed fd cliaddr).setRd 2) = (12 + (encodeName q.name.labels).length + 4 : Nat) := by
  have hq := q.name.wire_length
  have hhost : ((p.parsed fd cliaddr).setRd 2).hostLen = (joinLabels p.name.labels).length := rfl
  rw [p.length_question, q.length_question, Query.host, Query.host] at h
  rw [answerPos, hhost]
  omega

/-- The encoder's item for a query and an address: what the parser left, with the address in it. -/
theorem Query.item_of_accepts {search : (Nat → Byte) → Int → Ipv4} {q : Query} {fd : Int} {cliaddr : SockAddr}
    {node : Node} (h : Accepts search (received fd cliaddr q.encode) node) (ip : Ipv4) :
    node.setIpv4 ip = (q.parsed fd cliaddr).setIpv4 ip := by
  rcases q.of_accepts h with rfl | ⟨_, rfl⟩ <;> rfl

theorem Query.parsed_datalen (q : Query) (fd : Int) (cliaddr : SockAddr) :
    (q.parsed fd cliaddr).datalen = q.encode.length :=
  min_eq_left q.encode_le

theorem Query.reply_parts (q : Query) (fd : Int) (cliaddr : SockAddr) (ip : Ipv4) {data : Nat → Byte}
    (h : Holds data 0 (writeBack ((q.parsed fd cliaddr).setIpv4 ip)).datagram) :
    data 0 = q.iden.1 ∧ data 1 = q.iden.2 ∧ ∃ low, Holds data q.encode.length (answerRecord ip low) := by
  have hlength := q.length_encode
  have hdata := received_holds fd cliaddr q.encode_le
  obtain ⟨⟨h0, h1, -⟩, -⟩ := q.holds_parts hdata
  have hdatalen : ((q.parsed fd cliaddr).setIpv4 ip).datalen = q.encode.length :=
    q.parsed_datalen fd cliaddr
  rw [holds_datagram, writeBack_datalen, hdatalen] at h
  have hrecord := writeBack_holds_record ((q.parsed fd cliaddr).setIpv4 ip) (by omega)
  rw [hdatalen] at hrecord
  refine ⟨?_, ?_, _, hrecord.congr fun i _ hlt => h i hlt⟩
  · rw [h 0 (by omega), writeBack_data_header _ (by omega) (by omega) (by omega)]
    exact h0
  · rw [h 1 (by omega), writeBack_data_header _ (by omega) (by omega) (by omega)]
    exact h1

section Reply

variable {search : (Nat → Byte) → Int → Ipv4} {q p : Query} {fd pfd : Int} {cliaddr pcliaddr : SockAddr} {node : Node}
  {s : Forward} {T : BitVec 32 → List Nat} {id fuel : Nat} {pre post : List Nat}

/-- The reply to a plain query is read into the oldest pending request with its ID, if that has a question as long as
the query's, and no other request is written to. -/
theorem exists_parseResponse_writeBack (hplain : q.rest = [])
    (haccepts : Accepts search (received fd cliaddr q.encode) node) (ip : Ipv4) (hT : Table s T) (hiden : p.iden = q.iden)
    (hquestion : p.question.length = q.question.length)
    (hpending : s.node (.node id) = some ((p.parsed pfd pcliaddr).setRd 2))
    (hsplit : T (integerHash (load16 q.iden.1 q.iden.2)) = pre ++ id :: post)
    (hpre : ∀ a ∈ pre, ∃ n, s.node (.node a) = some n ∧ n.iden ≠ load16 q.iden.1 q.iden.2)
    (buff : Int → Byte) (hbuff : Holds (fun k : Nat => buff k) 0 (writeBack (node.setIpv4 ip)).datagram)
    (hfuel : pre.length < fuel) (room : Bool) :
    ∃ s' seen, parseResponse fuel s buff (writeBack (node.setIpv4 ip)).datagram.length room = some (s', seen) ∧
      (s'.node (.node id)).map Node.ipv4 = some ip ∧ ∀ r ≠ .node id, s'.node r = s.node r := by
  rw [Query.item_of_accepts haccepts] at hbuff ⊢
  have hdatalen := q.parsed_datalen fd cliaddr
  have hlength := q.length_encode
  rw [hplain, List.length_nil, Nat.add_zero] at hlength
  obtain ⟨h0, h1, low, hrecord⟩ := q.reply_parts fd cliaddr ip hbuff
  have hresponse : load16 (buff 0) (buff 1) = load16 q.iden.1 q.iden.2 := congrArg₂ load16 h0 h1
  rw [← hresponse] at hsplit hpre
  obtain ⟨links, hmatch, -⟩ := hT.matchItem_hit hsplit hpending
    (by rw [hresponse, ← hiden]; rfl) hpre hfuel
  obtain ⟨f, rfl⟩ := Nat.exists_eq_add_of_lt hfuel
  obtain ⟨hwalk, hload⟩ := walk_answerRecord (pre.length + f) hrecord
    (show (q.encode.length : Int) < (q.encode.length + 16 : Nat) by omega)
  have hpos : answerPos ((p.parsed pfd pcliaddr).setRd 2) = (q.encode.length : Nat) := by
    rw [Query.answerPos_setRd hquestion, hlength]
  have hbufflen : ((writeBack ((q.parsed fd cliaddr).setIpv4 ip)).datagram.length : Int) =
      (q.encode.length + 16 : Nat) := by
    rw [Node.datagram, List.length_map, List.length_range, writeBack_datalen]
    exact congrArg (fun n : Nat => ((n + 16 : Nat) : Int)) hdatalen
  rw [hbufflen]
  refine ⟨_, _, parseResponse_eq_some_iff.mpr ⟨_, _, _, _, _, _, hmatch, hpending, hpos ▸ hwalk, rfl, rfl⟩, ?_, ?_⟩
  · rw [Forward.finish_node, Function.update_self, Option.map_some, storeIpv4, hpos, hload, Node.setIpv4_ipv4]
  · intro r hr
    rw [Forward.finish_node, Function.update_of_ne hr]

/-- The reply to a plain query, fed to `parse_response` while a request with the same ID and question is
the oldest of its ID to wait, stores the reply's address in that request. -/
theorem parseResponse_writeBack (hplain : q.rest = [])
    (haccepts : Accepts search (received fd cliaddr q.encode) node) (ip : Ipv4) (hT : Table s T) (hiden : p.iden = q.iden)
    (hquestion : p.question = q.question) (hpending : s.node (.node id) = some ((p.parsed pfd pcliaddr).setRd 2))
    (hsplit : T (integerHash (load16 q.iden.1 q.iden.2)) = pre ++ id :: post)
    (hpre : ∀ a ∈ pre, ∃ n, s.node (.node a) = some n ∧ n.iden ≠ load16 q.iden.1 q.iden.2)
    (buff : Int → Byte) (hbuff : Holds (fun k : Nat => buff k) 0 (writeBack (node.setIpv4 ip)).datagram)
    (hfuel : pre.length < fuel) (room : Bool) :
    ∃ s' seen, parseResponse fuel s buff (writeBack (node.setIpv4 ip)).datagram.length room = some (s', seen) ∧
      (s'.node (.node id)).map Node.ipv4 = some ip := by
  obtain ⟨s', seen, hparse, hipv4, -⟩ := exists_parseResponse_writeBack hplain haccepts ip hT hiden
    (congrArg List.length hquestion) hpending hsplit hpre buff hbuff hfuel room
  exact ⟨s', seen, hparse, hipv4⟩

end Reply

/-- Two queries alike, one pending upstream, one answered with 192.0.192.12. -/
theorem parseResponse_writeBack_single : ∃ s s' seen,
    (gethostaddr (Forward.initial fun _ => some ((Query.single (0x12, 0x34) 0x61).parsed 4 ⟨7, 8⟩)) (.node 0)).map Prod.fst =
      some s ∧
    parseResponse 1 s
      (fun k => (writeBack (((Query.single (0x12, 0x34) 0x61).parsed 3 ⟨5, 6⟩).setIpv4 0x0cc000c0)).datagram.getD k.toNat 0)
      (writeBack (((Query.single (0x12, 0x34) 0x61).parsed 3 ⟨5, 6⟩).setIpv4 0x0cc000c0)).datagram.length true =
        some (s', seen) ∧
    (s'.node (.node 0)).map Node.ipv4 = some 0x0cc000c0 := by
  obtain ⟨links, hask, hT⟩ := (Table.init (s := Forward.initial fun _ => some ((Query.single (0x12, 0x34) 0x61).parsed 4 ⟨7, 8⟩))
    rfl).gethostaddr (show Forward.node _ (.node 0) = some _ from rfl) rfl fun _ => List.not_mem_nil
  have haccepts : Accepts (fun _ _ => 0) (received 3 ⟨5, 6⟩ (Query.single (0x12, 0x34) 0x61).encode)
      ((Query.single (0x12, 0x34) 0x61).parsed 3 ⟨5, 6⟩) := ⟨.forward, Query.insideParser_eq ..⟩
  obtain ⟨s', seen, hparse, hipv4⟩ := parseResponse_writeBack rfl haccepts 0x0cc000c0 hT
    rfl rfl (Function.update_self ..) (Function.update_self ..) (by simp)
    (fun k => (writeBack (((Query.single (0x12, 0x34) 0x61).parsed 3 ⟨5, 6⟩).setIpv4 0x0cc000c0)).datagram.getD k.toNat 0)
    (holds_iff.mpr fun k _ => by simp) Nat.zero_lt_one
    true
  exact ⟨_, s', seen, by rw [hask]; rfl, hparse, hipv4⟩

/-- Asking upstream, for a node that has just been delivered. -/
theorem exists_asked {s : Forward} {T : BitVec 32 → List Nat} (hT : Table s T) {id : Nat} (hid : ∀ h, id ∉ T h)
    {q : Query} {iden : BitVec 16} (hiden : load16 q.iden.1 q.iden.2 = iden) (fd : Int) (cliaddr : SockAddr) :
    ∃ s', (gethostaddr (s.deliver id (q.parsed fd cliaddr)) (.node id)).map Prod.fst = some s' ∧
      Table s' (Function.update T (integerHash iden) (T (integerHash iden) ++ [id])) ∧
      s'.node = Function.update s.node (.node id) (some ((q.parsed fd cliaddr).setRd 2)) := by
  obtain ⟨links, hask, htable⟩ := hT.gethostaddr_deliver (n := q.parsed fd cliaddr) hid rfl
  rw [show (q.parsed fd cliaddr).iden = iden from hiden] at htable
  exact ⟨_, congrArg (Option.map Prod.fst) hask, htable, rfl⟩

/-- Two requests have been asked upstream, one for `b` and then one for `a`, with the same ID. -/
def BBeforeA (s : Forward) : Prop :=
  ∃ s₁, (gethostaddr ((Forward.initial fun _ => none).deliver 0 ((Query.single (0x12, 0x34) 0x62).parsed 4 ⟨7, 8⟩))
      (.node 0)).map Prod.fst = some s₁ ∧
    (gethostaddr (s₁.deliver 1 ((Query.single (0x12, 0x34) 0x61).parsed 4 ⟨7, 8⟩)) (.node 1)).map Prod.fst = some s

theorem exists_bBeforeA : ∃ s T, BBeforeA s ∧ Table s T ∧ T (integerHash (load16 0x12 0x34)) = [] ++ 0 :: [1] ∧
    s.node (.node 0) = some (((Query.single (0x12, 0x34) 0x62).parsed 4 ⟨7, 8⟩).setRd 2) ∧
    s.node (.node 1) = some (((Query.single (0x12, 0x34) 0x61).parsed 4 ⟨7, 8⟩).setRd 2) := by
  have hinit : Table (Forward.initial fun _ => none) fun _ => [] := Table.init rfl
  have hiden : ∀ c, load16 (Query.single (0x12, 0x34) c).iden.1 (Query.single (0x12, 0x34) c).iden.2 = load16 0x12 0x34 :=
    fun _ => rfl
  obtain ⟨s₁, hask₁, hT₁, hnode₁⟩ := exists_asked hinit (fun _ => List.not_mem_nil) (hiden 0x62) 4 ⟨7, 8⟩
  have hfirst : ∀ h, 1 ∉ Function.update (fun _ => []) (integerHash (load16 0x12 0x34)) ([] ++ [0]) h := by
    intro h
    rw [Function.update_apply]
    split <;> simp
  obtain ⟨s, hask, hT, hnode⟩ := exists_asked hT₁ hfirst (hiden 0x61) 4 ⟨7, 8⟩
  refine ⟨s, _, ⟨s₁, hask₁, hask⟩, hT, ?_, ?_, ?_⟩
  · rw [Function.update_self, Function.update_self]
    rfl
  · rw [hnode, Function.update_of_ne (by decide), hnode₁, Function.update_self]
  · rw [hnode, Function.update_self]

/-- The reply to a query for `a`. -/
def replyForA : List Byte := (writeBack (((Query.single (0x12, 0x34) 0x61).parsed 3 ⟨5, 6⟩).setIpv4 0x0cc000c0)).datagram

/-- While the older of the two waits, the reply for `a` is read into it, and the request for `a` gets no address. -/
theorem reply_read_into_older : ∃ s, BBeforeA s ∧ Waits s 1 ∧
    s.node (.node 1) = some (((Query.single (0x12, 0x34) 0x61).parsed 4 ⟨7, 8⟩).setRd 2) ∧
    Accepts (fun _ _ => 0) (received 3 ⟨5, 6⟩ (Query.single (0x12, 0x34) 0x61).encode)
      ((Query.single (0x12, 0x34) 0x61).parsed 3 ⟨5, 6⟩) ∧
    ∀ fuel room, ∃ s' seen,
      parseResponse (fuel + 1) s (fun k => replyForA.getD k.toNat 0) replyForA.length room = some (s', seen) ∧
      (s'.node (.node 0)).map Node.ipv4 = some 0x0cc000c0 ∧ (s'.node (.node 1)).map Node.ipv4 = some 0 := by
  obtain ⟨s, T, hasked, hT, hsplit, hb, ha⟩ := exists_bBeforeA
  have haccepts : Accepts (fun _ _ => 0) (received 3 ⟨5, 6⟩ (Query.single (0x12, 0x34) 0x61).encode)
      ((Query.single (0x12, 0x34) 0x61).parsed 3 ⟨5, 6⟩) := ⟨.forward, Query.insideParser_eq ..⟩
  have hwaits : Waits s 1 := hT.waits_iff.mpr ⟨_, hsplit ▸ List.mem_append_right _ (List.mem_cons_of_mem _ List.mem_cons_self)⟩
  refine ⟨s, hasked, hwaits, ha, haccepts, fun fuel room => ?_⟩
  obtain ⟨s', seen, hparse, hipv4, hother⟩ := exists_parseResponse_writeBack (p := Query.single (0x12, 0x34) 0x62) rfl
    haccepts 0x0cc000c0 hT rfl rfl hb hsplit (by simp) (fun k => replyForA.getD k.toNat 0) (holds_iff.mpr fun k _ => by simp [replyForA]) (Nat.succ_pos fuel) room
  refine ⟨s', seen, hparse, hipv4, ?_⟩
  rw [hother _ (by decide), ha]
  rfl

end SimpDserver.Daemon

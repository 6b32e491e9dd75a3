import SimpDserver.Pipeline.Origin
import SimpDserver.Work.Recursive

/-!
# Queries and replies

What the daemon is for: a client's query goes upstream as the message it is, with recursion asked for, and the reply
that comes back to the client is a response to this message. Between the parser and `sendto` a request is what the
parser has made of its query, but for the flag and the address.
-/

namespace SimpDserver.Daemon

open Custody DnsMessage NetHashmap Transition

/-- The node is what the parser has made of the query, asked upstream or not, with some address. -/
def StandsFor (q : Query) (rec : Received) (n : Node) : Prop :=
  ∃ ip, n = (q.parsed rec.fd rec.cliaddr).setIpv4 ip ∨ n = (q.withRd.parsed rec.fd rec.cliaddr).setIpv4 ip

namespace StandsFor

variable {q : Query} {rec : Received} {n : Node}

theorem parsed (h : StandsFor q rec n) : ParsedAs q n := by
  obtain ⟨ip, rfl | rfl⟩ := h <;> exact ⟨rfl, rfl, rfl⟩

theorem flags (h : StandsFor q rec n) : n.flags = some 2 := by
  obtain ⟨ip, rfl | rfl⟩ := h <;> rfl

theorem setIpv4 (h : StandsFor q rec n) (ip : Ipv4) : StandsFor q rec (n.setIpv4 ip) := by
  obtain ⟨_, rfl | rfl⟩ := h
  · exact ⟨ip, Or.inl rfl⟩
  · exact ⟨ip, Or.inr rfl⟩

theorem setRd_eq (h : StandsFor q rec n) : n.setRd 2 = (q.withRd.parsed rec.fd rec.cliaddr).setIpv4 n.ipv4 := by
  obtain ⟨ip, rfl | rfl⟩ := h
  · exact q.setRd_parsed rec.fd rec.cliaddr ip
  · have hagain := q.withRd.setRd_parsed rec.fd rec.cliaddr ip
    rw [q.withRd_withRd] at hagain
    exact hagain

theorem setRd (h : StandsFor q rec n) : StandsFor q rec (n.setRd 2) := ⟨n.ipv4, Or.inr h.setRd_eq⟩

/-- What is sent upstream. -/
theorem datagram_setRd (h : StandsFor q rec n) : (n.setRd 2).datagram = q.withRd.encode := by
  rw [h.setRd_eq]
  exact q.withRd.datagram_parsed rec.fd rec.cliaddr

theorem responds (h : StandsFor q rec n) {m : Message} {question : Question}
    (hm : decode (Packet.ofBytes q.encode) = some m) (hq : OneQuestion m question) :
    ∃ reply, decode (Packet.ofBytes (writeBack n).datagram) = some reply ∧ Responds m question n.ipv4 reply := by
  obtain ⟨ip, rfl | rfl⟩ := h
  · exact q.responds rec.fd rec.cliaddr hm hq ip
  · exact q.responds_withRd rec.fd rec.cliaddr hm hq ip

end StandsFor

/-! ### Runs -/

variable {search : List Insertion → (Nat → Byte) → Int → Ipv4} {s t : Pipeline} {T T' : BitVec 32 → List Nat}
  {e : PipelineStep}

/-- What holds in every state of a run: a request that has been parsed stands for a query that was received. -/
structure Standing (s : Pipeline) (T : BitVec 32 → List Nat) : Prop where
  owned : Owned s T
  wellFormed : ∀ rec ∈ s.received, WellFormed rec.bytes
  parsed : ∀ r, Held (s.holds T) r → ∀ n, s.forward.node r = some n → n.flags ≠ none →
    ∃ rec ∈ s.received, r = .node rec.id ∧ ∃ q, rec.Asks q ∧ StandsFor q rec n

theorem Standing.step (hs : Standing s T) (hbehaved : WellBehaved s e) (hnext : (pipeline search).next s e = some t)
    (htable : Table t.forward T') (heffect : Effect search s T e t T') : Standing t T' := by
  have hreceived := heffect.received_subset
  refine ⟨hs.owned.step htable heffect, heffect.wellFormed hbehaved hs.wellFormed, fun r hheld n hn hflags => ?_⟩
  cases hs.owned.held_change hbehaved.1 hnext htable heffect hheld hn hflags with
  | same hheld hn =>
      obtain ⟨rec, hrec, hr, q, hasks, hstands⟩ := hs.parsed r hheld n hn hflags
      exact ⟨rec, hreceived hrec, hr, q, hasks, hstands⟩
  | asked m flags hheld hm hmflags heq =>
      obtain ⟨rec, hrec, hr, q, hasks, hstands⟩ := hs.parsed r hheld m hm (hmflags ▸ Option.some_ne_none _)
      obtain rfl : flags = 2 := Option.some.inj (hmflags.symm.trans hstands.flags)
      subst heq
      exact ⟨rec, hreceived hrec, hr, q, hasks, hstands.setRd⟩
  | answered fuel buff bufflen m visits stored he hheld _ hm hmflags _ _ heq =>
      obtain ⟨rec, hrec, hr, q, hasks, hstands⟩ := hs.parsed r hheld m hm hmflags
      subst heq
      refine ⟨rec, hreceived hrec, hr, q, hasks, ?_⟩
      cases stored with
      | none => exact hstands
      | some pos => exact hstands.setIpv4 _
  | parsed rec res hrec hr hres hpassed heq =>
      obtain ⟨q, hasks, rfl⟩ := (hs.wellFormed rec hrec).query hres hpassed
      subst heq
      refine ⟨rec, hreceived hrec, hr, q, hasks, ?_⟩
      rw [Query.passedOn]
      split
      · exact ⟨0, Or.inl rfl⟩
      · exact ⟨_, Or.inl rfl⟩

theorem Standing.start {node : Ref → Option Node} (hnode : ∀ id, node (.node id) = none) :
    Standing (Pipeline.initial node) fun _ => [] where
  owned := .start hnode
  wellFormed _ hrec := absurd hrec List.not_mem_nil
  parsed r hheld _ _ _ := absurd hheld (not_held_initial hnode r)

/-- A request that waits or is on its way stands for a query. -/
theorem Standing.of_kept (hs : Standing s T) {p : Place} {r : Ref} (hr : r ∈ s.holds T p)
    (hp : ∀ n rec, NodeAt n rec p → Kept n rec) {n : Node} (hn : s.forward.node r = some n) :
    ∃ rec ∈ s.received, r = .node rec.id ∧ ∃ q, rec.Asks q ∧ StandsFor q rec n := by
  obtain ⟨rec, -, -, hat⟩ := hs.owned.nodeAt hr hn
  exact hs.parsed r ⟨p, hr⟩ n hn ((hp n rec hat).flags ▸ Option.some_ne_none _)

theorem exists_standing (hs : (pipeline search).Reachable WellBehaved s) : ∃ T, Standing s T := by
  apply hs.invariant
  · intro s hstart
    obtain ⟨node, hnode, rfl⟩ := hstart
    exact ⟨_, Standing.start hnode⟩
  · intro s e t hs hbehaved hnext
    obtain ⟨T, hs⟩ := hs
    obtain ⟨T', htable, heffect⟩ := hs.owned.effect hbehaved.1 hnext
    exact ⟨T', hs.step hbehaved hnext htable heffect⟩

variable {malloc : Nat → Addr} {config : Config} {es : List PipelineStep}

/-- So did the node of every reply, and its address has an origin. -/
structure Relayed (config : Config) (es : List PipelineStep) (s : Pipeline) (T : BitVec 32 → List Nat) : Prop where
  standing : Standing s T
  sourced : Sourced config es s T
  sent : ∀ x ∈ s.sent, ∃ rec ∈ s.received, x.item = .node rec.id ∧ ∃ q, rec.Asks q ∧ ∃ n, StandsFor q rec n ∧
    x.datagram = (writeBack n).datagram ∧ Origin config es s.received q.key n.ipv4

/-- Two queries that a node is parsed as have the same name. -/
theorem ParsedAs.key_eq {q q' : Query} {n : Node} (h : ParsedAs q n) (h' : ParsedAs q' n) : q.key = q'.key := by
  have hlen : q.host.length = q'.host.length := Int.ofNat_inj.mp (h.hostLen.symm.trans h'.hostLen)
  rw [← q.cstring_host, ← q'.cstring_host, ← h.shost, ← h'.shost, hlen]

/-- The address of a request has an origin. -/
theorem Sourced.origin (hs : Sourced config es s T) {r : Ref} (hheld : Held (s.holds T) r) {n : Node}
    (hn : s.forward.node r = some n) {q : Query} {rec : Received} (h : StandsFor q rec n) :
    Origin config es s.received q.key n.ipv4 := by
  obtain ⟨_, -, -, q', -, hparsed, horigin⟩ := hs.parsed r hheld n hn (h.flags ▸ Option.some_ne_none _)
  exact h.parsed.key_eq hparsed ▸ horigin

theorem Relayed.step (hs : Relayed config es s T) (hmalloc : Blocks malloc)
    (hfits : ∀ source ∈ config.inserted, source.1.strlen < domainLen) (hbehaved : WellBehaved s e)
    (hnext : (cachingPipeline malloc config).next s e = some t) : ∃ T', Relayed config (es ++ [e]) t T' := by
  obtain ⟨T', htable, heffect⟩ := hs.standing.owned.effect hbehaved.1 hnext
  refine ⟨T', hs.standing.step hbehaved hnext htable heffect,
    hs.sourced.step hmalloc hfits hbehaved hnext htable heffect, ?_⟩
  have hreceived := heffect.received_subset
  have hes : es ⊆ es ++ [e] := List.subset_append_left _ _
  have hold : ∀ x ∈ s.sent, ∃ rec ∈ t.received, x.item = .node rec.id ∧ ∃ q, rec.Asks q ∧ ∃ n, StandsFor q rec n ∧
      x.datagram = (writeBack n).datagram ∧ Origin config (es ++ [e]) t.received q.key n.ipv4 := by
    intro x hx
    obtain ⟨rec, hrec, hitem, q, hasks, n, hstands, hdatagram, horigin⟩ := hs.sent x hx
    exact ⟨rec, hreceived hrec, hitem, q, hasks, n, hstands, hdatagram, horigin.mono hes hreceived⟩
  rcases heffect.sent_cases with heq | ⟨r, n, hmem, hn, -, heq⟩
  · exact heq ▸ hold
  · rw [heq, List.forall_mem_append, List.forall_mem_singleton]
    refine ⟨hold, ?_⟩
    obtain ⟨rec, hrec, hr, q, hasks, hstands⟩ := hs.standing.of_kept hmem (fun _ _ h => h) hn
    have horigin := hs.sourced.origin ⟨_, hmem⟩ hn hstands
    exact ⟨rec, hreceived hrec, hr, q, hasks, n, hstands, rfl, horigin.mono hes hreceived⟩

theorem exists_relayed {node : Ref → Option Node} (hmalloc : Blocks malloc)
    (hfits : ∀ source ∈ config.inserted, source.1.strlen < domainLen) (hnode : ∀ id, node (.node id) = none)
    (hrun : (cachingPipeline malloc config).Run WellBehaved (Pipeline.initial node) es s) :
    ∃ T, Relayed config es s T := by
  induction hrun with
  | nil => exact ⟨_, .start hnode, .start config hnode, fun _ hx => absurd hx List.not_mem_nil⟩
  | snoc _ hbehaved hnext ih =>
      obtain ⟨T, hs⟩ := ih
      exact hs.step hmalloc hfits hbehaved hnext

/-- What the forward thread sends upstream for a request. -/
theorem Standing.asks (hs : Standing s T) {id : Nat} (hforwarder : s.forwarder = .asking id) :
    ∃ rec ∈ s.received, rec.id = id ∧ ∃ q, rec.Asks q ∧
      ∃ forward, gethostaddr s.forward (.node id) = some (forward, q.withRd.encode) := by
  have hmem : Ref.node id ∈ s.holds T .asking := by simp [Pipeline.holds, hforwarder]
  obtain ⟨n, hn⟩ := hs.owned.alive hmem
  obtain ⟨rec, hrec, hr, q, hasks, hstands⟩ := hs.of_kept hmem (fun _ _ h => h) hn
  obtain ⟨links, hask, -⟩ := hs.owned.table.gethostaddr hn hstands.flags (hs.owned.not_waiting hmem (by simp))
  rw [hstands.datagram_setRd] at hask
  exact ⟨rec, hrec, (Ref.node.inj hr).symm, q, hasks, _, hask⟩

/-- A query that is kept whole is the one the datagram is. -/
theorem Received.Asks.encode_eq {rec : Received} {q : Query} (h : rec.Asks q) (hlen : rec.bytes.length ≤ reqDataLen) :
    q.encode = rec.bytes := Eq.trans h (List.take_of_length_le hlen)

/-- In every run of well-behaved clients and servers, with whatever configuration, and for every query that is kept
whole: what the forward thread is about to send upstream is the client's message with recursion asked for; and every
reply reads, where it is sent, as a response to this message, with the same ID and question, and with the record of an
address that has an origin under the name asked for. -/
theorem queries_relayed {malloc : Nat → Addr} {config : Config} {fuel : Nat} {pdoc : Option XmlDoc} {ret : Int}
    {node : Ref → Option Node} {es : List PipelineStep} {s : Pipeline}
    (hconfig : configModuleParser fuel Config.initial pdoc = some (config, ret)) (hmalloc : Blocks malloc)
    (hnode : ∀ id, node (.node id) = none)
    (hrun : (cachingPipeline malloc config).Run WellBehaved (Pipeline.initial node) es s) :
    (∀ id, s.forwarder = .asking id → ∃ rec ∈ s.received, rec.id = id ∧ ∃ forward datagram,
      gethostaddr s.forward (.node id) = some (forward, datagram) ∧
      (rec.bytes.length ≤ reqDataLen → ∃ m, decode (Packet.ofBytes rec.bytes) = some m ∧
        decode (Packet.ofBytes datagram) = some { m with flags := m.flags ||| 0x0100 })) ∧
    ∀ x ∈ s.sent, ∃ rec ∈ s.received, x.item = .node rec.id ∧ ∃ q ip, rec.Asks q ∧
      Origin config es s.received q.key ip ∧
      (rec.bytes.length ≤ reqDataLen → ∃ m question reply, decode (Packet.ofBytes rec.bytes) = some m ∧
        question.name = q.name.labels ∧ decode (Packet.ofBytes x.datagram) = some reply ∧
        Responds m question ip reply) := by
  obtain ⟨T, hs⟩ := exists_relayed hmalloc (strlen_of_configModuleParser hconfig) hnode hrun
  constructor
  · intro id hforwarder
    obtain ⟨rec, hrec, hid, q, hasks, forward, hask⟩ := hs.standing.asks hforwarder
    refine ⟨rec, hrec, hid, forward, _, hask, fun hlen => ?_⟩
    obtain ⟨m, hm⟩ := hs.standing.wellFormed rec hrec
    rw [← hasks.encode_eq hlen] at hm ⊢
    exact ⟨m, hm, q.decode_withRd hm⟩
  · intro x hx
    obtain ⟨rec, hrec, hitem, q, hasks, n, hstands, hdatagram, horigin⟩ := hs.sent x hx
    refine ⟨rec, hrec, hitem, q, n.ipv4, hasks, horigin, fun hlen => ?_⟩
    obtain ⟨m, hm⟩ := hs.standing.wellFormed rec hrec
    rw [← hasks.encode_eq hlen] at hm ⊢
    obtain ⟨question, hquestion, hname⟩ := q.oneQuestion hm
    obtain ⟨reply, hreply, hresponds⟩ := hstands.responds hm hquestion
    exact ⟨m, question, reply, hm, hname, hdatagram ▸ hreply, hresponds⟩

/-- Runs in which clients ask for `a` and `b` and no response arrives. -/
def TwoNames (_ : Pipeline) : PipelineStep → Prop
  | .receive _ _ bytes => ∃ c ∈ [0x61, 0x62], bytes = (Query.single (0x12, 0x34) c).encode
  | .respond .. => False
  | _ => True

instance (s : Pipeline) : (e : PipelineStep) → Decidable (TwoNames s e)
  | .receive _ _ bytes => inferInstanceAs (Decidable (∃ c ∈ [0x61, 0x62], bytes = _))
  | .respond .. => .isFalse id
  | .pushWork _ | .popWork | .parse | .pass _ | .popForward | .ask | .insert | .pushBundle _ | .popBundle | .writeBack =>
      .isTrue trivial

theorem wellBehaved_of_twoNames (e : PipelineStep) (h : TwoNames s e) : WellBehaved s e := by
  constructor
  · cases e with
    | respond => exact absurd h id
    | _ => trivial
  · rintro fd cliaddr bytes rfl
    obtain ⟨c, hc, rfl⟩ := h
    refine Or.inr ⟨⟨0x1234, 0x0100, [⟨[[c]], 1, 1⟩], [], [], []⟩, ?_⟩
    rcases List.mem_pair.mp hc with rfl | rfl <;> decide +kernel

/-- A query for `a` has been answered from the configuration, and one for `b` is about to go upstream. -/
theorem queries_relayed_both : ∃ (es : List PipelineStep) (s : Pipeline), s.sent.length = 1 ∧ s.forwarder = .asking 1 ∧
    (∃ rec ∈ s.received, rec.id = 1 ∧ ∃ forward datagram, gethostaddr s.forward (.node 1) = some (forward, datagram) ∧
      (rec.bytes.length ≤ reqDataLen → ∃ m, decode (Packet.ofBytes rec.bytes) = some m ∧
        decode (Packet.ofBytes datagram) = some { m with flags := m.flags ||| 0x0100 })) ∧
    ∀ x ∈ s.sent, ∃ rec ∈ s.received, x.item = .node rec.id ∧ ∃ q ip, rec.Asks q ∧
      Origin twoSources.config es s.received q.key ip ∧
      (rec.bytes.length ≤ reqDataLen → ∃ m question reply, decode (Packet.ofBytes rec.bytes) = some m ∧
        question.name = q.name.labels ∧ decode (Packet.ofBytes x.datagram) = some reply ∧
        Responds m question ip reply) := by
  have hstart : (cachingPipeline twoBlocks twoSources.config).start (Pipeline.initial fun _ => none) := ⟨_, fun _ => rfl, rfl⟩
  obtain ⟨s, hs, hobserved⟩ : ∃ s, (cachingPipeline twoBlocks twoSources.config).Reachable TwoNames s ∧ _ :=
    Machine.Reachable.of_replay hstart
      [.receive 3 ⟨5, 6⟩ (Query.single (0x12, 0x34) 0x61).encode, .pushWork true, .popWork, .parse, .pass true, .popBundle,
        .writeBack, .receive 3 ⟨5, 6⟩ (Query.single (0x12, 0x34) 0x62).encode, .pushWork true, .popWork, .parse,
        .pass true, .popForward]
      (f := fun s => (s.sent.length, s.holds (fun _ => []) .asking)) (v := (1, [.node 1])) (by decide +kernel)
  obtain ⟨hsent, hasking⟩ := Prod.mk.inj hobserved
  have hforwarder : s.forwarder = .asking 1 := by
    cases hforwarder : s.forwarder <;> simp_all [Pipeline.holds]
  have hwell : (cachingPipeline twoBlocks twoSources.config).Reachable WellBehaved s :=
    hs.weaken fun _ e _ _ h => wellBehaved_of_twoNames e h
  obtain ⟨_, es, ⟨node, hnode, rfl⟩, hrun⟩ := hwell
  obtain ⟨hasks, hreplies⟩ := queries_relayed (configModuleParser_eq (show _ < 3 by decide)) blocks_twoBlocks hnode hrun
  exact ⟨es, s, hsent, hforwarder, hasks 1 hforwarder, hreplies⟩

end SimpDserver.Daemon

import SimpDserver.Pipeline.Steps
import SimpDserver.Work.WellFormed

/-!
# One owner, one reply

A node is in one place at a time from its receipt to its release, whatever the threads do in whatever
order, so it is freed once and nothing is done to it afterwards; and what a reply carries behind its
header is what was received.
-/

namespace SimpDserver.Daemon

open Custody Transition

variable {search : List Insertion → (Nat → Byte) → Int → Ipv4} {s t : Pipeline} {T T' : BitVec 32 → List Nat}
  {e : PipelineStep}

/-! ### Custody -/

theorem Owned.start {node : Ref → Option Node} (hnode : ∀ id, node (.node id) = none) :
    Owned (Pipeline.initial node) fun _ => [] := by
  have hempty : ∀ p r, r ∉ (Pipeline.initial node).holds (fun _ => []) p := by
    intro p r
    cases p <;> simp [Pipeline.holds, Pipeline.initial, Forward.initial]
  refine ⟨Table.init rfl, ⟨fun p => ?_, fun hr => absurd hr (hempty _ _)⟩, fun p r hr => absurd hr (hempty p r),
    fun id _ => hnode id⟩
  cases p <;> simp [Pipeline.holds, Pipeline.initial, Forward.initial]

theorem Owned.not_held (hs : Owned s T) {id : Nat} (hid : s.allocated ≤ id) : ¬Held (s.holds T) (.node id) := by
  intro hheld
  obtain ⟨p, hr⟩ := hheld
  obtain ⟨n, hn⟩ := hs.alive hr
  rw [hs.fresh id hid] at hn
  exact absurd hn.symm (Option.some_ne_none n)

theorem Owned.ne_fresh (hs : Owned s T) {p : Place} {r : Ref} (hr : r ∈ s.holds T p) {id : Nat} (hid : s.allocated ≤ id) :
    Ref.node id ≠ r := fun heq => hs.not_held hid ⟨p, heq ▸ hr⟩

/-- A node taken from its place, with whatever becomes of its memory. -/
theorem Owned.remove (hs : Owned s T) (htable : Table t.forward T') {p : Place} {r : Ref} {n : Option Node}
    (hr : r ∈ s.holds T p) (hholds : t.holds T' = Custody.remove (s.holds T) p r)
    (hnode : t.forward.node = Function.update s.forward.node r n) (hallocated : t.allocated = s.allocated)
    (hreceived : t.received = s.received) : Owned t T' := by
  refine ⟨htable, hholds ▸ hs.exclusive.remove hr, fun q x hx => ?_, fun id hle => ?_⟩
  · rw [hholds, hs.exclusive.mem_remove hr] at hx
    obtain ⟨m, rec, hrec, heq, hm, hat⟩ := hs.content q x hx.1
    exact ⟨m, rec, hreceived ▸ hrec, heq, by rw [hnode, Function.update_of_ne hx.2, hm], hat⟩
  · rw [hallocated] at hle
    rw [hnode, Function.update_of_ne (hs.ne_fresh hr hle), hs.fresh id hle]

theorem Owned.step (hs : Owned s T) (htable : Table t.forward T') (h : Effect search s T e t T') : Owned t T' := by
  cases h with
  | alloc rec hid _ _ holds node allocated received =>
      have hfresh := hs.not_held hid.ge
      refine ⟨htable, holds ▸ hs.exclusive.give hfresh _, fun p r hr => ?_, fun id hle => ?_⟩
      · rw [holds, mem_give] at hr
        rcases hr with hr | ⟨rfl, rfl⟩
        · obtain ⟨n, rec', hrec', heq, hn, hat⟩ := hs.content p r hr
          have hne : r ≠ .node rec.id := fun hr' => hfresh ⟨p, hr' ▸ hr⟩
          exact ⟨n, rec', received ▸ List.mem_append_left _ hrec', heq, by rw [node, Function.update_of_ne hne, hn], hat⟩
        · exact ⟨rec.node, rec, received ▸ List.mem_append_right _ (List.mem_singleton_self _), rfl,
            by rw [node, Function.update_self], rfl⟩
      · have hne : Ref.node id ≠ .node rec.id := fun heq => by
          have := Ref.node.inj heq
          omega
        rw [node, Function.update_of_ne hne, hs.fresh id (by omega)]
  | lose _ n holds node allocated received =>
      refine ⟨htable, holds ▸ hs.exclusive, fun p r hr => ?_, fun id hle => ?_⟩
      · rw [holds] at hr
        obtain ⟨n', rec, hrec, heq, hn', hat⟩ := hs.content p r hr
        exact ⟨n', rec, received ▸ hrec, heq, by rw [node, Function.update_of_ne (hs.ne_fresh hr le_rfl).symm, hn'], hat⟩
      · have hne : Ref.node id ≠ .node s.allocated := fun heq => by
          have := Ref.node.inj heq
          omega
        rw [node, Function.update_of_ne hne, hs.fresh id (by omega)]
  | move p q r n n' mem hn content holds node logs =>
      refine ⟨htable, holds ▸ hs.exclusive.move mem q, fun p' x hx => ?_, fun id hle => ?_⟩
      · rw [holds, hs.exclusive.mem_move mem] at hx
        rcases hx with ⟨hx, hne⟩ | ⟨rfl, rfl⟩
        · obtain ⟨m, rec, hrec, heq, hm, hat⟩ := hs.content p' x hx
          exact ⟨m, rec, logs.received ▸ hrec, heq, by rw [node, Function.update_of_ne hne, hm], hat⟩
        · obtain ⟨m, rec, hrec, heq, hm, hat⟩ := hs.content p x mem
          rw [hn] at hm
          exact ⟨n', rec, logs.received ▸ hrec, heq, by rw [node, Function.update_self],
            content rec (Option.some.inj hm ▸ hat)⟩
      · rw [logs.allocated] at hle
        rw [node, Function.update_of_ne (hs.ne_fresh mem hle), hs.fresh id hle]
  | drop _ p r n n' mem hn holds node logs => exact hs.remove htable mem holds node logs.allocated logs.received
  | free r n mem hn holds node allocated received => exact hs.remove htable mem holds node allocated received

/-- Custody is kept in every run whose responses are for requests that wait. -/
theorem exists_owned (hs : (pipeline search).Reachable Answering s) : ∃ T, Owned s T := by
  apply hs.invariant (I := fun s => ∃ T, Owned s T)
  · intro s hstart
    obtain ⟨node, hnode, rfl⟩ := hstart
    exact ⟨_, Owned.start hnode⟩
  · intro s e t howned hanswering hnext
    obtain ⟨T, hT⟩ := howned
    obtain ⟨T', htable, heffect⟩ := hT.effect hanswering hnext
    exact ⟨T', hT.step htable heffect⟩

/-! ### Replies -/

/-- The reply has the ID of what was received, and everything behind its header. -/
def Carries (datagram bytes : List Byte) : Prop :=
  datagram.take 2 = bytes.take 2 ∧ (bytes.take reqDataLen).drop 12 <+: datagram.drop 12

theorem Kept.carries {n : Node} {rec : Received} (h : Kept n rec) (hlen : 12 ≤ rec.bytes.length) :
    Carries (writeBack n).datagram rec.bytes := by
  have hdatalen : n.datalen = min rec.bytes.length reqDataLen := h.datalen
  have h12 : 12 ≤ n.datalen := by
    rw [hdatalen, reqDataLen]
    omega
  have hreply : ∀ i < n.datalen + 16, (writeBack n).datagram[i]? = some ((writeBack n).data i) := by
    intro i hi
    rw [Node.datagram, writeBack_datalen, List.getElem?_map, List.getElem?_range hi, Option.map_some]
  have hbytes : ∀ i < n.datalen, rec.bytes[i]? = some (rec.node.data i) := by
    intro i hi
    have hlt : i < rec.bytes.length := by omega
    have hlt' : i < reqDataLen := by omega
    simp [Received.node, received, hlt, hlt']
  constructor
  · apply List.ext_getElem?
    intro i
    rw [List.getElem?_take, List.getElem?_take]
    by_cases hi : i < 2
    · rw [if_pos hi, if_pos hi, hreply i (by omega), hbytes i (by omega),
        writeBack_data_header n h12 (by omega) (by omega), h.data i (by omega)]
    · rw [if_neg hi, if_neg hi]
  · rw [List.prefix_iff_getElem?]
    intro i hi
    rw [List.length_drop, List.length_take, min_comm, ← hdatalen] at hi
    have hbyte := hbytes (12 + i) (by omega)
    rw [List.getElem?_drop, hreply (12 + i) (by omega), writeBack_data_of_lt n (by omega) (by omega),
      h.data (12 + i) (by omega), ← hbyte]
    rw [List.getElem_drop, List.getElem_take, List.getElem?_eq_getElem]

/-- What was received, sent and freed, each by name. -/
structure Logged (s : Pipeline) : Prop where
  received_lt : ∀ rec ∈ s.received, rec.id < s.allocated
  received_nodup : (s.received.map Received.id).Nodup
  freed_gone : ∀ r ∈ s.freed, ∃ id < s.allocated, r = .node id ∧ s.forward.node r = none
  freed_nodup : s.freed.Nodup
  sent_freed : s.sent.map Sent.item = s.freed
  sent : ∀ m ∈ s.sent, ∃ rec ∈ s.received, m.item = .node rec.id ∧ m.cliaddr = rec.cliaddr ∧
    (12 ≤ rec.bytes.length → Carries m.datagram rec.bytes)

/-- What is gone stays gone when a node that is there is changed. -/
theorem Logged.gone_update (hs : Logged s) {r : Ref} {n : Node} (hn : s.forward.node r = some n) (v : Option Node) :
    ∀ x ∈ s.freed, ∃ id < s.allocated, x = .node id ∧ Function.update s.forward.node r v x = none := by
  intro x hx
  obtain ⟨id, hid, heq, hgone⟩ := hs.freed_gone x hx
  have hne : x ≠ r := by
    rintro rfl
    exact absurd (hgone.symm.trans hn).symm (Option.some_ne_none n)
  exact ⟨id, hid, heq, by rw [Function.update_of_ne hne, hgone]⟩

theorem Logged.gone_alloc (hs : Logged s) (v : Option Node) : ∀ x ∈ s.freed, ∃ id < s.allocated + 1, x = .node id ∧
    Function.update s.forward.node (.node s.allocated) v x = none := by
  intro x hx
  obtain ⟨id, hid, rfl, hgone⟩ := hs.freed_gone x hx
  have hne : Ref.node id ≠ .node s.allocated := fun heq => hid.ne (Ref.node.inj heq)
  exact ⟨id, by omega, rfl, by rw [Function.update_of_ne hne, hgone]⟩

theorem Logged.of_sameLogs (hs : Logged s) (logs : SameLogs s t)
    (hgone : ∀ r ∈ s.freed, ∃ id < s.allocated, r = .node id ∧ t.forward.node r = none) : Logged t where
  received_lt := logs.received ▸ logs.allocated ▸ hs.received_lt
  received_nodup := logs.received ▸ hs.received_nodup
  freed_gone := logs.freed ▸ logs.allocated ▸ hgone
  freed_nodup := logs.freed ▸ hs.freed_nodup
  sent_freed := logs.sent ▸ logs.freed ▸ hs.sent_freed
  sent := logs.sent ▸ logs.received ▸ hs.sent

theorem Logged.step (hs : Logged s) (howned : Owned s T) (h : Effect search s T e t T') : Logged t := by
  cases h with
  | alloc rec hid _ _ holds node allocated received sent freed =>
      refine ⟨?_, ?_, ?_, freed ▸ hs.freed_nodup, sent ▸ freed ▸ hs.sent_freed, ?_⟩
      · intro rec' hrec'
        rw [received, List.mem_append, List.mem_singleton] at hrec'
        rw [allocated]
        rcases hrec' with hrec' | rfl
        · exact (hs.received_lt rec' hrec').trans (Nat.lt_succ_self _)
        · rw [hid]
          exact Nat.lt_succ_self _
      · rw [received, List.map_append, List.nodup_append]
        refine ⟨hs.received_nodup, List.nodup_singleton _, ?_⟩
        rintro a ha b hb rfl
        obtain ⟨rec', hrec', rfl⟩ := List.mem_map.mp ha
        have heq : rec'.id = rec.id := by simpa using hb
        exact (hs.received_lt rec' hrec').ne (heq.trans hid)
      · rw [node, freed, allocated, hid]
        exact hs.gone_alloc _
      · intro m hm
        rw [sent] at hm
        obtain ⟨rec', hrec', hrest⟩ := hs.sent m hm
        exact ⟨rec', received ▸ List.mem_append_left _ hrec', hrest⟩
  | lose _ n holds node allocated received sent freed =>
      refine ⟨?_, received ▸ hs.received_nodup, ?_, freed ▸ hs.freed_nodup, sent ▸ freed ▸ hs.sent_freed,
        sent ▸ received ▸ hs.sent⟩
      · intro rec hrec
        rw [allocated]
        exact (hs.received_lt rec (received ▸ hrec)).trans (Nat.lt_succ_self _)
      · rw [node, freed, allocated]
        exact hs.gone_alloc _
  | move p q r n n' mem hn content holds node logs => exact hs.of_sameLogs logs (node ▸ hs.gone_update hn _)
  | drop _ p r n n' mem hn holds node logs => exact hs.of_sameLogs logs (node ▸ hs.gone_update hn _)
  | free r n mem hn holds node allocated received sent freed =>
      obtain ⟨n', rec, hrec, rfl, hn', hkept⟩ := howned.content _ _ mem
      rw [hn] at hn'
      cases hn'
      have hkept : Kept n rec := hkept
      refine ⟨received ▸ allocated ▸ hs.received_lt, received ▸ hs.received_nodup, ?_, ?_, ?_, ?_⟩
      · intro x hx
        rw [freed, List.mem_append, List.mem_singleton] at hx
        rw [node, allocated]
        rcases hx with hx | rfl
        · exact hs.gone_update hn _ x hx
        · exact ⟨rec.id, hs.received_lt rec hrec, rfl, Function.update_self ..⟩
      · rw [freed, List.nodup_append]
        refine ⟨hs.freed_nodup, List.nodup_singleton _, ?_⟩
        rintro a ha b hb rfl
        obtain ⟨id, hid, heq, hgone⟩ := hs.freed_gone a ha
        rw [List.mem_singleton.mp hb, hn] at hgone
        exact absurd hgone (Option.some_ne_none n)
      · rw [sent, freed, List.map_append, hs.sent_freed]
        rfl
      · intro m hm
        rw [sent, List.mem_append, List.mem_singleton] at hm
        rcases hm with hm | rfl
        · exact received ▸ hs.sent m hm
        · exact ⟨rec, received ▸ hrec, rfl, hkept.cliaddr, hkept.carries⟩

theorem logged_of_reachable (hs : (pipeline search).Reachable Answering s) : Logged s := by
  refine (hs.invariant (I := fun s => (∃ T, Owned s T) ∧ Logged s) ?_ ?_).2
  · intro s hstart
    obtain ⟨node, hnode, rfl⟩ := hstart
    refine ⟨⟨_, Owned.start hnode⟩, ⟨?_, ?_, ?_, ?_, ?_, ?_⟩⟩ <;> simp [Pipeline.initial]
  · intro s e t hs hanswering hnext
    obtain ⟨⟨T, hT⟩, hlogged⟩ := hs
    obtain ⟨T', htable, heffect⟩ := hT.effect hanswering hnext
    exact ⟨⟨T', hT.step htable heffect⟩, hlogged.step hT heffect⟩

/-! ### The whole daemon -/

/-- Clients send messages, which `recvfrom` may fail to deliver, and responses answer requests that wait. -/
def WellBehaved (s : Pipeline) (e : PipelineStep) : Prop :=
  Answering s e ∧ ∀ fd cliaddr bytes, e = .receive fd cliaddr bytes → bytes = [] ∨ WellFormed bytes

theorem wellFormed_of_reachable (hs : (pipeline search).Reachable WellBehaved s) :
    ∀ rec ∈ s.received, WellFormed rec.bytes := by
  refine (hs.invariant (I := fun s => (∃ T, Owned s T) ∧ ∀ rec ∈ s.received, WellFormed rec.bytes) ?_ ?_).2
  · intro s hstart
    obtain ⟨node, hnode, rfl⟩ := hstart
    exact ⟨⟨_, Owned.start hnode⟩, by simp [Pipeline.initial]⟩
  · intro s e t hs hbehaved hnext
    obtain ⟨⟨T, hT⟩, hwell⟩ := hs
    obtain ⟨hanswering, hreceive⟩ := hbehaved
    obtain ⟨T', htable, heffect⟩ := hT.effect hanswering hnext
    refine ⟨⟨T', hT.step htable heffect⟩, ?_⟩
    cases heffect with
    | alloc rec _ he hbytes _ _ _ received =>
        subst he
        intro rec' hrec'
        rw [received, List.mem_append, List.mem_singleton] at hrec'
        rcases hrec' with hrec' | rfl
        · exact hwell rec' hrec'
        · exact (hreceive _ _ _ rfl).resolve_left hbytes
    | lose _ _ _ _ _ received => exact received ▸ hwell
    | move _ _ _ _ _ _ _ _ _ _ logs => exact logs.received ▸ hwell
    | drop _ _ _ _ _ _ _ _ _ logs => exact logs.received ▸ hwell
    | free _ _ _ _ _ _ _ received => exact received ▸ hwell

/-- No thread is stopped by the node it works on: it finds it in memory, and its loops end. -/
structure Ready (search : List Insertion → (Nat → Byte) → Int → Ipv4) (s : Pipeline) : Prop where
  parse : ∀ id, s.worker = .parsing id → (s.parse search).isSome
  ask : ∀ id, s.forwarder = .asking id → s.ask.isSome
  insert : ∀ item, s.forwarder = .answered item → s.insert.isSome
  writeBack : ∀ item, s.writer = some item → s.writeBack.isSome

theorem Owned.ready (hs : Owned s T) (hwell : ∀ rec ∈ s.received, WellFormed rec.bytes) : Ready search s where
  parse id hworker := by
    obtain ⟨n, rec, hrec, -, hn, rfl⟩ := hs.content .parsing (.node id) (by simp [Pipeline.holds, hworker])
    obtain ⟨r, hr⟩ := (hwell rec hrec).insideParser (search s.forward.inserted) rec.fd rec.cliaddr
    have hr : insideParser (search s.forward.inserted) rec.node = some r := hr
    simp [Pipeline.parse, hworker, hn, hr]
  ask id hforwarder := by
    have hmem : Ref.node id ∈ s.holds T .asking := by simp [Pipeline.holds, hforwarder]
    obtain ⟨n, rec, -, -, hn, hkept⟩ := hs.content _ _ hmem
    have hkept : Kept n rec := hkept
    obtain ⟨links, hask, -⟩ := hs.table.gethostaddr hn hkept.flags (hs.not_waiting hmem (by simp))
    simp [Pipeline.ask, hforwarder, hask]
  insert item hforwarder := by
    obtain ⟨n, hn⟩ := hs.alive (p := .answering) (show item ∈ _ by simp [Pipeline.holds, hforwarder])
    simp [Pipeline.insert, hforwarder, insertItem, hn]
  writeBack item hwriter := by
    obtain ⟨n, hn⟩ := hs.alive (p := .writing) (show item ∈ _ by simp [Pipeline.holds, hwriter])
    simp [Pipeline.writeBack, hwriter, hn]

/-- In every run of well-behaved clients and servers: a node is held in one place at most, and what is
held is a node in memory that was not freed; no thread is stopped by the node it holds; nothing is freed
twice; and of each datagram received there is one reply at most, to its sender, with its ID and all that
is behind its header. -/
theorem single_owner (hs : (pipeline search).Reachable WellBehaved s) :
    (∃ T, Table s.forward T ∧ Exclusive (s.holds T) ∧
      ∀ p, ∀ r ∈ s.holds T p, (∃ id, r = .node id) ∧ (s.forward.node r).isSome ∧ r ∉ s.freed) ∧
    Ready search s ∧ s.freed.Nodup ∧ (s.sent.map Sent.item).Nodup ∧ (s.received.map Received.id).Nodup ∧
    ∀ m ∈ s.sent, ∃ rec ∈ s.received, m.item = .node rec.id ∧ m.cliaddr = rec.cliaddr ∧
      Carries m.datagram rec.bytes := by
  have hwell := wellFormed_of_reachable hs
  have hanswering : (pipeline search).Reachable Answering s := hs.weaken fun _ _ _ _ h => h.1
  have hlogged := logged_of_reachable hanswering
  obtain ⟨T, hT⟩ := exists_owned hanswering
  refine ⟨⟨T, hT.table, hT.exclusive, fun p r hr => ?_⟩, hT.ready hwell, hlogged.freed_nodup,
    hlogged.sent_freed ▸ hlogged.freed_nodup, hlogged.received_nodup, fun m hm => ?_⟩
  · obtain ⟨n, rec, -, rfl, hn, -⟩ := hT.content p r hr
    refine ⟨⟨rec.id, rfl⟩, Option.isSome_of_eq_some hn, fun hfreed => ?_⟩
    obtain ⟨-, -, -, hgone⟩ := hlogged.freed_gone _ hfreed
    exact absurd (hgone.symm.trans hn).symm (Option.some_ne_none n)
  · obtain ⟨rec, hrec, hitem, hcliaddr, hcarries⟩ := hlogged.sent m hm
    exact ⟨rec, hrec, hitem, hcliaddr, hcarries (hwell rec hrec).headerSize_le⟩

/-- Runs in which one client asks for `a` and no response arrives. -/
def OneClient (_ : Pipeline) : PipelineStep → Prop
  | .receive _ cliaddr bytes => cliaddr = ⟨5, 6⟩ ∧ bytes = (Query.single (0x12, 0x34) 0x61).encode
  | .respond .. => False
  | _ => True

instance (s : Pipeline) : (e : PipelineStep) → Decidable (OneClient s e)
  | .receive _ cliaddr bytes => inferInstanceAs (Decidable (cliaddr = ⟨5, 6⟩ ∧ bytes = _))
  | .respond .. => .isFalse id
  | .pushWork _ | .popWork | .parse | .pass _ | .popForward | .ask | .insert | .pushBundle _ | .popBundle | .writeBack =>
      .isTrue trivial

theorem wellBehaved_of_oneClient (e : PipelineStep) (h : OneClient s e) : WellBehaved s e := by
  constructor
  · cases e with
    | respond => exact absurd h id
    | _ => trivial
  · rintro fd cliaddr bytes rfl
    refine Or.inr ⟨⟨0x1234, 0x0100, [⟨[[0x61]], 1, 1⟩], [], [], []⟩, ?_⟩
    rw [h.2]
    decide +kernel

/-- The address of `a` is in the cache: one query, one reply, to its sender. -/
theorem single_owner_cached : ∃ s : Pipeline, s.sent.map Sent.cliaddr = [⟨5, 6⟩] ∧ s.freed = [.node 0] ∧
    (s.sent.map Sent.item).Nodup := by
  have hstart : (pipeline fun _ _ _ => 0x04030201).start (Pipeline.initial fun _ => none) := ⟨_, fun _ => rfl, rfl⟩
  obtain ⟨s, hs, hobserved⟩ : ∃ s, (pipeline fun _ _ _ => 0x04030201).Reachable OneClient s ∧ _ :=
    Machine.Reachable.of_replay hstart
      [.receive 3 ⟨5, 6⟩ (Query.single (0x12, 0x34) 0x61).encode, .pushWork true, .popWork, .parse, .pass true, .popBundle,
        .writeBack]
      (f := fun s => (s.sent.map Sent.cliaddr, s.freed)) (v := ([⟨5, 6⟩], [.node 0])) (by decide +kernel)
  have hwell : (pipeline fun _ _ _ => 0x04030201).Reachable WellBehaved s :=
    hs.weaken fun _ e _ _ h => wellBehaved_of_oneClient e h
  exact ⟨s, congrArg Prod.fst hobserved, congrArg Prod.snd hobserved, (single_owner hwell).2.2.2.1⟩

end SimpDserver.Daemon

import SimpDserver.Pipeline.Drain
import SimpDserver.Pipeline.Relay

/-!
# Every query can be answered

A response that is taken for a request is a promise: whatever else happens, the request's reply is sent as soon as the
daemon comes to rest. And there always is such a response for a request that waits, so that no accepted query is ever
beyond being answered.
-/

namespace SimpDserver.Daemon

open Custody Transition

variable {search : List Insertion → (Nat → Byte) → Int → Ipv4} {s t u : Pipeline} {T T' : BitVec 32 → List Nat}
  {e : PipelineStep} {r : Ref}

/-- The request has its response, and is on its way back to the client, or its reply has been sent. -/
def Returning (s : Pipeline) (r : Ref) : Prop :=
  s.forwarder = .answered r ∨ s.forwarder = .inserted r ∨ r ∈ s.forward.bundle ∨ s.writer = some r ∨
    ∃ x ∈ s.sent, x.item = r

/-! ### The way back -/

theorem Returning.of_forwarder (h : Returning s r) (hanswered : s.forwarder ≠ .answered r)
    (hinserted : s.forwarder ≠ .inserted r) (hbundle : t.forward.bundle = s.forward.bundle := by rfl)
    (hwriter : t.writer = s.writer := by rfl) (hsent : t.sent = s.sent := by rfl) : Returning t r := by
  rw [Returning, hbundle, hwriter, hsent]
  exact Or.inr (Or.inr ((h.resolve_left hanswered).resolve_left hinserted))

theorem Returning.congr (h : Returning s r) (hforwarder : t.forwarder = s.forwarder := by rfl)
    (hbundle : t.forward.bundle = s.forward.bundle := by rfl) (hwriter : t.writer = s.writer := by rfl)
    (hsent : t.sent = s.sent := by rfl) : Returning t r := by
  rw [Returning, hforwarder, hbundle, hwriter, hsent]
  exact h

/-- In rings with room nothing on that way gets lost. -/
theorem Returning.step (h : Returning s r) (hroomy : Roomy e) (hnext : (pipeline search).next s e = some t) :
    Returning t r := by
  cases pipeline_cases hnext with
  | receive | receiveNothing | pushWork | popWork | parse | passForward => exact h.congr
  | popForward id ring hforwarder => exact h.of_forwarder (by simp [hforwarder]) (by simp [hforwarder])
  | ask id n flags links hforwarder => exact h.of_forwarder (by simp [hforwarder]) (by simp [hforwarder])
  | respond fuel buff bufflen item links seen n visits stored hforwarder =>
      exact h.of_forwarder (by simp [hforwarder]) (by simp [hforwarder])
  | passBundle room id =>
      obtain rfl : room = true := hroomy
      exact h.imp_right (Or.imp_right (Or.imp_left (List.mem_append_left _)))
  | insert item n hforwarder =>
      rcases h with hanswered | hinserted | h
      · obtain rfl := Forwarder.answered.inj (hforwarder.symm.trans hanswered)
        exact Or.inr (Or.inl rfl)
      · exact absurd (hforwarder.symm.trans hinserted) (by simp)
      · exact Or.inr (Or.inr h)
  | pushBundle room item hforwarder =>
      obtain rfl : room = true := hroomy
      rcases h with hanswered | hinserted | hbundle | h
      · exact absurd (hforwarder.symm.trans hanswered) (by simp)
      · obtain rfl := Forwarder.inserted.inj (hforwarder.symm.trans hinserted)
        exact Or.inr (Or.inr (Or.inl (List.mem_append_right _ List.mem_cons_self)))
      · exact Or.inr (Or.inr (Or.inl (List.mem_append_left _ hbundle)))
      · exact Or.inr (Or.inr (Or.inr h))
  | popBundle item ring hwriter hbundle =>
      rcases h with h | h | hmem | hwriting | h
      · exact Or.inl h
      · exact Or.inr (Or.inl h)
      · rw [hbundle] at hmem
        rcases List.mem_cons.mp hmem with rfl | hmem
        · exact Or.inr (Or.inr (Or.inr (Or.inl rfl)))
        · exact Or.inr (Or.inr (Or.inl hmem))
      · exact absurd (hwriter.symm.trans hwriting) (by simp)
      · exact Or.inr (Or.inr (Or.inr (Or.inr h)))
  | writeBack item n hwriter =>
      rcases h with h | h | h | hwriting | ⟨x, hx, hitem⟩
      · exact Or.inl h
      · exact Or.inr (Or.inl h)
      · exact Or.inr (Or.inr (Or.inl h))
      · obtain rfl := Option.some.inj (hwriter.symm.trans hwriting)
        exact Or.inr (Or.inr (Or.inr (Or.inr ⟨_, List.mem_append_right _ List.mem_cons_self, rfl⟩)))
      · exact Or.inr (Or.inr (Or.inr (Or.inr ⟨x, List.mem_append_left _ hx, hitem⟩)))

/-- At rest the reply has been sent. -/
theorem Returning.sent_of_work (h : Returning s r) (hwork : s.work = 0) : ∃ x ∈ s.sent, x.item = r := by
  rw [Pipeline.work] at hwork
  have hforwarder : s.forwarder.work = 0 := by omega
  have hbundle : s.forward.bundle = [] := List.length_eq_zero_iff.mp (by omega)
  have hwriter : s.writer.toList = [] := List.length_eq_zero_iff.mp (by omega)
  rcases h with h | h | h | h | h
  · exact absurd hforwarder (by simp [h, Forwarder.work])
  · exact absurd hforwarder (by simp [h, Forwarder.work])
  · exact absurd h (by simp [hbundle])
  · exact absurd hwriter (by simp [h])
  · exact h

/-! ### A response -/

/-- A response for a request that waits is taken for one that has its ID. -/
theorem Owned.exists_returning (hs : Owned s T) {fuel : Nat} {buff : Int → Byte} {bufflen : Int}
    (hanswering : Answering s (.respond fuel buff bufflen))
    (hnext : (pipeline search).next s (.respond fuel buff bufflen) = some t) :
    ∃ rec ∈ s.received, Waits s.forward rec.id ∧ HasIden s.forward (load16 (buff 0) (buff 1)) rec.id ∧
      Returning t (.node rec.id) := by
  cases pipeline_cases hnext with
  | respond _ _ _ item links seen n visits stored _ hmatch =>
      obtain ⟨⟨h, id, hid, rfl⟩, hiden⟩ := hs.exists_match hanswering hmatch
      obtain ⟨-, rec, hrec, hr, -⟩ := hs.content (.pending h) _ (List.mem_map_of_mem hid)
      obtain rfl := Ref.node.inj hr
      exact ⟨rec, hrec, hs.table.waits_iff.mpr ⟨h, hid⟩, hiden, Or.inl rfl⟩

/-- The first two bytes of a datagram with this ID. -/
def withIden (iden : BitVec 16) (i : Int) : Byte :=
  if i = 0 then iden.extractLsb' 0 8 else if i = 1 then iden.extractLsb' 8 8 else 0

theorem load16_withIden (iden : BitVec 16) : load16 (withIden iden 0) (withIden iden 1) = iden := by
  change iden.extractLsb' 8 8 ++ iden.extractLsb' 0 8 = iden
  ext i hi
  rw [BitVec.getElem_append]
  split
  next h => simp [BitVec.getLsbD_eq_getElem (show i < 16 from hi)]
  next h => simp [Nat.add_sub_cancel' (not_lt.mp h), BitVec.getLsbD_eq_getElem (show i < 16 from hi)]

/-- For a request that waits there is a response that the daemon takes: its header will do. -/
theorem Standing.exists_response (hs : Standing s T) (hforwarder : s.forwarder = .idle) {id : Nat}
    (hwaits : Waits s.forward id) : ∃ fuel buff t, Answering s (.respond fuel buff 12) ∧
      (pipeline search).next s (.respond fuel buff 12) = some t := by
  have hT := hs.owned.table
  obtain ⟨h, hid⟩ := hT.waits_iff.mp hwaits
  obtain ⟨n, hn, hhash⟩ := hT.hashed h id hid
  have hiden : HasIden s.forward (load16 (withIden n.iden 0) (withIden n.iden 1)) id :=
    ⟨n, hn, (load16_withIden n.iden).symm⟩
  refine ⟨(T h).length + 1, withIden n.iden, ?_⟩
  have hlist : integerHash (load16 (withIden n.iden 0) (withIden n.iden 1)) = h := by rw [load16_withIden, hhash]
  rcases exists_first (HasIden s.forward (load16 (withIden n.iden 0) (withIden n.iden 1))) (T h) with
    hnone | ⟨pre, id', post, hsplit, ⟨n', hn', hiden'⟩, hpre⟩
  · exact absurd hiden (hnone id hid)
  have hmem : id' ∈ T h := hsplit ▸ List.mem_append_right _ List.mem_cons_self
  have hlength : pre.length < (T h).length + 1 := by
    rw [hsplit, List.length_append]
    omega
  have hpre' : ∀ a ∈ pre, ∃ n', s.forward.node (.node a) = some n' ∧
      n'.iden ≠ load16 (withIden n.iden 0) (withIden n.iden 1) :=
    fun a ha => hT.of_not_hasIden (hsplit ▸ List.mem_append_left _ ha) (hpre a ha)
  obtain ⟨links, hmatch, -⟩ := hT.matchItem_hit (hlist ▸ hsplit) hn' hiden' hpre' hlength
  obtain ⟨_, -, -, q, -, hstands⟩ := hs.of_kept (p := .pending h) (List.mem_map_of_mem hmem) (fun _ _ h => h) hn'
  -- the response ends before the walk begins
  have hwalk : walk (withIden n.iden) 12 ((T h).length + 1) (answerPos n') = some ([], none) := by
    rw [walk, if_pos]
    rw [answerPos, hstands.parsed.hostLen]
    omega
  have hsome : ((pipeline search).next s (.respond ((T h).length + 1) (withIden n.iden) 12)).isSome := by
    simp [pipeline, Pipeline.respond, hforwarder, hmatch, readItem, hn', hwalk]
  obtain ⟨t, ht⟩ := Option.isSome_iff_exists.mp hsome
  exact ⟨t, ⟨id, hwaits, hiden⟩, ht⟩

/-! ### Request by request -/

/-- No client sends anything. -/
def NoReceive (e : PipelineStep) : Prop := ∀ fd cliaddr bytes, e ≠ .receive fd cliaddr bytes

theorem noReceive_of_internal (he : Internal e) : NoReceive e := by
  rintro fd cliaddr bytes rfl
  exact he

theorem Effect.sent_prefix (h : Effect search s T e t T') : s.sent <+: t.sent := by
  rcases h.sent_cases with heq | ⟨_, _, -, -, -, heq⟩
  · exact heq ▸ List.prefix_rfl
  · exact heq ▸ List.prefix_append _ _

theorem Effect.received_eq (h : Effect search s T e t T') (he : NoReceive e) : t.received = s.received := by
  rcases h.received_cases with heq | ⟨rec, -, hreceive, -⟩
  · exact heq
  · exact absurd hreceive (he _ _ _)

/-- What a run without new queries leaves: replies are only added. -/
theorem logs_of_run (hs : (pipeline search).Reachable Unhindered s) {es : List PipelineStep}
    (hrun : (pipeline search).Run (fun s e => Unhindered s e ∧ NoReceive e) s es t) :
    (pipeline search).Reachable Unhindered t ∧ s.sent <+: t.sent ∧ t.received = s.received := by
  apply hrun.preserves (I := fun t =>
    (pipeline search).Reachable Unhindered t ∧ s.sent <+: t.sent ∧ t.received = s.received) _
    ⟨hs, List.prefix_rfl, rfl⟩
  intro t e u ht he hnext
  obtain ⟨hreachable, hsent, hreceived⟩ := ht
  obtain ⟨T, howned, -⟩ := exists_accounted hreachable
  obtain ⟨T', -, heffect⟩ := howned.effect he.1.1.1 hnext
  exact ⟨hreachable.step he.1 hnext, hsent.trans heffect.sent_prefix, (heffect.received_eq he.2).trans hreceived⟩

/-- There are no more replies than queries. -/
theorem Logged.sent_le (hs : Logged s) : s.sent.length ≤ s.received.length := by
  have hnodup : (s.sent.map Sent.item).Nodup := hs.sent_freed ▸ hs.freed_nodup
  have hsubset : s.sent.map Sent.item ⊆ s.received.map fun rec => Ref.node rec.id := by
    intro r hr
    obtain ⟨x, hx, rfl⟩ := List.mem_map.mp hr
    obtain ⟨rec, hrec, hitem, -⟩ := hs.sent x hx
    exact List.mem_map.mpr ⟨rec, hrec, hitem.symm⟩
  have hlength := (List.subperm_of_subset hnodup hsubset).length_le
  rwa [List.length_map, List.length_map] at hlength

/-- No reply has been sent to a request that waits. -/
theorem Logged.not_sent_of_waits (hs : Logged s) (hT : Table s.forward T) {id : Nat} (hwaits : Waits s.forward id) :
    ∀ x ∈ s.sent, x.item ≠ .node id := by
  intro x hx hitem
  obtain ⟨h, hid⟩ := hT.waits_iff.mp hwaits
  obtain ⟨n, hn, -⟩ := hT.hashed h id hid
  have hfreed : Ref.node id ∈ s.freed := hs.sent_freed ▸ hitem ▸ List.mem_map_of_mem hx
  obtain ⟨-, -, -, hgone⟩ := hs.freed_gone _ hfreed
  exact absurd (hgone.symm.trans hn).symm (Option.some_ne_none n)

theorem forwarder_of_work (hwork : s.work = 0) : s.forwarder = .idle := by
  rw [Pipeline.work] at hwork
  have hforwarder : s.forwarder.work = 0 := by omega
  cases hf : s.forwarder <;> simp_all [Forwarder.work]

/-- At rest, a request that waits can be answered, and the daemon come to rest again. -/
theorem exists_reply (hs : (pipeline search).Reachable Unhindered s) (hwork : s.work = 0) {id : Nat}
    (hwaits : Waits s.forward id) : ∃ es t, (pipeline search).Run (fun s e => Unhindered s e ∧ NoReceive e) s es t ∧
      t.work = 0 ∧ s.sent.length < t.sent.length := by
  have hwell : (pipeline search).Reachable WellBehaved s := hs.weaken fun _ _ _ _ h => h.1
  have hlogged := logged_of_reachable (hwell.weaken fun _ _ _ _ h => h.1)
  obtain ⟨T, hstanding⟩ := exists_standing hwell
  obtain ⟨fuel, buff, t, hanswering, hnext⟩ := hstanding.exists_response (forwarder_of_work hwork) hwaits
  obtain ⟨rec, -, hrec, -, hreturning⟩ := hstanding.owned.exists_returning hanswering hnext
  have hunhindered : Unhindered s (.respond fuel buff 12) := ⟨⟨hanswering, fun _ _ _ h => by cases h⟩, trivial⟩
  obtain ⟨es, u, hrest, -, hu⟩ := exists_rest (hs.step hunhindered hnext)
  have hback : Returning u (.node rec.id) :=
    hrest.preserves (I := (Returning · (.node rec.id))) (fun _ _ _ h he hnext => h.step he.2 hnext) hreturning
  have hinternal : (pipeline search).Run (fun s e => Unhindered s e ∧ NoReceive e) t es u :=
    hrest.weaken fun _ _ he => ⟨⟨wellBehaved_of_internal he.1, he.2⟩, noReceive_of_internal he.1⟩
  have hrun : (pipeline search).Run (fun s e => Unhindered s e ∧ NoReceive e) s (.respond fuel buff 12 :: es) u :=
    .cons ⟨hunhindered, fun _ _ _ h => by cases h⟩ hnext hinternal
  refine ⟨_, u, hrun, hu, ?_⟩
  obtain ⟨x, hx, hitem⟩ := hback.sent_of_work hu
  obtain ⟨-, hprefix, -⟩ := logs_of_run hs hrun
  refine lt_of_le_of_ne hprefix.length_le fun hlength => ?_
  rw [← hprefix.eq_of_length hlength] at hx
  exact hlogged.not_sent_of_waits hstanding.owned.table hrec x hx hitem

/-- A state of rest that the queries of `s` lead to. -/
structure RestOf (search : List Insertion → (Nat → Byte) → Int → Ipv4) (s t : Pipeline) : Prop where
  reachable : (pipeline search).Reachable Unhindered t
  work : t.work = 0
  received : t.received = s.received

/-- Each reply uses up one query that had none. -/
theorem RestOf.exists_next (ht : RestOf search s t) (hwaits : ¬∀ rec ∈ t.received, ¬Waits t.forward rec.id) :
    ∃ es u, (pipeline search).Run (fun s e => Unhindered s e ∧ NoReceive e) t es u ∧ RestOf search s u ∧
      s.received.length - u.sent.length < s.received.length - t.sent.length := by
  push Not at hwaits
  obtain ⟨rec, -, hwaits⟩ := hwaits
  obtain ⟨es, u, hrun, hwork, hlt⟩ := exists_reply ht.reachable ht.work hwaits
  obtain ⟨hreachable, -, hreceived⟩ := logs_of_run ht.reachable hrun
  have hanswering : (pipeline search).Reachable Answering u := hreachable.weaken fun _ _ _ _ h => h.1.1
  have hle := (logged_of_reachable hanswering).sent_le
  rw [hreceived, ht.received] at hle
  exact ⟨es, u, hrun, ⟨hreachable, hwork, hreceived.trans ht.received⟩, by omega⟩

/-- Reply by reply, until no query waits. -/
theorem exists_all_answered (hs : (pipeline search).Reachable Unhindered s) :
    ∃ es t, (pipeline search).Run (fun s e => Unhindered s e ∧ NoReceive e) s es t ∧ RestOf search s t ∧
      ∀ rec ∈ t.received, ¬Waits t.forward rec.id := by
  obtain ⟨es, t, hrest, -, hwork⟩ := exists_rest hs
  have hfirst : (pipeline search).Run (fun s e => Unhindered s e ∧ NoReceive e) s es t :=
    hrest.weaken fun _ _ he => ⟨⟨wellBehaved_of_internal he.1, he.2⟩, noReceive_of_internal he.1⟩
  obtain ⟨hreachable, -, hreceived⟩ := logs_of_run hs hfirst
  obtain ⟨fs, u, hrun, hu, hnone⟩ := Machine.Run.exists_done (fun t => s.received.length - t.sent.length)
    (fun _ => RestOf.exists_next) (RestOf.mk hreachable hwork hreceived)
  exact ⟨es ++ fs, u, hfirst.append hrun, hu, hnone⟩

/-- With well-behaved clients and servers, and room in the rings: a response that the daemon takes is taken for a query
that was received and waits with its ID, and whatever happens then, this query has been answered whenever the daemon is
at rest. And from every state the daemon can be brought, by responses alone, to one in which each query it has received
has been answered or is rejected. -/
theorem queries_answered (hs : (pipeline search).Reachable Unhindered s) :
    (∀ fuel buff bufflen t, Answering s (.respond fuel buff bufflen) →
      (pipeline search).next s (.respond fuel buff bufflen) = some t →
      ∃ rec ∈ s.received, Waits s.forward rec.id ∧ HasIden s.forward (load16 (buff 0) (buff 1)) rec.id ∧
        ∀ es u, (pipeline search).Run Unhindered t es u → u.work = 0 → ∃ x ∈ u.sent, x.item = .node rec.id) ∧
    ∃ es t, (pipeline search).Run (fun s e => Unhindered s e ∧ NoReceive e) s es t ∧ t.received = s.received ∧
      ∀ rec ∈ s.received, (∃ x ∈ t.sent, x.item = .node rec.id) ∨ Rejected rec := by
  constructor
  · intro fuel buff bufflen t hanswering hnext
    obtain ⟨T, howned, -⟩ := exists_accounted hs
    obtain ⟨rec, hrec, hwaits, hiden, hreturning⟩ := howned.exists_returning hanswering hnext
    refine ⟨rec, hrec, hwaits, hiden, fun es u hrun hwork => ?_⟩
    have hback : Returning u (.node rec.id) :=
      hrun.preserves (I := (Returning · (.node rec.id))) (fun _ _ _ h he hnext => h.step he.2 hnext) hreturning
    exact hback.sent_of_work hwork
  · obtain ⟨es, t, hrun, ht, hnone⟩ := exists_all_answered hs
    refine ⟨es, t, hrun, ht.received, fun rec hrec => ?_⟩
    have hrec : rec ∈ t.received := ht.received ▸ hrec
    rcases settled_of_work ht.reachable ht.work rec hrec with hsent | hwaits | hrejected
    · exact Or.inl hsent
    · exact absurd hwaits (hnone rec hrec)
    · exact Or.inr hrejected

instance : (e : PipelineStep) → Decidable (Roomy e)
  | .pushWork room | .pass room | .pushBundle room => inferInstanceAs (Decidable (room = true))
  | .receive .. | .popWork | .parse | .popForward | .ask | .respond .. | .insert | .popBundle | .writeBack => .isTrue trivial

theorem Received.not_rejected {rec : Received} {q : Query} (h : rec.bytes = q.encode) : ¬Rejected rec := by
  intro hrejected
  apply hrejected (fun _ _ => 0) (q.parsed rec.fd rec.cliaddr)
  rw [Received.node, h]
  exact q.accepts_parsed rec.fd rec.cliaddr

/-- The query for `a` has been asked upstream, and nothing else is left to do. -/
theorem exists_waiting : ∃ s, (pipeline fun _ _ _ => 0).Reachable Unhindered s ∧ s.work = 0 ∧ s.sent = [] ∧
    s.received.length = 1 ∧ ∀ rec ∈ s.received, Waits s.forward rec.id := by
  have hstart : (pipeline fun _ _ _ => 0).start (Pipeline.initial fun _ => none) := ⟨_, fun _ => rfl, rfl⟩
  obtain ⟨s, hs, hobserved⟩ : ∃ s, (pipeline fun _ _ _ => 0).Reachable (fun s e => OneClient s e ∧ Roomy e) s ∧ _ :=
    Machine.Reachable.of_replay hstart
      [.receive 3 ⟨5, 6⟩ (Query.single (0x12, 0x34) 0x61).encode, .pushWork true, .popWork, .parse, .pass true, .popForward,
        .ask]
      (f := fun s => (s.work, s.sent.length, s.received.map Received.bytes))
      (v := (0, 0, [(Query.single (0x12, 0x34) 0x61).encode])) (by decide +kernel)
  obtain ⟨hwork, hlogs⟩ := Prod.mk.inj hobserved
  obtain ⟨hsent, hreceived⟩ := Prod.mk.inj hlogs
  have hs : (pipeline fun _ _ _ => 0).Reachable Unhindered s :=
    hs.weaken fun _ e _ _ h => ⟨wellBehaved_of_oneClient e h.1, h.2⟩
  have hsent : s.sent = [] := List.length_eq_zero_iff.mp hsent
  refine ⟨s, hs, hwork, hsent, by simpa using congrArg List.length hreceived, fun rec hrec => ?_⟩
  have hbytes : rec.bytes ∈ s.received.map Received.bytes := List.mem_map_of_mem hrec
  rw [hreceived, List.mem_singleton] at hbytes
  rcases settled_of_work hs hwork rec hrec with ⟨x, hx, -⟩ | hwaits | hrejected
  · exact absurd (hsent ▸ hx) List.not_mem_nil
  · exact hwaits
  · exact absurd hrejected (Received.not_rejected hbytes)

theorem queries_answered_waiting : ∃ s, s.received.length = 1 ∧ s.sent = [] ∧
    (∃ fuel buff t, (pipeline fun _ _ _ => 0).next s (.respond fuel buff 12) = some t ∧
      ∃ rec ∈ s.received, Waits s.forward rec.id ∧ HasIden s.forward (load16 (buff 0) (buff 1)) rec.id ∧
        ∀ es u, (pipeline fun _ _ _ => 0).Run Unhindered t es u → u.work = 0 → ∃ x ∈ u.sent, x.item = .node rec.id) ∧
    ∃ es t, (pipeline fun _ _ _ => 0).Run (fun s e => Unhindered s e ∧ NoReceive e) s es t ∧ t.received = s.received ∧
      ∀ rec ∈ s.received, (∃ x ∈ t.sent, x.item = .node rec.id) ∨ Rejected rec := by
  obtain ⟨s, hs, hwork, hsent, hone, hwaits⟩ := exists_waiting
  obtain ⟨T, hstanding⟩ := exists_standing (hs.weaken fun _ _ _ _ h => h.1)
  obtain ⟨rec, hrec⟩ := List.exists_mem_of_length_pos (hone ▸ Nat.one_pos)
  obtain ⟨fuel, buff, t, hanswering, hnext⟩ := hstanding.exists_response (forwarder_of_work hwork) (hwaits rec hrec)
  obtain ⟨hresponse, hall⟩ := queries_answered hs
  exact ⟨s, hone, hsent, ⟨fuel, buff, t, hnext, hresponse fuel buff 12 t hanswering hnext⟩, hall⟩

end SimpDserver.Daemon

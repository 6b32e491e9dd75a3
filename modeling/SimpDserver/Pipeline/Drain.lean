import SimpDserver.Pipeline.Changes
import SimpDserver.Work.Asked

/-!
# The daemon comes to rest

Between two datagrams the threads have only so much to do: every step of theirs brings some request nearer to its
reply or to the table of pending requests, and none is far from it. When there is nothing left to do, every query
that was received has been answered, waits for its response, or is none the parser accepts.
-/

namespace SimpDserver.Daemon

open Custody Transition

variable {search : List Insertion → (Nat → Byte) → Int → Ipv4} {s t : Pipeline} {T T' : BitVec 32 → List Nat}
  {e : PipelineStep}

/-- The steps that need no datagram. -/
def Internal : PipelineStep → Prop
  | .receive .. | .respond .. => False
  | _ => True

/-- The rings have room. -/
def Roomy : PipelineStep → Prop
  | .pushWork room | .pass room | .pushBundle room => room = true
  | _ => True

def Worker.work : Worker → Nat
  | .idle => 0
  | .parsing _ => 4
  | .passing .. => 3

def Forwarder.work : Forwarder → Nat
  | .idle => 0
  | .asking _ => 1
  | .answered _ => 4
  | .inserted _ => 3

/-- How many steps the requests can take at most until each is pending or freed: six from the udp callback on. -/
def Pipeline.work (s : Pipeline) : Nat :=
  6 * s.udp.toList.length + 5 * s.workRing.length + s.worker.work + 2 * s.forwardRing.length + s.forwarder.work +
    2 * s.forward.bundle.length + s.writer.toList.length

/-! ### One step -/

theorem ringEnqueue_length_le (ring : List Nat) (room : Bool) (id : Nat) :
    (ringEnqueue ring room id).length ≤ ring.length + 1 := by
  cases room <;> simp [ringEnqueue]

theorem bundleEnqueue_length_le (forward : Forward) (room : Bool) (item : Ref) :
    (bundleEnqueue forward room item).bundle.length ≤ forward.bundle.length + 1 := by
  cases room <;> simp [bundleEnqueue]

theorem elim_work_lt (passed : Option Queue) (id : Nat) : (passed.elim Worker.idle (Worker.passing id)).work < 4 := by
  cases passed <;> simp [Worker.work]

/-- A step of the threads leaves less work. -/
theorem work_lt (he : Internal e) (h : (pipeline search).next s e = some t) : t.work < s.work := by
  cases pipeline_cases h with
  | receive => exact absurd he id
  | receiveNothing => exact absurd he id
  | respond => exact absurd he id
  | pushWork room id hudp =>
      have := ringEnqueue_length_le s.workRing room id
      simp only [Pipeline.work, hudp, Option.toList_some, Option.toList_none, List.length_singleton, List.length_nil]
      omega
  | popWork id ring hworker hring =>
      simp only [Pipeline.work, hworker, hring, Worker.work, List.length_cons]
      omega
  | parse id n res hworker =>
      have := elim_work_lt res.passed id
      have hparsing : s.worker.work = 4 := hworker ▸ rfl
      simp only [Pipeline.work, Forward.deliver]
      omega
  | passForward room id hworker =>
      have := ringEnqueue_length_le s.forwardRing room id
      simp only [Pipeline.work, hworker, Worker.work]
      omega
  | passBundle room id hworker =>
      have := bundleEnqueue_length_le s.forward room (.node id)
      simp only [Pipeline.work, hworker, Worker.work]
      omega
  | popForward id ring hforwarder hring =>
      simp only [Pipeline.work, hforwarder, hring, Forwarder.work, List.length_cons]
      omega
  | ask id n flags links hforwarder =>
      simp only [Pipeline.work, hforwarder, Forwarder.work]
      omega
  | insert item n hforwarder =>
      simp only [Pipeline.work, hforwarder, Forwarder.work]
      omega
  | pushBundle room item hforwarder =>
      have := bundleEnqueue_length_le s.forward room item
      simp only [Pipeline.work, hforwarder, Forwarder.work]
      omega
  | popBundle item ring hwriter hbundle =>
      simp only [Pipeline.work, hwriter, hbundle, Option.toList_some, Option.toList_none, List.length_cons, List.length_nil]
      omega
  | writeBack item n hwriter =>
      simp only [Pipeline.work, hwriter, Option.toList_some, Option.toList_none, List.length_singleton, List.length_nil]
      omega

/-- As long as there is work, some thread can do a step of it. -/
theorem Ready.exists_next (hs : Ready search s) (hwork : s.work ≠ 0) :
    ∃ e t, (Internal e ∧ Roomy e) ∧ (pipeline search).next s e = some t := by
  have next : ∀ {e}, Internal e → Roomy e → ((pipeline search).next s e).isSome →
      ∃ e t, (Internal e ∧ Roomy e) ∧ (pipeline search).next s e = some t := fun he hroom hsome => by
    obtain ⟨t, ht⟩ := Option.isSome_iff_exists.mp hsome
    exact ⟨_, t, ⟨he, hroom⟩, ht⟩
  cases hudp : s.udp with
  | some id => exact next (e := .pushWork true) trivial rfl (by simp [pipeline, Pipeline.pushWork, hudp])
  | none =>
  cases hworker : s.worker with
  | parsing id => exact next (e := .parse) trivial trivial (hs.parse id hworker)
  | passing id queue =>
      exact next (e := .pass true) trivial rfl (by cases queue <;> simp [pipeline, Pipeline.pass, hworker])
  | idle =>
  cases hforwarder : s.forwarder with
  | asking id => exact next (e := .ask) trivial trivial (hs.ask id hforwarder)
  | answered item => exact next (e := .insert) trivial trivial (hs.insert item hforwarder)
  | inserted item =>
      exact next (e := .pushBundle true) trivial rfl (by simp [pipeline, Pipeline.pushBundle, hforwarder])
  | idle =>
  cases hwriter : s.writer with
  | some item => exact next (e := .writeBack) trivial trivial (hs.writeBack item hwriter)
  | none =>
  cases hring : s.workRing with
  | cons id ring => exact next (e := .popWork) trivial trivial (by simp [pipeline, Pipeline.popWork, hworker, hring])
  | nil =>
  cases hforward : s.forwardRing with
  | cons id ring =>
      exact next (e := .popForward) trivial trivial (by simp [pipeline, Pipeline.popForward, hforwarder, hforward])
  | nil =>
  cases hbundle : s.forward.bundle with
  | cons item ring =>
      exact next (e := .popBundle) trivial trivial (by simp [pipeline, Pipeline.popBundle, hwriter, hbundle])
  | nil => exact absurd (by simp [Pipeline.work, Worker.work, Forwarder.work, *]) hwork

/-- Without work, what is held is pending. -/
theorem pending_of_work (hwork : s.work = 0) {p : Place} {r : Ref} (hr : r ∈ s.holds T p) : ∃ h, p = .pending h := by
  rw [Pipeline.work] at hwork
  have hudp : s.udp.toList = [] := List.length_eq_zero_iff.mp (by omega)
  have hring : s.workRing = [] := List.length_eq_zero_iff.mp (by omega)
  have hworker : s.worker.work = 0 := by omega
  have hforward : s.forwardRing = [] := List.length_eq_zero_iff.mp (by omega)
  have hforwarder : s.forwarder.work = 0 := by omega
  have hbundle : s.forward.bundle = [] := List.length_eq_zero_iff.mp (by omega)
  have hwriter : s.writer.toList = [] := List.length_eq_zero_iff.mp (by omega)
  cases p with
  | pending h => exact ⟨h, rfl⟩
  | udp => simp [Pipeline.holds, hudp] at hr
  | workRing => simp [Pipeline.holds, hring] at hr
  | forwardRing => simp [Pipeline.holds, hforward] at hr
  | bundle => simp [Pipeline.holds, hbundle] at hr
  | writing => simp [Pipeline.holds, hwriter] at hr
  | parsing | passing => cases hw : s.worker <;> simp_all [Pipeline.holds, Worker.work]
  | asking | answering => cases hf : s.forwarder <;> simp_all [Pipeline.holds, Forwarder.work]

/-! ### What becomes of the queries -/

/-- The parser does not accept the query, whatever the cache says. -/
def Rejected (rec : Received) : Prop := ∀ search parsed, ¬Accepts search rec.node parsed

theorem WellFormed.rejected {rec : Received} (hrec : WellFormed rec.bytes) {search : (Nat → Byte) → Int → Ipv4}
    (h : ¬∃ parsed, Accepts search rec.node parsed) : Rejected rec := by
  intro search' parsed haccepts
  obtain ⟨queue, hres⟩ := haccepts
  obtain ⟨q, hasks, -⟩ := hrec.query hres (Option.some_ne_none queue)
  apply h
  have heq := q.insideParser_eq search rec.fd rec.cliaddr
  rw [hasks, received_take, Query.passedOn] at heq
  split at heq <;> exact ⟨_, _, heq⟩

/-- Every query received is held, has been answered, or is rejected. -/
def Accounted (s : Pipeline) (T : BitVec 32 → List Nat) : Prop :=
  ∀ rec ∈ s.received, Held (s.holds T) (.node rec.id) ∨ (∃ x ∈ s.sent, x.item = .node rec.id) ∨ Rejected rec

/-- When the parser lets go of a node, it is the one it has worked on. -/
theorem Owned.dropped_by_parse (hs : Owned s T) (hnext : (pipeline search).next s .parse = some t)
    (htable : Table t.forward T') {p : Place} {r : Ref} (hr : r ∈ s.holds T p) (hgone : ¬Held (t.holds T') r) :
    ∃ id, s.worker = .parsing id ∧ r = .node id := by
  cases pipeline_cases hnext with
  | parse id n res hworker =>
      obtain rfl : T' = T := hs.table.eq_of_links htable rfl
      refine ⟨id, hworker, ?_⟩
      cases p with
      | parsing => simpa [Pipeline.holds, hworker] using hr
      | passing => simp [Pipeline.holds, hworker] at hr
      | udp => exact absurd ⟨.udp, hr⟩ hgone
      | workRing => exact absurd ⟨.workRing, hr⟩ hgone
      | forwardRing => exact absurd ⟨.forwardRing, hr⟩ hgone
      | asking => exact absurd ⟨.asking, hr⟩ hgone
      | pending h => exact absurd ⟨.pending h, hr⟩ hgone
      | answering => exact absurd ⟨.answering, hr⟩ hgone
      | bundle => exact absurd ⟨.bundle, hr⟩ hgone
      | writing => exact absurd ⟨.writing, hr⟩ hgone

theorem allocated_receive {fd : Int} {cliaddr : SockAddr} {bytes : List Byte}
    (h : (pipeline search).next s (.receive fd cliaddr bytes) = some t) : t.allocated = s.allocated + 1 := by
  cases pipeline_cases h <;> rfl

theorem Accounted.step (hs : Accounted s T) (howned : Owned s T) (hlogged : Logged s)
    (hwell : ∀ rec ∈ s.received, WellFormed rec.bytes) (hroomy : Roomy e) (hnext : (pipeline search).next s e = some t)
    (htable : Table t.forward T') (h : Effect search s T e t T') : Accounted t T' := by
  cases h with
  | alloc rec _ _ _ holds _ _ received sent =>
      rw [Accounted, received, List.forall_mem_append, List.forall_mem_singleton, holds, sent]
      refine ⟨fun rec' hrec' => ?_, Or.inl (held_give.mpr (Or.inr rfl))⟩
      exact (hs rec' hrec').imp_left fun hheld => held_give.mpr (Or.inl hheld)
  | lose _ _ holds _ _ received sent =>
      rw [Accounted, received, holds, sent]
      exact hs
  | move p q r n n' mem _ _ holds _ logs =>
      rw [Accounted, logs.received, holds, logs.sent]
      exact fun rec hrec => (hs rec hrec).imp_left (howned.exclusive.held_move mem).mpr
  | drop dropping p r n n' mem hn holds node logs =>
      rw [Accounted, logs.received, logs.sent]
      intro rec hrec
      rcases hs rec hrec with hheld | hrest
      · by_cases hr : .node rec.id = r
        · have hgone : ¬Held (t.holds T') r := by
            rw [holds, howned.exclusive.held_remove mem]
            exact fun h => h.2 rfl
          cases e with
          | parse =>
              obtain ⟨id, m, hworker, hm, hnot⟩ := dropping
              obtain ⟨id', hworker', rfl⟩ := howned.dropped_by_parse hnext htable mem hgone
              obtain rfl : id' = id := Worker.parsing.inj (hworker'.symm.trans hworker)
              obtain ⟨rec', hrec', hid, rfl⟩ := howned.parsing hworker hm
              obtain rfl := hlogged.eq_of_id hrec hrec' ((Ref.node.inj hr).trans hid.symm)
              exact Or.inr (Or.inr ((hwell rec hrec).rejected hnot))
          | receive => exact absurd (logs.allocated.symm.trans (allocated_receive hnext)) (Nat.succ_ne_self _).symm
          | pushWork | pass | pushBundle => exact absurd (hroomy.symm.trans dropping) (by decide)
          | _ => exact absurd dropping id
        · rw [holds, howned.exclusive.held_remove mem]
          exact Or.inl ⟨hheld, hr⟩
      · exact Or.inr hrest
  | free r n mem _ holds _ _ received sent =>
      rw [Accounted, received, holds, sent]
      intro rec hrec
      rcases hs rec hrec with hheld | ⟨x, hx, hitem⟩ | hrejected
      · by_cases hr : .node rec.id = r
        · exact Or.inr (Or.inl ⟨_, List.mem_append_right _ List.mem_cons_self, hr.symm⟩)
        · exact Or.inl ((howned.exclusive.held_remove mem).mpr ⟨hheld, hr⟩)
      · exact Or.inr (Or.inl ⟨x, List.mem_append_left _ hx, hitem⟩)
      · exact Or.inr (Or.inr hrejected)

/-- The clients and the upstream server are well-behaved, and the rings have room. -/
def Unhindered (s : Pipeline) (e : PipelineStep) : Prop := WellBehaved s e ∧ Roomy e

theorem exists_accounted (hs : (pipeline search).Reachable Unhindered s) :
    ∃ T, Owned s T ∧ Accounted s T := by
  refine (hs.invariant (I := fun s => (∃ T, Owned s T ∧ Accounted s T) ∧ (pipeline search).Reachable WellBehaved s) ?_ ?_).1
  · intro s hstart
    refine ⟨?_, .start hstart⟩
    obtain ⟨node, hnode, rfl⟩ := hstart
    exact ⟨_, Owned.start hnode, fun rec hrec => absurd hrec List.not_mem_nil⟩
  · intro s e t hs hunhindered hnext
    obtain ⟨⟨T, howned, haccounted⟩, hreachable⟩ := hs
    obtain ⟨hbehaved, hroomy⟩ := hunhindered
    obtain ⟨T', htable, heffect⟩ := howned.effect hbehaved.1 hnext
    have hlogged := logged_of_reachable (hreachable.weaken fun _ _ _ _ h => h.1)
    exact ⟨⟨T', howned.step htable heffect, haccounted.step howned hlogged (wellFormed_of_reachable hreachable) hroomy
      hnext htable heffect⟩, hreachable.step hbehaved hnext⟩

theorem wellBehaved_of_internal (he : Internal e) : WellBehaved s e := by
  cases e with
  | receive => exact absurd he id
  | respond => exact absurd he id
  | _ => exact ⟨trivial, fun _ _ _ h => by cases h⟩

theorem reachable_ready (hs : (pipeline search).Reachable Unhindered s) : Ready search s := by
  have hwell : (pipeline search).Reachable WellBehaved s := hs.weaken fun _ _ _ _ h => h.1
  obtain ⟨T, howned, -⟩ := exists_accounted hs
  exact howned.ready (wellFormed_of_reachable hwell)

/-- The threads can come to rest. -/
theorem exists_rest (hs : (pipeline search).Reachable Unhindered s) :
    ∃ es t, (pipeline search).Run (fun _ e => Internal e ∧ Roomy e) s es t ∧ (pipeline search).Reachable Unhindered t ∧
      t.work = 0 := by
  apply Machine.Run.exists_done Pipeline.work _ hs
  intro s hs hwork
  obtain ⟨e, t, he, hnext⟩ := (reachable_ready hs).exists_next hwork
  exact ⟨[e], t, .single he hnext, hs.step ⟨wellBehaved_of_internal he.1, he.2⟩ hnext, work_lt he.1 hnext⟩

/-- At rest every query has been answered, waits, or is rejected. -/
theorem settled_of_work (hs : (pipeline search).Reachable Unhindered s) (hwork : s.work = 0) : ∀ rec ∈ s.received,
    (∃ x ∈ s.sent, x.item = .node rec.id) ∨ Waits s.forward rec.id ∨ Rejected rec := by
  intro rec hrec
  obtain ⟨T, howned, haccounted⟩ := exists_accounted hs
  rcases haccounted rec hrec with hheld | hsent | hrejected
  · obtain ⟨p, hp⟩ := hheld
    obtain ⟨h, rfl⟩ := pending_of_work hwork hp
    obtain ⟨id, hid, heq⟩ := List.mem_map.mp hp
    exact Or.inr (Or.inl (howned.table.waits_iff.mpr ⟨h, Ref.node.inj heq ▸ hid⟩))
  · exact Or.inl hsent
  · exact Or.inr (Or.inr hrejected)

/-- With well-behaved clients and servers, and room in the rings: in whatever order the threads take their steps, they
take no more than the work there is; as long as there is work one of them can go on, so that they can come to rest; and
in a state of rest every query received has been answered, waits for its response, or is rejected. -/
theorem comes_to_rest (hs : (pipeline search).Reachable Unhindered s) :
    (∀ es t, (pipeline search).Run (fun _ e => Internal e) s es t → es.length + t.work ≤ s.work) ∧
    (s.work ≠ 0 → ∃ e t, (Internal e ∧ Roomy e) ∧ (pipeline search).next s e = some t) ∧
    (∃ es t, (pipeline search).Run (fun _ e => Internal e ∧ Roomy e) s es t ∧ t.work = 0) ∧
    (s.work = 0 → ∀ rec ∈ s.received,
      (∃ x ∈ s.sent, x.item = .node rec.id) ∨ Waits s.forward rec.id ∨ Rejected rec) := by
  refine ⟨fun es t run => ?_, fun hwork => (reachable_ready hs).exists_next hwork, ?_, fun hwork rec hrec => ?_⟩
  · exact run.length_add_le fun s e t he hnext => work_lt he hnext
  · obtain ⟨es, t, run, -, hwork⟩ := exists_rest hs
    exact ⟨es, t, run, hwork⟩
  · exact settled_of_work hs hwork rec hrec

/-- One query has just been received. -/
theorem exists_received : ∃ s, (pipeline fun _ _ _ => 0).Reachable Unhindered s ∧ s.work = 6 := by
  have hstart : (pipeline fun _ _ _ => 0).Reachable Unhindered (Pipeline.initial fun _ => none) :=
    .start ⟨_, fun _ => rfl, rfl⟩
  have hbehaved : WellBehaved (Pipeline.initial fun _ => none)
      (.receive 3 ⟨5, 6⟩ (Query.single (0x12, 0x34) 0x61).encode) := wellBehaved_of_oneClient _ ⟨rfl, rfl⟩
  exact ⟨_, hstart.step ⟨hbehaved, trivial⟩ rfl, rfl⟩

theorem comes_to_rest_received : ∃ s, s.work = 6 ∧
    (∀ es t, (pipeline fun _ _ _ => 0).Run (fun _ e => Internal e) s es t → es.length + t.work ≤ 6) ∧
    ∃ es t, (pipeline fun _ _ _ => 0).Run (fun _ e => Internal e ∧ Roomy e) s es t ∧ t.work = 0 := by
  obtain ⟨s, hs, hwork⟩ := exists_received
  obtain ⟨hbound, -, hrest, -⟩ := comes_to_rest hs
  exact ⟨s, hwork, hwork ▸ hbound, hrest⟩

end SimpDserver.Daemon

import SimpDserver.Pipeline.Threaded

/-!
# Where the threads are

A thread inside a call is at the place of its text that makes the call, so it is inside one call at a
time, and no step of another thread changes that place.
-/

namespace SimpDserver.Daemon

open NetRing Transition

/-- Every thread inside a call is at the place of its text that makes the call. -/
def Threaded.Control (s : Threaded) : Prop :=
  ∀ q t, ((s.rings q).pcs t).Obeys (s.base.enqueues q t) (s.base.dequeues q t)

/-- The ring that the next call of a thread in this stage is on. -/
def Pipeline.nextRing (s : Pipeline) : Thread → Option RingName
  | .udp => s.udp.map fun _ => .work
  | .worker => match s.worker with
      | .idle => some .work
      | .parsing _ => none
      | .passing _ .forward => some .forward
      | .passing _ .bundle => some .bundle
  | .forward => match s.forwarder with
      | .idle => some .forward
      | .inserted _ => some .bundle
      | _ => none
  | .bundle => match s.writer with
      | none => some .bundle
      | some _ => none

theorem Pipeline.nextRing_of_enqueues {s : Pipeline} {q : RingName} {t : Thread} {item : q.Item}
    (h : s.enqueues q t item = true) : s.nextRing t = some q := by
  cases q <;> cases t <;> simp only [enqueues, decide_eq_true_eq, Bool.false_eq_true] at h
  case work.udp => simp [nextRing, h]
  case forward.worker => simp [nextRing, h]
  case bundle.forward => simp [nextRing, h]
  case bundle.worker =>
    cases item with
    | head => simp at h
    | node id =>
        simp only [decide_eq_true_eq] at h
        simp [nextRing, h]

theorem Pipeline.nextRing_of_dequeues {s : Pipeline} {q : RingName} {t : Thread} (h : s.dequeues q t = true) :
    s.nextRing t = some q := by
  cases q <;> cases t <;> simp only [dequeues, decide_eq_true_eq, Bool.false_eq_true] at h <;> simp [nextRing, h]

/-- A step of thread `t` alone: the other threads' stages are as they were. -/
structure SameBut (t : Thread) (s s' : Pipeline) : Prop where
  udp : t ≠ .udp → s'.udp = s.udp
  worker : t ≠ .worker → s'.worker = s.worker
  forwarder : t ≠ .forward → s'.forwarder = s.forwarder
  writer : t ≠ .bundle → s'.writer = s.writer

theorem SameBut.enqueues {t u : Thread} {s s' : Pipeline} (h : SameBut t s s') (hu : u ≠ t) (q : RingName)
    (item : q.Item) : s'.enqueues q u item = s.enqueues q u item := by
  cases q <;> cases u <;> first
    | rfl
    | simp only [Pipeline.enqueues, h.udp hu.symm]
    | simp only [Pipeline.enqueues, h.forwarder hu.symm]
    | (cases item <;> simp only [Pipeline.enqueues, h.worker hu.symm])

theorem SameBut.dequeues {t u : Thread} {s s' : Pipeline} (h : SameBut t s s') (hu : u ≠ t) (q : RingName) :
    s'.dequeues q u = s.dequeues q u := by
  cases q <;> cases u <;> first
    | rfl
    | simp only [Pipeline.dequeues, h.worker hu.symm]
    | simp only [Pipeline.dequeues, h.forwarder hu.symm]
    | simp only [Pipeline.dequeues, h.writer hu.symm]

namespace Threaded

variable {search : List Insertion → (Nat → Byte) → Int → Ipv4} {s s' : Threaded}

theorem Control.nextRing (h : s.Control) {q : RingName} {t : Thread} (hpc : (s.rings q).pcs t ≠ .idle) :
    s.base.nextRing t = some q := by
  obtain hd | ⟨item, hitem⟩ := (h q t).called hpc
  · exact Pipeline.nextRing_of_dequeues hd
  · exact Pipeline.nextRing_of_enqueues hitem

/-- A thread inside a call on one ring is inside none on another. -/
theorem Control.idle_elsewhere (h : s.Control) {q q' : RingName} {t : Thread} (hpc : (s.rings q).pcs t ≠ .idle)
    (hq : q' ≠ q) : (s.rings q').pcs t = .idle := by
  by_contra hpc'
  have heq := (h.nextRing hpc').symm.trans (h.nextRing hpc)
  exact hq (Option.some.inj heq)

/-- A thread at a place where it calls nothing is inside no call. -/
theorem Control.idle_of_nextRing (h : s.Control) {t : Thread} (hnone : s.base.nextRing t = none) (q : RingName) :
    (s.rings q).pcs t = .idle := by
  by_contra hpc
  exact absurd ((h.nextRing hpc).symm.trans hnone) (Option.some_ne_none q)

/-- A forward thread that waits for a node and is not in `dequeue` is inside no call. -/
theorem Control.idle_of_forwarder (h : s.Control) (hforwarder : s.base.forwarder = .idle)
    (hidle : (s.rings .forward).pcs .forward = .idle) (q : RingName) : (s.rings q).pcs .forward = .idle := by
  by_contra hpc
  have hring := h.nextRing hpc
  simp only [Pipeline.nextRing, hforwarder, Option.some.injEq] at hring
  subst hring
  exact hpc hidle

/-- Thread `t` is inside no call after the step, and the others are where they were. -/
theorem Control.of_idle {t : Thread} (h : s.Control) (hsame : SameBut t s.base s'.base)
    (hidle : ∀ q, (s'.rings q).pcs t = .idle) (hpcs : ∀ q, ∀ u, u ≠ t → (s'.rings q).pcs u = (s.rings q).pcs u) :
    s'.Control := by
  intro q u
  by_cases hu : u = t
  · rw [hu, hidle]
    trivial
  · have henq : s'.base.enqueues q u = s.base.enqueues q u := funext (hsame.enqueues hu q)
    rw [hpcs q u hu, henq, hsame.dequeues hu]
    exact h q u

/-! ### Steps without a ring -/

/-- Such a step is one of a thread that is inside no call, and leaves the others where they are. -/
theorem Control.apart (h : s.Control) {e : PipelineStep} {base : Pipeline} (hstep : s.apart search e = some base) :
    ∃ t, (∀ q, (s.rings q).pcs t = .idle) ∧ SameBut t s.base base := by
  cases e with
  | receive fd cliaddr bytes =>
      simp only [Threaded.apart, Pipeline.receive] at hstep
      split at hstep
      · cases hstep
      next hudp =>
        refine ⟨.udp, h.idle_of_nextRing (by simp [Pipeline.nextRing, hudp]), ?_⟩
        split at hstep <;> cases hstep <;> exact ⟨fun hne => absurd rfl hne, fun _ => rfl, fun _ => rfl, fun _ => rfl⟩
  | parse =>
      simp only [Threaded.apart, Pipeline.parse] at hstep
      split at hstep
      next id hworker =>
        refine ⟨.worker, h.idle_of_nextRing (by simp [Pipeline.nextRing, hworker]), ?_⟩
        simp only [Option.bind_eq_bind, Option.bind_eq_some_iff, Option.pure_def, Option.some.injEq] at hstep
        obtain ⟨node, -, r, -, rfl⟩ := hstep
        exact ⟨fun _ => rfl, fun hne => absurd rfl hne, fun _ => rfl, fun _ => rfl⟩
      · cases hstep
  | ask =>
      simp only [Threaded.apart, Pipeline.ask] at hstep
      split at hstep
      next id hforwarder =>
        refine ⟨.forward, h.idle_of_nextRing (by simp [Pipeline.nextRing, hforwarder]), ?_⟩
        simp only [Option.bind_eq_bind, Option.bind_eq_some_iff, Option.pure_def, Option.some.injEq] at hstep
        obtain ⟨⟨forward, sent⟩, -, rfl⟩ := hstep
        exact ⟨fun _ => rfl, fun _ => rfl, fun hne => absurd rfl hne, fun _ => rfl⟩
      · cases hstep
  | respond fuel buff bufflen =>
      simp only [Threaded.apart, Pipeline.respond] at hstep
      split at hstep
      next hidle =>
        split at hstep
        next hforwarder =>
          refine ⟨.forward, h.idle_of_forwarder hforwarder hidle, ?_⟩
          simp only [Option.bind_eq_bind, Option.bind_eq_some_iff, Option.pure_def, Option.some.injEq] at hstep
          obtain ⟨⟨item, forward, seen⟩, -, forward', -, rfl⟩ := hstep
          exact ⟨fun _ => rfl, fun _ => rfl, fun hne => absurd rfl hne, fun _ => rfl⟩
        · cases hstep
      · cases hstep
  | insert =>
      simp only [Threaded.apart, Pipeline.insert] at hstep
      split at hstep
      next item hforwarder =>
        refine ⟨.forward, h.idle_of_nextRing (by simp [Pipeline.nextRing, hforwarder]), ?_⟩
        simp only [Option.bind_eq_bind, Option.bind_eq_some_iff, Option.pure_def, Option.some.injEq] at hstep
        obtain ⟨forward, -, rfl⟩ := hstep
        exact ⟨fun _ => rfl, fun _ => rfl, fun hne => absurd rfl hne, fun _ => rfl⟩
      · cases hstep
  | writeBack =>
      simp only [Threaded.apart, Pipeline.writeBack, Option.bind_eq_bind, Option.bind_eq_some_iff, Option.pure_def,
        Option.some.injEq] at hstep
      obtain ⟨item, hwriter, node, -, rfl⟩ := hstep
      exact ⟨.bundle, h.idle_of_nextRing (by simp [Pipeline.nextRing, hwriter]), fun _ => rfl, fun _ => rfl,
        fun _ => rfl, fun hne => absurd rfl hne⟩
  | _ => cases hstep

/-! ### Accesses -/

theorem sameBut_enqueued (s : Pipeline) (t : Thread) : SameBut t s (s.enqueued t) := by
  cases t <;> constructor <;> first | exact fun _ => rfl | exact fun hne => absurd rfl hne

/-- The consumer of a ring. -/
def consumer : RingName → Thread
  | .work => .worker
  | .forward => .forward
  | .bundle => .bundle

theorem eq_consumer {s : Pipeline} {q : RingName} {t : Thread} (h : s.dequeues q t = true) : t = consumer q := by
  cases q <;> cases t <;> first | rfl | cases h

theorem sameBut_dequeued (s : Pipeline) (q : RingName) (item : q.Item) :
    SameBut (consumer q) s (s.dequeued q item) := by
  cases q <;> constructor <;> first | exact fun _ => rfl | exact fun hne => absurd rfl hne

/-- The daemon after an access to ring `q`. -/
def set (s : Threaded) (q : RingName) (y : System Thread q.Item) (base : Pipeline) : Threaded :=
  { base := base, rings := Function.update s.rings q y }

@[simp] theorem set_rings_self (q : RingName) (y : System Thread q.Item) (base : Pipeline) :
    (s.set q y base).rings q = y :=
  Function.update_self ..

theorem set_rings_of_ne {q q' : RingName} (y : System Thread q.Item) (base : Pipeline) (hq : q' ≠ q) :
    (s.set q y base).rings q' = s.rings q' :=
  Function.update_of_ne hq ..

theorem set_pcs_of_ne {q : RingName} {t u : Thread} {y : System Thread q.Item} {p : Pc q.Item} (base : Pipeline)
    (hy : y.pcs = Function.update (s.rings q).pcs t p) (hu : u ≠ t) (q' : RingName) :
    ((s.set q y base).rings q').pcs u = (s.rings q').pcs u := by
  by_cases hq : q' = q
  · subst hq
    rw [set_rings_self, hy, Function.update_of_ne hu]
  · rw [set_rings_of_ne y base hq]

/-- Thread `t` goes on inside its call, or into one, and its stage is as before. -/
theorem Control.stay {q : RingName} {t : Thread} {y : System Thread q.Item} {p : Pc q.Item} (h : s.Control)
    (hy : y.pcs = Function.update (s.rings q).pcs t p) (hp : p.Obeys (s.base.enqueues q t) (s.base.dequeues q t)) :
    (s.set q y s.base).Control := by
  intro q' u
  by_cases hu : u = t
  · subst hu
    by_cases hq : q' = q
    · subst hq
      rw [set_rings_self, hy, Function.update_self]
      exact hp
    · rw [set_rings_of_ne y s.base hq]
      exact h q' u
  · rw [set_pcs_of_ne s.base hy hu]
    exact h q' u

/-- Thread `t` returns from its call. -/
theorem Control.return {q : RingName} {t : Thread} {y : System Thread q.Item} {base : Pipeline} (h : s.Control)
    (hpc : (s.rings q).pcs t ≠ .idle) (hy : y.pcs = Function.update (s.rings q).pcs t .idle)
    (hsame : SameBut t s.base base) : (s.set q y base).Control := by
  refine h.of_idle hsame (fun q' => ?_) fun q' u hu => set_pcs_of_ne base hy hu q'
  by_cases hq : q' = q
  · subst hq
    rw [set_rings_self, hy, Function.update_self]
  · rw [set_rings_of_ne y base hq]
    exact h.idle_elsewhere hpc hq

/-- What an access to a ring does: the call's next access, or its return. -/
inductive RingStep (s : Threaded) (q : RingName) : Label Thread q.Item → Threaded → Prop
  | callEnqueue (t : Thread) (item : q.Item) (idle : (s.rings q).pcs t = .idle) (calls : s.base.enqueues q t item = true) :
      RingStep s q (.callEnqueue t item) (s.set q ((s.rings q).call t (.enqLoadHead item)) s.base)
  | callDequeue (t : Thread) (idle : (s.rings q).pcs t = .idle) (calls : s.base.dequeues q t = true) :
      RingStep s q (.callDequeue t) (s.set q ((s.rings q).call t .deqLoadTail) s.base)
  | run (t : Thread) {r : NetRing.Ring q.Item} {p : Pc q.Item} {e : Event q.Item} {base : Pipeline}
      (access : Access (s.rings q).ring ((s.rings q).pcs t) r p e) (returned : s.base.returned q t e = some base) :
      RingStep s q (.run t) (s.set q ((s.rings q).after t r p e) base)

theorem ringStep_of_next {q : RingName} {l : Label Thread q.Item} (h : s.next search (.ring q l) = some s') :
    RingStep s q l s' := by
  simp only [Threaded.next] at h
  split at h
  next hcalls =>
    simp only [Option.bind_eq_bind, Option.bind_eq_some_iff, Option.pure_def, Option.some.injEq] at h
    obtain ⟨ring, hring, base, hbase, rfl⟩ := h
    obtain ⟨t, item, rfl, hidle, hshows, rfl⟩ | ⟨t, rfl, hidle, hshows, rfl⟩ | ⟨t, r, p, e, rfl, access, hshows, rfl⟩ :=
      next_cases hring
    · rw [hshows] at hbase
      cases hbase
      exact .callEnqueue t item hidle hcalls
    · rw [hshows] at hbase
      cases hbase
      exact .callDequeue t hidle hcalls
    · rw [hshows] at hbase
      exact .run t access hbase
  · cases h

theorem Control.ringStep {q : RingName} {l : Label Thread q.Item} (h : s.Control) (hstep : RingStep s q l s') :
    s'.Control := by
  cases hstep with
  | callEnqueue t item idle calls => exact h.stay rfl calls
  | callDequeue t idle calls => exact h.stay rfl calls
  | @run t r p e base access returned =>
      have hobeys := access.obeys (h q t)
      have hstay : s.base = base → (s.set q ((s.rings q).after t r p e) base).Control := by
        rintro rfl
        exact h.stay rfl hobeys
      have hcontrol := h q t
      have hreturn := @Control.return s q t ((s.rings q).after t r p e) base h
      generalize hpc : (s.rings q).pcs t = p₀ at access hcontrol hreturn
      cases access with
      | enqFull | enqPublished =>
          cases returned
          exact hreturn (by simp) rfl (sameBut_enqueued ..)
      | deqReleased w item =>
          obtain ⟨x, rfl, rfl⟩ := Option.map_eq_some_iff.mp returned
          obtain rfl : t = consumer q := eq_consumer hcontrol
          exact hreturn (by simp) rfl (sameBut_dequeued ..)
      | _ => exact hstay (Option.some.inj returned)

theorem Control.next (h : s.Control) {e : ThreadedStep} (hstep : s.next search e = some s') : s'.Control := by
  cases e with
  | apart e =>
      obtain ⟨base, hbase, rfl⟩ := Option.map_eq_some_iff.mp hstep
      obtain ⟨t, hidle, hsame⟩ := h.apart hbase
      exact h.of_idle hsame hidle fun _ _ _ => rfl
  | ring q l => exact h.ringStep (ringStep_of_next hstep)

theorem Control.start (h : (threaded search).start s) : s.Control := by
  obtain ⟨-, hrings⟩ := h
  intro q t
  obtain ⟨malloc, junk, fuel, nem, ring, -, heq⟩ := hrings q
  rw [heq]
  trivial

end Threaded

end SimpDserver.Daemon

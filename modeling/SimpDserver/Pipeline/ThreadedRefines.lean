import SimpDserver.Lib.Simulation
import SimpDserver.Pipeline.ThreadControl

/-!
# The daemon of atomic accesses is the pipeline

Of all the accesses of an `enqueue` only one shows in the pipeline, the compare-and-set that succeeds or
the test that finds the ring full; of a `dequeue` it is the store that ends it. So whatever holds of the
pipeline in every order of its steps holds of the threads however their accesses interleave. The one
proviso is on the bundle ring, which has two producers: none of them is overtaken by `2 ^ 32` items
between its load of `prod.head` and its compare-and-set.
-/

namespace SimpDserver.Daemon

open NetRing Transition

namespace Pipeline

/-- The queue that stands for ring `q`. -/
def queue (s : Pipeline) : (q : RingName) → List q.Item
  | .work => s.workRing
  | .forward => s.forwardRing
  | .bundle => s.forward.bundle

def setQueue (s : Pipeline) : (q : RingName) → List q.Item → Pipeline
  | .work, ids => { s with workRing := ids }
  | .forward, ids => { s with forwardRing := ids }
  | .bundle, items => { s with forward := { s.forward with bundle := items } }

/-- The step of the pipeline in which thread `t` enqueues. -/
def pushStep (t : Thread) (room : Bool) : PipelineStep :=
  match t with
  | .udp => .pushWork room
  | .worker => .pass room
  | _ => .pushBundle room

/-- The step in which a consumer dequeues. -/
def popStep : RingName → PipelineStep
  | .work => .popWork
  | .forward => .popForward
  | .bundle => .popBundle

variable {search : List Insertion → (Nat → Byte) → Int → Ipv4} {s : Pipeline}

theorem next_push {q : RingName} {t : Thread} {item : q.Item} (h : s.enqueues q t item = true) (room : Bool) :
    (pipeline search).next s (pushStep t room) =
      some ((if room then s.setQueue q (s.queue q ++ [item]) else s).enqueued t) := by
  cases q <;> cases t <;> simp only [enqueues, decide_eq_true_eq, Bool.false_eq_true] at h
  case work.udp =>
    cases room <;> simp [pipeline, pushStep, pushWork, h, ringEnqueue, setQueue, queue, enqueued]
  case forward.worker =>
    cases room <;> simp [pipeline, pushStep, pass, h, ringEnqueue, setQueue, queue, enqueued]
  case bundle.worker =>
    cases item with
    | head => simp at h
    | node id =>
        simp only [decide_eq_true_eq] at h
        cases room <;> simp [pipeline, pushStep, pass, h, bundleEnqueue, setQueue, queue, enqueued]
  case bundle.forward =>
    cases room <;> simp [pipeline, pushStep, pushBundle, h, bundleEnqueue, setQueue, queue, enqueued]

theorem next_pop {q : RingName} {t : Thread} {item : q.Item} {rest : List q.Item} (h : s.dequeues q t = true)
    (hqueue : s.queue q = item :: rest) :
    (pipeline search).next s (popStep q) = some ((s.setQueue q rest).dequeued q item) := by
  cases q <;> cases t <;> simp only [dequeues, decide_eq_true_eq, Bool.false_eq_true] at h <;>
    simp only [queue] at hqueue
  case work.worker => simp [pipeline, popStep, popWork, h, hqueue, setQueue, dequeued]
  case forward.forward => simp [pipeline, popStep, popForward, h, hqueue, setQueue, dequeued]
  case bundle.bundle => simp [pipeline, popStep, popBundle, h, hqueue, setQueue, dequeued]

/-- A pipeline with other queues, some of whose threads are about to return from an `enqueue` that has
taken place. -/
def seen (base : Pipeline) (past : Thread → Bool) (queue : (q : RingName) → List q.Item) : Pipeline :=
  { base with
    forward := { base.forward with bundle := queue .bundle }
    udp := if past .udp then none else base.udp
    workRing := queue .work
    worker := if past .worker then .idle else base.worker
    forwardRing := queue .forward
    forwarder := if past .forward then .idle else base.forwarder }

section Seen

variable (past : Thread → Bool) (queue : (q : RingName) → List q.Item)

theorem queue_seen (q : RingName) : (s.seen past queue).queue q = queue q := by
  cases q <;> rfl

theorem seen_update_queue (q : RingName) (items : List q.Item) :
    s.seen past (Function.update queue q items) = (s.seen past queue).setQueue q items := by
  cases q <;> simp [seen, setQueue]

theorem seen_update_past (t : Thread) :
    s.seen (Function.update past t true) queue = (s.seen past queue).enqueued t := by
  cases t <;> simp [seen, enqueued]

variable {past}

theorem seen_enqueued {t : Thread} (h : past t = false) :
    (s.enqueued t).seen past queue = (s.seen past queue).enqueued t := by
  cases t <;> simp [seen, enqueued, h]

/-- The return from an `enqueue` that has taken place shows nothing. -/
theorem seen_enqueued_of_past {t : Thread} (h : past t = true) :
    (s.enqueued t).seen (Function.update past t false) queue = s.seen past queue := by
  cases t <;> simp [seen, enqueued, h]

theorem seen_dequeued {q : RingName} (item : q.Item) (h : past (Threaded.consumer q) = false) :
    (s.dequeued q item).seen past queue = (s.seen past queue).dequeued q item := by
  cases q <;> simp_all [seen, dequeued, Threaded.consumer]

theorem enqueues_seen {q : RingName} {t : Thread} (item : q.Item) (h : past t = false) :
    (s.seen past queue).enqueues q t item = s.enqueues q t item := by
  cases q <;> cases t
  case bundle.worker => cases item <;> simp only [enqueues, seen, h, Bool.false_eq_true, if_false]
  all_goals first | rfl | simp only [enqueues, seen, h, Bool.false_eq_true, if_false]

theorem dequeues_seen {q : RingName} {t : Thread} (h : past t = false) :
    (s.seen past queue).dequeues q t = s.dequeues q t := by
  cases q <;> cases t <;> first | rfl | simp only [dequeues, seen, h, Bool.false_eq_true, if_false]

end Seen

end Pipeline

namespace Threaded

variable {search : List Insertion → (Nat → Byte) → Int → Ipv4} {s s' : Threaded}

theorem abs_eq (s : Threaded) : s.abs = s.base.seen s.past fun q => (s.rings q).queue := rfl

/-! ### Steps without a ring -/

theorem past_of_idle {t : Thread} (h : ∀ q, (s.rings q).pcs t = .idle) : s.past t = false := by
  simp [Threaded.past, h, Pc.past]

end Threaded

/-! The functions of the forward module look at no ring. -/

theorem findItem_bundle (s : Forward) (b : List Ref) (iden : BitVec 16) (head : Ref) (fuel : Nat) (item nxt : Ref) :
    findItem { s with bundle := b } iden head fuel item nxt = findItem s iden head fuel item nxt := by
  induction fuel generalizing item nxt with
  | zero => rfl
  | succ fuel ih =>
      rw [findItem, findItem]
      simp only [ih]

theorem matchItem_bundle {fuel : Nat} {s s' : Forward} {buff : Int → Byte} {item : Ref} {seen : List Ref} (b : List Ref)
    (h : matchItem fuel s buff = some (item, s', seen)) :
    matchItem fuel { s with bundle := b } buff = some (item, { s' with bundle := b }, seen) := by
  simp only [matchItem, Option.bind_eq_bind, Option.bind_eq_some_iff, Option.pure_def, Option.some.injEq,
    Prod.mk.injEq] at h ⊢
  obtain ⟨first, hfirst, second, hsecond, r, hfind, hitem, rfl, hseen⟩ := h
  exact ⟨first, hfirst, second, hsecond, r, (findItem_bundle ..).trans hfind, hitem, rfl, hseen⟩

theorem readItem_bundle {fuel : Nat} {s s' : Forward} {buff : Int → Byte} {bufflen : Int} {item : Ref} (b : List Ref)
    (h : readItem fuel s buff bufflen item = some s') :
    readItem fuel { s with bundle := b } buff bufflen item = some { s' with bundle := b } := by
  simp only [readItem, Option.bind_eq_bind, Option.bind_eq_some_iff, Option.pure_def, Option.some.injEq] at h ⊢
  obtain ⟨node, hnode, r, hwalk, rfl⟩ := h
  exact ⟨node, hnode, r, hwalk, rfl⟩

theorem gethostaddr_bundle {s s' : Forward} {r : Ref} {sent : List Byte} (b : List Ref)
    (h : gethostaddr s r = some (s', sent)) :
    gethostaddr { s with bundle := b } r = some ({ s' with bundle := b }, sent) := by
  simp only [gethostaddr, Option.bind_eq_bind, Option.bind_eq_some_iff, Option.pure_def, Option.some.injEq,
    Prod.mk.injEq] at h ⊢
  obtain ⟨node, hnode, flags, hflags, links, hlinks, rfl, rfl⟩ := h
  exact ⟨node, hnode, flags, hflags, links, hlinks, rfl, rfl⟩

namespace Threaded

variable {search : List Insertion → (Nat → Byte) → Int → Ipv4} {s s' : Threaded}

/-- A step without a ring is the same step of the pipeline. -/
theorem Control.abs_apart (h : s.Control) {e : PipelineStep} {base : Pipeline} (hstep : s.apart search e = some base) :
    (pipeline search).next s.abs e = some { s with base := base }.abs := by
  have hpast : ∀ t, s.base.nextRing t = none → s.past t = false := fun t ht => past_of_idle (h.idle_of_nextRing ht)
  have habs : { s with base := base }.abs = base.seen s.past fun q => (s.rings q).queue := rfl
  rw [habs, abs_eq]
  generalize (fun q => (s.rings q).queue) = queue
  cases e with
  | receive fd cliaddr bytes =>
      simp only [Threaded.apart, Pipeline.receive] at hstep
      split at hstep
      · cases hstep
      next hudp =>
        have hpast := hpast .udp (by simp [Pipeline.nextRing, hudp])
        split at hstep <;> cases hstep <;>
          simp_all [pipeline, Pipeline.receive, Pipeline.seen, Forward.deliver]
  | parse =>
      simp only [Threaded.apart, Pipeline.parse] at hstep
      split at hstep
      next id hworker =>
        have hpast := hpast .worker (by simp [Pipeline.nextRing, hworker])
        simp only [Option.bind_eq_bind, Option.bind_eq_some_iff, Option.pure_def, Option.some.injEq] at hstep
        obtain ⟨node, hnode, r, hr, rfl⟩ := hstep
        simp [pipeline, Pipeline.parse, Pipeline.seen, Forward.deliver, hpast, hworker, hnode, hr]
      · cases hstep
  | ask =>
      simp only [Threaded.apart, Pipeline.ask] at hstep
      split at hstep
      next id hforwarder =>
        have hpast := hpast .forward (by simp [Pipeline.nextRing, hforwarder])
        simp only [Option.bind_eq_bind, Option.bind_eq_some_iff, Option.pure_def, Option.some.injEq] at hstep
        obtain ⟨⟨forward, sent⟩, hask, rfl⟩ := hstep
        have hask := gethostaddr_bundle (queue .bundle) hask
        simp [pipeline, Pipeline.ask, Pipeline.seen, hpast, hforwarder, hask]
      · cases hstep
  | respond fuel buff bufflen =>
      simp only [Threaded.apart, Pipeline.respond] at hstep
      split at hstep
      next hidle =>
        split at hstep
        next hforwarder =>
          have hpast := past_of_idle (h.idle_of_forwarder hforwarder hidle)
          simp only [Option.bind_eq_bind, Option.bind_eq_some_iff, Option.pure_def, Option.some.injEq] at hstep
          obtain ⟨⟨item, forward, seen⟩, hmatch, forward', hread, rfl⟩ := hstep
          have hmatch := matchItem_bundle (queue .bundle) hmatch
          have hread := readItem_bundle (queue .bundle) hread
          simp [pipeline, Pipeline.respond, Pipeline.seen, hpast, hforwarder, hmatch, hread]
        · cases hstep
      · cases hstep
  | insert =>
      simp only [Threaded.apart, Pipeline.insert] at hstep
      split at hstep
      next item hforwarder =>
        have hpast := hpast .forward (by simp [Pipeline.nextRing, hforwarder])
        simp only [insertItem, Option.bind_eq_bind, Option.bind_eq_some_iff, Option.pure_def, Option.some.injEq] at hstep
        obtain ⟨forward, ⟨node, hnode, rfl⟩, rfl⟩ := hstep
        simp [pipeline, Pipeline.insert, insertItem, Pipeline.seen, hpast, hforwarder, hnode]
      · cases hstep
  | writeBack =>
      simp only [Threaded.apart, Pipeline.writeBack, Option.bind_eq_bind, Option.bind_eq_some_iff, Option.pure_def,
        Option.some.injEq] at hstep
      obtain ⟨item, hwriter, node, hnode, rfl⟩ := hstep
      simp [pipeline, Pipeline.writeBack, Pipeline.seen, hwriter, hnode]
  | _ => cases hstep

/-! ### Accesses -/

theorem past_eq_true_iff {t : Thread} : s.past t = true ↔ ∃ q, ((s.rings q).pcs t).past = true := by
  constructor
  · intro h
    simp only [Threaded.past, Bool.or_eq_true] at h
    obtain (h | h) | h := h
    exacts [⟨_, h⟩, ⟨_, h⟩, ⟨_, h⟩]
  · rintro ⟨q, h⟩
    cases q <;> simp [Threaded.past, h]

/-- A thread bound for ring `q` is inside no call on another. -/
theorem Control.idle_of_ne (h : s.Control) {q q' : RingName} {t : Thread} (hring : s.base.nextRing t = some q)
    (hq : q' ≠ q) : (s.rings q').pcs t = .idle := by
  by_contra hpc
  exact hq (Option.some.inj ((h.nextRing hpc).symm.trans hring))

theorem Control.past_eq (h : s.Control) {q : RingName} {t : Thread} (hring : s.base.nextRing t = some q) :
    s.past t = ((s.rings q).pcs t).past := by
  rw [Bool.eq_iff_iff, past_eq_true_iff]
  constructor
  · rintro ⟨q', hq'⟩
    by_cases hq : q' = q
    · exact hq ▸ hq'
    · rw [h.idle_of_ne hring hq] at hq'
      cases hq'
  · exact fun hq => ⟨q, hq⟩

theorem Control.past_set (h : s.Control) {q : RingName} {t : Thread} {y : System Thread q.Item} {p : Pc q.Item}
    (hring : s.base.nextRing t = some q) (hy : y.pcs = Function.update (s.rings q).pcs t p) (base : Pipeline) :
    (s.set q y base).past = Function.update s.past t p.past := by
  funext u
  rw [Bool.eq_iff_iff, past_eq_true_iff]
  by_cases hu : u = t
  · subst hu
    rw [Function.update_self]
    constructor
    · rintro ⟨q', hq'⟩
      by_cases hq : q' = q
      · subst hq
        rwa [set_rings_self, hy, Function.update_self] at hq'
      · rw [set_rings_of_ne y base hq, h.idle_of_ne hring hq] at hq'
        cases hq'
    · intro hp
      refine ⟨q, ?_⟩
      rwa [set_rings_self, hy, Function.update_self]
  · simp only [Function.update_of_ne hu, past_eq_true_iff, set_pcs_of_ne base hy hu]

theorem queue_set (q : RingName) (y : System Thread q.Item) (base : Pipeline) :
    (fun q' => ((s.set q y base).rings q').queue) = Function.update (fun q' => (s.rings q').queue) q y.queue := by
  funext q'
  by_cases hq : q' = q
  · subst hq
    rw [set_rings_self, Function.update_self]
  · rw [set_rings_of_ne y base hq, Function.update_of_ne hq]

/-- The pipeline after thread `t` made an access to ring `q`. -/
theorem Control.abs_set (h : s.Control) {q : RingName} {t : Thread} {y : System Thread q.Item} {p : Pc q.Item}
    (hring : s.base.nextRing t = some q) (hy : y.pcs = Function.update (s.rings q).pcs t p) (base : Pipeline) :
    (s.set q y base).abs =
      base.seen (Function.update s.past t p.past) (Function.update (fun q' => (s.rings q').queue) q y.queue) := by
  rw [abs_eq, h.past_set hring hy, queue_set]
  rfl

/-- An access that neither moves an item nor ends a call shows nothing. -/
theorem Control.abs_stutter (h : s.Control) {q : RingName} {t : Thread} {y : System Thread q.Item} {p : Pc q.Item}
    (hring : s.base.nextRing t = some q) (hy : y.pcs = Function.update (s.rings q).pcs t p)
    (hqueue : y.queue = (s.rings q).queue) (hpast : p.past = ((s.rings q).pcs t).past) :
    (s.set q y s.base).abs = s.abs := by
  rw [h.abs_set hring hy, hqueue, hpast, ← h.past_eq hring, Function.update_eq_self, abs_eq]
  exact congrArg _ (Function.update_eq_self q fun q' => (s.rings q').queue)

theorem abs_enqueues {q : RingName} {t : Thread} (item : q.Item) (h : s.past t = false) :
    s.abs.enqueues q t item = s.base.enqueues q t item :=
  Pipeline.enqueues_seen (fun q => (s.rings q).queue) item h

theorem abs_dequeues {q : RingName} {t : Thread} (h : s.past t = false) :
    s.abs.dequeues q t = s.base.dequeues q t :=
  Pipeline.dequeues_seen (fun q => (s.rings q).queue) h

theorem abs_queue (q : RingName) : s.abs.queue q = (s.rings q).queue :=
  Pipeline.queue_seen (s := s.base) s.past (fun q => (s.rings q).queue) q

theorem Control.abs_full (h : s.Control) {q : RingName} {t : Thread} {y : System Thread q.Item}
    (hring : s.base.nextRing t = some q) (hy : y.pcs = Function.update (s.rings q).pcs t .idle)
    (hqueue : y.queue = (s.rings q).queue) (hpast : s.past t = false) :
    (s.set q y (s.base.enqueued t)).abs = s.abs.enqueued t := by
  have hidle : (Pc.idle : Pc q.Item).past = s.past t := hpast.symm
  rw [h.abs_set hring hy, hqueue, hidle, Function.update_eq_self, Pipeline.seen_enqueued _ hpast, abs_eq]
  exact congrArg (fun f => (s.base.seen s.past f).enqueued t) (Function.update_eq_self q fun q' => (s.rings q').queue)

theorem Control.abs_reserved (h : s.Control) {q : RingName} {t : Thread} {y : System Thread q.Item} {p : Pc q.Item}
    {item : q.Item} (hring : s.base.nextRing t = some q) (hy : y.pcs = Function.update (s.rings q).pcs t p)
    (hqueue : y.queue = (s.rings q).queue ++ [item]) (hp : p.past = true) :
    (s.set q y s.base).abs = (s.abs.setQueue q (s.abs.queue q ++ [item])).enqueued t := by
  rw [h.abs_set hring hy, hqueue, hp, Pipeline.seen_update_past, Pipeline.seen_update_queue, abs_eq,
    Pipeline.queue_seen]

theorem Control.abs_published (h : s.Control) {q : RingName} {t : Thread} {y : System Thread q.Item}
    (hring : s.base.nextRing t = some q) (hy : y.pcs = Function.update (s.rings q).pcs t .idle)
    (hqueue : y.queue = (s.rings q).queue) (hpast : s.past t = true) :
    (s.set q y (s.base.enqueued t)).abs = s.abs := by
  have hidle : (Pc.idle : Pc q.Item).past = false := rfl
  rw [h.abs_set hring hy, hqueue, hidle, Pipeline.seen_enqueued_of_past _ hpast, abs_eq]
  exact congrArg _ (Function.update_eq_self q fun q' => (s.rings q').queue)

theorem Control.abs_released (h : s.Control) {q : RingName} {y : System Thread q.Item} (item : q.Item)
    (hring : s.base.nextRing (consumer q) = some q) (hy : y.pcs = Function.update (s.rings q).pcs (consumer q) .idle)
    (hpast : s.past (consumer q) = false) :
    (s.set q y (s.base.dequeued q item)).abs = (s.abs.setQueue q y.queue).dequeued q item := by
  have hidle : (Pc.idle : Pc q.Item).past = s.past (consumer q) := hpast.symm
  rw [h.abs_set hring hy, hidle, Function.update_eq_self, Pipeline.seen_dequeued _ item hpast,
    Pipeline.seen_update_queue, abs_eq]

/-- An access to a ring is a stutter, an `enqueue`, or a `dequeue` of the pipeline. -/
theorem Control.abs_ring (h : s.Control) {q : RingName} {k : Nat} (hsound : Sound k (s.rings q))
    {l : Label Thread q.Item} (hstep : RingStep s q l s') :
    s'.abs = s.abs ∨ (∃ t room, (pipeline search).next s.abs (Pipeline.pushStep t room) = some s'.abs) ∨
      (pipeline search).next s.abs (Pipeline.popStep q) = some s'.abs := by
  cases hstep with
  | callEnqueue t item idle calls =>
      exact Or.inl (h.abs_stutter (p := .enqLoadHead item) (Pipeline.nextRing_of_enqueues calls) rfl (queue_call ..)
        (by rw [idle]; rfl))
  | callDequeue t idle calls =>
      exact Or.inl (h.abs_stutter (p := .deqLoadTail) (Pipeline.nextRing_of_dequeues calls) rfl (queue_call ..)
        (by rw [idle]; rfl))
  | @run t r p e base access returned =>
      have hring : s.base.nextRing t = some q := by
        apply h.nextRing
        intro hpc
        rw [hpc] at access
        cases access
      have hcontrol := h q t
      have hpast := h.past_eq hring
      have hstutter := h.abs_stutter (y := (s.rings q).after t r p e) hring rfl
      have hreleased := fun w item => @hsound.queue_released _ _ _ _ _ t r p w item
      generalize hpc : (s.rings q).pcs t = p₀ at access hcontrol hpast hstutter hreleased
      cases access with
      | enqFull item w full =>
          cases returned
          have hcalls : s.abs.enqueues q t item = true := (abs_enqueues item hpast).trans hcontrol
          refine Or.inr (Or.inl ⟨t, false, (Pipeline.next_push hcalls false).trans (congrArg some ?_)⟩)
          exact (h.abs_full hring rfl (queue_after rfl) hpast).symm
      | enqReserved item w same =>
          cases returned
          have hcalls : s.abs.enqueues q t item = true := (abs_enqueues item hpast).trans hcontrol
          refine Or.inr (Or.inl ⟨t, true, (Pipeline.next_push hcalls true).trans (congrArg some ?_)⟩)
          exact (h.abs_reserved hring rfl (hsound.queue_reserved item) rfl).symm
      | enqPublished item w =>
          cases returned
          exact Or.inl (h.abs_published hring rfl (queue_after rfl) hpast)
      | deqReleased w item =>
          obtain ⟨x, rfl, hqueue⟩ := hreleased w item rfl
          cases returned
          obtain rfl : t = consumer q := eq_consumer hcontrol
          have hcalls : s.abs.dequeues q (consumer q) = true := (abs_dequeues hpast).trans hcontrol
          refine Or.inr (Or.inr ((Pipeline.next_pop hcalls ((abs_queue q).trans hqueue)).trans (congrArg some ?_)))
          exact (h.abs_released x hring rfl hpast).symm
      | _ =>
          cases returned
          exact Or.inl (hstutter (queue_after rfl) rfl)

/-! ### Every run -/

/-- Clients and servers behave, and no producer of the bundle ring is overtaken by `2 ^ 32` items. -/
def Fair (s : Threaded) : ThreadedStep → Prop
  | .apart e => WellBehaved s.base e
  | .ring .bundle l => ProducerNotOvertaken (s.rings .bundle) l
  | .ring _ _ => True

theorem ring_next {q : RingName} {l : Label Thread q.Item} (h : s.next search (.ring q l) = some s') :
    s.calls q l = true ∧ (s.rings q).next l = some (s'.rings q) ∧ ∀ q' ≠ q, s'.rings q' = s.rings q' := by
  simp only [Threaded.next] at h
  split at h
  next hcalls =>
    simp only [Option.bind_eq_bind, Option.bind_eq_some_iff, Option.pure_def, Option.some.injEq] at h
    obtain ⟨ring, hring, base, -, rfl⟩ := h
    refine ⟨hcalls, ?_, fun q' hq => Function.update_of_ne hq ..⟩
    exact hring.trans (congrArg some (set_rings_self q ring base).symm)
  · cases h

theorem onlyConsumer_of_calls {q : RingName} {l : Label Thread q.Item} (h : s.calls q l = true) :
    OnlyConsumer (consumer q) l := by
  cases l with
  | callDequeue t => exact eq_consumer h
  | _ => trivial

/-- The producer of the work ring and that of the forward ring. -/
def producer : RingName → Thread
  | .work => .udp
  | _ => .worker

theorem onlyProducer_of_calls {q : RingName} {l : Label Thread q.Item} (hq : q ≠ .bundle) (h : s.calls q l = true) :
    OnlyProducer (producer q) l := by
  cases l with
  | callEnqueue t item =>
      cases q <;> cases t <;> first | rfl | cases h | exact absurd rfl hq
  | _ => trivial

/-- Each ring of the daemon, by itself, is a ring with one consumer. -/
theorem projection (q : RingName) {guard : System Thread q.Item → Label Thread q.Item → Prop}
    (hguard : ∀ s l, s.calls q l = true → Fair s (.ring q l) → guard (s.rings q) l) :
    Simulation (threaded search) Fair (machine Thread q.Item) guard (Threaded.rings · q) where
  start s hstart := hstart.2 q
  step s e s' _ _ hfair hnext := by
    cases e with
    | apart e =>
        obtain ⟨base, -, rfl⟩ := Option.map_eq_some_iff.mp hnext
        exact Or.inl rfl
    | ring q' l =>
        have hnext : s.next search (.ring q' l) = some s' := hnext
        obtain ⟨hcalls, hring, hother⟩ := ring_next hnext
        by_cases hq : q = q'
        · subst hq
          exact Or.inr ⟨l, hguard s l hcalls hfair, hring⟩
        · exact Or.inl (hother q hq)

theorem ring_reachable (hs : (threaded search).Reachable Fair s) (q : RingName) :
    (machine Thread q.Item).Reachable (fun y l => OnlyConsumer (consumer q) l ∧ ProducerNotOvertaken y l) (s.rings q) := by
  by_cases hq : q = .bundle
  · subst hq
    exact (projection .bundle fun s l hcalls hfair => ⟨onlyConsumer_of_calls hcalls, hfair⟩).reachable hs
  · apply not_overtaken_of_only_producer (p := producer q)
    exact (projection q fun s l hcalls _ =>
      ⟨onlyConsumer_of_calls hcalls, onlyProducer_of_calls hq hcalls⟩).reachable hs

theorem control_of_reachable (hs : (threaded search).Reachable Fair s) : s.Control :=
  hs.invariant (fun _ hstart => Control.start hstart) fun _ _ _ hcontrol _ hnext => hcontrol.next hnext

theorem abs_start (h : (threaded search).start s) : (pipeline search).start s.abs := by
  obtain ⟨⟨node, hnode, hbase⟩, hrings⟩ := h
  refine ⟨node, hnode, ?_⟩
  have hfresh : ∀ q, (∀ t, (s.rings q).pcs t = .idle) ∧ (s.rings q).queue = [] := by
    intro q
    obtain ⟨malloc, junk, fuel, nem, ring, -, hring⟩ := hrings q
    rw [hring]
    exact ⟨fun _ => rfl, rfl⟩
  have hpast : ∀ t, s.past t = false := fun t => past_of_idle fun q => (hfresh q).1 t
  simp [Threaded.abs, hbase, hpast, hfresh, Pipeline.initial, Forward.initial]

theorem wellBehaved_pushStep (x : Pipeline) (t : Thread) (room : Bool) : WellBehaved x (Pipeline.pushStep t room) := by
  cases t <;> exact ⟨trivial, fun _ _ _ h => nomatch h⟩

theorem wellBehaved_popStep (x : Pipeline) (q : RingName) : WellBehaved x (Pipeline.popStep q) := by
  cases q <;> exact ⟨trivial, fun _ _ _ h => nomatch h⟩

/-- Every access of the daemon is a step of the pipeline, or shows nothing. -/
theorem simulation : Simulation (threaded search) Fair (pipeline search) WellBehaved Threaded.abs where
  start _ hstart := abs_start hstart
  step s e s' hs _ hfair hnext := by
    have hcontrol := control_of_reachable hs
    cases e with
    | apart e =>
        obtain ⟨base, hbase, rfl⟩ := Option.map_eq_some_iff.mp hnext
        exact Or.inr ⟨e, hfair, hcontrol.abs_apart hbase⟩
    | ring q l =>
        obtain ⟨⟨k, -, -, hsound⟩, -⟩ := sound_of_only_consumer (ring_reachable hs q)
        have hnext : s.next search (.ring q l) = some s' := hnext
        apply (hcontrol.abs_ring hsound (ringStep_of_next hnext)).imp_right
        rintro (⟨t, room, hpush⟩ | hpop)
        · exact ⟨_, wellBehaved_pushStep .., hpush⟩
        · exact ⟨_, wellBehaved_popStep .., hpop⟩

/-- However the accesses of the threads interleave, what the daemon is at is a state of the pipeline. -/
theorem pipeline_reachable (hs : (threaded search).Reachable Fair s) : (pipeline search).Reachable WellBehaved s.abs :=
  simulation.reachable hs

/-- Rings of two slots, and no datagram yet. -/
def small : Threaded where
  base := .initial fun _ => none
  rings q := .fresh ((create (fun _ => true) (fun _ => none) 1 0).get (by cases q <;> rfl))

theorem small_start : (threaded search).start small :=
  ⟨⟨_, fun _ => rfl, rfl⟩, fun _ => ⟨_, _, _, _, _, (Option.some_get _).symm, rfl⟩⟩

/-- The accesses of one client's runs. -/
def OneClientOnly (s : Threaded) : ThreadedStep → Prop
  | .apart e => OneClient s.base e
  | .ring .bundle l => ProducerNotOvertaken (s.rings .bundle) l
  | .ring _ _ => True

instance (s : Threaded) : (e : ThreadedStep) → Decidable (OneClientOnly s e)
  | .apart e => inferInstanceAs (Decidable (OneClient s.base e))
  | .ring .bundle l => inferInstanceAs (Decidable (ProducerNotOvertaken (s.rings .bundle) l))
  | .ring .work _ | .ring .forward _ => .isTrue trivial

theorem fair_of_oneClient (s : Threaded) (e : ThreadedStep) (h : OneClientOnly s e) : Fair s e := by
  cases e with
  | apart e => exact wellBehaved_of_oneClient e h
  | ring q l => cases q <;> exact h

/-- The worker finds the ring empty while the callback is inside its `enqueue`, and gets the node then; so
does the bundle thread. -/
def cachedRun : List ThreadedStep :=
  let work (l : Label Thread Nat) : ThreadedStep := .ring .work l
  let bundle (l : Label Thread Ref) : ThreadedStep := .ring .bundle l
  [.apart (.receive 3 ⟨5, 6⟩ (Query.single (0x12, 0x34) 0x61).encode), work (.callEnqueue .udp 0)]
    ++ List.replicate 3 (work (.run .udp)) ++ [work (.callDequeue .worker), work (.run .worker), work (.run .worker)]
    ++ List.replicate 3 (work (.run .udp)) ++ work (.callDequeue .worker) :: List.replicate 6 (work (.run .worker))
    ++ [.apart .parse, bundle (.callDequeue .bundle), bundle (.callEnqueue .worker (.node 0)), bundle (.run .bundle)]
    ++ List.replicate 6 (bundle (.run .worker)) ++ [bundle (.run .bundle), bundle (.callDequeue .bundle)]
    ++ List.replicate 6 (bundle (.run .bundle)) ++ [.apart .writeBack]

theorem cachedRun_reachable : ∃ s : Threaded, (threaded fun _ _ _ => 0x04030201).Reachable Fair s ∧
    s.base.sent.map Sent.cliaddr = [⟨5, 6⟩] ∧ s.base.freed = [.node 0] := by
  obtain ⟨s, hs, hobserved⟩ : ∃ s, (threaded fun _ _ _ => 0x04030201).Reachable OneClientOnly s ∧ _ :=
    Machine.Reachable.of_replay small_start cachedRun
      (f := fun s => (s.base.sent.map Sent.cliaddr, s.base.freed)) (v := ([⟨5, 6⟩], [.node 0])) (by decide +kernel)
  exact ⟨s, hs.weaken fun s e _ _ h => fair_of_oneClient s e h, congrArg Prod.fst hobserved, congrArg Prod.snd hobserved⟩

theorem pipeline_reachable_cached : ∃ s : Threaded, s.base.sent.map Sent.cliaddr = [⟨5, 6⟩] ∧
    (pipeline fun _ _ _ => 0x04030201).Reachable WellBehaved s.abs := by
  obtain ⟨s, hs, hsent, -⟩ := cachedRun_reachable
  exact ⟨s, hsent, pipeline_reachable hs⟩

end Threaded

end SimpDserver.Daemon

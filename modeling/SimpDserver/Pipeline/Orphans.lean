import SimpDserver.Pipeline.SingleOwner

/-!
# Orphans

Some exits of the stages let go of a node and free it nowhere. As long as none of them is taken, every
node that is in memory is in some stage's hands or in a queue; taking one leaves the node in memory for
good.
-/

namespace SimpDserver.Daemon

open Custody Transition

variable {search : List Insertion → (Nat → Byte) → Int → Ipv4} {s t : Pipeline} {T T' : BitVec 32 → List Nat}
  {e : PipelineStep}

/-- Every request node in memory is held. -/
def AllHeld (s : Pipeline) (T : BitVec 32 → List Nat) : Prop :=
  ∀ id, (s.forward.node (.node id)).isSome → Held (s.holds T) (.node id)

/-- Every receive yields a datagram, the parser accepts it, no enqueue meets a full ring; and responses
answer requests that wait. -/
def Orderly (search : List Insertion → (Nat → Byte) → Int → Ipv4) (s : Pipeline) (e : PipelineStep) : Prop :=
  Answering s e ∧ ¬Dropping search s e

theorem AllHeld.step (hs : AllHeld s T) (howned : Owned s T) (hkeep : ¬Dropping search s e)
    (h : Effect search s T e t T') : AllHeld t T' := by
  intro id halive
  cases h with
  | alloc rec _ _ _ holds node =>
      rw [holds, held_give]
      by_cases heq : Ref.node id = .node rec.id
      · exact Or.inr heq
      · rw [node, Function.update_of_ne heq] at halive
        exact Or.inl (hs id halive)
  | lose dropping => exact absurd dropping hkeep
  | move p q r n n' mem hn _ holds node =>
      rw [holds, howned.exclusive.held_move mem]
      by_cases heq : Ref.node id = r
      · exact ⟨p, heq ▸ mem⟩
      · rw [node, Function.update_of_ne heq] at halive
        exact hs id halive
  | drop dropping => exact absurd dropping hkeep
  | free r n mem _ holds node =>
      have hne : Ref.node id ≠ r := by
        rintro rfl
        rw [node, Function.update_self] at halive
        exact absurd halive (by decide)
      rw [holds, howned.exclusive.held_remove mem]
      rw [node, Function.update_of_ne hne] at halive
      exact ⟨hs id halive, hne⟩

/-- In every run that takes none of those exits, every node allocated and not yet freed is held by a stage
or stored in a queue, in every state. -/
theorem all_held (hs : (pipeline search).Reachable (Orderly search) s) :
    ∃ T, Table s.forward T ∧ ∀ id, (s.forward.node (.node id)).isSome → Held (s.holds T) (.node id) := by
  obtain ⟨T, hT, hheld⟩ := hs.invariant (I := fun s => ∃ T, Owned s T ∧ AllHeld s T)
    (by
      intro s hstart
      obtain ⟨node, hnode, rfl⟩ := hstart
      refine ⟨_, Owned.start hnode, fun id halive => ?_⟩
      have hnone : (Pipeline.initial node).forward.node (.node id) = none := hnode id
      rw [hnone] at halive
      exact absurd halive (by decide))
    (by
      intro s e t howned horderly hnext
      obtain ⟨T, hT, hheld⟩ := howned
      obtain ⟨hanswering, hkeep⟩ := horderly
      obtain ⟨T', htable, heffect⟩ := hT.effect hanswering hnext
      exact ⟨T', hT.step htable heffect, hheld.step hT hkeep heffect⟩)
  exact ⟨T, hT.table, hheld⟩

/-- The query of type AAAA for `a`. -/
def queryAaaa : List Byte := [0x12, 0x34, 1, 0, 0, 1, 0, 0, 0, 0, 0, 0, 1, 0x61, 0, 0, 28, 0, 1]

theorem Table.eq_nil {forward : Forward} (hT : Table forward T) (hlinks : forward.links = listInit) (h : BitVec 32) :
    T h = [] := by
  have hnone := (hT.circular h).unique ((Table.init hlinks).circular h)
  simpa using hnone

/-- One query has been received, into the node `n`, and this is where it is. -/
def oneQuery (n : Node) (udp : Option Nat) (workRing : List Nat) (worker : Worker) : Pipeline :=
  { Pipeline.initial (Function.update (fun _ => none) (.node 0) (some n)) with
    allocated := 1
    udp := udp
    workRing := workRing
    worker := worker
    received := [⟨0, 3, ⟨5, 6⟩, queryAaaa⟩] }

section OneQuery

variable (search) (guard : Pipeline → PipelineStep → Prop)

theorem next_receive : (pipeline search).next (Pipeline.initial fun _ => none) (.receive 3 ⟨5, 6⟩ queryAaaa) =
    some (oneQuery (received 3 ⟨5, 6⟩ queryAaaa) (some 0) [] .idle) := rfl

theorem next_pushWork (n : Node) : (pipeline search).next (oneQuery n (some 0) [] .idle) (.pushWork true) =
    some (oneQuery n none [0] .idle) := rfl

theorem next_popWork (n : Node) : (pipeline search).next (oneQuery n none [0] .idle) .popWork =
    some (oneQuery n none [] (.parsing 0)) := rfl

variable {guard}

/-- The worker has the query, if the guard lets it get there. -/
theorem reachable_parsing (hreceive : guard (Pipeline.initial fun _ => none) (.receive 3 ⟨5, 6⟩ queryAaaa))
    (hpush : ∀ s, guard s (.pushWork true)) (hpop : ∀ s, guard s .popWork) : (pipeline search).Reachable guard
      (oneQuery (received 3 ⟨5, 6⟩ queryAaaa) none [] (.parsing 0)) := by
  have hstart : (pipeline search).Reachable guard (Pipeline.initial fun _ => none) :=
    .start ⟨_, fun _ => rfl, rfl⟩
  have hreceived := hstart.step hreceive (next_receive search)
  have hpushed := hreceived.step (hpush _) (next_pushWork search _)
  exact hpushed.step (hpop _) (next_popWork search _)

end OneQuery

theorem all_held_parsing : ∃ T, Table (oneQuery (received 3 ⟨5, 6⟩ queryAaaa) none [] (.parsing 0)).forward T ∧
    ∀ id, ((oneQuery (received 3 ⟨5, 6⟩ queryAaaa) none [] (.parsing 0)).forward.node (.node id)).isSome →
      Held ((oneQuery (received 3 ⟨5, 6⟩ queryAaaa) none [] (.parsing 0)).holds T) (.node id) :=
  all_held (reachable_parsing (fun _ _ _ => 0) ⟨trivial, by simp [Dropping, queryAaaa]⟩
    (fun _ => ⟨trivial, by simp [Dropping]⟩) fun _ => ⟨trivial, by simp [Dropping]⟩)

/-- The parser does not accept the query, and nobody has its node then. -/
theorem rejected_query_orphaned : ∃ s, (pipeline fun _ _ _ => 0).Reachable (fun _ _ => True) s ∧
    (s.forward.node (.node 0)).isSome ∧ ∀ T, Table s.forward T → ¬Held (s.holds T) (.node 0) := by
  obtain ⟨r, hr, hpassed⟩ : ∃ r, insideParser (fun _ _ => 0) (received 3 ⟨5, 6⟩ queryAaaa) = some r ∧
      r.passed = none := by
    have hsome : (insideParser (fun _ _ => 0) (received 3 ⟨5, 6⟩ queryAaaa)).map ParserResult.passed =
        some none := by
      decide +kernel
    exact Option.map_eq_some_iff.mp hsome
  have hparse :
      (pipeline fun _ _ _ => 0).next (oneQuery (received 3 ⟨5, 6⟩ queryAaaa) none [] (.parsing 0)) .parse =
        some (oneQuery r.node none [] .idle) := by
    simp only [pipeline, Pipeline.parse, oneQuery, Pipeline.initial, Forward.initial, Forward.deliver,
      Function.update_self, Function.update_idem, Option.bind_eq_bind, Option.bind_some, hr, hpassed, Option.elim_none,
      Option.pure_def]
  have hparsing : (pipeline fun _ _ _ => 0).Reachable (fun _ _ => True) _ :=
    reachable_parsing _ trivial (fun _ => trivial) fun _ => trivial
  refine ⟨_, hparsing.step trivial hparse, rfl, fun T hT => ?_⟩
  have hpending := hT.eq_nil rfl
  intro hheld
  obtain ⟨p, hp⟩ := hheld
  cases p <;> simp [oneQuery, Pipeline.holds, hpending, Pipeline.initial, Forward.initial] at hp

end SimpDserver.Daemon

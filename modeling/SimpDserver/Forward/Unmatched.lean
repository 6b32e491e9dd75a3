import SimpDserver.Forward.Response
import SimpDserver.Lib.Transition
import SimpDserver.Bundle.WriteBack
import SimpDserver.Work.Query

/-!
# Responses nobody waits for

The forward module as a machine: requests are delivered and asked for, datagrams arrive from upstream,
whatever they hold. When no request with a datagram's ID waits, the cursor is the list head after the
loop, which is no null pointer, so the rest of `parse_response` is done to the head.
-/

namespace SimpDserver.Daemon

open CircularList Transition

inductive ForwardStep where
  | request (id : Nat) (node : Node)
  | response (fuel : Nat) (buff : Int → Byte) (bufflen : Int) (room : Bool)

/-- The forward module: any requests, any datagrams. -/
def forwardMachine : Machine Forward ForwardStep where
  start s := ∃ node, (∀ id, node (.node id) = none) ∧ s = Forward.initial node
  next s
    | .request id node =>
        if (s.node (.node id)).isNone then (gethostaddr (s.deliver id node) (.node id)).map Prod.fst else none
    | .response fuel buff bufflen room => (parseResponse fuel s buff bufflen room).map Prod.fst

/-- Every order of every step. -/
def anyStep (_ : Forward) (_ : ForwardStep) : Prop := True

/-- The lists stay lists, whatever arrives. -/
theorem exists_table {s : Forward} (hs : forwardMachine.Reachable anyStep s) : ∃ T, Table s T := by
  apply hs.invariant (I := fun s => ∃ T, Table s T)
  · intro s hstart
    obtain ⟨node, -, rfl⟩ := hstart
    exact ⟨_, Table.init rfl⟩
  · intro s e t htable _ hnext
    obtain ⟨T, hT⟩ := htable
    cases e with
    | request id node =>
        obtain ⟨hfresh, hnext⟩ := Option.ite_none_right_eq_some.mp hnext
        rw [Option.isNone_iff_eq_none] at hfresh
        obtain ⟨⟨t', sent⟩, hask, rfl⟩ := Option.map_eq_some_iff.mp hnext
        obtain ⟨f, hflags⟩ : ∃ f, node.flags = some f := by
          simp only [gethostaddr, Forward.deliver, Function.update_self, Option.bind_eq_bind, Option.bind_some,
            Option.bind_eq_some_iff] at hask
          obtain ⟨f, hflags, -⟩ := hask
          exact ⟨f, hflags⟩
        obtain ⟨links, hask', htable⟩ := hT.gethostaddr_deliver (hT.not_mem hfresh) hflags
        rw [hask] at hask'
        cases hask'
        exact ⟨_, htable⟩
    | response fuel buff bufflen room =>
        obtain ⟨⟨t', seen⟩, hparse, rfl⟩ := Option.map_eq_some_iff.mp hnext
        obtain ⟨item, s₁, seen₁, n, visits, stored, hmatch, hn, -, rfl, -⟩ :=
          parseResponse_eq_some_iff.mp hparse
        have hT₁ : ∃ T₁, Table s₁ T₁ := by
          rcases hT.matchItem_cases hmatch with ⟨_, _, _, _, -, -, -, -, -, -, htable⟩ | ⟨-, -, rfl, -⟩
          · exact ⟨_, htable⟩
          · exact ⟨T, hT⟩
        obtain ⟨T₁, hT₁⟩ := hT₁
        exact ⟨T₁, hT₁.store hn (storeIpv4_iden ..) (Forward.finish_links ..) (Forward.finish_node ..)⟩

/-- The datagram changes no list, neither the map nor the bundle ring, and the entries dereferenced on
its way are requests. -/
def Harmless (s : Forward) (buff : Int → Byte) (bufflen : Int) (room : Bool) : Prop :=
  ∃ fuel s' seen, parseResponse fuel s buff bufflen room = some (s', seen) ∧ s'.links = s.links ∧
    s'.inserted = s.inserted ∧ s'.bundle = s.bundle ∧ ∀ r ∈ seen, ∃ id, r = .node id ∧ (s.node r).isSome

/-- What a datagram with an ID that no request waits with does, whenever `parse_response` returns. -/
theorem Table.parseResponse_miss {s s' : Forward} {T : BitVec 32 → List Nat} (hT : Table s T) {fuel : Nat}
    {buff : Int → Byte} {bufflen : Int} {room : Bool} {seen : List Ref}
    (hnone : ∀ id, Waits s id → ¬HasIden s (load16 (buff 0) (buff 1)) id)
    (h : parseResponse fuel s buff bufflen room = some (s', seen)) :
    s'.inserted.length = s.inserted.length + 1 ∧
      s'.bundle = (if room then s.bundle ++ [.head (integerHash (load16 (buff 0) (buff 1)))] else s.bundle) ∧
      Ref.head (integerHash (load16 (buff 0) (buff 1))) ∈ seen := by
  obtain ⟨item, s₁, seen₁, n, visits, stored, hmatch, -, -, rfl, rfl⟩ := parseResponse_eq_some_iff.mp h
  rcases hT.matchItem_cases hmatch with ⟨pre, id, post, -, hsplit, hiden, -⟩ | ⟨-, rfl, rfl, -⟩
  · exact absurd hiden (hnone id (hT.waits_iff.mpr ⟨_, by rw [hsplit]; simp⟩))
  · refine ⟨?_, Forward.finish_bundle .., by simp⟩
    rw [Forward.finish_inserted, List.length_append, List.length_singleton]

/-- No datagram that no request waits for is harmless, in any state the module reaches. -/
theorem not_harmless_of_unmatched {s : Forward} (hs : forwardMachine.Reachable anyStep s) {buff : Int → Byte}
    (hnone : ∀ id, Waits s id → ¬HasIden s (load16 (buff 0) (buff 1)) id) (bufflen : Int) (room : Bool) :
    ¬Harmless s buff bufflen room := by
  intro hharmless
  obtain ⟨fuel, s', seen, hparse, -, -, -, hseen⟩ := hharmless
  obtain ⟨T, hT⟩ := exists_table hs
  obtain ⟨id, hhead, -⟩ := hseen _ (hT.parseResponse_miss hnone hparse).2.2
  exact Ref.noConfusion hhead

def noRequests : Forward :=
  Forward.initial fun
    | .head _ => some (received 0 ⟨0, 0⟩ [])
    | .node _ => none

theorem noRequests_reachable : forwardMachine.Reachable anyStep noRequests := .start ⟨_, fun _ => rfl, rfl⟩

theorem not_hasIden_noRequests (iden : BitVec 16) (id : Nat) : ¬HasIden noRequests iden id :=
  fun ⟨_, hn, _⟩ => Option.some_ne_none _ hn.symm

def lateReply : List Byte :=
  (writeBack (((Query.single (0x12, 0x34) 0x61).parsed 3 ⟨5, 6⟩).setIpv4 0x04030201)).datagram

/-- A late reply: an insertion is made, and a list head is on the bundle ring. -/
theorem late_reply_not_harmless : forwardMachine.Reachable anyStep noRequests ∧
    (∀ id, Waits noRequests id → ¬HasIden noRequests 0x3412 id) ∧
    ((parseResponse 8 noRequests (fun k => lateReply.getD k.toNat 0) 35 true).map fun r =>
      (r.1.inserted.length, r.1.bundle, r.2)) =
        some (1, [.head (integerHash 0x3412)], [.head (integerHash 0x3412)]) ∧
    ¬Harmless noRequests (fun k => lateReply.getD k.toNat 0) 35 true := by
  refine ⟨noRequests_reachable, fun id _ => not_hasIden_noRequests _ id, by decide +kernel, ?_⟩
  intro hharmless
  obtain ⟨fuel, s', seen, hparse, -, hinserted, -⟩ := hharmless
  have hmiss := Table.parseResponse_miss (Table.init rfl) (fun id _ => not_hasIden_noRequests _ id) hparse
  rw [hinserted] at hmiss
  exact absurd hmiss.1 (Nat.ne_of_lt (Nat.lt_succ_self _))

theorem not_harmless_of_unmatched_late : ¬Harmless noRequests (fun k => lateReply.getD k.toNat 0) 35 true :=
  not_harmless_of_unmatched noRequests_reachable (fun id _ => not_hasIden_noRequests _ id) 35 true

end SimpDserver.Daemon

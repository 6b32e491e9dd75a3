import SimpDserver.Forward.Response
import SimpDserver.Lib.BoundedQueue
import SimpDserver.Lib.FifoMultimap
import SimpDserver.Work.Query

/-!
# The lists are one multimap

Seen from outside, the 4096 lists are one table of requests under their IDs: `gethostaddr` adds a request,
a response takes the oldest of its ID. The list of a hash is what that table has under the IDs with that
hash, and both links of it lead around it.
-/

namespace SimpDserver.Daemon

open Calls CircularList

/-- What the forward thread does with the table. A request comes with the node the ring delivers; a
response with what the walk over it comes to, wherever that is, and with the room in the bundle ring. -/
inductive PendingCall where
  | forward (id : Nat) (node : Node)
  | response (fuel : Nat) (buff : Int → Byte) (stored : Option Int) (room : Bool)

/-- The lists, and what each call answers: the cursor of `parse_response`. -/
def pendingLists : Object Forward PendingCall (Option Ref) where
  call s
    | .forward id node => (gethostaddr (s.deliver id node) (.node id)).map fun x => (x.1, none)
    | .response fuel buff stored room => do
        let (item, s, _) ← matchItem fuel s buff
        let n ← s.node item
        return (s.finish item (storeIpv4 buff n stored) room, some item)

/-- The multimap. A request is parsed, so its flags are set, and is not pending; a response has the ID of a
pending request, and fuel for the search. -/
def pendingTable : Object (FifoMultimap (BitVec 16) Nat) PendingCall (Option Ref) where
  call q
    | .forward id node =>
        if node.flags.isSome then (q.put node.iden id).map fun q => (q, none) else none
    | .response fuel buff _ _ =>
        if q.entries.length < fuel then
          (q.take (load16 (buff 0) (buff 1))).map fun x => (x.2, some (.node x.1))
        else none

/-- A `parse_response` that returns is such a call. -/
theorem exists_call_of_parseResponse {fuel : Nat} {s s' : Forward} {buff : Int → Byte} {bufflen : Int} {room : Bool}
    {seen : List Ref} (h : parseResponse fuel s buff bufflen room = some (s', seen)) :
    ∃ stored, pendingLists.call s (.response fuel buff stored room) = some (s', seen.getLast?) := by
  obtain ⟨item, s₁, seen₁, n, visits, stored, hmatch, hn, -, rfl, rfl⟩ := parseResponse_eq_some_iff.mp h
  refine ⟨stored, ?_⟩
  simp only [pendingLists, hmatch, hn, Option.bind_eq_bind, Option.bind_some, Option.pure_def, List.getLast?_concat]

/-- The lists are the buckets of the multimap, and its keys are the IDs in the nodes. -/
structure Buckets (s : Forward) (q : FifoMultimap (BitVec 16) Nat) : Prop where
  table : Table s (q.bucket integerHash)
  keys : ∀ iden id, (iden, id) ∈ q.entries → ∃ n, s.node (.node id) = some n ∧ n.iden = iden

variable {s : Forward} {q q' : FifoMultimap (BitVec 16) Nat}

theorem Buckets.init (node : Ref → Option Node) : Buckets (Forward.initial node) .empty where
  table := Table.init rfl
  keys _ _ h := absurd h List.not_mem_nil

theorem Buckets.forward (hs : Buckets s q) {id : Nat} {node : Node} (hflags : node.flags.isSome)
    (hput : q.put node.iden id = some q') :
    ∃ s', pendingLists.call s (.forward id node) = some (s', none) ∧ Buckets s' q' := by
  obtain ⟨f, hf⟩ := Option.isSome_iff_exists.mp hflags
  obtain ⟨hnew, hentries⟩ := FifoMultimap.put_eq_some hput
  have hid : ∀ h, id ∉ q.bucket integerHash h := by
    intro h hmem
    obtain ⟨iden, hentry, -⟩ := FifoMultimap.mem_bucket.mp hmem
    exact hnew (List.mem_map_of_mem (f := Prod.snd) hentry)
  obtain ⟨links, hask, htable⟩ := hs.table.gethostaddr_deliver hid hf
  refine ⟨{ s.deliver id (node.setRd f) with links := links }, by simp only [pendingLists, hask, Option.map_some],
    ?_, ?_⟩
  · rw [FifoMultimap.bucket_put integerHash hput]
    exact htable
  · intro iden a ha
    rw [hentries, List.mem_append, List.mem_singleton, Prod.mk.injEq] at ha
    rcases ha with ha | ⟨rfl, rfl⟩
    · have hne : Ref.node a ≠ .node id := fun heq =>
        hnew (Ref.node.inj heq ▸ List.mem_map_of_mem (f := Prod.snd) ha)
      obtain ⟨n, hn, hiden⟩ := hs.keys iden a ha
      exact ⟨n, (Function.update_of_ne hne ..).trans hn, hiden⟩
    · exact ⟨_, Function.update_self .., rfl⟩

theorem Buckets.response (hs : Buckets s q) {fuel : Nat} {buff : Int → Byte} {id : Nat}
    (hfuel : q.entries.length < fuel) (htake : q.take (load16 (buff 0) (buff 1)) = some (id, q'))
    (stored : Option Int) (room : Bool) :
    ∃ s', pendingLists.call s (.response fuel buff stored room) = some (s', some (.node id)) ∧ Buckets s' q' := by
  obtain ⟨pre, post, hsplit, hpre, hlt, hbucket⟩ := FifoMultimap.bucket_take integerHash htake
  obtain ⟨before, after, hentries, -, hrest⟩ := FifoMultimap.take_eq_some htake
  have hentry : (load16 (buff 0) (buff 1), id) ∈ q.entries := by
    rw [hentries]
    simp
  obtain ⟨n, hn, hiden⟩ := hs.keys _ id hentry
  have hpassed : ∀ a ∈ pre, ∃ n, s.node (.node a) = some n ∧ n.iden ≠ load16 (buff 0) (buff 1) := by
    intro a ha
    obtain ⟨iden, hentry, hne⟩ := hpre a ha
    obtain ⟨m, hm, rfl⟩ := hs.keys iden a hentry
    exact ⟨m, hm, hne⟩
  obtain ⟨links, hmatch, htable⟩ := hs.table.matchItem_hit hsplit hn hiden hpassed (hlt.trans hfuel)
  refine ⟨({ s with links := links } : Forward).finish (.node id) (storeIpv4 buff n stored) room, ?_, ?_, ?_⟩
  · simp only [pendingLists, hmatch, hn, Option.bind_eq_bind, Option.bind_some, Option.pure_def]
  · rw [hbucket]
    exact htable.store hn (storeIpv4_iden ..) (Forward.finish_links ..) (Forward.finish_node ..)
  · intro iden a ha
    have hmem : (iden, a) ∈ q.entries := by
      rw [hrest] at ha
      rw [hentries]
      simp only [List.mem_append, List.mem_cons] at ha ⊢
      tauto
    obtain ⟨m, hm, hkey⟩ := hs.keys iden a hmem
    rw [Forward.finish_node]
    by_cases heq : Ref.node a = .node id
    · rw [heq] at hm ⊢
      rw [hn] at hm
      cases hm
      exact ⟨_, Function.update_self .., (storeIpv4_iden ..).trans hkey⟩
    · exact ⟨m, (Function.update_of_ne heq ..).trans hm, hkey⟩

/-- Call by call, the lists answer as the multimap does. -/
theorem pendingLists_refines : Refines pendingLists pendingTable Buckets := by
  intro s q call q' answer hs hcall
  cases call with
  | forward id node =>
      obtain ⟨hflags, hcall⟩ := Option.ite_none_right_eq_some.mp hcall
      obtain ⟨q₁, hput, heq⟩ := Option.map_eq_some_iff.mp hcall
      cases heq
      exact hs.forward hflags hput
  | response fuel buff stored room =>
      obtain ⟨hfuel, hcall⟩ := Option.ite_none_right_eq_some.mp hcall
      obtain ⟨⟨id, q₁⟩, htake, heq⟩ := Option.map_eq_some_iff.mp hcall
      cases heq
      exact hs.response hfuel htake stored room

/-- Whatever is forwarded, and whatever responses to pending requests arrive: each response takes the
oldest request of its ID, the others stay in their order, and the links of every list are inverse. -/
theorem pending_is_fifo (node : Ref → Option Node) {calls : List PendingCall} {answers : List (Option Ref)}
    (hcalls : pendingTable.run .empty calls = some (q, answers)) :
    ∃ s, pendingLists.run (Forward.initial node) calls = some (s, answers) ∧
      (∀ iden id, (iden, id) ∈ q.entries → ∃ n, s.node (.node id) = some n ∧ n.iden = iden) ∧
      ∀ h fuel, q.entries.length < fuel →
        s.links.entries (.head h) fuel (.head h) = some ((q.bucket integerHash h).map Ref.node) ∧
        ∀ r ∈ Ref.head h :: (q.bucket integerHash h).map Ref.node, s.links.InverseAt r := by
  obtain ⟨s, hrun, hs⟩ := pendingLists_refines.run (Buckets.init node) hcalls
  refine ⟨s, hrun, hs.keys, fun h fuel hfuel => ?_⟩
  have hcircular := hs.table.circular h
  have hlength : ((q.bucket integerHash h).map Ref.node).length < fuel := by
    have hle := List.length_filter_le (fun e : BitVec 16 × Nat => decide (integerHash e.1 = h)) q.entries
    rw [List.length_map, FifoMultimap.bucket, List.length_map]
    omega
  exact ⟨hcircular.entries hlength, fun r hr => hcircular.inverseAt hr⟩

/-- Two requests with one ID, and a response with it. -/
def twoThenOne : List PendingCall :=
  [.forward 0 ((Query.single (0x12, 0x34) 0x61).parsed 3 ⟨5, 6⟩),
    .forward 1 ((Query.single (0x12, 0x34) 0x62).parsed 3 ⟨7, 8⟩),
    .response 3 (fun k => if k = 0 then 0x12 else 0x34) none true]

/-- The first is taken, and the second stays. -/
theorem pending_is_fifo_two_then_one : ∃ s,
    pendingLists.run (Forward.initial fun _ => none) twoThenOne = some (s, [none, none, some (.node 0)]) ∧
      s.links.entries (.head (integerHash 0x3412)) 2 (.head (integerHash 0x3412)) = some [.node 1] := by
  obtain ⟨s, hrun, -, hlists⟩ := pending_is_fifo (q := ⟨[(0x3412, 1)], List.nodup_singleton 1⟩) (fun _ => none)
    (show pendingTable.run .empty twoThenOne = some (_, [none, none, some (.node 0)]) from rfl)
  exact ⟨s, hrun, (hlists (integerHash 0x3412) 2 (by decide)).1⟩

end SimpDserver.Daemon

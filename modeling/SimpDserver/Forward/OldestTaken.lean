import SimpDserver.Forward.Exchange

/-!
# Whose answer it is

The requests of one ID are taken in the order in which they were forwarded, so a response is taken for
the name it is about as long as, of each ID, the responses come in that order too, and no longer.
-/

namespace SimpDserver.Daemon

open Transition

variable {s : Exchange}

theorem eq_of_prefix {α : Type*} {xs ys zs : List α} (hx : xs <+: zs) (hy : ys <+: zs) (h : xs.length = ys.length) :
    xs = ys :=
  (List.prefix_of_prefix_length_le hx hy h.le).eq_of_length h

def takenHost (taken : Option Request) : List Byte := taken.elim [] fun r => r.2.host

/-- For any requests taken in order, the names are right when the responses come in the order of the
requests. -/
theorem hosts_eq_iff {asked : List Request} {matched : List Match}
    (horder : matched.map Match.taken <+: asked.map some) :
    (∀ m ∈ matched, takenHost m.taken = m.answered.2.host) ↔
      matched.map (fun m => m.answered.2.host) <+: asked.map fun r => r.2.host := by
  have hprefix : (matched.map Match.taken).map takenHost <+: (asked.map some).map takenHost := horder.map takenHost
  rw [List.map_map, List.map_map] at hprefix
  have hsome : takenHost ∘ some = fun r : Request => r.2.host := rfl
  rw [hsome] at hprefix
  constructor
  · intro h
    rwa [List.map_congr_left (g := fun m => m.answered.2.host) h] at hprefix
  · intro h
    have heq := eq_of_prefix hprefix h (by rw [List.length_map, List.length_map])
    exact List.map_inj_left.mp heq

/-- In every run with an honest upstream server: of each ID the requests are taken in the order in which
they were forwarded; each response inserts the address read from it under the host of the request taken,
and puts it in that request for its client; and all those hosts are the names that were answered exactly
when, of each ID, the responses come by name in the order of the requests. -/
theorem oldest_taken (hs : exchange.Reachable honest s) :
    (∀ iden, (s.matchedFor iden).map Match.taken <+: (s.askedFor iden).map some) ∧
    List.Forall₂ InsertedBy s.matched s.forward.inserted ∧
    (∀ m ∈ s.matched, ∃ r n, m.taken = some r ∧ r.iden = m.answered.iden ∧
      s.forward.node (.node r.1) = some n ∧ n.ipv4 = m.address) ∧
    ((∀ m ∈ s.matched, takenHost m.taken = m.answered.2.host) ↔
      ∀ iden, (s.matchedFor iden).map (fun m => m.answered.2.host) <+:
        (s.askedFor iden).map fun r => r.2.host) := by
  obtain ⟨R, hR⟩ := exists_ordered hs
  have horder : ∀ iden, (s.matchedFor iden).map Match.taken <+: (s.askedFor iden).map some := fun iden =>
    ⟨_, (hR.order iden).symm⟩
  refine ⟨horder, hR.inserted, fun m hm => ?_, ?_⟩
  · obtain ⟨r, htaken, -, -, fd, cliaddr, hnode⟩ := hR.stored m hm
    have hmem : some r ∈ (s.askedFor m.answered.iden).map some :=
      (horder m.answered.iden).subset (htaken ▸ List.mem_map_of_mem (mem_matchedFor.mpr ⟨hm, rfl⟩))
    obtain ⟨r', hr', heq⟩ := List.mem_map.mp hmem
    cases heq
    exact ⟨r, _, htaken, (mem_askedFor.mp hr').2, hnode, rfl⟩
  · constructor
    · intro h iden
      exact (hosts_eq_iff (horder iden)).mp fun m hm => h m (mem_matchedFor.mp hm).1
    · intro h m hm
      exact (hosts_eq_iff (horder m.answered.iden)).mpr (h _) m (mem_matchedFor.mpr ⟨hm, rfl⟩)

def letterReply (c : Byte) (ip : Ipv4) : Int → Byte := fun k =>
  (writeBack (((Query.single (0x12, 0x34) c).parsed 3 ⟨5, 6⟩).setIpv4 ip)).datagram.getD k.toNat 0

/-- Two clients use one ID, for `a` and for `b`; only `b` is answered. -/
def onlyBAnswered : List ExchangeStep :=
  [.ask 0 (Query.single (0x12, 0x34) 0x61) 3 ⟨5, 6⟩, .ask 1 (Query.single (0x12, 0x34) 0x62) 3 ⟨7, 8⟩,
    .answer (1, Query.single (0x12, 0x34) 0x62) 8 (letterReply 0x62 0x04030201) 35 true]

def nothingAsked : Exchange := ⟨Forward.initial fun _ => none, [], []⟩

theorem nothingAsked_start : exchange.start nothingAsked := ⟨_, fun _ => rfl, rfl⟩

set_option synthInstance.maxSize 400 in
/-- The address of `b` is inserted under `a`, and sent to who asked for `a`. -/
theorem only_b_answered_taken_for_a : ∃ s, exchange.Reachable honest s ∧
    s.matched.map (fun m => (m.answered.2.host, takenHost m.taken, m.address)) = [([0x62], [0x61], 0x04030201)] ∧
    s.forward.inserted.map (fun i => (i.domain 0, i.domainLen, i.ipv4)) = [(0x61, 1, 0x04030201)] ∧
    s.forward.bundle = [.node 0] := by
  obtain ⟨s, hs, hobserved⟩ : ∃ s, exchange.Reachable honest s ∧ _ :=
    Machine.Reachable.of_replay nothingAsked_start onlyBAnswered
    (f := fun s => (s.matched.map (fun m => (m.answered.2.host, takenHost m.taken, m.address)),
      s.forward.inserted.map (fun i => (i.domain 0, i.domainLen, i.ipv4)), s.forward.bundle))
    (v := ([([0x62], [0x61], 0x04030201)], [(0x61, 1, 0x04030201)], [.node 0])) (by decide +kernel)
  simp only [Prod.mk.injEq] at hobserved
  exact ⟨s, hs, hobserved⟩

/-- Asked for `a` and `b` with one ID; `a` is answered first. -/
theorem oldest_taken_in_order : ∃ s : Exchange, s.matched.length = 1 ∧
    ∀ iden, (s.matchedFor iden).map Match.taken <+: (s.askedFor iden).map some := by
  obtain ⟨s, hs, hlength⟩ : ∃ s, exchange.Reachable honest s ∧ _ :=
    Machine.Reachable.of_replay nothingAsked_start
    [.ask 0 (Query.single (0x12, 0x34) 0x61) 3 ⟨5, 6⟩, .ask 1 (Query.single (0x12, 0x34) 0x62) 3 ⟨7, 8⟩,
      .answer (0, Query.single (0x12, 0x34) 0x61) 8 (letterReply 0x61 0x04030201) 35 true]
    (f := fun s => s.matched.length) (v := 1) (by decide +kernel)
  exact ⟨s, hlength, (oldest_taken hs).1⟩

end SimpDserver.Daemon

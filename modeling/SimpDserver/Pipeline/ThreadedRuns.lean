import SimpDserver.Pipeline.ThreadedRefines

/-!
# One owner, one reply, in every interleaving

What the pipeline keeps, the daemon keeps, however the accesses of its threads to the rings interleave.
-/

namespace SimpDserver.Daemon

open NetRing Custody Transition

namespace Threaded

variable {search : List Insertion → (Nat → Byte) → Int → Ipv4} {s : Threaded}

/-- A thread at work on a node is in no call, so the pipeline has it at work on that node too. -/
theorem Control.ready (h : s.Control) (hready : Ready search s.abs) : Ready search s.base where
  parse id hworker := by
    have hpast : s.past .worker = false := past_of_idle (h.idle_of_nextRing (by simp [Pipeline.nextRing, hworker]))
    have hparse := hready.parse id (by simp [abs, hpast, hworker])
    simpa [Pipeline.parse, abs, hpast, hworker, Option.isSome_bind] using hparse
  ask id hforwarder := by
    have hpast : s.past .forward = false := past_of_idle (h.idle_of_nextRing (by simp [Pipeline.nextRing, hforwarder]))
    have hask := hready.ask id (by simp [abs, hpast, hforwarder])
    simpa [Pipeline.ask, gethostaddr, abs, hpast, hforwarder, Option.isSome_bind] using hask
  insert item hforwarder := by
    have hpast : s.past .forward = false := past_of_idle (h.idle_of_nextRing (by simp [Pipeline.nextRing, hforwarder]))
    have hinsert := hready.insert item (by simp [abs, hpast, hforwarder])
    simpa [Pipeline.insert, insertItem, abs, hpast, hforwarder, Option.isSome_bind] using hinsert
  writeBack item hwriter := by
    have hwrite := hready.writeBack item (by simp [abs, hwriter])
    simpa [Pipeline.writeBack, abs, hwriter, Option.isSome_bind] using hwrite

/-- Each ring is a queue whose one consumer, when it returns, has the oldest item of it. -/
structure Handover (s : Threaded) (q : RingName) : Prop where
  fifo : FifoQueue (s.rings q)
  only : ∀ t, ((s.rings q).pcs t).Dequeues → t = consumer q
  head : ∀ t w item, (s.rings q).pcs t = .deqPublish w item → ∃ x rest, item = some x ∧ s.abs.queue q = x :: rest

theorem handover_of_reachable (hs : (threaded search).Reachable Fair s) (q : RingName) : s.Handover q := by
  obtain ⟨⟨k, -, hk, hsound⟩, halone⟩ := sound_of_only_consumer (ring_reachable hs q)
  refine ⟨hsound.fifo hk halone.missed, halone.only, fun t w item hpc => ?_⟩
  obtain ⟨x, hitem, hqueue⟩ := hsound.queue_head hpc
  exact ⟨x, _, hitem, (abs_queue q).trans hqueue⟩

/-- With well-behaved clients and servers, and no producer of the bundle ring overtaken, in every interleaving of the
accesses of the threads: the rings hand each node over once, in the order of the compare-and-sets that reserved the
slots; a node is in one place at most and is in memory while it is somewhere; no thread is stopped by the node it works
on; nothing is freed twice; and of each datagram received there is one reply at most, to its sender, with its ID and all
that is behind its header. -/
theorem one_owner_of_accesses (hs : (threaded search).Reachable Fair s) :
    (∀ q, s.Handover q) ∧
    (∃ T, Table s.abs.forward T ∧ Exclusive (s.abs.holds T) ∧ ∀ p, ∀ r ∈ s.abs.holds T p,
      (∃ id, r = .node id) ∧ (s.base.forward.node r).isSome ∧ r ∉ s.base.freed) ∧
    Ready search s.base ∧ s.base.freed.Nodup ∧ (s.base.sent.map Sent.item).Nodup ∧
    ∀ m ∈ s.base.sent, ∃ rec ∈ s.base.received, m.item = .node rec.id ∧ m.cliaddr = rec.cliaddr ∧
      Carries m.datagram rec.bytes := by
  obtain ⟨hheld, hready, hfreed, hsent, -, hreplies⟩ := single_owner (pipeline_reachable hs)
  exact ⟨handover_of_reachable hs, hheld, (control_of_reachable hs).ready hready, hfreed, hsent, hreplies⟩

theorem one_owner_of_accesses_cached : ∃ s : Threaded, s.base.sent.map Sent.cliaddr = [⟨5, 6⟩] ∧
    s.base.freed = [.node 0] ∧ (s.base.sent.map Sent.item).Nodup := by
  obtain ⟨s, hs, hsent, hfreed⟩ := cachedRun_reachable
  exact ⟨s, hsent, hfreed, (one_owner_of_accesses hs).2.2.2.2.1⟩

end Threaded

end SimpDserver.Daemon

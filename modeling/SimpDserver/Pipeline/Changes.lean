import SimpDserver.Pipeline.SingleOwner

/-!
# What becomes of a request

The cases of a step say all it can do, once for every stage. The effects of a step say who holds which node; here is
what a step makes of the node itself. A request that is held
after a step, and has been parsed, was held before it as it is now, or has just been parsed, asked for, or answered.
-/

namespace SimpDserver.Daemon

open Custody Transition

variable {search : List Insertion → (Nat → Byte) → Int → Ipv4} {s t : Pipeline} {T T' : BitVec 32 → List Nat}
  {e : PipelineStep}

/-- All that a step can do: the cases of each stage, with what it reads and what it leaves. -/
inductive Next (search : List Insertion → (Nat → Byte) → Int → Ipv4) (s : Pipeline) : PipelineStep → Pipeline → Prop
  | receive (fd : Int) (cliaddr : SockAddr) (bytes : List Byte) (hudp : s.udp = none) (hbytes : bytes ≠ []) :
      Next search s (.receive fd cliaddr bytes) { s with
        forward := s.forward.deliver s.allocated (Daemon.received fd cliaddr bytes)
        allocated := s.allocated + 1
        udp := some s.allocated
        received := s.received ++ [⟨s.allocated, fd, cliaddr, bytes⟩] }
  | receiveNothing (fd : Int) (cliaddr : SockAddr) (hudp : s.udp = none) : Next search s (.receive fd cliaddr []) { s with
        forward := s.forward.deliver s.allocated (Daemon.received fd cliaddr [])
        allocated := s.allocated + 1 }
  | pushWork (room : Bool) (id : Nat) (hudp : s.udp = some id) :
      Next search s (.pushWork room) { s with udp := none, workRing := ringEnqueue s.workRing room id }
  | popWork (id : Nat) (ring : List Nat) (hworker : s.worker = .idle) (hring : s.workRing = id :: ring) :
      Next search s .popWork { s with workRing := ring, worker := .parsing id }
  | parse (id : Nat) (n : Node) (res : ParserResult) (hworker : s.worker = .parsing id)
      (hn : s.forward.node (.node id) = some n) (hres : insideParser (search s.forward.inserted) n = some res) :
      Next search s .parse
        { s with forward := s.forward.deliver id res.node, worker := res.passed.elim .idle (.passing id) }
  | passForward (room : Bool) (id : Nat) (hworker : s.worker = .passing id .forward) :
      Next search s (.pass room) { s with worker := .idle, forwardRing := ringEnqueue s.forwardRing room id }
  | passBundle (room : Bool) (id : Nat) (hworker : s.worker = .passing id .bundle) :
      Next search s (.pass room) { s with worker := .idle, forward := bundleEnqueue s.forward room (.node id) }
  | popForward (id : Nat) (ring : List Nat) (hforwarder : s.forwarder = .idle) (hring : s.forwardRing = id :: ring) :
      Next search s .popForward { s with forwardRing := ring, forwarder := .asking id }
  | ask (id : Nat) (n : Node) (flags : Nat) (links : CircularList.Links Ref) (hforwarder : s.forwarder = .asking id)
      (hn : s.forward.node (.node id) = some n) (hflags : n.flags = some flags)
      (hlinks : listAddTail s.forward.links (.node id) (.head (integerHash n.iden)) = some links) :
      Next search s .ask { s with
        forward := { s.forward with
          node := Function.update s.forward.node (.node id) (some (n.setRd flags)), links := links }
        forwarder := .idle }
  | respond (fuel : Nat) (buff : Int → Byte) (bufflen : Int) (item : Ref) (links : CircularList.Links Ref)
      (seen : List Ref) (n : Node) (visits : List Int) (stored : Option Int) (hforwarder : s.forwarder = .idle)
      (hmatch : matchItem fuel s.forward buff = some (item, { s.forward with links := links }, seen))
      (hn : s.forward.node item = some n) (hwalk : walk buff bufflen fuel (answerPos n) = some (visits, stored)) :
      Next search s (.respond fuel buff bufflen) { s with
        forward := { s.forward with
          links := links, node := Function.update s.forward.node item (some (storeIpv4 buff n stored)) }
        forwarder := .answered item }
  | insert (item : Ref) (n : Node) (hforwarder : s.forwarder = .answered item) (hn : s.forward.node item = some n) :
      Next search s .insert { s with
        forward := { s.forward with inserted := s.forward.inserted ++ [⟨n.shost, n.hostLen, n.ipv4⟩] }
        forwarder := .inserted item }
  | pushBundle (room : Bool) (item : Ref) (hforwarder : s.forwarder = .inserted item) :
      Next search s (.pushBundle room) { s with forward := bundleEnqueue s.forward room item, forwarder := .idle }
  | popBundle (item : Ref) (ring : List Ref) (hwriter : s.writer = none) (hbundle : s.forward.bundle = item :: ring) :
      Next search s .popBundle { s with forward := { s.forward with bundle := ring }, writer := some item }
  | writeBack (item : Ref) (n : Node) (hwriter : s.writer = some item) (hn : s.forward.node item = some n) :
      Next search s .writeBack { s with
        forward := { s.forward with node := Function.update s.forward.node item none }
        writer := none
        sent := s.sent ++ [⟨item, n.cliaddr, (Daemon.writeBack n).datagram⟩]
        freed := s.freed ++ [item] }

theorem pipeline_cases (h : (pipeline search).next s e = some t) : Next search s e t := by
  cases e with
  | receive fd cliaddr bytes =>
      simp only [pipeline, Pipeline.receive] at h
      split at h
      · cases h
      next hudp =>
        split at h <;> cases h
        next hbytes => exact .receive fd cliaddr bytes hudp hbytes
        next hbytes =>
          obtain rfl := not_not.mp hbytes
          exact .receiveNothing fd cliaddr hudp
  | pushWork room =>
      simp only [pipeline, Pipeline.pushWork, Option.bind_eq_bind, Option.bind_eq_some_iff, Option.pure_def] at h
      obtain ⟨id, hudp, h⟩ := h
      cases h
      exact .pushWork room id hudp
  | popWork =>
      simp only [pipeline, Pipeline.popWork] at h
      split at h <;> cases h
      next hworker hring => exact .popWork _ _ hworker hring
  | parse =>
      simp only [pipeline, Pipeline.parse] at h
      split at h
      next id hworker =>
        simp only [Option.bind_eq_bind, Option.bind_eq_some_iff, Option.pure_def] at h
        obtain ⟨n, hn, res, hres, h⟩ := h
        cases h
        exact .parse id n res hworker hn hres
      next => cases h
  | pass room =>
      simp only [pipeline, Pipeline.pass] at h
      split at h <;> cases h
      next id hworker => exact .passForward room id hworker
      next id hworker => exact .passBundle room id hworker
  | popForward =>
      simp only [pipeline, Pipeline.popForward] at h
      split at h <;> cases h
      next hforwarder hring => exact .popForward _ _ hforwarder hring
  | ask =>
      simp only [pipeline, Pipeline.ask] at h
      split at h
      next id hforwarder =>
        simp only [gethostaddr, Option.bind_eq_bind, Option.bind_eq_some_iff, Option.pure_def] at h
        obtain ⟨_, ⟨n, hn, flags, hflags, links, hlinks, hask⟩, h⟩ := h
        cases hask
        cases h
        exact .ask id n flags links hforwarder hn hflags hlinks
      next => cases h
  | respond fuel buff bufflen =>
      simp only [pipeline, Pipeline.respond] at h
      split at h
      next hforwarder =>
        simp only [readItem, Option.bind_eq_bind, Option.bind_eq_some_iff, Option.pure_def] at h
        obtain ⟨⟨item, forward, seen⟩, hmatch, _, ⟨n, hn, ⟨visits, stored⟩, hwalk, hread⟩, h⟩ := h
        cases hread
        cases h
        obtain ⟨links, rfl⟩ := exists_links_of_matchItem hmatch
        exact .respond fuel buff bufflen item links seen n visits stored hforwarder hmatch hn hwalk
      next => cases h
  | insert =>
      simp only [pipeline, Pipeline.insert] at h
      split at h
      next item hforwarder =>
        simp only [insertItem, Option.bind_eq_bind, Option.bind_eq_some_iff, Option.pure_def] at h
        obtain ⟨_, ⟨n, hn, hinsert⟩, h⟩ := h
        cases hinsert
        cases h
        exact .insert item n hforwarder hn
      next => cases h
  | pushBundle room =>
      simp only [pipeline, Pipeline.pushBundle] at h
      split at h <;> cases h
      next item hforwarder => exact .pushBundle room item hforwarder
  | popBundle =>
      simp only [pipeline, Pipeline.popBundle] at h
      split at h <;> cases h
      next item ring hwriter hbundle => exact .popBundle item ring hwriter hbundle
  | writeBack =>
      simp only [pipeline, Pipeline.writeBack, Option.bind_eq_bind, Option.bind_eq_some_iff, Option.pure_def] at h
      obtain ⟨item, hwriter, n, hn, h⟩ := h
      cases h
      exact .writeBack item n hwriter hn

@[simp] theorem bundleEnqueue_node (forward : Forward) (room : Bool) (item : Ref) :
    (bundleEnqueue forward room item).node = forward.node := by
  cases room <;> rfl

@[simp] theorem bundleEnqueue_links (forward : Forward) (room : Bool) (item : Ref) :
    (bundleEnqueue forward room item).links = forward.links := by
  cases room <;> rfl

@[simp] theorem bundleEnqueue_inserted (forward : Forward) (room : Bool) (item : Ref) :
    (bundleEnqueue forward room item).inserted = forward.inserted := by
  cases room <;> rfl

/-! ### The node -/

/-- How a node that is in memory after a step came to be what it is. -/
inductive Change (search : List Insertion → (Nat → Byte) → Int → Ipv4) (s : Pipeline) (e : PipelineStep) (t : Pipeline)
    (r : Ref) (n : Node) : Prop
  | same (hn : s.forward.node r = some n)
  | fresh (hflags : n.flags = none)
  | parsed (id : Nat) (m : Node) (res : ParserResult) (hr : r = .node id) (hworker : s.worker = .parsing id)
      (hm : s.forward.node r = some m) (hres : insideParser (search s.forward.inserted) m = some res) (hn : n = res.node)
      (ht : t = { s with forward := s.forward.deliver id res.node, worker := res.passed.elim .idle (.passing id) })
  | asked (m : Node) (flags : Nat) (hm : s.forward.node r = some m) (hflags : m.flags = some flags) (hn : n = m.setRd flags)
  | answered (fuel : Nat) (buff : Int → Byte) (bufflen : Int) (m : Node) (visits : List Int) (stored : Option Int)
      (he : e = .respond fuel buff bufflen) (hm : s.forward.node r = some m)
      (hmatch : ∃ forward seen, matchItem fuel s.forward buff = some (r, forward, seen))
      (hwalk : walk buff bufflen fuel (answerPos m) = some (visits, stored)) (hn : n = storeIpv4 buff m stored)

theorem update_eq_some {m : Ref → Option Node} {r r' : Ref} {n n' : Node}
    (h : Function.update m r' (some n') r = some n) : (r = r' ∧ n = n') ∨ m r = some n := by
  by_cases hr : r = r'
  · subst hr
    rw [Function.update_self] at h
    exact Or.inl ⟨rfl, (Option.some.inj h).symm⟩
  · rw [Function.update_of_ne hr] at h
    exact Or.inr h

theorem exists_change (h : (pipeline search).next s e = some t) {r : Ref} {n : Node} (hn : t.forward.node r = some n) :
    Change search s e t r n := by
  cases pipeline_cases h with
  | receive | receiveNothing =>
      rcases update_eq_some hn with ⟨-, rfl⟩ | hn
      · exact .fresh rfl
      · exact .same hn
  | pushWork | popWork | passForward | popForward | insert | popBundle => exact .same hn
  | parse id m res hworker hm hres =>
      rcases update_eq_some hn with ⟨rfl, rfl⟩ | hn
      · exact .parsed id m res rfl hworker hm hres rfl rfl
      · exact .same hn
  | passBundle | pushBundle =>
      rw [bundleEnqueue_node] at hn
      exact .same hn
  | ask id m flags links _ hm hflags =>
      rcases update_eq_some hn with ⟨rfl, rfl⟩ | hn
      · exact .asked m flags hm hflags rfl
      · exact .same hn
  | respond fuel buff bufflen item links seen m visits stored _ hmatch hm hwalk =>
      rcases update_eq_some hn with ⟨rfl, rfl⟩ | hn
      · exact .answered fuel buff bufflen m visits stored rfl hm ⟨_, _, hmatch⟩ hwalk rfl
      · exact .same hn
  | writeBack item =>
      dsimp only at hn
      by_cases hr : r = item
      · rw [hr, Function.update_self] at hn
        cases hn
      · rw [Function.update_of_ne hr] at hn
        exact .same hn

/-- What a step does to the insertions made. -/
theorem inserted_cases (h : (pipeline search).next s e = some t) :
    t.forward.inserted = s.forward.inserted ∨ ∃ item n, s.forwarder = .answered item ∧ s.forward.node item = some n ∧
      t.forward.inserted = s.forward.inserted ++ [⟨n.shost, n.hostLen, n.ipv4⟩] := by
  cases pipeline_cases h with
  | insert item n hforwarder hn => exact Or.inr ⟨item, n, hforwarder, hn, rfl⟩
  | passBundle | pushBundle => exact Or.inl (bundleEnqueue_inserted ..)
  | _ => exact Or.inl rfl

/-! ### The logs -/

/-- What a step does to the datagrams received: a new one is in a new node. -/
theorem Effect.received_cases (h : Effect search s T e t T') : t.received = s.received ∨
    ∃ rec, rec.id = s.allocated ∧ e = .receive rec.fd rec.cliaddr rec.bytes ∧ rec.bytes ≠ [] ∧
      t.received = s.received ++ [rec] := by
  cases h with
  | alloc rec hid he hbytes _ _ _ received => exact Or.inr ⟨rec, hid, he, hbytes, received⟩
  | lose _ _ _ _ _ received => exact Or.inl received
  | move _ _ _ _ _ _ _ _ _ _ logs => exact Or.inl logs.received
  | drop _ _ _ _ _ _ _ _ _ logs => exact Or.inl logs.received
  | free _ _ _ _ _ _ _ received => exact Or.inl received

/-- What a step does to the replies sent: a new one is made of the node that is being written. -/
theorem Effect.sent_cases (h : Effect search s T e t T') : t.sent = s.sent ∨
    ∃ r n, r ∈ s.holds T .writing ∧ s.forward.node r = some n ∧ t.received = s.received ∧
      t.sent = s.sent ++ [⟨r, n.cliaddr, (writeBack n).datagram⟩] := by
  cases h with
  | alloc _ _ _ _ _ _ _ _ sent => exact Or.inl sent
  | lose _ _ _ _ _ _ sent => exact Or.inl sent
  | move _ _ _ _ _ _ _ _ _ _ logs => exact Or.inl logs.sent
  | drop _ _ _ _ _ _ _ _ _ logs => exact Or.inl logs.sent
  | free r n mem hn _ _ _ received sent => exact Or.inr ⟨r, n, mem, hn, received, sent⟩

theorem Effect.received_subset (h : Effect search s T e t T') : s.received ⊆ t.received := by
  rcases h.received_cases with heq | ⟨rec, -, -, -, heq⟩
  · exact heq ▸ List.Subset.refl _
  · exact heq ▸ List.subset_append_left _ _

theorem Effect.wellFormed (heffect : Effect search s T e t T') (hbehaved : WellBehaved s e)
    (hwell : ∀ rec ∈ s.received, WellFormed rec.bytes) : ∀ rec ∈ t.received, WellFormed rec.bytes := by
  rcases heffect.received_cases with heq | ⟨rec, -, he, hbytes, heq⟩
  · exact heq ▸ hwell
  · rw [heq, List.forall_mem_append, List.forall_mem_singleton]
    exact ⟨hwell, (hbehaved.2 _ _ _ he).resolve_left hbytes⟩

/-! ### Requests that are held -/

/-- What is held is in memory as its place says. -/
theorem Owned.nodeAt (hs : Owned s T) {p : Place} {r : Ref} {n : Node} (hr : r ∈ s.holds T p)
    (hn : s.forward.node r = some n) : ∃ rec ∈ s.received, r = .node rec.id ∧ NodeAt n rec p := by
  obtain ⟨n', rec, hrec, heq, hn', hat⟩ := hs.content p r hr
  exact ⟨rec, hrec, heq, Option.some.inj (hn'.symm.trans hn) ▸ hat⟩

/-- What is parsed is a datagram as it was received. -/
theorem Owned.parsing (hs : Owned s T) {id : Nat} {n : Node} (hworker : s.worker = .parsing id)
    (hn : s.forward.node (.node id) = some n) : ∃ rec ∈ s.received, rec.id = id ∧ n = rec.node := by
  have hmem : Ref.node id ∈ s.holds T .parsing := by simp [Pipeline.holds, hworker]
  obtain ⟨rec, hrec, hr, hat⟩ := hs.nodeAt hmem hn
  exact ⟨rec, hrec, (Ref.node.inj hr).symm, hat⟩

theorem not_held_initial {node : Ref → Option Node} (hnode : ∀ id, node (.node id) = none) (r : Ref) :
    ¬Held ((Pipeline.initial node).holds fun _ => []) r := by
  intro hheld
  obtain ⟨p, hr⟩ := hheld
  obtain ⟨_, _, hrec, -⟩ := (Owned.start hnode).content p r hr
  exact absurd hrec List.not_mem_nil

/-- The links say what waits. -/
theorem Table.eq_of_links {f f' : Forward} {T T' : BitVec 32 → List Nat} (hT : Table f T) (hT' : Table f' T')
    (hlinks : f'.links = f.links) : T' = T := by
  funext h
  have hcircular := hT'.circular h
  rw [hlinks] at hcircular
  exact List.map_injective_iff.mpr (fun _ _ => Ref.node.inj) (hcircular.unique (hT.circular h))

/-- A request that the parser has turned away is in nobody's hands. -/
theorem Owned.not_held_of_rejected (hs : Owned s T) {id : Nat} {n : Node} (hworker : s.worker = .parsing id)
    (ht : t = { s with forward := s.forward.deliver id n, worker := .idle }) (htable : Table t.forward T') :
    ¬Held (t.holds T') (.node id) := by
  have hmem : Ref.node id ∈ s.holds T .parsing := by simp [Pipeline.holds, hworker]
  subst ht
  obtain rfl : T' = T := hs.table.eq_of_links htable rfl
  intro hheld
  obtain ⟨p, hp⟩ := hheld
  have hparsing : p = .parsing := by
    apply hs.exclusive.unique _ hmem
    cases p with
    | parsing | passing => exact absurd hp List.not_mem_nil
    | _ => exact hp
  subst hparsing
  exact absurd hp List.not_mem_nil

theorem Logged.eq_of_id (hs : Logged s) {rec rec' : Received} (hrec : rec ∈ s.received) (hrec' : rec' ∈ s.received)
    (hid : rec.id = rec'.id) : rec = rec' := List.inj_on_of_nodup_map hs.received_nodup hrec hrec' hid

/-- A response for a request that waits is matched with one that has its ID. -/
theorem Owned.exists_match (hs : Owned s T) {fuel : Nat} {buff : Int → Byte} {bufflen : Int}
    (hanswering : Answering s (.respond fuel buff bufflen)) {r : Ref} {forward : Forward} {seen : List Ref}
    (h : matchItem fuel s.forward buff = some (r, forward, seen)) :
    (∃ h, ∃ id ∈ T h, r = .node id) ∧ ∃ n, s.forward.node r = some n ∧ n.iden = load16 (buff 0) (buff 1) := by
  rcases hs.table.matchItem_cases h with ⟨pre, id, post, -, hsplit, ⟨n, hn, hiden⟩, -, rfl, -⟩ | ⟨hnone, -⟩
  · exact ⟨⟨_, id, hsplit ▸ List.mem_append_right _ List.mem_cons_self, rfl⟩, n, hn, hiden⟩
  · obtain ⟨id, hwaits, n, hn, hiden⟩ := hanswering
    obtain ⟨h, hid⟩ := hs.table.waits_iff.mp hwaits
    obtain ⟨n', hn', hhash⟩ := hs.table.hashed h id hid
    obtain rfl : n' = n := Option.some.inj (hn'.symm.trans hn)
    rw [hiden] at hhash
    exact absurd ⟨n', hn, hiden⟩ (hnone id (hhash ▸ hid))

/-- A request that has been parsed and is held was held before. -/
theorem Owned.held_of_effect (hs : Owned s T) (h : Effect search s T e t T') {r : Ref} {n : Node}
    (hheld : Held (t.holds T') r) (hn : t.forward.node r = some n) (hflags : n.flags ≠ none) : Held (s.holds T) r := by
  cases h with
  | alloc rec _ _ _ holds node =>
      rw [holds, held_give] at hheld
      apply hheld.resolve_right
      rintro rfl
      rw [node, Function.update_self] at hn
      exact hflags (Option.some.inj hn ▸ rfl)
  | lose _ _ holds => exact holds ▸ hheld
  | move _ _ _ _ _ mem _ _ holds => exact (hs.exclusive.held_move mem).mp (holds ▸ hheld)
  | drop _ _ _ _ _ mem _ holds => exact ((hs.exclusive.held_remove mem).mp (holds ▸ hheld)).1
  | free _ _ mem _ holds => exact ((hs.exclusive.held_remove mem).mp (holds ▸ hheld)).1

/-- How a request that has been parsed, and is held after a step, came to be what it is. -/
inductive HeldChange (search : List Insertion → (Nat → Byte) → Int → Ipv4) (s : Pipeline) (T : BitVec 32 → List Nat)
    (e : PipelineStep) (r : Ref) (n : Node) : Prop
  | same (hheld : Held (s.holds T) r) (hn : s.forward.node r = some n)
  | parsed (rec : Received) (res : ParserResult) (hrec : rec ∈ s.received) (hr : r = .node rec.id)
      (hres : insideParser (search s.forward.inserted) rec.node = some res) (hpassed : res.passed ≠ none) (hn : n = res.node)
  | asked (m : Node) (flags : Nat) (hheld : Held (s.holds T) r) (hm : s.forward.node r = some m)
      (hflags : m.flags = some flags) (hn : n = m.setRd flags)
  | answered (fuel : Nat) (buff : Int → Byte) (bufflen : Int) (m : Node) (visits : List Int) (stored : Option Int)
      (he : e = .respond fuel buff bufflen) (hheld : Held (s.holds T) r) (hpending : ∃ h, ∃ id ∈ T h, r = .node id)
      (hm : s.forward.node r = some m) (hflags : m.flags ≠ none) (hiden : m.iden = load16 (buff 0) (buff 1))
      (hwalk : walk buff bufflen fuel (answerPos m) = some (visits, stored)) (hn : n = storeIpv4 buff m stored)

theorem Owned.held_change (hs : Owned s T) (hanswering : Answering s e) (hnext : (pipeline search).next s e = some t)
    (htable : Table t.forward T') (heffect : Effect search s T e t T') {r : Ref} {n : Node} (hheld : Held (t.holds T') r)
    (hn : t.forward.node r = some n) (hflags : n.flags ≠ none) : HeldChange search s T e r n := by
  have hbefore := hs.held_of_effect heffect hheld hn hflags
  cases exists_change hnext hn with
  | same hn => exact .same hbefore hn
  | fresh hnone => exact absurd hnone hflags
  | asked m flags hm hmflags heq => exact .asked m flags hbefore hm hmflags heq
  | answered fuel buff bufflen m visits stored he hm hmatch hwalk heq =>
      subst he heq
      obtain ⟨forward, seen, hmatch⟩ := hmatch
      obtain ⟨hpending, m', hm', hiden⟩ := hs.exists_match hanswering hmatch
      obtain rfl : m' = m := Option.some.inj (hm'.symm.trans hm)
      have hmflags : m'.flags ≠ none := by cases stored <;> exact hflags
      exact .answered fuel buff bufflen m' visits stored rfl hbefore hpending hm hmflags hiden hwalk rfl
  | parsed id m res hr hworker hm hres heq ht =>
      subst hr heq
      by_cases hpassed : res.passed = none
      · rw [hpassed] at ht
        exact absurd hheld (hs.not_held_of_rejected hworker ht htable)
      obtain ⟨rec, hrec, rfl, rfl⟩ := hs.parsing hworker hm
      exact .parsed rec res hrec rfl hres hpassed rfl

end SimpDserver.Daemon

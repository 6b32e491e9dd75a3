import SimpDserver.Pipeline.Code

/-!
# What a step can do

Every step of the daemon has one of five effects on who holds which node: a new node comes into the udp
callback's hands, or is lost at once; a node passes from one holder to another; a holder lets go of it
without handing it on; the writer frees it. A response must be for a request that waits.
-/

namespace SimpDserver.Daemon

open Custody Transition

/-- A node that still is what was received, but for the RD bit and what the parser and the walk put in. -/
structure Kept (n : Node) (rec : Received) : Prop where
  cliaddr : n.cliaddr = rec.cliaddr
  datalen : n.datalen = rec.node.datalen
  data : ∀ i, i ≠ 2 → n.data i = rec.node.data i
  flags : n.flags = some 2

/-- What a node is, by the place it is in. -/
def NodeAt (n : Node) (rec : Received) : Place → Prop
  | .udp | .workRing | .parsing => n = rec.node
  | _ => Kept n rec

/-- Responses answer requests that wait. -/
def Answering (s : Pipeline) : PipelineStep → Prop
  | .respond _ buff _ => ∃ id, Waits s.forward id ∧ HasIden s.forward (load16 (buff 0) (buff 1)) id
  | _ => True

variable (search : List Insertion → (Nat → Byte) → Int → Ipv4)

/-- The steps that let go of a node without handing it on: nothing received, a datagram the parser does
not accept, a ring without room. -/
def Dropping (s : Pipeline) : PipelineStep → Prop
  | .receive _ _ bytes => bytes = []
  | .pushWork room | .pass room | .pushBundle room => room = false
  | .parse => ∃ id n, s.worker = .parsing id ∧ s.forward.node (.node id) = some n ∧
      ¬∃ parsed, Accepts (search s.forward.inserted) n parsed
  | _ => False

/-- Nothing was allocated, received, sent or freed. -/
structure SameLogs (s t : Pipeline) : Prop where
  allocated : t.allocated = s.allocated
  received : t.received = s.received
  sent : t.sent = s.sent
  freed : t.freed = s.freed

/-- The effect of a step on custody, on memory and on what has happened. -/
inductive Effect (s : Pipeline) (T : BitVec 32 → List Nat) (e : PipelineStep) (t : Pipeline)
    (T' : BitVec 32 → List Nat) : Prop
  | alloc (rec : Received) (hid : rec.id = s.allocated) (he : e = .receive rec.fd rec.cliaddr rec.bytes)
      (hbytes : rec.bytes ≠ []) (holds : t.holds T' = give (s.holds T) .udp (.node rec.id))
      (node : t.forward.node = Function.update s.forward.node (.node rec.id) (some rec.node))
      (allocated : t.allocated = s.allocated + 1) (received : t.received = s.received ++ [rec])
      (sent : t.sent = s.sent) (freed : t.freed = s.freed)
  | lose (dropping : Dropping search s e) (n : Node) (holds : t.holds T' = s.holds T)
      (node : t.forward.node = Function.update s.forward.node (.node s.allocated) (some n))
      (allocated : t.allocated = s.allocated + 1) (received : t.received = s.received)
      (sent : t.sent = s.sent) (freed : t.freed = s.freed)
  | move (p q : Place) (r : Ref) (n n' : Node) (mem : r ∈ s.holds T p) (hn : s.forward.node r = some n)
      (content : ∀ rec, NodeAt n rec p → NodeAt n' rec q) (holds : t.holds T' = give (remove (s.holds T) p r) q r)
      (node : t.forward.node = Function.update s.forward.node r (some n')) (logs : SameLogs s t)
  | drop (dropping : Dropping search s e) (p : Place) (r : Ref) (n n' : Node) (mem : r ∈ s.holds T p)
      (hn : s.forward.node r = some n) (holds : t.holds T' = remove (s.holds T) p r)
      (node : t.forward.node = Function.update s.forward.node r (some n')) (logs : SameLogs s t)
  | free (r : Ref) (n : Node) (mem : r ∈ s.holds T .writing) (hn : s.forward.node r = some n)
      (holds : t.holds T' = remove (s.holds T) .writing r)
      (node : t.forward.node = Function.update s.forward.node r none) (allocated : t.allocated = s.allocated)
      (received : t.received = s.received) (sent : t.sent = s.sent ++ [⟨r, n.cliaddr, (writeBack n).datagram⟩])
      (freed : t.freed = s.freed ++ [r])

/-- Who holds what, exclusively; and what is held is in memory, as it was received. -/
structure Owned (s : Pipeline) (T : BitVec 32 → List Nat) : Prop where
  table : Table s.forward T
  exclusive : Exclusive (s.holds T)
  content : ∀ p, ∀ r ∈ s.holds T p, ∃ n, ∃ rec ∈ s.received, r = .node rec.id ∧
    s.forward.node r = some n ∧ NodeAt n rec p
  fresh : ∀ id, s.allocated ≤ id → s.forward.node (.node id) = none

variable {search} {s t : Pipeline} {T : BitVec 32 → List Nat}

theorem Owned.alive (hs : Owned s T) {p : Place} {r : Ref} (hr : r ∈ s.holds T p) :
    ∃ n, s.forward.node r = some n := by
  obtain ⟨n, -, -, -, hn, -⟩ := hs.content p r hr
  exact ⟨n, hn⟩

theorem Owned.not_waiting (hs : Owned s T) {p : Place} {id : Nat} (hr : Ref.node id ∈ s.holds T p)
    (hp : ∀ h, p ≠ .pending h) (h : BitVec 32) : id ∉ T h := fun hmem =>
  hp h (hs.exclusive.unique hr (List.mem_map_of_mem hmem))

theorem Owned.table_deliver (hs : Owned s T) {p : Place} {id : Nat} (n : Node) (hr : Ref.node id ∈ s.holds T p)
    (hp : ∀ h, p ≠ .pending h) : Table (s.forward.deliver id n) T :=
  hs.table.update (ne_node_of_not_mem (hs.not_waiting hr hp)) rfl rfl

theorem Owned.effect_receive (hs : Owned s T) {fd : Int} {cliaddr : SockAddr} {bytes : List Byte}
    (h : s.receive fd cliaddr bytes = some t) :
    ∃ T', Table t.forward T' ∧ Effect search s T (.receive fd cliaddr bytes) t T' := by
  have htable : Table (s.forward.deliver s.allocated (received fd cliaddr bytes)) T :=
    hs.table.update (ne_node_of_not_mem (hs.table.not_mem (hs.fresh _ le_rfl))) rfl rfl
  rw [Pipeline.receive] at h
  split at h
  · cases h
  next hudp =>
    by_cases hbytes : bytes = []
    · rw [if_neg (not_not_intro hbytes)] at h
      cases h
      exact ⟨T, htable, .lose hbytes _ rfl rfl rfl rfl rfl rfl⟩
    · rw [if_pos hbytes] at h
      cases h
      refine ⟨T, htable, .alloc ⟨s.allocated, fd, cliaddr, bytes⟩ rfl rfl hbytes ?_ rfl rfl rfl rfl rfl⟩
      funext p
      cases p <;> simp [Pipeline.holds, give, hudp, Forward.deliver]

/-- A step that leaves links and nodes as they are. -/
theorem Owned.unchanged (hs : Owned s T) {p : Place} {r : Ref} (hr : r ∈ s.holds T p)
    (hlinks : t.forward.links = s.forward.links) (hnode : t.forward.node = s.forward.node) :
    Table t.forward T ∧
      ∃ n, s.forward.node r = some n ∧ t.forward.node = Function.update s.forward.node r (some n) := by
  obtain ⟨n, hn⟩ := hs.alive hr
  refine ⟨hs.table.congr hlinks fun _ _ _ => by rw [hnode], n, hn, ?_⟩
  rw [hnode, ← hn, Function.update_eq_self]

/-- Handing a node on as it is. -/
theorem Owned.effect_handOn (hs : Owned s T) {e : PipelineStep} (p q : Place) {r : Ref} (hr : r ∈ s.holds T p)
    (hcontent : ∀ n rec, NodeAt n rec p → NodeAt n rec q) (hholds : t.holds T = give (remove (s.holds T) p r) q r)
    (hlinks : t.forward.links = s.forward.links := by rfl) (hnode : t.forward.node = s.forward.node := by rfl)
    (hlogs : SameLogs s t := by constructor <;> rfl) : ∃ T', Table t.forward T' ∧ Effect search s T e t T' := by
  obtain ⟨htable, n, hn, hupdate⟩ := hs.unchanged hr hlinks hnode
  exact ⟨T, htable, .move p q r n n hr hn (hcontent n) hholds hupdate hlogs⟩

/-- Letting go of it. -/
theorem Owned.effect_letGo (hs : Owned s T) {e : PipelineStep} (hdropping : Dropping search s e) (p : Place)
    {r : Ref} (hr : r ∈ s.holds T p) (hholds : t.holds T = remove (s.holds T) p r)
    (hlinks : t.forward.links = s.forward.links := by rfl) (hnode : t.forward.node = s.forward.node := by rfl)
    (hlogs : SameLogs s t := by constructor <;> rfl) : ∃ T', Table t.forward T' ∧ Effect search s T e t T' := by
  obtain ⟨htable, n, hn, hupdate⟩ := hs.unchanged hr hlinks hnode
  exact ⟨T, htable, .drop hdropping p r n n hr hn hholds hupdate hlogs⟩

theorem Owned.effect_pushWork (hs : Owned s T) {room : Bool} (h : s.pushWork room = some t) :
    ∃ T', Table t.forward T' ∧ Effect search s T (.pushWork room) t T' := by
  simp only [Pipeline.pushWork, Option.bind_eq_bind, Option.bind_eq_some_iff, Option.pure_def] at h
  obtain ⟨id, hudp, h⟩ := h
  cases h
  have hmem : Ref.node id ∈ s.holds T .udp := by simp [Pipeline.holds, hudp]
  cases room with
  | true =>
      apply hs.effect_handOn .udp .workRing hmem (fun _ _ h => h)
      funext p
      cases p <;> simp [Pipeline.holds, give, remove, hudp, ringEnqueue]
  | false =>
      refine hs.effect_letGo rfl .udp hmem ?_
      funext p
      cases p <;> simp [Pipeline.holds, remove, hudp, ringEnqueue]

theorem Owned.effect_popWork (hs : Owned s T) (h : s.popWork = some t) :
    ∃ T', Table t.forward T' ∧ Effect search s T .popWork t T' := by
  rw [Pipeline.popWork] at h
  split at h
  next id ring hworker hring =>
    cases h
    have hmem : Ref.node id ∈ s.holds T .workRing := by simp [Pipeline.holds, hring]
    apply hs.effect_handOn .workRing .parsing hmem (fun _ _ h => h)
    funext p
    cases p <;> simp [Pipeline.holds, give, remove, hworker, hring]
  next => cases h

theorem Owned.effect_parse (hs : Owned s T) (h : s.parse search = some t) :
    ∃ T', Table t.forward T' ∧ Effect search s T .parse t T' := by
  rw [Pipeline.parse] at h
  split at h
  next id hworker =>
    simp only [Option.bind_eq_bind, Option.bind_eq_some_iff, Option.pure_def] at h
    obtain ⟨n, hn, r, hparser, h⟩ := h
    cases h
    have hmem : Ref.node id ∈ s.holds T .parsing := by simp [Pipeline.holds, hworker]
    refine ⟨T, hs.table_deliver _ hmem (by simp), ?_⟩
    obtain ⟨-, hcliaddr, hdatalen, hdata, hflags⟩ := insideParser_keeps hparser
    cases hpassed : r.passed with
    | some queue =>
        have hflags : r.node.flags = some 2 := by simpa [hpassed] using hflags
        refine .move .parsing .passing _ n r.node hmem hn ?_ ?_ rfl ⟨rfl, rfl, rfl, rfl⟩
        · rintro rec rfl
          exact ⟨hcliaddr, hdatalen, fun i _ => congrFun hdata i, hflags⟩
        · funext p
          cases p <;> simp [Pipeline.holds, give, remove, hworker, Forward.deliver]
    | none =>
        refine .drop ⟨id, n, hworker, hn, ?_⟩ .parsing _ n r.node hmem hn ?_ rfl ⟨rfl, rfl, rfl, rfl⟩
        · intro haccepted
          obtain ⟨parsed, queue, haccepts⟩ := haccepted
          rw [hparser] at haccepts
          rw [Option.some.inj haccepts] at hpassed
          exact absurd hpassed (Option.some_ne_none queue)
        · funext p
          cases p <;> simp [Pipeline.holds, remove, hworker, Forward.deliver]
  next => cases h

theorem Owned.effect_pass (hs : Owned s T) {room : Bool} (h : s.pass room = some t) :
    ∃ T', Table t.forward T' ∧ Effect search s T (.pass room) t T' := by
  rw [Pipeline.pass] at h
  split at h
  next id hworker =>
    cases h
    have hmem : Ref.node id ∈ s.holds T .passing := by simp [Pipeline.holds, hworker]
    cases room with
    | true =>
        apply hs.effect_handOn .passing .forwardRing hmem (fun _ _ h => h)
        funext p
        cases p <;> simp [Pipeline.holds, give, remove, hworker, ringEnqueue]
    | false =>
        refine hs.effect_letGo rfl .passing hmem ?_
        funext p
        cases p <;> simp [Pipeline.holds, remove, hworker, ringEnqueue]
  next id hworker =>
    cases h
    have hmem : Ref.node id ∈ s.holds T .passing := by simp [Pipeline.holds, hworker]
    cases room with
    | true =>
        apply hs.effect_handOn .passing .bundle hmem (fun _ _ h => h)
        funext p
        cases p <;> simp [Pipeline.holds, give, remove, hworker, bundleEnqueue]
    | false =>
        refine hs.effect_letGo rfl .passing hmem ?_
        funext p
        cases p <;> simp [Pipeline.holds, remove, hworker, bundleEnqueue]
  next => cases h

theorem Owned.effect_popForward (hs : Owned s T) (h : s.popForward = some t) :
    ∃ T', Table t.forward T' ∧ Effect search s T .popForward t T' := by
  rw [Pipeline.popForward] at h
  split at h
  next id ring hforwarder hring =>
    cases h
    have hmem : Ref.node id ∈ s.holds T .forwardRing := by simp [Pipeline.holds, hring]
    apply hs.effect_handOn .forwardRing .asking hmem (fun _ _ h => h)
    funext p
    cases p <;> simp [Pipeline.holds, give, remove, hforwarder, hring]
  next => cases h

theorem Kept.setRd {n : Node} {rec : Received} (h : Kept n rec) : Kept (n.setRd 2) rec where
  cliaddr := h.cliaddr
  datalen := h.datalen
  data i hi := (Function.update_of_ne hi ..).trans (h.data i hi)
  flags := h.flags

theorem Kept.setIpv4 {n : Node} {rec : Received} (h : Kept n rec) (ip : Ipv4) : Kept (n.setIpv4 ip) rec :=
  ⟨h.cliaddr, h.datalen, h.data, h.flags⟩

theorem Owned.effect_ask (hs : Owned s T) (h : s.ask = some t) :
    ∃ T', Table t.forward T' ∧ Effect search s T .ask t T' := by
  rw [Pipeline.ask] at h
  split at h
  next id hforwarder =>
    simp only [Option.bind_eq_bind, Option.bind_eq_some_iff, Option.pure_def] at h
    obtain ⟨⟨forward, sent⟩, hask, h⟩ := h
    cases h
    have hmem : Ref.node id ∈ s.holds T .asking := by simp [Pipeline.holds, hforwarder]
    obtain ⟨n, rec, -, -, hn, hkept⟩ := hs.content _ _ hmem
    have hkept : Kept n rec := hkept
    obtain ⟨links, hask', htable⟩ := hs.table.gethostaddr hn hkept.flags (hs.not_waiting hmem (by simp))
    rw [hask] at hask'
    cases hask'
    refine ⟨_, htable, .move .asking (.pending (integerHash n.iden)) _ n (n.setRd 2) hmem hn
      (fun _ h => Kept.setRd h) ?_ rfl ⟨rfl, rfl, rfl, rfl⟩⟩
    funext p
    cases p with
    | pending h =>
        by_cases hh : h = integerHash n.iden
        · simp [Pipeline.holds, give, remove, hh]
        · simp [Pipeline.holds, give, remove, hh]
    | _ => simp [Pipeline.holds, give, remove, hforwarder]
  next => cases h

theorem Owned.effect_respond (hs : Owned s T) {fuel : Nat} {buff : Int → Byte} {bufflen : Int}
    (hanswering : Answering s (.respond fuel buff bufflen)) (h : s.respond fuel buff bufflen = some t) :
    ∃ T', Table t.forward T' ∧ Effect search s T (.respond fuel buff bufflen) t T' := by
  rw [Pipeline.respond] at h
  split at h
  next hforwarder =>
    simp only [readItem, Option.bind_eq_bind, Option.bind_eq_some_iff, Option.pure_def] at h
    obtain ⟨⟨item, forward, seen⟩, hmatch, _, ⟨n, hn, ⟨visits, stored⟩, -, h'⟩, h⟩ := h
    cases h'
    cases h
    rcases hs.table.matchItem_cases hmatch with
      ⟨pre, id, post, links, hsplit, -, -, rfl, rfl, -, htable⟩ | ⟨hnone, -⟩
    · have hmem : Ref.node id ∈ s.holds T (.pending (integerHash (load16 (buff 0) (buff 1)))) := by
        simp [Pipeline.holds, hsplit]
      refine ⟨_, htable.store hn (storeIpv4_iden ..) rfl rfl,
        .move _ .answering _ n (storeIpv4 buff n stored) hmem hn ?_ ?_ rfl ⟨rfl, rfl, rfl, rfl⟩⟩
      · intro rec hkept
        cases stored with
        | none => exact hkept
        | some pos => exact Kept.setIpv4 hkept _
      · have hpre : Ref.node id ∉ pre.map Ref.node := by
          have hnodup := hs.exclusive.nodup (.pending (integerHash (load16 (buff 0) (buff 1))))
          simp only [Pipeline.holds, hsplit, List.map_append, List.map_cons, List.nodup_middle,
            List.nodup_cons] at hnodup
          exact fun hin => hnodup.1 (List.mem_append_left _ hin)
        funext p
        cases p with
        | pending h =>
            by_cases hh : h = integerHash (load16 (buff 0) (buff 1))
            · subst hh
              simp [Pipeline.holds, give, remove, hsplit, List.erase_append_right _ hpre]
            · simp [Pipeline.holds, give, remove, hh]
        | _ => simp [Pipeline.holds, give, remove, hforwarder]
    · obtain ⟨id, hwaits, hiden⟩ := hanswering
      obtain ⟨h, hid⟩ := hs.table.waits_iff.mp hwaits
      obtain ⟨n', hn', hhash⟩ := hs.table.hashed h id hid
      have hh : h = integerHash (load16 (buff 0) (buff 1)) := by
        obtain ⟨n'', hn'', heq⟩ := hiden
        rw [hn'] at hn''
        rw [← hhash, ← heq, Option.some.inj hn'']
      exact absurd hiden (hnone id (hh ▸ hid))
  next => cases h

theorem Owned.effect_insert (hs : Owned s T) (h : s.insert = some t) :
    ∃ T', Table t.forward T' ∧ Effect search s T .insert t T' := by
  rw [Pipeline.insert] at h
  split at h
  next item hforwarder =>
    simp only [insertItem, Option.bind_eq_bind, Option.bind_eq_some_iff, Option.pure_def] at h
    obtain ⟨_, ⟨n, hn, h'⟩, h⟩ := h
    cases h'
    cases h
    have hmem : item ∈ s.holds T .answering := by simp [Pipeline.holds, hforwarder]
    apply hs.effect_handOn .answering .answering hmem (fun _ _ h => h)
    funext p
    cases p <;> simp [Pipeline.holds, give, remove, hforwarder]
  next => cases h

theorem Owned.effect_pushBundle (hs : Owned s T) {room : Bool} (h : s.pushBundle room = some t) :
    ∃ T', Table t.forward T' ∧ Effect search s T (.pushBundle room) t T' := by
  rw [Pipeline.pushBundle] at h
  split at h
  next item hforwarder =>
    cases h
    have hmem : item ∈ s.holds T .answering := by simp [Pipeline.holds, hforwarder]
    cases room with
    | true =>
        apply hs.effect_handOn .answering .bundle hmem (fun _ _ h => h)
        funext p
        cases p <;> simp [Pipeline.holds, give, remove, hforwarder, bundleEnqueue]
    | false =>
        refine hs.effect_letGo rfl .answering hmem ?_
        funext p
        cases p <;> simp [Pipeline.holds, remove, hforwarder, bundleEnqueue]
  next => cases h

theorem Owned.effect_popBundle (hs : Owned s T) (h : s.popBundle = some t) :
    ∃ T', Table t.forward T' ∧ Effect search s T .popBundle t T' := by
  rw [Pipeline.popBundle] at h
  split at h
  next item ring hwriter hring =>
    cases h
    have hmem : item ∈ s.holds T .bundle := by simp [Pipeline.holds, hring]
    apply hs.effect_handOn .bundle .writing hmem (fun _ _ h => h)
    funext p
    cases p <;> simp [Pipeline.holds, give, remove, hwriter, hring]
  next => cases h

theorem Owned.effect_writeBack (hs : Owned s T) (h : s.writeBack = some t) :
    ∃ T', Table t.forward T' ∧ Effect search s T .writeBack t T' := by
  simp only [Pipeline.writeBack, Option.bind_eq_bind, Option.bind_eq_some_iff, Option.pure_def] at h
  obtain ⟨item, hwriter, n, hn, h⟩ := h
  cases h
  have hmem : item ∈ s.holds T .writing := by simp [Pipeline.holds, hwriter]
  have hfree : ∀ h, ∀ id ∈ T h, item ≠ .node id := by
    rintro h id hid rfl
    exact hs.not_waiting hmem (by simp) h hid
  refine ⟨T, hs.table.update hfree rfl rfl, .free _ n hmem hn ?_ rfl rfl rfl rfl rfl⟩
  funext p
  cases p <;> simp [Pipeline.holds, remove, hwriter]

/-- The five effects are all there are. -/
theorem Owned.effect (hs : Owned s T) {e : PipelineStep} (hanswering : Answering s e)
    (h : (pipeline search).next s e = some t) : ∃ T', Table t.forward T' ∧ Effect search s T e t T' := by
  cases e with
  | receive => exact hs.effect_receive h
  | pushWork => exact hs.effect_pushWork h
  | popWork => exact hs.effect_popWork h
  | parse => exact hs.effect_parse h
  | pass => exact hs.effect_pass h
  | popForward => exact hs.effect_popForward h
  | ask => exact hs.effect_ask h
  | respond => exact hs.effect_respond hanswering h
  | insert => exact hs.effect_insert h
  | pushBundle => exact hs.effect_pushBundle h
  | popBundle => exact hs.effect_popBundle h
  | writeBack => exact hs.effect_writeBack h

end SimpDserver.Daemon

import SimpDserver.Hashmap.LockedDecides
import SimpDserver.Lib.Simulation

/-!
# The shared map is linearizable

However the steps of the threads interleave, the history of calls and returns is one of a map whose calls
take effect one at a time, and no thread is stopped but by a lock that another one gives back.
-/

namespace SimpDserver.NetHashmap

open RedBlack Atomic Locking Transition

/-- A map with the same entries whose trees were not written to. -/
theorem Hashmap.After.congr {calls : List Call} {s s' : Hashmap} {T : BitVec 32 → RBTree Addr} (hs : Hashmap.After calls s T)
    (harray : s'.array = s.array) (hentry : s'.entry = s.entry)
    (hrbnode : ∀ a ∈ mallocs calls, s'.rbnode a = s.rbnode a) : Hashmap.After calls s' T where
  holds :=
    { bucket := fun h => (hs.holds.bucket h).congr (congrFun harray h) (fun a ha => hrbnode a (hs.mem_mallocs ha))
        fun a _ => congrFun hentry a
      disjoint := hs.holds.disjoint }
  inserted h a ha := by
    obtain ⟨domain, len, ipv4, hmem, hlen, hhash, he⟩ := hs.inserted h a ha
    exact ⟨domain, len, ipv4, hmem, hlen, hhash, hentry ▸ he⟩
  unallocated a ha := hentry ▸ hs.unallocated a ha

namespace Locked

variable {τ : Type} [DecidableEq τ] {x x' : Locked τ} {T : BitVec 32 → RBTree Addr} {t : τ} {c : Call} {p q : Place}

/-! ### The entry of a call -/

omit [DecidableEq τ] in
theorem calledIn_called (log : List (Mark τ Call Answer)) (t : τ) (c : Call) :
    calledIn (log ++ [.called t c]) = calledIn log ++ [c] :=
  List.filterMap_append

omit [DecidableEq τ] in
theorem calledIn_returned (log : List (Mark τ Call Answer)) (t : τ) (c : Call) (a : Answer) :
    calledIn (log ++ [.returned t c a]) = calledIn log := by
  rw [calledIn, List.filterMap_append]
  exact List.append_nil _

omit [DecidableEq τ] in
theorem Sound.node_given (hs : x.Sound T) {a : Addr} (ha : a ∈ (x.pcs t).node) : a ∈ mallocs (calledIn x.log) := by
  cases hpc : x.pcs t with
  | idle =>
      rw [hpc] at ha
      cases ha
  | inside c p =>
      rw [hpc, Pc.node] at ha
      split at ha
      next hopen =>
        have hat := hs.place t c p hpc
        cases c with
        | search => cases ha
        | insert malloc domain len ipv4 =>
            rw [Call.malloc?, if_neg hat.proper.1] at ha
            cases ha
            exact (hat.node hopen _ _ _ _ rfl).given
      · cases ha

/-- A call comes with a block that no tree and no other thread has. -/
theorem Sound.entered (hs : x.Sound T) (hpc : x.pcs t = .idle) (hproper : c.Proper)
    (hfresh : ∀ a ∈ c.malloc?, a ∉ mallocs (calledIn x.log)) (map : Hashmap) (harray : map.array = x.map.array)
    (hmap : ∀ a ∈ mallocs (calledIn x.log), map.entry a = x.map.entry a ∧ map.rbnode a = x.map.rbnode a)
    (hnode : ∀ malloc domain len ipv4, c = .insert malloc domain len ipv4 →
      map.entry malloc = some (Hashmap.newEntry domain len ipv4) ∧ map.rbnode malloc = some ⟨0, 0, 0⟩) :
    ({ x with map := map, log := x.log ++ [Mark.called t c] }.goto t c .lock).Sound T := by
  have hentry : ({ x with map := map, log := x.log ++ [Mark.called t c] }.goto t c .lock).published.entry =
      x.published.entry := by
    funext a
    by_cases ha : a ∈ mallocs x.committed
    · exact (if_pos ha).trans ((hmap a (hs.given ha)).1.trans (published_entry ha).symm)
    · exact (if_neg ha).trans (published_entry_of_not_mem ha).symm
  have hcalled : ∀ a ∈ mallocs (calledIn x.log), a ∈ mallocs (calledIn (x.log ++ [.called t c])) := by
    intro a ha
    rw [calledIn_called, mallocs_concat]
    exact List.mem_append_left _ ha
  refine ⟨hs.after.congr harray hentry fun a ha => (hmap a (hs.given ha)).2, fun domain len ipv4 hdomain h => ?_, hs.proper,
    fun a ha => hcalled a (hs.given ha), fun h => ?_, fun u d r hu => ?_, hs.apart.update fun a ha => Or.inr fun u hu => ?_⟩
  · obtain ⟨a, ha, hkey, hip⟩ := hs.first domain len ipv4 hdomain h
    exact ⟨a, ha, (Hashmap.key_congr (congrFun hentry a)).trans hkey, (Hashmap.ipv4At_congr (congrFun hentry a)).trans hip⟩
  · have hsame : (Pc.inside c .lock).holds h = (x.pcs t).holds h := by simp [hpc, Pc.holds, Place.Locks]
    change (x.lck h).Guards fun u => (Function.update x.pcs t (.inside c .lock) u).holds h
    rw [holds_update, hsame]
    exact (Function.update_eq_self t fun u => (x.pcs u).holds h).symm ▸ hs.guards h
  · by_cases hut : u = t
    · subst hut
      simp only [goto, Function.update_self, Pc.inside.injEq] at hu
      obtain ⟨rfl, rfl⟩ := hu
      refine ⟨hproper, fun _ malloc domain len ipv4 hc => ?_, by cases c <;> trivial⟩
      obtain ⟨hfilled, hrbnode⟩ := hnode malloc domain len ipv4 hc
      subst hc
      have hmem : malloc ∈ (Call.insert malloc domain len ipv4).malloc?.toList := (mem_malloc? hproper.1).mpr rfl
      refine ⟨fun h => hfresh malloc (Option.mem_toList.mp hmem) (hs.given h), ?_, hfilled, hrbnode⟩
      change malloc ∈ mallocs (calledIn (x.log ++ [.called u _]))
      rw [calledIn_called, mallocs_concat]
      exact List.mem_append_right _ hmem
    · simp only [goto, Function.update_of_ne hut] at hu
      refine (hs.place u d r hu).keep (fun _ => rfl) (fun a _ => Hashmap.key_congr (congrFun hentry a)) fun a _ e h => ?_
      obtain ⟨hsame, hsame'⟩ := hmap a h.given
      exact ⟨h.undecided, hcalled a h.given, hsame.trans h.entry, hsame'.trans h.rbnode⟩
  · exact hfresh a (by simpa [Pc.node, Place.Open] using ha) (hs.node_given hu)

theorem Sound.enter (hs : x.Sound T) (hpc : x.pcs t = .idle) (hsane : Sane x (.call t c)) (h : x.enter t c = some x') :
    x'.Sound T ∧ x'.pcs = Function.update x.pcs t (.inside c .lock) ∧ x'.committed = x.committed ∧
      x'.log = x.log ++ [.called t c] := by
  obtain ⟨hproper, hfresh⟩ := hsane
  cases c with
  | search domain len =>
      cases h
      exact ⟨hs.entered hpc hproper hfresh x.map rfl (fun _ _ => ⟨rfl, rfl⟩) (fun _ _ _ _ hc => by cases hc), rfl, rfl, rfl⟩
  | insert malloc domain len ipv4 =>
      obtain ⟨hzero, -, hdomain⟩ := id hproper
      simp only [Locked.enter, if_neg hzero, if_neg (not_le.mpr hdomain.lt)] at h
      cases h
      refine ⟨hs.entered hpc hproper hfresh _ rfl (fun a ha => ?_) ?_, rfl, rfl, rfl⟩
      · have hne : a ≠ malloc := by
          rintro rfl
          exact hfresh a (Option.mem_toList.mp ((mem_malloc? hzero).mpr rfl)) ha
        exact ⟨Function.update_of_ne hne .., Function.update_of_ne hne ..⟩
      · rintro m d l ip ⟨⟩
        exact ⟨Function.update_self .., Function.update_self ..⟩

/-! ### Steps inside a call -/

/-- Where a thread goes decides what it shows. -/
theorem status_update (pcs : τ → Pc) (t : τ) (pc : Pc) :
    (fun u => (Function.update pcs t pc u).status) = Function.update (fun u => (pcs u).status) t pc.status := by
  funext u
  by_cases hut : u = t
  · subst hut
    rw [Function.update_self, Function.update_self]
  · rw [Function.update_of_ne hut, Function.update_of_ne hut]

theorem abs_goto (hpc : x.pcs t = .inside c p) (hstatus : (Pc.inside c q).status = (Pc.inside c p).status) :
    (x.goto t c q).abs = x.abs := by
  have hsame : (Pc.inside c q).status = (x.pcs t).status := by rw [hpc, hstatus]
  simp only [Locked.abs, goto, status_update, hsame]
  rw [Function.update_eq_self t fun u => (x.pcs u).status]

theorem abs_decide (hpc : x.pcs t = .inside c p) (hopen : p.Open) (map : Hashmap) :
    (object answer).next x.abs (.commit t) = some ({ x with map := map }.decide t c (answer x.committed c)).abs := by
  have hcalled : (x.pcs t).status = .called c := by
    rw [hpc]
    cases p <;> first | rfl | exact hopen.elim
  simp only [object, Object.next, Locked.abs, hcalled, decide, goto, status_update]
  rfl

/-- Inside the lock of its bucket a thread can always go on; and it decides its call as the calls decided
before it say. -/
theorem Sound.step (hs : x.Sound T) (hpc : x.pcs t = .inside c p) (hlocks : p.Locks) :
    ∃ x' T', x.step t c p = some x' ∧ x'.Sound T' ∧
      (x'.abs = x.abs ∨ (object answer).next x.abs (.commit t) = some x'.abs) := by
  have hat := hs.place t c p hpc
  have hgoto : ∀ q, q.Locks → q.Open → p.Open → x.On (T c.bucket) c q →
      (x.goto t c q).Sound T ∧ (x.goto t c q).abs = x.abs := by
    intro q hq hqopen hpopen hon
    refine ⟨hs.moved hpc (fun _ => hpopen) hon (hs.guards_goto hpc (iff_of_true hq hlocks)), abs_goto hpc ?_⟩
    cases p <;> cases q <;> first | rfl | exact hqopen.elim | exact hpopen.elim
  cases p with
  | lock | leave => exact hlocks.elim
  | descend tmp parent =>
      cases c with
      | search => exact hat.on.elim
      | insert malloc domain len ipv4 =>
          obtain ⟨y, hstep, ⟨q, hopen, hlocks', rfl, hon⟩ | ⟨rfl, hfind⟩⟩ := hs.descend hpc
          · obtain ⟨hsound, habs⟩ := hgoto q hlocks' hopen trivial hon
            exact ⟨_, T, hstep, hsound, Or.inl habs⟩
          · have hsome : (firstInsert x.committed (text domain)).isSome := hs.find_isSome _ hfind
            have hanswer : answer x.committed (.insert malloc domain len ipv4) = .inserted (-1) := by
              rw [answer, if_pos hsome]
            refine ⟨_, T, hstep, hs.decide_old hpc trivial trivial hfind, Or.inr ?_⟩
            exact hanswer ▸ abs_decide hpc trivial x.map
  | link tmp parent =>
      cases c with
      | search => exact hat.on.elim
      | insert malloc domain len ipv4 =>
          obtain ⟨hnone, map, T', hstep, hsound⟩ := hs.link hpc
          have hanswer : answer x.committed (.insert malloc domain len ipv4) = .inserted 0 := by
            rw [answer, hnone]
            rfl
          exact ⟨_, T', hstep, hsound, Or.inr (hanswer ▸ abs_decide hpc trivial map)⟩
  | root =>
      cases c with
      | insert => exact hat.on.elim
      | search domain len =>
          have hroot : x.map.array (insideHash domain len) = rootOf (T (insideHash domain len)) :=
            (hs.after.holds.bucket _).root
          obtain ⟨hsound, habs⟩ := hgoto (.compare (x.map.array (insideHash domain len))) trivial trivial trivial
            ⟨T (insideHash domain len), [], rfl, hroot, rfl⟩
          exact ⟨_, T, rfl, hsound, Or.inl habs⟩
  | compare tmp =>
      cases c with
      | insert => exact hat.on.elim
      | search domain len =>
          obtain ⟨y, hstep, ⟨q, hopen, hlocks', rfl, hon⟩ | rfl⟩ := hs.compare hpc
          · obtain ⟨hsound, habs⟩ := hgoto q hlocks' hopen trivial hon
            exact ⟨_, T, hstep, hsound, Or.inl habs⟩
          · have hanswer : answer x.committed (.search domain len) = .found _ := congrArg Answer.found (hs.find_eq hat.proper).symm
            refine ⟨_, T, hstep, hs.decide_search hpc trivial trivial _, Or.inr ?_⟩
            exact hanswer ▸ abs_decide hpc trivial x.map
  | unlock a =>
      obtain ⟨l, hunlock, hsound⟩ := hs.unlock hpc
      refine ⟨_, T, ?_, hsound, Or.inl (abs_goto hpc rfl)⟩
      simp only [Locked.step, hunlock, Option.bind_eq_bind, Option.bind_some, Option.pure_def]

/-- Taking the lock. -/
theorem Sound.step_lock (hs : x.Sound T) (hpc : x.pcs t = .inside c .lock) (h : x.step t c .lock = some x') :
    x'.Sound T ∧ x'.abs = x.abs := by
  simp only [Locked.step, Option.bind_eq_bind, Option.bind_eq_some_iff] at h
  obtain ⟨l, hlock, h⟩ := h
  cases c with
  | insert malloc domain len ipv4 =>
      cases h
      exact ⟨hs.lock hpc hlock trivial ⟨_, [], rfl, rfl, rfl, rfl⟩, abs_goto hpc rfl⟩
  | search domain len =>
      cases h
      exact ⟨hs.lock hpc hlock trivial trivial, abs_goto hpc rfl⟩

/-! ### Runs -/

omit [DecidableEq τ] in
theorem Sound.start {x : Locked τ} (h : x = ⟨Hashmap.init, fun _ => .free, fun _ => .idle, [], []⟩) :
    x.Sound fun _ => .leaf := by
  subst h
  have hpublished : (⟨Hashmap.init, fun _ => .free, fun _ => .idle, [], []⟩ : Locked τ).published = Hashmap.init := by
    have hentry : (⟨Hashmap.init, fun _ => .free, fun _ => .idle, [], []⟩ : Locked τ).published.entry = fun _ => none := by
      funext a
      exact published_entry_of_not_mem List.not_mem_nil
    exact congrArg (Hashmap.mk _ _) hentry
  exact {
    after := hpublished.symm ▸ Hashmap.After.init
    first := fun _ _ _ _ h => by simp [firstInsert] at h
    proper := ⟨by simp, by simp [mallocs]⟩
    given := List.Subset.refl _
    guards := fun _ => RwLock.guards_free
    place := fun _ _ _ h => by cases h
    apart := fun _ _ _ h => by cases h }

theorem Sound.ret (hs : x.Sound T) {a : Answer} (hpc : x.pcs t = .inside c (.leave a)) :
    ({ x with pcs := Function.update x.pcs t .idle, log := x.log ++ [Mark.returned t c a] } : Locked τ).Sound T where
  after := hs.after
  first := hs.first
  proper := hs.proper
  given := by
    rw [calledIn_returned]
    exact hs.given
  guards h := by
    have hsame : Pc.idle.holds h = (x.pcs t).holds h := by simp [hpc, Pc.holds, Place.Locks]
    rw [holds_update, hsame]
    exact (Function.update_eq_self t fun u => (x.pcs u).holds h).symm ▸ hs.guards h
  place u d q hu := by
    by_cases hut : u = t
    · subst hut
      simp at hu
    · simp only [Function.update_of_ne hut] at hu
      refine (hs.place u d q hu).keep (fun _ => rfl) (fun _ _ => rfl) fun b _ e h => ⟨h.undecided, ?_, h.entry, h.rbnode⟩
      rw [calledIn_returned]
      exact h.given
  apart := hs.apart.update fun b hb => by cases hb

/-- Every step keeps the map sound, and is one of the object or shows nothing. -/
theorem Sound.next (hs : x.Sound T) {e : Step τ} (hsane : Sane x e) (h : x.next e = some x') :
    (∃ T', x'.Sound T') ∧ (x'.abs = x.abs ∨ ∃ l, (object answer).next x.abs l = some x'.abs) := by
  cases e with
  | call t c =>
      cases hpc : x.pcs t <;> simp only [Locked.next, hpc, reduceCtorEq] at h
      obtain ⟨hsound, hpcs, hcommitted, hlog⟩ := hs.enter hpc hsane h
      refine ⟨⟨T, hsound⟩, Or.inr ⟨.call t c, ?_⟩⟩
      have hidle : (x.pcs t).status = .idle := by rw [hpc]; rfl
      simp only [object, Object.next, Locked.abs, hidle, hpcs, hcommitted, hlog, status_update]
      rfl
  | run t =>
      cases hpc : x.pcs t with
      | idle => simp [Locked.next, hpc] at h
      | inside c p =>
          simp only [Locked.next, hpc] at h
          by_cases hlocks : p.Locks
          · obtain ⟨x'', T', hstep, hsound, habs⟩ := hs.step hpc hlocks
            obtain rfl := Option.some.inj (hstep.symm.trans h)
            exact ⟨⟨T', hsound⟩, habs.imp_right fun hcommit => ⟨_, hcommit⟩⟩
          · cases p with
            | lock =>
                obtain ⟨hsound, habs⟩ := hs.step_lock hpc h
                exact ⟨⟨T, hsound⟩, Or.inl habs⟩
            | leave => cases h
            | _ => exact absurd trivial hlocks
  | ret t =>
      simp only [Locked.next] at h
      split at h
      next c a hpc =>
        cases h
        refine ⟨⟨T, hs.ret hpc⟩, Or.inr ⟨.ret t, ?_⟩⟩
        · have hdone : (x.pcs t).status = .done c a := by rw [hpc]; rfl
          simp only [object, Object.next, Locked.abs, hdone, status_update]
          rfl
      · cases h

theorem sound_of_reachable (h : (lockedMap τ).Reachable Sane x) : ∃ T, x.Sound T := by
  apply h.invariant (I := fun x => ∃ T, x.Sound T)
  · exact fun x hstart => ⟨_, Sound.start hstart⟩
  · intro x e x' hsound hsane hnext
    obtain ⟨T, hs⟩ := hsound
    exact (hs.next hsane hnext).1

theorem simulation : Simulation (lockedMap τ) Sane (object answer) (fun _ _ => True) (Locked.abs : Locked τ → _) where
  start x hstart := by
    rw [show x = _ from hstart]
    rfl
  step x e x' hx _ hsane hnext := by
    obtain ⟨T, hs⟩ := sound_of_reachable hx
    exact (hs.next hsane hnext).2.imp_right fun hl => by
      obtain ⟨l, hl⟩ := hl
      exact ⟨l, trivial, hl⟩

end Locked

/-! ### Three threads -/

instance (domain : Chars) (len : Nat) : Decidable (IsDomain domain len) :=
  decidable_of_iff (len < domainLen ∧ domain len = 0 ∧ ∀ i < len, domain i ≠ 0)
    ⟨fun h => ⟨h.1, h.2.1, h.2.2⟩, fun h => ⟨h.lt, h.zero, h.ne_zero⟩⟩

instance : (c : Call) → Decidable c.Proper
  | .insert malloc domain len _ =>
      inferInstanceAs (Decidable (malloc ≠ 0 ∧ malloc &&& 3#64 = 0#64 ∧ IsDomain domain len))
  | .search domain len => inferInstanceAs (Decidable (IsDomain domain len))

theorem all_ne_iff {o : Option Addr} {l : List Addr} :
    (o.all fun a => l.all fun b => decide (b ≠ a)) = true ↔ ∀ a ∈ o, a ∉ l := by
  cases o with
  | none => simp
  | some a =>
      simp only [Option.all_some, List.all_eq_true, decide_eq_true_eq, Option.mem_some_iff, forall_eq']
      exact ⟨fun h hmem => h a hmem rfl, fun h b hb heq => h (heq ▸ hb)⟩

instance (x : Locked Nat) : (e : Locked.Step Nat) → Decidable (Sane x e)
  | .call _ c => decidable_of_iff
      (c.Proper ∧ (c.malloc?.all fun a => (mallocs (calledIn x.log)).all fun b => decide (b ≠ a)) = true)
      (and_congr_right' all_ne_iff)
  | .run _ | .ret _ => .isTrue trivial

def domainAb : Chars := fun i => [97, 98].getD i 0

/-- Two threads insert the same domain; a third searches for it, and gets the lock behind both of them. -/
def racing : List (Locked.Step Nat) :=
  [.call 0 (.insert 16 domainAb 2 7), .call 1 (.insert 32 domainAb 2 9), .run 0, .run 0, .run 0, .run 0, .ret 0,
    .call 2 (.search domainAb 2), .run 1, .run 1, .run 1, .run 2, .run 2, .run 2, .run 2, .ret 2]

/-- What the threads get. -/
def answersIn (log : List (Mark Nat Call Answer)) : List (Nat × Int) :=
  log.filterMap fun
    | Mark.called _ _ => none
    | Mark.returned t _ (.inserted ret) => some (t, ret)
    | Mark.returned t _ (.found ipv4) => some (t, ipv4.toNat)

/-- The domains of the insertions that have returned. -/
def insertedIn (log : List (Mark Nat Call Answer)) : List (List Byte) :=
  log.filterMap fun
    | Mark.returned _ (.insert _ domain _ _) _ => some (text domain)
    | _ => none

/-- Thread 1 is before the lock, and cannot take it. -/
def waiting (x : Locked Nat) : Bool :=
  match x.pcs 1 with
  | .inside _ .lock => (x.next (.run 1)).isNone
  | _ => false

/-- The machine of three threads, before their first step. -/
def atRest : Locked Nat := ⟨Hashmap.init, fun _ => .free, fun _ => .idle, [], []⟩

theorem racing_reachable : ∃ x, (lockedMap Nat).Reachable Sane x ∧ answersIn x.log = [(0, 0), (2, 7)] ∧
    insertedIn (x.log.take 3) = [[97, 98]] := by
  have hstart : (lockedMap Nat).start atRest := rfl
  obtain ⟨x, hx, hseen⟩ : ∃ x, (lockedMap Nat).Reachable Sane x ∧ _ := Machine.Reachable.of_replay hstart racing
    (f := fun x => (answersIn x.log, insertedIn (x.log.take 3))) (v := ([(0, 0), (2, 7)], [[97, 98]])) (by decide +kernel)
  exact ⟨x, hx, congrArg Prod.fst hseen, congrArg Prod.snd hseen⟩

/-! ### Results

All of them are for callers that pass strings that fit, with their length, and for a `malloc` that succeeds. -/

variable {τ : Type} [DecidableEq τ] {x : Locked τ}

/-- The history of any number of threads that insert and search is one of the first-write-wins map whose calls
take effect one at a time, each between its call and its return. -/
theorem linearizable (h : (lockedMap τ).Reachable Sane x) :
    ∃ a : Object τ Call Answer, Atomic.Reachable answer a ∧ a.log = x.log :=
  ⟨x.abs, Locked.simulation.reachable h, rfl⟩

theorem linearizable_racing : ∃ x : Locked Nat, answersIn x.log = [(0, 0), (2, 7)] ∧
    ∃ a : Object Nat Call Answer, Atomic.Reachable answer a ∧ a.log = x.log := by
  obtain ⟨x, hx, hanswers, -⟩ := racing_reachable
  exact ⟨x, hanswers, linearizable hx⟩

/-- Once an insertion of a domain has returned there is an address that every search for the domain returns
that is called from then on, by whatever thread. -/
theorem searches_agree (h : (lockedMap τ).Reachable Sane x) {l₁ l : List (Mark τ Call Answer)} (hlog : x.log = l₁ ++ l)
    {t : τ} {malloc : Addr} {domain : Chars} {len : Nat} {ipv4 : Ipv4} {r : Answer}
    (hinsert : .returned t (.insert malloc domain len ipv4) r ∈ l₁) :
    ∃ ip, ∀ l₂ u domain' len' r' l₃, l = l₂ ++ .returned u (.search domain' len') r' :: l₃ → (∃ c, .called u c ∈ l₂) →
      text domain' = text domain → r' = .found ip := by
  obtain ⟨a, ha, halog⟩ := linearizable h
  obtain ⟨b, es, hb, hblog, hrun⟩ := exists_reachable_of_prefix ha (l := l₁) (by rw [halog, hlog]; exact List.prefix_append ..)
  obtain ⟨cs, hcs, -⟩ := effected_of_returned hb (hblog ▸ hinsert)
  have hmem : Call.insert malloc domain len ipv4 ∈ b.committed := hcs.subset (by simp)
  obtain ⟨ip, hip⟩ := Option.isSome_iff_exists.mp (firstInsert_isSome hmem)
  obtain ⟨l', hlater⟩ := later_of_run hrun
  obtain rfl : l = l' := List.append_cancel_left ((hlog.symm.trans halog.symm).trans (hblog ▸ hlater.log))
  refine ⟨ip, fun l₂ u domain' len' r' l₃ hl hcalled htext => ?_⟩
  obtain ⟨cs', -, rfl⟩ := hlater.returned l₂ u _ r' l₃ hl (Or.inr hcalled)
  have hfirst : firstInsert (b.committed ++ cs') (text domain') = some ip := by
    rw [firstInsert, List.findSome?_append, ← firstInsert, htext, hip, Option.some_or]
  rw [answer, hfirst, Option.getD_some]

theorem searches_agree_racing : ∃ x : Locked Nat, answersIn x.log = [(0, 0), (2, 7)] ∧ ∃ ip, ∀ l₂ u domain len r l₃,
    x.log.drop 3 = l₂ ++ .returned u (.search domain len) r :: l₃ → (∃ c, .called u c ∈ l₂) → text domain = [97, 98] →
      r = .found ip := by
  obtain ⟨x, hx, hanswers, hinserted⟩ := racing_reachable
  obtain ⟨m, hm, htext⟩ := List.mem_filterMap.mp (show [97, 98] ∈ insertedIn (x.log.take 3) by simp [hinserted])
  split at htext
  next t malloc domain len ipv4 r =>
    obtain ⟨ip, hip⟩ := searches_agree hx (List.take_append_drop 3 x.log).symm hm
    refine ⟨x, hanswers, ip, fun l₂ u domain' len' r' l₃ hl hcalled htext' => ?_⟩
    exact hip l₂ u domain' len' r' l₃ hl hcalled (htext'.trans (Option.some.inj htext).symm)
  · cases htext

/-- A thread that inserts has the tree of its bucket for itself; a thread inside a lock can always go on, and
one that waits for a lock waits for a thread inside it. -/
theorem locks_exclude (h : (lockedMap τ).Reachable Sane x) :
    (∀ t u c d p q, x.pcs t = .inside c p → x.pcs u = .inside d q → p.Locks → q.Locks → c.bucket = d.bucket →
      c.mode = .write → u = t) ∧
    (∀ t c p, x.pcs t = .inside c p → p.Locks → (x.next (.run t)).isSome) ∧
    ∀ t c, x.pcs t = .inside c .lock → (x.next (.run t)).isSome ∨
      ∃ u d q, x.pcs u = .inside d q ∧ q.Locks ∧ d.bucket = c.bucket ∧ (x.next (.run u)).isSome := by
  obtain ⟨T, hs⟩ := Locked.sound_of_reachable h
  have hstep : ∀ t c p, x.pcs t = .inside c p → p.Locks → (x.next (.run t)).isSome := by
    intro t c p hpc hlocks
    obtain ⟨x', -, hstep, -⟩ := hs.step hpc hlocks
    exact Option.isSome_of_eq_some (by rw [Locked.next, hpc]; exact hstep)
  refine ⟨fun t u c d p q ht hu hp hq hbucket hmode => ?_, hstep, fun t c hpc => ?_⟩
  · have hwrite : (x.pcs t).holds c.bucket = some .write := by simp [ht, Locked.Pc.holds, hp, hmode]
    have hheld : (x.pcs u).holds c.bucket = some d.mode := by simp [hu, Locked.Pc.holds, hq, hbucket]
    exact (hs.guards c.bucket).alone hwrite hheld
  · cases hlock : (x.lck c.bucket).lock c.mode t with
    | some l =>
        left
        simp only [Locked.next, hpc, Locked.step, hlock, Option.bind_eq_bind, Option.bind_some]
        cases c <;> rfl
    | none =>
        right
        obtain ⟨u, m, hu⟩ := (hs.guards c.bucket).exists_holder hlock
        cases hpcu : x.pcs u with
        | idle =>
            rw [hpcu] at hu
            cases hu
        | inside d q =>
            rw [hpcu, Locked.Pc.holds, Option.ite_none_right_eq_some] at hu
            exact ⟨u, d, q, hpcu, hu.1.1, hu.1.2, hstep u d q hpcu hu.1.1⟩

theorem locks_exclude_racing : ∃ x : Locked Nat, waiting x = true ∧
    ∃ u d q, x.pcs u = .inside d q ∧ q.Locks ∧ (x.next (.run u)).isSome := by
  have hstart : (lockedMap Nat).start atRest := rfl
  obtain ⟨x, hx, hwaiting⟩ : ∃ x, (lockedMap Nat).Reachable Sane x ∧ _ := Machine.Reachable.of_replay hstart (racing.take 4)
    (f := waiting) (v := true) (by decide +kernel)
  refine ⟨x, hwaiting, ?_⟩
  obtain ⟨-, -, hwait⟩ := locks_exclude hx
  simp only [waiting] at hwaiting
  split at hwaiting
  next c hpc =>
    obtain hsome | ⟨u, d, q, hu, hlocks, -, hsome⟩ := hwait 1 c hpc
    · simp [Option.isNone_iff_eq_none.mp hwaiting] at hsome
    · exact ⟨u, d, q, hu, hlocks, hsome⟩
  · cases hwaiting

end SimpDserver.NetHashmap

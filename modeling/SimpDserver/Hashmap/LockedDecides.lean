import SimpDserver.Hashmap.LockedSound

/-!
# Decisions

Where the way down ends, the call is decided, and answered as a sequence of calls would be.
-/

namespace SimpDserver.NetHashmap

open RedBlack Atomic Locking Transition

/-- What was recorded stays so, and the call's string is recorded if it was not. -/
theorem Hashmap.First.concat {calls : List Call} {c : Call} {s s' : Hashmap} {T T' : BitVec 32 → RBTree Addr}
    (hfirst : Hashmap.First calls s T) (hkeep : ∀ h, ∀ a ∈ (T h).toList, a ∈ (T' h).toList ∧ s'.entry a = s.entry a)
    (hnew : ∀ domain len ipv4, IsDomain domain len → firstInsert calls (text domain) = none →
      firstInsert [c] (text domain) = some ipv4 → ∃ a ∈ (T' (insideHash domain len)).toList,
        s'.key a = signed (text domain) ∧ s'.ipv4At a = ipv4) : Hashmap.First (calls ++ [c]) s' T' := by
  intro domain len ipv4 hdomain h
  rw [firstInsert_concat] at h
  cases hold : firstInsert calls (text domain) with
  | some ipv4' =>
      rw [hold, Option.some_or] at h
      obtain ⟨a, ha, hkey, hip⟩ := hfirst domain len ipv4 hdomain (hold.trans h)
      obtain ⟨ha', hentry⟩ := hkeep _ a ha
      exact ⟨a, ha', (Hashmap.key_congr hentry).trans hkey, (Hashmap.ipv4At_congr hentry).trans hip⟩
  | none =>
      rw [hold, Option.none_or] at h
      exact hnew domain len ipv4 hdomain hold h

namespace Locked

variable {τ : Type} {x x' : Locked τ} {T T' : BitVec 32 → RBTree Addr} {t u : τ} {c d : Call} {p q : Place}

/-! ### The answers -/

theorem Sound.find_isSome (hs : x.Sound T) (c : Call) (h : (find (x.side c) (T c.bucket)).isSome) :
    (firstInsert x.committed c.text).isSome := by
  obtain ⟨a, ha⟩ := Option.isSome_iff_exists.mp h
  obtain ⟨hmem, hkey⟩ := (find_eq_some_iff (hs.after.holds.bucket c.bucket).sorted).mp ha
  exact hs.after.firstInsert_isSome hs.proper.proper hmem hkey

theorem Call.Proper.isDomain {c : Call} (h : c.Proper) :
    ∃ domain len, IsDomain domain len ∧ c.text = text domain ∧ c.bucket = insideHash domain len := by
  cases c with
  | insert _ domain len _ => exact ⟨domain, len, h.2.2, rfl, rfl⟩
  | search domain len => exact ⟨domain, len, h, rfl, rfl⟩

/-- What a call finds in the tree of its bucket is the first insertion of its string. -/
theorem Sound.find_first (hs : x.Sound T) (hc : c.Proper) {ipv4 : Ipv4}
    (h : firstInsert x.committed c.text = some ipv4) :
    ∃ a, find (x.side c) (T c.bucket) = some a ∧ x.published.ipv4At a = ipv4 := by
  obtain ⟨domain, len, hdomain, htext, hbucket⟩ := Call.Proper.isDomain hc
  obtain ⟨a, ha, hkey, hip⟩ := hs.first domain len ipv4 hdomain (htext ▸ h)
  refine ⟨a, ?_, hip⟩
  rw [hbucket, side, htext]
  exact (find_eq_some_iff (hs.after.holds.bucket _).sorted).mpr ⟨ha, hkey⟩

theorem Sound.find_eq (hs : x.Sound T) (hc : c.Proper) :
    (find (x.side c) (T c.bucket)).elim 0 x.published.ipv4At = (firstInsert x.committed c.text).getD 0 := by
  cases hfirst : firstInsert x.committed c.text with
  | some ipv4 =>
      obtain ⟨a, ha, hip⟩ := hs.find_first hc hfirst
      rw [ha, Option.elim_some, hip, Option.getD_some]
  | none =>
      have hnone : find (x.side c) (T c.bucket) = none := by
        by_contra hsome
        have := hs.find_isSome c (Option.isSome_iff_ne_none.mpr hsome)
        simp [hfirst] at this
      rw [hnone]
      rfl

/-! ### The state after a decision -/

/-- The call of thread `t` is decided: its bucket is its own, unless the tree stays as it is. -/
theorem Sound.decided [DecidableEq τ] (hs : x.Sound T) (hpc : x.pcs t = .inside c p) (hopen : p.Open) (hlocks : p.Locks)
    (map : Hashmap) (a : Answer)
    (hafter : Hashmap.After (x.committed ++ [c]) ({ x with map := map }.decide t c a).published T')
    (hfirst : Hashmap.First (x.committed ++ [c]) ({ x with map := map }.decide t c a).published T')
    (htree : ∀ h, h ≠ c.bucket → T' h = T h) (halone : c.mode = .write ∨ T' c.bucket = T c.bucket)
    (hkey : ∀ h, ∀ b ∈ (T h).toList, ({ x with map := map }.decide t c a).published.key b = x.published.key b)
    (hmap : ∀ b, b ∉ mallocs x.committed → b ∉ c.malloc? → map.entry b = x.map.entry b ∧ map.rbnode b = x.map.rbnode b) :
    ({ x with map := map }.decide t c a).Sound T' := by
  have hat := hs.place t c p hpc
  have hmalloc : ∀ b, b ∈ c.malloc? → b ∉ mallocs x.committed ∧ b ∈ mallocs (calledIn x.log) := by
    intro b hb
    cases c with
    | search => cases hb
    | insert malloc domain len ipv4 =>
        have hnode := hat.node hopen malloc domain len ipv4 rfl
        rw [Call.malloc?, if_neg hat.proper.1] at hb
        cases hb
        exact ⟨hnode.undecided, hnode.given⟩
  refine ⟨hafter, hfirst, ⟨?_, ?_⟩, ?_, hs.guards_goto hpc (iff_of_true trivial hlocks), fun u d r hu => ?_,
    hs.apart.update fun b hb => by simp [Pc.node, Place.Open] at hb⟩
  · intro d hd
    rcases List.mem_append.mp hd with hd | hd
    · exact hs.proper.proper d hd
    · exact List.mem_singleton.mp hd ▸ hat.proper
  · change (mallocs (x.committed ++ [c])).Nodup
    rw [mallocs_concat, List.nodup_append]
    refine ⟨hs.proper.nodup, by cases c.malloc? <;> simp, ?_⟩
    rintro b hb b' hb' rfl
    exact (hmalloc b (by simpa using hb')).1 hb
  · change mallocs (x.committed ++ [c]) ⊆ _
    rw [mallocs_concat]
    intro b hb
    rcases List.mem_append.mp hb with hb | hb
    · exact hs.given hb
    · exact (hmalloc b (by simpa using hb)).2
  · by_cases hut : u = t
    · subst hut
      simp only [decide, goto, Function.update_self, Pc.inside.injEq] at hu
      obtain ⟨rfl, rfl⟩ := hu
      exact ⟨hat.proper, fun hfalse => hfalse.elim, by cases c <;> trivial⟩
    · simp only [decide, goto, Function.update_of_ne hut] at hu
      have hother := hs.place u d r hu
      refine hother.keep (fun hr => ?_) (hkey d.bucket) fun b hb e h => ?_
      · by_cases hd : d.bucket = c.bucket
        · rw [hd]
          refine halone.resolve_left fun hwrite => ?_
          have ht : (x.pcs t).holds c.bucket = some .write := by simp [hpc, Pc.holds, hlocks, hwrite]
          have hu : (x.pcs u).holds c.bucket = some d.mode := by simp [hu, Pc.holds, hr, hd]
          exact hut ((hs.guards c.bucket).alone ht hu)
        · exact htree _ hd
      · have hne : b ∉ c.malloc? := by
          intro hbc
          refine hut (hs.apart u t b (hu ▸ hb) ?_)
          rw [hpc, Pc.node, if_pos hopen]
          exact hbc
        obtain ⟨hentry, hrbnode⟩ := hmap b h.undecided hne
        refine ⟨?_, h.given, hentry.trans h.entry, hrbnode.trans h.rbnode⟩
        change b ∉ mallocs (x.committed ++ [c])
        rw [mallocs_concat, List.mem_append, not_or]
        exact ⟨h.undecided, by simpa using hne⟩

theorem Sound.decide_search [DecidableEq τ] (hs : x.Sound T) {domain : Chars} {len : Nat}
    (hpc : x.pcs t = .inside (.search domain len) p) (hopen : p.Open) (hlocks : p.Locks) (a : Answer) :
    (x.decide t (.search domain len) a).Sound T := by
  have hnone : mallocs (x.committed ++ [Call.search domain len]) = mallocs x.committed := by
    rw [mallocs_concat]
    exact List.append_nil _
  have hpublished : (x.decide t (.search domain len) a).published = x.published := published_congr rfl hnone
  refine hs.decided hpc hopen hlocks x.map a ?_ ?_ (fun _ _ => rfl) (Or.inr rfl) ?_ fun _ _ _ => ⟨rfl, rfl⟩
  · exact hpublished ▸ hs.after.concat (.search domain len) hs.after.holds (fun _ _ => rfl) fun _ h => absurd h List.not_mem_nil
  · exact hpublished ▸ hs.first.concat (fun _ _ ha => ⟨ha, rfl⟩) fun _ _ _ _ _ h => by cases h
  · exact fun h b _ => hpublished ▸ rfl

section Insert

variable {malloc : Addr} {domain : Chars} {len : Nat} {ipv4 : Ipv4}

/-- Once an insertion is decided its node is no longer private. -/
theorem Private.published_eq [DecidableEq τ] {e : Entry} (h : x.Private malloc e) (hzero : malloc ≠ 0) (t : τ)
    (domain : Chars) (len : Nat) (ipv4 : Ipv4) (a : Answer) : (x.decide t (.insert malloc domain len ipv4) a).published = x.published.alloc malloc e := by
  have hmem : ∀ b, b ∈ mallocs (x.committed ++ [.insert malloc domain len ipv4]) ↔ b ∈ mallocs x.committed ∨ b = malloc := by
    intro b
    rw [mallocs_concat, List.mem_append, mem_malloc? hzero]
  have hrbnode : Function.update x.map.rbnode malloc (some ⟨0, 0, 0⟩) = x.map.rbnode := by
    rw [← h.rbnode, Function.update_eq_self]
  have hentry : (x.decide t (.insert malloc domain len ipv4) a).published.entry =
      Function.update x.published.entry malloc (some e) := by
    funext b
    by_cases hb : b = malloc
    · subst hb
      rw [Function.update_self, published_entry ((hmem b).mpr (Or.inr rfl))]
      exact h.entry
    · rw [Function.update_of_ne hb]
      by_cases hold : b ∈ mallocs x.committed
      · rw [published_entry hold, published_entry ((hmem b).mpr (Or.inl hold))]
        rfl
      · rw [published_entry_of_not_mem hold, published_entry_of_not_mem fun hb' => ((hmem b).mp hb').elim hold hb]
  calc (x.decide t (.insert malloc domain len ipv4) a).published
      = ⟨x.map.array, x.map.rbnode, (x.decide t (.insert malloc domain len ipv4) a).published.entry⟩ := rfl
    _ = x.published.alloc malloc e := by
      rw [hentry, ← hrbnode]
      rfl

theorem Sound.fuel (hs : x.Sound T) (h : BitVec 32) : (T h).toList.length < x.rounds :=
  Nat.lt_succ_of_le (hs.after.length_le h)

/-- The string was there. -/
theorem Sound.decide_old [DecidableEq τ] (hs : x.Sound T) (hpc : x.pcs t = .inside (.insert malloc domain len ipv4) p)
    (hopen : p.Open) (hlocks : p.Locks)
    (hfind : (find (x.side (.insert malloc domain len ipv4)) (T (insideHash domain len))).isSome) :
    (x.decide t (.insert malloc domain len ipv4) (.inserted (-1))).Sound T := by
  have hat := hs.place t _ _ hpc
  have hnode := hat.node hopen _ _ _ _ rfl
  obtain ⟨hzero, haligned, hdomain⟩ := hat.proper
  have hpublished := hnode.published_eq hzero t domain len ipv4 (.inserted (-1))
  obtain ⟨b, hb⟩ := Option.isSome_iff_exists.mp hfind
  obtain ⟨hmem, hkey⟩ := (find_eq_some_iff (hs.after.holds.bucket _).sorted).mp hb
  have hold := hs.after.insert_old ipv4 (Nat.lt_succ_self _) hdomain.lt hzero haligned hnode.undecided hmem
    (hdomain.cstring ▸ hkey)
  have hkept : ∀ h, ∀ b ∈ (T h).toList,
      (x.published.alloc malloc (Hashmap.newEntry domain len ipv4)).entry b = x.published.entry b := by
    intro h b' hb'
    apply Function.update_of_ne
    rintro rfl
    exact hnode.undecided (hs.after.mem_mallocs hb')
  refine hs.decided hpc hopen hlocks x.map (.inserted (-1)) (hpublished ▸ hold.2) ?_ (fun _ _ => rfl) (Or.inr rfl) ?_
    fun _ _ _ => ⟨rfl, rfl⟩
  · refine hpublished ▸ hs.first.concat (fun h b hb => ⟨hb, hkept h b hb⟩) fun d l ip hd hnone hip => ?_
    rw [firstInsert_insert, Option.ite_none_right_eq_some] at hip
    have hsome := hs.find_isSome (.insert malloc domain len ipv4) hfind
    rw [show (Call.insert malloc domain len ipv4).text = text d from hip.1, hnone] at hsome
    cases hsome
  · exact fun h b hb => hpublished ▸ Hashmap.key_congr (hkept h b hb)

/-- One after another, the insertion would do the same to the tree. -/
theorem Sound.insert_published [DecidableEq τ] (hs : x.Sound T) (hnode : x.Private malloc (Hashmap.newEntry domain len ipv4))
    (hdomain : IsDomain domain len) (hfresh : Hashmap.Fresh T malloc) {Q : Path Addr} {t₁ t₂ : Rb}
    (hdescend : RedBlack.descend (x.side (.insert malloc domain len ipv4)) (T (insideHash domain len)) [] = some Q)
    (ht₁ : rbLinkNode (x.map.bucket (insideHash domain len)) malloc (parentOf Q) (linkOf Q) = some t₁)
    (ht₂ : rbInsertColor x.rounds t₁ malloc = some t₂) :
    x.published.insert x.rounds malloc domain len ipv4 =
      some ((x.published.alloc malloc (Hashmap.newEntry domain len ipv4)).setBucket (insideHash domain len) t₂, 0) := by
  have hrbnode : Function.update x.map.rbnode malloc (some ⟨0, 0, 0⟩) = x.map.rbnode := by
    rw [← hnode.rbnode, Function.update_eq_self]
  have hbucket : (x.published.alloc malloc (Hashmap.newEntry domain len ipv4)).bucket (insideHash domain len) =
      x.map.bucket (insideHash domain len) :=
    congrArg (fun f => (⟨f, x.map.array (insideHash domain len)⟩ : Rb)) hrbnode
  have hside : ∀ a ∈ (T (insideHash domain len)).toList,
      sideOf (x.published.alloc malloc (Hashmap.newEntry domain len ipv4)).key (signed (text domain)) a =
        x.side (.insert malloc domain len ipv4) a := by
    intro a ha
    have hne : a ≠ malloc := ne_of_mem_of_not_mem ha (hfresh.unused _)
    rw [side, sideOf, sideOf, Hashmap.key_alloc_of_ne _ hne]
    rfl
  rw [Hashmap.insert_eq ipv4 hs.after.holds hfresh hdomain.lt (hs.fuel _), hdomain.cstring, descend_congr hside, hdescend]
  simp only [hbucket, ht₁, ht₂, Option.bind_eq_bind, Option.bind_some, Option.pure_def]

/-- The new node is recorded as the first insertion of its string. -/
theorem first_of_new {s s' : Hashmap} {calls : List Call} (hfirst : Hashmap.First calls s T) (hdomain : IsDomain domain len)
    (hfresh : Hashmap.Fresh T malloc) {T' : RBTree Addr} (hperm : T'.toList.Perm (malloc :: (T (insideHash domain len)).toList))
    (hentry : s'.entry = (s.alloc malloc (Hashmap.newEntry domain len ipv4)).entry) :
    Hashmap.First (calls ++ [.insert malloc domain len ipv4]) s' (Function.update T (insideHash domain len) T') := by
  have hself : s'.entry malloc = some (Hashmap.newEntry domain len ipv4) := by
    rw [hentry]
    exact Function.update_self ..
  apply hfirst.concat
  · intro h b hb
    refine ⟨?_, ?_⟩
    · by_cases hh : h = insideHash domain len
      · subst hh
        rw [Function.update_self, hperm.mem_iff]
        exact List.mem_cons_of_mem _ hb
      · rwa [Function.update_of_ne hh]
    · rw [hentry]
      exact Function.update_of_ne (ne_of_mem_of_not_mem hb (hfresh.unused h)) ..
  · intro d l ip hd _ hip
    rw [firstInsert_insert, Option.ite_none_right_eq_some, Option.some.injEq] at hip
    obtain ⟨htext, rfl⟩ := hip
    refine ⟨malloc, ?_, ?_, ?_⟩
    · rw [← hdomain.insideHash_eq hd htext, Function.update_self, hperm.mem_iff]
      exact List.mem_cons_self
    · rw [Hashmap.key, hself, Option.elim_some, Hashmap.newEntry, text_strncpy hdomain.lt, hdomain.cstring, htext]
    · rw [Hashmap.ipv4At, hself, Option.elim_some, Hashmap.newEntry]

/-- The string was not there: the node goes where the way down ended. -/
theorem Sound.link [DecidableEq τ] (hs : x.Sound T) {tmp : Link} {parent : Addr}
    (hpc : x.pcs t = .inside (.insert malloc domain len ipv4) (.link tmp parent)) :
    firstInsert x.committed (text domain) = none ∧ ∃ map T',
      x.link t (.insert malloc domain len ipv4) malloc tmp parent =
        some ({ x with map := map }.decide t (.insert malloc domain len ipv4) (.inserted 0)) ∧
      ({ x with map := map }.decide t (.insert malloc domain len ipv4) (.inserted 0)).Sound T' := by
  have hat := hs.place t _ _ hpc
  obtain ⟨Q, hdescend, rfl, rfl⟩ := hat.on
  have hdescend : RedBlack.descend (x.side (.insert malloc domain len ipv4)) (T (insideHash domain len)) [] = some Q := hdescend
  have hnode := hat.node trivial _ _ _ _ rfl
  obtain ⟨hzero, haligned, hdomain⟩ := hat.proper
  have hfresh := hs.after.fresh hzero haligned hnode.undecided
  have hnone : find (x.side (.insert malloc domain len ipv4)) (T (insideHash domain len)) = none := by
    by_contra hsome
    rw [(descend_eq_none_iff _ []).mpr (Option.isSome_iff_ne_none.mpr hsome)] at hdescend
    cases hdescend
  have hbucket := hs.after.holds.bucket (insideHash domain len)
  have hnew : ∀ a ∈ (T (insideHash domain len)).toList, x.published.key a ≠ signed (cstring len domain) := by
    intro a ha hkey
    rw [hdomain.cstring] at hkey
    exact Option.some_ne_none a (((find_eq_some_iff hbucket.sorted).mpr ⟨ha, hkey⟩).symm.trans hnone)
  obtain ⟨t₁, t₂, ht₁, ht₂, hperm, -, hfocus, -⟩ := hbucket.link_repair hdescend (hfresh.unused _) hzero haligned
    (Option.isSome_of_eq_some hnode.rbnode) (hs.fuel _)
  have ht₁ : rbLinkNode (x.map.bucket (insideHash domain len)) malloc (parentOf Q) (linkOf Q) = some t₁ := ht₁
  obtain ⟨s', T', hinsert, hentry, hafter, hmem⟩ :=
    hs.after.insert_new ipv4 (Nat.lt_succ_self _) hdomain.lt hzero haligned hnode.undecided hnew
  have hs' : s' = (x.published.alloc malloc (Hashmap.newEntry domain len ipv4)).setBucket (insideHash domain len) t₂ :=
    congrArg Prod.fst (Option.some.inj (hinsert.symm.trans (hs.insert_published hnode hdomain hfresh hdescend ht₁ ht₂)))
  -- the map is, but for the private nodes, what the insertion by itself makes of it
  have hmap : ({ x with map := x.map.setBucket (insideHash domain len) t₂ }.decide t (.insert malloc domain len ipv4)
      (.inserted 0)).published = s' := by
    rw [hs', ← hnode.published_eq hzero t domain len ipv4 (.inserted 0)]
    rfl
  constructor
  · by_contra hsome
    obtain ⟨ip, hip⟩ := Option.ne_none_iff_exists'.mp hsome
    obtain ⟨a, ha, -⟩ := hs.find_first hat.proper hip
    exact Option.some_ne_none a (ha.symm.trans hnone)
  refine ⟨x.map.setBucket (insideHash domain len) t₂, _, ?_, hs.decided hpc trivial trivial _ (.inserted 0) (hmap ▸ hafter)
    (hmap ▸ first_of_new hs.first hdomain hfresh hmem hentry) (fun h hh => Function.update_of_ne hh ..) (Or.inl rfl) ?_ ?_⟩
  · simp only [Locked.link, Call.bucket, ht₁, ht₂, Option.bind_eq_bind, Option.bind_some, Option.pure_def]
  · intro h b hb
    rw [hmap]
    apply Hashmap.key_congr
    rw [hentry]
    exact Function.update_of_ne (ne_of_mem_of_not_mem hb (hfresh.unused h)) ..
  · intro b hb hbc
    refine ⟨rfl, hfocus.outside b ?_⟩
    rw [hperm.mem_iff, List.mem_cons, not_or]
    refine ⟨?_, fun hbT => hb (hs.after.mem_mallocs hbT)⟩
    rintro rfl
    rw [Call.malloc?, if_neg hzero] at hbc
    exact hbc rfl

end Insert

end Locked

end SimpDserver.NetHashmap

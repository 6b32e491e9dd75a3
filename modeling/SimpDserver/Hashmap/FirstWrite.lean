import SimpDserver.Hashmap.Calls

/-!
# First write wins

The hash map as its callers see it: a finite map from domains to addresses in which the first write
stays. The abstract map is read off the calls made so far; every call answers as it says, and a refused
insertion writes nothing but the block it has just got from `malloc`.
-/

namespace SimpDserver.NetHashmap

open RedBlack

/-- A C string shorter than `NET_HASHMAP_DOMAIN_LEN`, and its length. -/
structure IsDomain (domain : Chars) (len : Nat) : Prop where
  lt : len < domainLen
  zero : domain len = 0
  ne_zero : ∀ i < len, domain i ≠ 0

/-- The domain of a call is such a string, and `malloc` succeeds. -/
def Call.Proper : Call → Prop
  | .insert malloc domain len _ => malloc ≠ 0 ∧ Aligned malloc ∧ IsDomain domain len
  | .search domain len => IsDomain domain len

/-- Calls that keep to this, with blocks from `malloc` that are pairwise distinct. -/
structure Proper (calls : List Call) : Prop where
  proper : ∀ c ∈ calls, c.Proper
  nodup : (mallocs calls).Nodup

/-- The address of the first insertion of a domain. -/
def firstInsert (calls : List Call) (domain : List Byte) : Option Ipv4 :=
  calls.findSome? fun
    | .insert _ d _ ipv4 => if text d = domain then some ipv4 else none
    | .search _ _ => none

/-- What the abstract map answers to a call. -/
def answer (calls : List Call) : Call → Answer
  | .insert _ domain _ _ => .inserted (if (firstInsert calls (text domain)).isSome then -1 else 0)
  | .search domain _ => .found ((firstInsert calls (text domain)).getD 0)

namespace Hashmap

/-- No root pointer, and no entry that was there, differs. -/
def Unchanged (s s' : Hashmap) : Prop :=
  s'.array = s.array ∧ ∀ a, (s.entry a).isSome → s'.rbnode a = s.rbnode a ∧ s'.entry a = s.entry a

end Hashmap

/-! ### Domains -/

theorem IsDomain.text_eq {domain : Chars} {len : Nat} (h : IsDomain domain len) :
    text domain = (List.range len).map domain :=
  cstring_eq_map h.lt.le h.ne_zero fun _ => h.zero

theorem IsDomain.cstring {domain : Chars} {len : Nat} (h : IsDomain domain len) :
    cstring len domain = text domain := by
  rw [h.text_eq]
  exact cstring_eq_map le_rfl h.ne_zero fun hlt => absurd hlt (lt_irrefl _)

theorem IsDomain.insideHash_eq {d d' : Chars} {len len' : Nat} (h : IsDomain d len) (h' : IsDomain d' len')
    (heq : text d = text d') : insideHash d len = insideHash d' len' := by
  rw [h.text_eq, h'.text_eq] at heq
  have hlen : len = len' := by simpa using congrArg List.length heq
  subst hlen
  rw [insideHash, insideHash, hashLoop_congr]
  intro i hi
  exact List.map_inj_left.mp heq i (List.mem_range.mpr hi)

/-! ### The abstract map -/

theorem firstInsert_concat (calls : List Call) (c : Call) (d : List Byte) :
    firstInsert (calls ++ [c]) d = (firstInsert calls d).or (firstInsert [c] d) :=
  List.findSome?_append

theorem firstInsert_insert (malloc : Addr) (domain : Chars) (len : Nat) (ipv4 : Ipv4) (d : List Byte) :
    firstInsert [.insert malloc domain len ipv4] d = if text domain = d then some ipv4 else none := by
  rw [firstInsert, List.findSome?_singleton]

theorem firstInsert_isSome {calls : List Call} {malloc : Addr} {domain : Chars} {len : Nat} {ipv4 : Ipv4}
    (h : .insert malloc domain len ipv4 ∈ calls) : (firstInsert calls (text domain)).isSome :=
  List.findSome?_isSome_iff.mpr ⟨_, h, by simp⟩

theorem Proper.admissible {calls : List Call} (h : Proper calls) : Admissible calls where
  fits c hc := by
    have := h.proper c hc
    cases c with
    | insert => exact ⟨this.2.1, this.2.2.lt⟩
    | search => trivial
  nodup := h.nodup

/-! ### The map in memory -/

namespace Hashmap

variable {calls : List Call} {s : Hashmap} {T : BitVec 32 → RBTree Addr} {fuel : Nat}

theorem key_congr {s s' : Hashmap} {a : Addr} (h : s'.entry a = s.entry a) : s'.key a = s.key a := by
  rw [key, key, h]

theorem ipv4At_congr {s s' : Hashmap} {a : Addr} (h : s'.entry a = s.entry a) :
    s'.ipv4At a = s.ipv4At a := by
  rw [ipv4At, ipv4At, h]

/-- What the first insertion of a domain stored is in the domain's bucket. -/
def First (calls : List Call) (s : Hashmap) (T : BitVec 32 → RBTree Addr) : Prop :=
  ∀ domain len ipv4, IsDomain domain len → firstInsert calls (text domain) = some ipv4 →
    ∃ a ∈ (T (insideHash domain len)).toList, s.key a = signed (text domain) ∧ s.ipv4At a = ipv4

theorem After.firstInsert_isSome (hs : After calls s T) (hcalls : ∀ c ∈ calls, c.Proper) {h : BitVec 32}
    {a : Addr} (ha : a ∈ (T h).toList) {d : List Byte} (hkey : s.key a = signed d) :
    (firstInsert calls d).isSome := by
  obtain ⟨domain, len, ipv4, hmem, hlen, -, hentry⟩ := hs.inserted h a ha
  have hdomain : IsDomain domain len := (hcalls _ hmem).2.2
  rw [key, hentry, Option.elim_some, newEntry, text_strncpy hlen, hdomain.cstring] at hkey
  exact signed_injective hkey ▸ NetHashmap.firstInsert_isSome hmem

/-- An insertion answers as the abstract map does, and is recorded if it is the domain's first. -/
theorem After.insert_first {node : Addr} {domain : Chars} {len : Nat} {ipv4 : Ipv4} (hs : After calls s T)
    (hfirst : First calls s T) (hcalls : ∀ c ∈ calls, c.Proper) (hfuel : calls.length < fuel)
    (hzero : node ≠ 0) (haligned : Aligned node) (hdomain : IsDomain domain len)
    (hfresh : node ∉ mallocs calls) :
    ∃ s' T' ret, s.insert fuel node domain len ipv4 = some (s', ret) ∧
      After (calls ++ [.insert node domain len ipv4]) s' T' ∧
      First (calls ++ [.insert node domain len ipv4]) s' T' ∧
      ret = (if (firstInsert calls (text domain)).isSome then -1 else 0) ∧ (ret = -1 → s.Unchanged s') := by
  obtain ⟨s', T', ret, hinsert, hafter, hkeep, hcase⟩ := hs.insert_spec ipv4 hfuel hdomain.lt hzero haligned hfresh
  have hsome : (∃ a ∈ (T (insideHash domain len)).toList, s.key a = signed (cstring len domain)) →
      (firstInsert calls (text domain)).isSome := by
    intro hold
    obtain ⟨a, ha, hkey⟩ := hold
    exact hs.firstInsert_isSome hcalls ha (hdomain.cstring ▸ hkey)
  refine ⟨s', T', ret, hinsert, hafter, ?_, ?_, ?_⟩
  · intro d l ip hd hip
    rw [firstInsert_concat, firstInsert_insert] at hip
    cases hd' : firstInsert calls (text d) with
    | some ip' =>
        rw [hd', Option.some_or] at hip
        obtain ⟨b, hb, hkeyb, hipb⟩ := hfirst d l ip hd (hd'.trans hip)
        obtain ⟨hb', hentry⟩ := hkeep _ b hb
        exact ⟨b, hb', (key_congr hentry).trans hkeyb, (ipv4At_congr hentry).trans hipb⟩
    | none =>
        rw [hd', Option.none_or, Option.ite_none_right_eq_some, Option.some.injEq] at hip
        obtain ⟨htext, rfl⟩ := hip
        rcases hcase with ⟨hold, -⟩ | ⟨-, -, hnode, hself, -⟩
        · have := hsome hold
          rw [htext, hd'] at this
          cases this
        · rw [← hdomain.insideHash_eq hd htext]
          refine ⟨node, hnode, ?_, ?_⟩
          · rw [key, hself, Option.elim_some, newEntry, text_strncpy hdomain.lt, hdomain.cstring, htext]
          · rw [ipv4At, hself, Option.elim_some, newEntry]
  · rcases hcase with ⟨hold, rfl, -⟩ | ⟨hnone, rfl, -⟩
    · rw [if_pos (hsome hold)]
    · rw [if_neg]
      intro hsome'
      obtain ⟨ip, hip⟩ := Option.isSome_iff_exists.mp hsome'
      obtain ⟨a, ha, hkey, -⟩ := hfirst domain len ip hdomain hip
      exact hnone a ha (hdomain.cstring.symm ▸ hkey)
  · intro hret
    rcases hcase with ⟨-, -, -, rfl⟩ | ⟨-, rfl, -⟩
    · refine ⟨rfl, fun b hb => ?_⟩
      have hne : b ≠ node := by
        rintro rfl
        simp [hs.unallocated b hfresh] at hb
      exact ⟨Function.update_of_ne hne .., Function.update_of_ne hne ..⟩
    · cases hret

theorem After.search_first {domain : Chars} {len : Nat} (hs : After calls s T) (hfirst : First calls s T)
    (hcalls : ∀ c ∈ calls, c.Proper) (hfuel : calls.length < fuel) (hdomain : IsDomain domain len) :
    s.search fuel domain len = some ((firstInsert calls (text domain)).getD 0) := by
  have hsorted := (hs.holds.bucket (insideHash domain len)).sorted
  rw [hs.search hfuel]
  cases hd : firstInsert calls (text domain) with
  | none =>
      cases hfind : find (sideOf s.key (signed (text domain))) (T (insideHash domain len)) with
      | none => rfl
      | some a =>
          obtain ⟨ha, hkey⟩ := (find_eq_some_iff hsorted).mp hfind
          have := hs.firstInsert_isSome hcalls ha hkey
          simp [hd] at this
  | some ip =>
      obtain ⟨a, ha, hkey, hip⟩ := hfirst domain len ip hdomain hd
      rw [(find_eq_some_iff hsorted).mpr ⟨ha, hkey⟩, Option.elim_some, hip, Option.getD_some]

/-- A proper call after proper ones answers as the abstract map does. -/
theorem After.call_first {c : Call} (hs : After calls s T) (hfirst : First calls s T)
    (hc : NetHashmap.Proper (calls ++ [c])) (hfuel : calls.length < fuel) :
    ∃ s' T', s.call fuel c = some (s', answer calls c) ∧ After (calls ++ [c]) s' T' ∧
      First (calls ++ [c]) s' T' ∧ (answer calls c = .inserted (-1) → s.Unchanged s') := by
  obtain ⟨-, -, hfresh⟩ := hc.admissible.of_concat
  have hcalls : ∀ d ∈ calls, d.Proper := fun d hd => hc.proper d (List.mem_append_left _ hd)
  have hproper := hc.proper c (by simp)
  cases c with
  | search domain len =>
      refine ⟨s, T, ?_, hs.concat _ hs.holds (fun _ _ => rfl) hfresh, ?_, by simp [answer]⟩
      · rw [Hashmap.call, hs.search_first hfirst hcalls hfuel hproper]
        rfl
      · intro d l ip hd hip
        rw [firstInsert_concat, show firstInsert [.search domain len] (text d) = none from rfl, Option.or_none] at hip
        exact hfirst d l ip hd hip
  | insert node domain len ipv4 =>
      obtain ⟨hzero, haligned, hdomain⟩ := hproper
      obtain ⟨s', T', ret, hinsert, hs', hfirst', hret, hsame⟩ :=
        hs.insert_first hfirst hcalls hfuel hzero haligned hdomain (hfresh node ((mem_malloc? hzero).mpr rfl))
      refine ⟨s', T', ?_, hs', hfirst', ?_⟩
      · rw [Hashmap.call, hinsert, Option.map_some, answer, hret]
      · intro hanswer
        rw [answer, ← hret] at hanswer
        exact hsame (Answer.inserted.inj hanswer)

/-- Every proper sequence of calls leaves the first insertion of each domain in its bucket. -/
theorem First.runCalls (h : NetHashmap.Proper calls) (hfuel : calls.length < fuel) :
    ∃ s T, Hashmap.init.runCalls fuel calls = some s ∧ After calls s T ∧ First calls s T := by
  induction calls using List.reverseRecOn with
  | nil => exact ⟨Hashmap.init, _, rfl, After.init, fun _ _ _ _ h => by simp [firstInsert] at h⟩
  | append_singleton calls c ih =>
      rw [List.length_append, List.length_singleton] at hfuel
      have hcalls : NetHashmap.Proper calls :=
        ⟨fun d hd => h.proper d (List.mem_append_left _ hd), h.admissible.of_concat.1.nodup⟩
      obtain ⟨s, T, hrun, hs, hfirst⟩ := ih hcalls (by omega)
      obtain ⟨s', T', hcall, hs', hfirst', -⟩ := hs.call_first hfirst h (show calls.length < fuel by omega)
      refine ⟨s', T', ?_, hs', hfirst'⟩
      rw [Hashmap.runCalls] at hrun ⊢
      rw [List.foldlM_append, hrun]
      simp [hcall]

end Hashmap

/-- Every call after any proper sequence of calls returns what the first-write-wins map answers, and an
insertion it refuses leaves every tree as it was. -/
theorem first_write_wins {calls : List Call} {c : Call} {fuel : Nat} (h : Proper (calls ++ [c]))
    (hfuel : calls.length < fuel) :
    ∃ s s', Hashmap.init.runCalls fuel calls = some s ∧ s.call fuel c = some (s', answer calls c) ∧
      (answer calls c = .inserted (-1) → s.Unchanged s') := by
  have hcalls : Proper calls :=
    ⟨fun d hd => h.proper d (List.mem_append_left _ hd), h.admissible.of_concat.1.nodup⟩
  obtain ⟨s, T, hrun, hs, hfirst⟩ := Hashmap.First.runCalls hcalls hfuel
  obtain ⟨s', T', hcall, -, -, hsame⟩ := hs.call_first hfirst h hfuel
  exact ⟨s, s', hrun, hcall, hsame⟩

/-- Two domains inserted, then the first one again with another address: refused, and nothing moved. -/
theorem first_write_wins_again :
    let domain : Chars := fun i => [97, 98].getD i 0
    let other : Chars := fun i => [98].getD i 0
    let calls : List Call := [.insert 16 domain 2 7, .insert 32 other 1 9]
    ∃ s s', Hashmap.init.runCalls 3 calls = some s ∧
      s.call 3 (.insert 48 domain 2 5) = some (s', .inserted (-1)) ∧ s.Unchanged s' := by
  intro domain other calls
  have hdomain : IsDomain domain 2 := ⟨by decide, by decide, by decide⟩
  have hother : IsDomain other 1 := ⟨by decide, by decide, by decide⟩
  have hproper : Proper (calls ++ [.insert 48 domain 2 5]) := by
    refine ⟨?_, by decide⟩
    simp only [calls, List.cons_append, List.nil_append, List.forall_mem_cons, Call.Proper]
    exact ⟨⟨by decide, rfl, hdomain⟩, ⟨by decide, rfl, hother⟩, ⟨by decide, rfl, hdomain⟩, by simp⟩
  have hanswer : answer calls (.insert 48 domain 2 5) = .inserted (-1) := rfl
  obtain ⟨s, s', hrun, hcall, hsame⟩ := first_write_wins hproper (show calls.length < 3 by decide)
  exact ⟨s, s', hrun, hanswer ▸ hcall, hsame hanswer⟩

end SimpDserver.NetHashmap

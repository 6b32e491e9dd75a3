import SimpDserver.Cache.Loader
import SimpDserver.Hashmap.FirstWrite

/-!
# What a search finds

The hash map as the worker sees it, after insertions the loader and the forward thread have made: an address
that a search returns comes from an insertion under that string, and after the loader it is the one of the first
source with the domain.
-/

namespace SimpDserver.Daemon

open NetHashmap RedBlack

/-- What `malloc` returns to one insertion after another: null or an aligned block, and no block twice. -/
structure Blocks (malloc : Nat → Addr) : Prop where
  aligned : ∀ i, Aligned (malloc i)
  distinct : ∀ i j, malloc i ≠ 0 → malloc i = malloc j → i = j

def insertCalls (malloc : Nat → Addr) (insertions : List Insertion) : List Call :=
  insertions.mapIdx fun i ins => .insert (malloc i) ins.domain ins.domainLen.toNat ins.ipv4

/-- `net_hashmap_core_module.search`, in the map that these insertions have left, if they and the search return. -/
def searchInserted (malloc : Nat → Addr) (insertions : List Insertion) (domain : Nat → Byte) (domainLen : Int) :
    Option Ipv4 :=
  let calls := insertCalls malloc insertions
  let fuel := calls.length + 1
  (Hashmap.init.runCalls fuel calls).bind fun s => s.search fuel domain domainLen.toNat

/-- What the worker gets. Insertions of domains that fit, and the search behind them, do return
(`exists_searchInserted`). -/
def searchAfter (malloc : Nat → Addr) (insertions : List Insertion) (domain : Nat → Byte) (domainLen : Int) : Ipv4 :=
  (searchInserted malloc insertions domain domainLen).getD 0

section Calls

variable {malloc : Nat → Addr} {insertions : List Insertion}

theorem insertCalls_concat (malloc : Nat → Addr) (insertions : List Insertion) (ins : Insertion) :
    insertCalls malloc (insertions ++ [ins]) = insertCalls malloc insertions ++
      [.insert (malloc insertions.length) ins.domain ins.domainLen.toNat ins.ipv4] :=
  List.mapIdx_concat

theorem mem_insertCalls {c : Call} : c ∈ insertCalls malloc insertions ↔
    ∃ i, ∃ h : i < insertions.length, .insert (malloc i) insertions[i].domain insertions[i].domainLen.toNat
      insertions[i].ipv4 = c :=
  List.mem_mapIdx

theorem nodup_mallocs_insertCalls (hmalloc : Blocks malloc) : (mallocs (insertCalls malloc insertions)).Nodup := by
  induction insertions using List.reverseRecOn with
  | nil => exact List.nodup_nil
  | append_singleton insertions ins ih =>
      rw [insertCalls_concat, mallocs_concat, List.nodup_append]
      refine ⟨ih, by rw [Call.malloc?]; split <;> simp, ?_⟩
      rintro a ha b hb rfl
      obtain ⟨c, hc, hac⟩ := List.mem_filterMap.mp ha
      obtain ⟨i, hi, rfl⟩ := mem_insertCalls.mp hc
      rw [Call.malloc?] at hac hb
      obtain ⟨hzero, hai⟩ := Option.ite_none_left_eq_some.mp hac
      obtain ⟨-, han⟩ := Option.ite_none_left_eq_some.mp (Option.mem_toList.mp hb)
      have hindex := hmalloc.distinct i insertions.length hzero ((Option.some.inj hai).trans (Option.some.inj han).symm)
      omega

theorem Blocks.admissible (hmalloc : Blocks malloc) (hlen : ∀ ins ∈ insertions, ins.domainLen.toNat < domainLen) :
    Admissible (insertCalls malloc insertions) where
  fits c hc := by
    obtain ⟨i, hi, rfl⟩ := mem_insertCalls.mp hc
    exact ⟨hmalloc.aligned i, hlen _ (List.getElem_mem hi)⟩
  nodup := nodup_mallocs_insertCalls hmalloc

/-- The insertions and the search return; and what is returned is nothing, or the address of an insertion under the
string the search is for. -/
theorem exists_searchInserted (hmalloc : Blocks malloc) (hlen : ∀ ins ∈ insertions, ins.domainLen.toNat < domainLen)
    (domain : Nat → Byte) (len : Int) : ∃ ip, searchInserted malloc insertions domain len = some ip ∧
      (ip = 0 ∨ ∃ ins ∈ insertions, cstring ins.domainLen.toNat ins.domain = text domain ∧ ip = ins.ipv4) := by
  obtain ⟨s, T, hrun, hs⟩ := Hashmap.After.runCalls (hmalloc.admissible hlen) (Nat.lt_succ_self _)
  have hsearch : searchInserted malloc insertions domain len =
      some ((find (sideOf s.key (signed (text domain))) (T (insideHash domain len.toNat))).elim 0 s.ipv4At) := by
    rw [searchInserted, hrun, Option.bind_some, hs.search (Nat.lt_succ_self _)]
  refine ⟨_, hsearch, ?_⟩
  cases hfind : find (sideOf s.key (signed (text domain))) (T (insideHash domain len.toNat)) with
  | none => exact Or.inl rfl
  | some a =>
      obtain ⟨ha, hkey⟩ := (find_eq_some_iff (hs.holds.bucket _).sorted).mp hfind
      obtain ⟨d, l, ip, hmem, hl, -, hentry⟩ := hs.inserted _ a ha
      obtain ⟨i, hi, hcall⟩ := mem_insertCalls.mp hmem
      cases hcall
      rw [Hashmap.key, hentry, Option.elim_some, Hashmap.newEntry, text_strncpy hl] at hkey
      refine Or.inr ⟨insertions[i], List.getElem_mem hi, signed_injective hkey, ?_⟩
      rw [Option.elim_some, Hashmap.ipv4At, hentry]
      rfl

theorem searchAfter_cases (hmalloc : Blocks malloc) (hlen : ∀ ins ∈ insertions, ins.domainLen.toNat < domainLen)
    (domain : Nat → Byte) (len : Int) :
    searchAfter malloc insertions domain len = 0 ∨ ∃ ins ∈ insertions,
      cstring ins.domainLen.toNat ins.domain = text domain ∧ searchAfter malloc insertions domain len = ins.ipv4 := by
  obtain ⟨ip, hsearch, hip⟩ := exists_searchInserted hmalloc hlen domain len
  rw [searchAfter, hsearch, Option.getD_some]
  exact hip

theorem runCalls_concat {fuel : Nat} {calls : List Call} {c : Call} {s₀ s s' : Hashmap} {r : Answer}
    (hrun : s₀.runCalls fuel calls = some s) (hcall : s.call fuel c = some (s', r)) :
    s₀.runCalls fuel (calls ++ [c]) = some s' := by
  rw [Hashmap.runCalls] at hrun ⊢
  rw [List.foldlM_append, hrun]
  simp [hcall]

/-- One more insertion, whether it gets memory or not, leaves the entries there are in their buckets. -/
theorem exists_call_insert {calls : List Call} {s : Hashmap} {T : BitVec 32 → RBTree Addr}
    (hs : Hashmap.After calls s T) {fuel : Nat} (hfuel : calls.length < fuel) {malloc : Addr} (haligned : Aligned malloc)
    (hnew : malloc ≠ 0 → malloc ∉ mallocs calls) {domain : Chars} {len : Nat} (hlen : len < domainLen) (ip : Ipv4) :
    ∃ s' T' ret, s.call fuel (.insert malloc domain len ip) = some (s', .inserted ret) ∧
      Hashmap.After (calls ++ [.insert malloc domain len ip]) s' T' ∧
      ∀ h, ∀ a ∈ (T h).toList, a ∈ (T' h).toList ∧ s'.entry a = s.entry a := by
  by_cases hzero : malloc = 0
  · refine ⟨s, T, -1, ?_, ?_, fun _ _ ha => ⟨ha, rfl⟩⟩
    · rw [Hashmap.call, Hashmap.insert, if_pos hzero, Option.map_some]
    · apply hs.concat _ hs.holds fun _ _ => rfl
      intro a ha
      rw [Call.malloc?, if_pos hzero] at ha
      cases ha
  · obtain ⟨s', T', ret, hinsert, hs', hkeep, -⟩ := hs.insert_spec ip hfuel hlen hzero haligned (hnew hzero)
    exact ⟨s', T', ret, by rw [Hashmap.call, hinsert, Option.map_some], hs', hkeep⟩

/-- An entry stays through later insertions, whatever these are for and whether they get memory. -/
theorem exists_entry {fuel : Nat} {domain : Chars} {len : Nat} {ip : Ipv4} (hmalloc : Blocks malloc)
    (hproper : Proper (insertCalls malloc insertions)) (hdomain : IsDomain domain len)
    (hfirst : firstInsert (insertCalls malloc insertions) (text domain) = some ip) {more : List Insertion}
    (hlen : ∀ ins ∈ more, ins.domainLen.toNat < domainLen) (hfuel : (insertions ++ more).length < fuel) :
    ∃ s T, Hashmap.init.runCalls fuel (insertCalls malloc (insertions ++ more)) = some s ∧
      Hashmap.After (insertCalls malloc (insertions ++ more)) s T ∧
      ∃ a ∈ (T (insideHash domain len)).toList, s.key a = signed (text domain) ∧ s.ipv4At a = ip := by
  have hlength : ∀ more, (insertCalls malloc (insertions ++ more)).length = (insertions ++ more).length := fun _ =>
    List.length_mapIdx
  induction more using List.reverseRecOn with
  | nil =>
      rw [← hlength, List.append_nil] at hfuel
      rw [List.append_nil]
      obtain ⟨s, T, hrun, hs, hhas⟩ := Hashmap.First.runCalls hproper hfuel
      exact ⟨s, T, hrun, hs, hhas domain len ip hdomain hfirst⟩
  | append_singleton more ins ih =>
      rw [List.forall_mem_append, List.forall_mem_singleton] at hlen
      rw [← List.append_assoc, List.length_append, List.length_singleton] at hfuel
      obtain ⟨s, T, hrun, hs, a, ha, hkey, hip⟩ := ih hlen.1 (by omega)
      have hnodup : (mallocs (insertCalls malloc (insertions ++ more ++ [ins]))).Nodup := nodup_mallocs_insertCalls hmalloc
      rw [← List.append_assoc, insertCalls_concat]
      rw [insertCalls_concat, mallocs_concat, List.nodup_append] at hnodup
      have hnew : malloc (insertions ++ more).length ≠ 0 →
          malloc (insertions ++ more).length ∉ mallocs (insertCalls malloc (insertions ++ more)) := fun hzero hmem =>
        hnodup.2.2 _ hmem _ ((mem_malloc? hzero).mpr rfl) rfl
      have hcalls : (insertCalls malloc (insertions ++ more)).length < fuel := by
        rw [hlength]
        omega
      obtain ⟨s', T', ret, hcall, hs', hkeep⟩ := exists_call_insert hs hcalls (hmalloc.aligned _) hnew hlen.2 ins.ipv4
      obtain ⟨ha', hentry⟩ := hkeep _ a ha
      refine ⟨s', T', runCalls_concat hrun hcall, hs', a, ha', ?_, ?_⟩
      · exact (Hashmap.key_congr hentry).trans hkey
      · exact (Hashmap.ipv4At_congr hentry).trans hip

/-- So a search for the domain goes on returning the address of its first insertion. -/
theorem searchAfter_first {domain : Chars} {len : Nat} {ip : Ipv4} (hmalloc : Blocks malloc)
    (hproper : Proper (insertCalls malloc insertions)) (hdomain : IsDomain domain len)
    (hfirst : firstInsert (insertCalls malloc insertions) (text domain) = some ip) {more : List Insertion}
    (hlen : ∀ ins ∈ more, ins.domainLen.toNat < domainLen) : searchAfter malloc (insertions ++ more) domain len = ip := by
  have hlength : (insertCalls malloc (insertions ++ more)).length = (insertions ++ more).length := List.length_mapIdx
  have hfuel : (insertions ++ more).length < (insertCalls malloc (insertions ++ more)).length + 1 := by omega
  obtain ⟨s, T, hrun, hs, a, ha, hkey, hip⟩ := exists_entry hmalloc hproper hdomain hfirst hlen hfuel
  have hfind : find (sideOf s.key (signed (text domain))) (T (insideHash domain len)) = some a :=
    (find_eq_some_iff (hs.holds.bucket _).sorted).mpr ⟨ha, hkey⟩
  rw [searchAfter, searchInserted, hrun, Option.bind_some, Int.toNat_natCast, hs.search (Nat.lt_succ_self _), hfind,
    Option.getD_some]
  exact hip

theorem firstInsert_insertCalls (malloc : Nat → Addr) (insertions : List Insertion) (key : List Byte) :
    firstInsert (insertCalls malloc insertions) key =
      (insertions.find? fun ins => text ins.domain = key).map Insertion.ipv4 := by
  induction insertions using List.reverseRecOn with
  | nil => rfl
  | append_singleton insertions ins ih =>
      rw [insertCalls_concat, firstInsert_concat, ih, firstInsert_insert, List.find?_append, List.find?_singleton]
      by_cases h : text ins.domain = key
      · cases insertions.find? fun ins => text ins.domain = key <;> simp [h]
      · cases insertions.find? fun ins => text ins.domain = key <;> simp [h]

end Calls

/-! ### The configured addresses -/

theorem CString.isDomain {s : CString} (h : s.strlen < domainLen) : IsDomain s.chars s.strlen where
  lt := h
  zero := List.getD_eq_default _ _ le_rfl
  ne_zero i hi := by
    rw [CString.chars, List.getD_eq_getElem _ _ hi]
    exact s.ne_zero _ (List.getElem_mem hi)

theorem CString.text_chars {s : CString} (h : s.strlen < domainLen) : text s.chars = s.bytes := by
  rw [(isDomain h).text_eq]
  apply List.ext_getElem
  · rw [List.length_map, List.length_range]
    rfl
  · intro i _ hi
    rw [List.getElem_map, List.getElem_range]
    exact List.getD_eq_getElem _ _ hi

theorem strlen_of_sourceOf {ptr : XmlNode} {source : CString × CString} (h : sourceOf ptr = some source) :
    source.1.strlen < domainLen := by
  simp only [sourceOf, Option.bind_eq_bind, Option.bind_eq_some_iff] at h
  obtain ⟨domain, -, ipaddr, -, h⟩ := h
  obtain ⟨hlen, h⟩ := Option.ite_none_right_eq_some.mp h
  cases h
  exact hlen.1

/-- The sources the parser makes insertions for fit. -/
theorem strlen_of_parseSources {fuel : Nat} {ptr : List XmlNode} {sources : List (CString × CString)}
    (h : parseSources fuel ptr = some sources) : ∀ source ∈ sources, source.1.strlen < domainLen := by
  induction fuel generalizing ptr sources with
  | zero => cases h
  | succ fuel ih =>
      cases ptr with
      | nil =>
          cases h
          exact fun _ hsource => absurd hsource List.not_mem_nil
      | cons ptr rest =>
          simp only [parseSources, Option.bind_eq_bind, Option.bind_eq_some_iff, Option.pure_def, Option.some.injEq] at h
          obtain ⟨later, hlater, rfl⟩ := h
          intro source hsource
          rcases List.mem_append.mp hsource with hfirst | hlast
          · exact strlen_of_sourceOf (Option.mem_toList.mp hfirst)
          · exact ih hlater source hlast

theorem strlen_of_configModuleParser {fuel : Nat} {pdoc : Option XmlDoc} {config : Config} {ret : Int}
    (h : configModuleParser fuel Config.initial pdoc = some (config, ret)) :
    ∀ source ∈ config.inserted, source.1.strlen < domainLen := by
  cases pdoc with
  | none =>
      cases h
      exact fun _ hsource => absurd hsource List.not_mem_nil
  | some pdoc =>
      simp only [configModuleParser, Option.bind_eq_bind, Option.bind_eq_some_iff, Option.pure_def] at h
      obtain ⟨sources, hsources, h⟩ := h
      cases h
      exact strlen_of_parseSources hsources

theorem strlen_of_mem_sources {pdoc : XmlDoc} {source : CString × CString} (h : source ∈ pdoc.sources) :
    source.1.strlen < domainLen := by
  obtain ⟨ptr, -, hptr⟩ := List.mem_filterMap.mp h
  exact strlen_of_sourceOf hptr

section Sources

variable {malloc : Nat → Addr} {sources : List (CString × CString)}

theorem proper_sources (hmalloc : Blocks malloc) (hfits : ∀ source ∈ sources, source.1.strlen < domainLen)
    (hmemory : ∀ i < sources.length, malloc i ≠ 0) : Proper (insertCalls malloc (sources.map sourceInsertion)) where
  proper c hc := by
    obtain ⟨i, hi, rfl⟩ := mem_insertCalls.mp hc
    rw [List.length_map] at hi
    rw [List.getElem_map]
    exact ⟨hmemory i hi, hmalloc.aligned i, CString.isDomain (hfits _ (List.getElem_mem hi))⟩
  nodup := nodup_mallocs_insertCalls hmalloc

/-- The address of the first source with the domain. -/
def configuredAddress (sources : List (CString × CString)) (domain : List Byte) : Option Ipv4 :=
  (sources.find? fun source => source.1.bytes = domain).map fun source => (inetPton source.2).getD 0

theorem firstInsert_sources (malloc : Nat → Addr) (hfits : ∀ source ∈ sources, source.1.strlen < domainLen)
    (domain : List Byte) : firstInsert (insertCalls malloc (sources.map sourceInsertion)) domain =
      configuredAddress sources domain := by
  rw [firstInsert_insertCalls, List.find?_map, Option.map_map, configuredAddress]
  apply congrArg
  apply List.find?_congr
  intro source hsource
  have htext : text source.1.chars = source.1.bytes := CString.text_chars (hfits source hsource)
  exact decide_eq_decide.mpr (htext ▸ Iff.rfl)

end Sources

/-- After the loader has gone through a document its insertions and the search behind them return, and the search
returns the address of the first of the sources with the domain, zero where that is no address, and zero where there is
none. -/
theorem configured_found {pdoc : XmlDoc} {fuel : Nat} {malloc : Nat → Addr}
    (hfuel : (firstSource (some pdoc)).length < fuel) (hmalloc : Blocks malloc)
    (hmemory : ∀ i < pdoc.sources.length, malloc i ≠ 0) :
    ∃ config, configModuleParser fuel Config.initial (some pdoc) = some (config, 0) ∧ ∀ d : CString, d.strlen < domainLen →
      searchInserted malloc (config.inserted.map sourceInsertion) d.chars d.strlen =
        some ((configuredAddress pdoc.sources d.bytes).getD 0) := by
  refine ⟨pdoc.config, configModuleParser_eq hfuel, fun d hd => ?_⟩
  have hfits : ∀ source ∈ pdoc.sources, source.1.strlen < domainLen := fun _ => strlen_of_mem_sources
  have hproper := proper_sources hmalloc hfits hmemory
  obtain ⟨s, T, hrun, hs, hfirst⟩ := Hashmap.First.runCalls hproper (Nat.lt_succ_self _)
  have hsearch := hs.search_first hfirst hproper.proper (Nat.lt_succ_self _) (CString.isDomain hd)
  rw [firstInsert_sources malloc hfits, CString.text_chars hd] at hsearch
  change searchInserted malloc (pdoc.sources.map sourceInsertion) d.chars d.strlen = _
  rw [searchInserted, hrun, Option.bind_some, Int.toNat_natCast, hsearch]

/-- A string literal as C reads it, up to its first zero. -/
def CString.ofLiteral (s : String) : CString where
  bytes := (literal s).takeWhile (· != 0)
  ne_zero _ hb := bne_iff_ne.mp (@List.mem_takeWhile_imp _ (· != 0) _ _ hb)

/-- A document with two sources for the domain `a`. -/
def twoSources : XmlDoc where
  root := some (.mk (.ofLiteral "DNSCONFIG") [] [.mk (.ofLiteral "Root") []
    [source (.ofLiteral "1.2.3.4"), source (.ofLiteral "5.6.7.8")]])
where
  source (ipaddr : CString) : XmlNode :=
    .mk (.ofLiteral "IPSource") [(.ofLiteral "Domain", .ofLiteral "a"), (.ofLiteral "ipaddr", ipaddr)] []

/-- Memory for two insertions. -/
def twoBlocks (i : Nat) : Addr := [16, 48].getD i 0

theorem twoBlocks_add_two (i : Nat) : twoBlocks (i + 2) = 0 := List.getD_eq_default _ _ (Nat.le_add_left 2 i)

theorem blocks_twoBlocks : Blocks twoBlocks where
  aligned i := by
    match i with
    | 0 => exact (rfl : (16 : Addr) &&& 3#64 = 0#64)
    | 1 => exact (rfl : (48 : Addr) &&& 3#64 = 0#64)
    | i + 2 =>
        rw [twoBlocks_add_two]
        exact (rfl : (0 : Addr) &&& 3#64 = 0#64)
  distinct i j hi hij := by
    match i, j with
    | 0, 0 | 1, 1 => rfl
    | 0, 1 | 1, 0 => exact absurd hij (by decide)
    | 0, j + 2 | 1, j + 2 => exact absurd (hij.trans (twoBlocks_add_two j)) (by decide)
    | i + 2, _ => exact absurd (twoBlocks_add_two i) hi

theorem configured_found_twice : ∃ config, configModuleParser 3 Config.initial (some twoSources) = some (config, 0) ∧
    searchInserted twoBlocks (config.inserted.map sourceInsertion) ((CString.ofLiteral "a").chars) 1 = some 0x04030201 := by
  have hlength : twoSources.sources.length = 2 := by decide
  obtain ⟨config, hparser, hsearch⟩ := @configured_found twoSources 3 twoBlocks (by decide) blocks_twoBlocks
    fun i hi => by
      rw [hlength] at hi
      interval_cases i <;> decide
  exact ⟨config, hparser, (hsearch (.ofLiteral "a") (by decide)).trans (by decide)⟩

end SimpDserver.Daemon

import Mathlib.Data.List.TakeWhile
import SimpDserver.Hashmap.Entries
import SimpDserver.Work.Query

/-!
# What the cache knows of a name

The hash map is given the labels with dots in between. It keeps and compares these up to their first zero
byte, and hashes all of them, so two names share an entry when their joins agree up to a zero byte and fall
into one bucket. The join tells the labels from each other only where none has a dot in it.
-/

namespace SimpDserver.Daemon

open NetHashmap RedBlack

/-! ### Labels and their join -/

theorem joinLabels_cons_cons (l l' : List Byte) (ls : List (List Byte)) :
    joinLabels (l :: l' :: ls) = l ++ 0x2e :: joinLabels (l' :: ls) := rfl

theorem joinLabels_eq_intercalate (ls : List (List Byte)) : joinLabels ls = [0x2e].intercalate ls := by
  induction ls with
  | nil => rfl
  | cons l ls ih =>
      cases ls with
      | nil => rw [joinLabels, List.intercalate_singleton]
      | cons l' ls => rw [joinLabels_cons_cons, ih, List.intercalate_cons_cons, List.append_assoc, List.singleton_append]

/-- Without dots in the labels the join is split at its dots. -/
theorem joinLabels_injective {ls ls' : List (List Byte)} (hne : ls ≠ []) (hne' : ls' ≠ []) (hdot : ∀ l ∈ ls, 0x2e ∉ l)
    (hdot' : ∀ l ∈ ls', 0x2e ∉ l) (h : joinLabels ls = joinLabels ls') : ls = ls' := by
  rw [joinLabels_eq_intercalate, joinLabels_eq_intercalate] at h
  calc ls = ([0x2e].intercalate ls).splitOn 0x2e := (List.splitOn_intercalate _ hdot hne).symm
    _ = ([0x2e].intercalate ls').splitOn 0x2e := congrArg _ h
    _ = ls' := List.splitOn_intercalate _ hdot' hne'

theorem joinLabels_ne_zero {ls : List (List Byte)} (h : ∀ l ∈ ls, 0 ∉ l) : ∀ c ∈ joinLabels ls, c ≠ 0 := by
  induction ls with
  | nil => exact fun c hc => absurd hc List.not_mem_nil
  | cons l ls ih =>
      rw [List.forall_mem_cons] at h
      have hl : ∀ c ∈ l, c ≠ 0 := fun c hc h0 => h.1 (h0 ▸ hc)
      cases ls with
      | nil => exact hl
      | cons l' ls =>
          rw [joinLabels_cons_cons, List.forall_mem_append, List.forall_mem_cons]
          exact ⟨hl, by decide, ih h.2⟩

/-! ### Names as the hash map keeps them -/

/-- The join up to its first zero byte. -/
def Query.key (q : Query) : List Byte := q.host.takeWhile (· ≠ 0)

theorem cstring_put {host : List Byte} {n : Nat} (h : host.length ≤ n) :
    cstring n (put (fun _ => 0) 0 host) = host.takeWhile (· ≠ 0) := by
  induction host generalizing n with
  | nil =>
      cases n with
      | zero => rfl
      | succ n => rfl
  | cons c host ih =>
      cases n with
      | zero => cases h
      | succ n =>
          have hhead : put (fun _ => 0) 0 (c :: host) 0 = c := rfl
          have hnext : Chars.next (put (fun _ => 0) 0 (c :: host)) = put (fun _ => 0) 0 host := by
            funext i
            simp [Chars.next, put]
          rw [cstring, hhead, hnext, ih (by simpa using h), List.takeWhile_cons]
          by_cases h0 : c = 0 <;> simp [h0]

/-! ### Queries -/

theorem Query.key_of_accepts {search : (Nat → Byte) → Int → Ipv4} {q : Query} {fd : Int} {cliaddr : SockAddr}
    {node : Node} (h : Accepts search (received fd cliaddr q.encode) node) :
    node.shost = put (fun _ => 0) 0 q.host ∧ node.hostLen.toNat = q.host.length := by
  rcases q.of_accepts h with rfl | ⟨_, rfl⟩ <;> exact ⟨rfl, rfl⟩

/-- If the entry inserted under one query's name is the one that the search for another's returns, the two joins
agree up to the first zero byte and fall into one bucket; where no label has a zero byte or a dot in it, the names
are the same. -/
theorem same_name_of_finds {search₁ search₂ : (Nat → Byte) → Int → Ipv4} {q₁ q₂ : Query} {fd₁ fd₂ : Int}
    {cliaddr₁ cliaddr₂ : SockAddr} {node₁ node₂ : Node} (h₁ : Accepts search₁ (received fd₁ cliaddr₁ q₁.encode) node₁)
    (h₂ : Accepts search₂ (received fd₂ cliaddr₂ q₂.encode) node₂) {calls : List Call} {s : Hashmap} {fuel : Nat}
    (hcalls : Admissible calls) (hfuel : calls.length < fuel) (hrun : Hashmap.init.runCalls fuel calls = some s)
    {a : Addr} {ip : Ipv4} (hinsert : .insert a node₁.shost node₁.hostLen.toNat ip ∈ calls)
    (hfinds : s.Finds fuel node₂.shost node₂.hostLen.toNat a) :
    q₁.key = q₂.key ∧
      insideHash node₁.shost node₁.hostLen.toNat = insideHash node₂.shost node₂.hostLen.toNat ∧
      ((∀ l ∈ q₁.name.labels ++ q₂.name.labels, 0 ∉ l ∧ 0x2e ∉ l) → q₁.name.labels = q₂.name.labels) := by
  obtain ⟨hshost₁, hlen₁⟩ := q₁.key_of_accepts h₁
  obtain ⟨hshost₂, hlen₂⟩ := q₂.key_of_accepts h₂
  obtain ⟨hkey, hhash⟩ := same_key_of_finds hcalls hfuel hrun hinsert hfinds
  have hle : q₂.host.length ≤ domainLen := by
    have := q₂.name.host_le
    rw [Query.host, domainLen]
    omega
  rw [hshost₁, hlen₁, cstring_put le_rfl, hshost₂, text, cstring_put hle] at hkey
  refine ⟨hkey, hhash, fun hplain => ?_⟩
  have hzero : ∀ q : Query, (∀ l ∈ q.name.labels, 0 ∉ l) → q.key = joinLabels q.name.labels := fun q h =>
    List.takeWhile_eq_self_iff.mpr fun c hc => decide_eq_true (joinLabels_ne_zero h c hc)
  rw [List.forall_mem_append] at hplain
  have hjoin : joinLabels q₁.name.labels = joinLabels q₂.name.labels := by
    rw [← hzero q₁ fun l hl => (hplain.1 l hl).1, ← hzero q₂ fun l hl => (hplain.2 l hl).1]
    exact hkey
  exact joinLabels_injective q₁.name.ne_nil q₂.name.ne_nil (fun l hl => (hplain.1 l hl).2)
    (fun l hl => (hplain.2 l hl).2) hjoin

/-- The plain query for a name. -/
def Query.plain (name : Name) : Query where
  iden := (0x12, 0x34)
  flags := (1, 0)
  arcount := (0, 0)
  name := name
  qclass := (0, 1)
  rest := []
  arcount_le := no_additional
  length_le := by
    have := name.wire_le
    rw [reqDataLen, List.length_nil]
    omega

/-- One entry for two names: inserted under the first, found for the second. -/
def Merged (q₁ q₂ : Query) : Prop :=
  ∃ node₁ node₂ s, Accepts (fun _ _ => 0) (received 3 ⟨5, 6⟩ q₁.encode) node₁ ∧
    Accepts (fun _ _ => 0) (received 3 ⟨5, 6⟩ q₂.encode) node₂ ∧
    Hashmap.init.runCalls 2 [.insert 16 node₁.shost node₁.hostLen.toNat 0x04030201] = some s ∧
    s.Finds 2 node₂.shost node₂.hostLen.toNat 16

def dotted : Name := ⟨[[0x61, 0x2e, 0x62]], by decide, by decide, by decide, by decide⟩

def split : Name := ⟨[[0x61], [0x62]], by decide, by decide, by decide, by decide⟩

/-- Two names with a zero byte in front, in one bucket. -/
def zeroBefore (c c' : Byte) : Name := ⟨[[0, c, c']], List.cons_ne_nil _ _, by simp, by simp, by simp [encodeName, encodeLabels]⟩

theorem merged_dotted : Merged (.plain dotted) (.plain split) :=
  ⟨_, _, _, ⟨.forward, Query.insideParser_eq ..⟩, ⟨.forward, Query.insideParser_eq ..⟩, rfl, [], 0x04030201, _, rfl, rfl,
    by decide⟩

theorem merged_zeroBefore : Merged (.plain (zeroBefore 0x41 0x62)) (.plain (zeroBefore 0x42 0x41)) :=
  ⟨_, _, _, ⟨.forward, Query.insideParser_eq ..⟩, ⟨.forward, Query.insideParser_eq ..⟩, rfl, [], 0x04030201, _, rfl, rfl,
    by decide⟩

theorem same_name_of_finds_dotted : (Query.plain dotted).key = (Query.plain split).key := by
  obtain ⟨node₁, node₂, s, h₁, h₂, hrun, hfinds⟩ := merged_dotted
  have hlen : node₁.hostLen.toNat < domainLen := by
    rw [((Query.plain dotted).key_of_accepts h₁).2]
    decide
  have hcalls : Admissible [.insert 16 node₁.shost node₁.hostLen.toNat 0x04030201] :=
    ⟨List.forall_mem_singleton.mpr ⟨rfl, hlen⟩, List.nodup_singleton _⟩
  exact (same_name_of_finds h₁ h₂ hcalls Nat.one_lt_two hrun List.mem_cons_self hfinds).1

/-- The cache takes two names for one: a dot in a label for the dot between labels, and what comes before a zero
byte for all. -/
theorem merged_names :
    (Merged (.plain dotted) (.plain split) ∧ dotted.labels ≠ split.labels) ∧
    Merged (.plain (zeroBefore 0x41 0x62)) (.plain (zeroBefore 0x42 0x41)) ∧
      (zeroBefore 0x41 0x62).labels ≠ (zeroBefore 0x42 0x41).labels :=
  ⟨⟨merged_dotted, by decide⟩, merged_zeroBefore, by decide⟩

end SimpDserver.Daemon

import Mathlib.Tactic

/-!
# First in, first out, by key

Items arrive under keys, any number under one key. The oldest item of a key can be taken; the others
stay, in the order of their arrival. When a hash of the keys spreads the items over buckets, an item
comes to the end of its bucket and leaves it, and the other buckets do not change.
-/

/-- Items under keys, in the order of their arrival. -/
structure FifoMultimap (κ α : Type*) where
  entries : List (κ × α)
  nodup : (entries.map Prod.snd).Nodup

namespace FifoMultimap

variable {κ α β : Type*}

def empty : FifoMultimap κ α := ⟨[], List.nodup_nil⟩

theorem nodup_concat {entries : List (κ × α)} {k : κ} {a : α} (h : (entries.map Prod.snd).Nodup)
    (ha : a ∉ entries.map Prod.snd) : ((entries ++ [(k, a)]).map Prod.snd).Nodup := by
  rw [List.map_append, List.map_singleton, ← List.concat_eq_append]
  exact h.concat ha

/-- An item arrives. One that is there already is refused. -/
def put [DecidableEq α] (q : FifoMultimap κ α) (k : κ) (a : α) : Option (FifoMultimap κ α) :=
  if h : a ∈ q.entries.map Prod.snd then none else some ⟨q.entries ++ [(k, a)], nodup_concat q.nodup h⟩

/-- The oldest item of a key leaves. -/
def take [DecidableEq κ] (q : FifoMultimap κ α) (k : κ) : Option (α × FifoMultimap κ α) :=
  (q.entries.find? fun e => e.1 = k).map fun e =>
    (e.2, ⟨q.entries.eraseP fun e => e.1 = k, (List.eraseP_sublist.map Prod.snd).nodup q.nodup⟩)

/-- The items whose keys hash to `h`, in the order of their arrival. -/
def bucket [DecidableEq β] (q : FifoMultimap κ α) (hash : κ → β) (h : β) : List α :=
  (q.entries.filter fun e => hash e.1 = h).map Prod.snd

section

variable {q q' : FifoMultimap κ α} {k : κ} {a : α}

theorem put_eq_some [DecidableEq α] (h : q.put k a = some q') :
    a ∉ q.entries.map Prod.snd ∧ q'.entries = q.entries ++ [(k, a)] := by
  rw [put] at h
  split at h
  next => cases h
  next hnew =>
    cases h
    exact ⟨hnew, rfl⟩

theorem take_eq_some [DecidableEq κ] (h : q.take k = some (a, q')) :
    ∃ pre post, q.entries = pre ++ (k, a) :: post ∧ (∀ e ∈ pre, e.1 ≠ k) ∧ q'.entries = pre ++ post := by
  obtain ⟨⟨k', a'⟩, hfind, heq⟩ := Option.map_eq_some_iff.mp h
  obtain ⟨hkey, pre, post, hsplit, hpre⟩ := List.find?_eq_some_iff_append.mp hfind
  obtain rfl : k' = k := of_decide_eq_true hkey
  cases heq
  have hother : ∀ e ∈ pre, e.1 ≠ k' := fun e he => by simpa using hpre e he
  refine ⟨pre, post, hsplit, hother, ?_⟩
  have herase : q.entries.eraseP (fun e => e.1 = k') = pre ++ post := by
    rw [hsplit, List.eraseP_append_right _ fun e he => by simpa using hother e he, List.eraseP_cons_of_pos (by simp)]
  exact herase

theorem mem_bucket [DecidableEq β] {hash : κ → β} {h : β} :
    a ∈ q.bucket hash h ↔ ∃ k, (k, a) ∈ q.entries ∧ hash k = h := by
  simp [bucket]

end

section

variable [DecidableEq β] (hash : κ → β) {q q' : FifoMultimap κ α} {k : κ} {a : α}

theorem bucket_put [DecidableEq α] (h : q.put k a = some q') :
    q'.bucket hash = Function.update (q.bucket hash) (hash k) (q.bucket hash (hash k) ++ [a]) := by
  obtain ⟨-, hentries⟩ := put_eq_some h
  ext1 b
  rw [bucket, hentries, List.filter_append, List.map_append]
  by_cases hb : b = hash k
  · subst hb
    rw [Function.update_self, List.filter_cons_of_pos (by simp), List.filter_nil]
    rfl
  · rw [Function.update_of_ne hb, List.filter_cons_of_neg (by simpa using Ne.symm hb), List.filter_nil,
      List.map_nil, List.append_nil]
    rfl

/-- An item leaves its bucket, where it is the first of its key. -/
theorem bucket_take [DecidableEq κ] (h : q.take k = some (a, q')) :
    ∃ pre post, q.bucket hash (hash k) = pre ++ a :: post ∧
      (∀ b ∈ pre, ∃ k', (k', b) ∈ q.entries ∧ k' ≠ k) ∧ pre.length < q.entries.length ∧
      q'.bucket hash = Function.update (q.bucket hash) (hash k) (pre ++ post) := by
  obtain ⟨pre, post, hsplit, hpre, hentries⟩ := take_eq_some h
  refine ⟨(pre.filter fun e => hash e.1 = hash k).map Prod.snd, (post.filter fun e => hash e.1 = hash k).map Prod.snd,
    ?_, fun b hb => ?_, ?_, ?_⟩
  · rw [bucket, hsplit, List.filter_append, List.map_append, List.filter_cons_of_pos (by simp), List.map_cons]
  · obtain ⟨e, he, rfl⟩ := List.mem_map.mp hb
    have hmem := List.mem_of_mem_filter he
    refine ⟨e.1, ?_, hpre e hmem⟩
    rw [hsplit]
    exact List.mem_append_left _ hmem
  · have hle := List.length_filter_le (fun e : κ × α => decide (hash e.1 = hash k)) pre
    rw [hsplit, List.length_map, List.length_append, List.length_cons]
    omega
  · ext1 b
    rw [bucket, hentries, List.filter_append, List.map_append]
    by_cases hb : b = hash k
    · rw [hb, Function.update_self]
    · rw [Function.update_of_ne hb, bucket, hsplit, List.filter_append, List.map_append,
        List.filter_cons_of_neg (by simpa using Ne.symm hb)]

end

end FifoMultimap

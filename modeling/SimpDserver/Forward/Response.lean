import SimpDserver.Forward.Table

/-!
# A response, all of it

`parse_response` is its loop, which ends at a request or at the list head, and then the same work on
whatever the cursor is. The two ways the loop can end are the two cases for every result about it.
-/

namespace SimpDserver.Daemon

section StoreIpv4

variable (buff : Int → Byte) (item : Node) (stored : Option Int)

theorem storeIpv4_iden : (storeIpv4 buff item stored).iden = item.iden := by
  cases stored <;> rfl

@[simp] theorem storeIpv4_shost : (storeIpv4 buff item stored).shost = item.shost := by
  cases stored <;> rfl

@[simp] theorem storeIpv4_hostLen : (storeIpv4 buff item stored).hostLen = item.hostLen := by
  cases stored <;> rfl

end StoreIpv4

/-- What `parse_response` does with the cursor `item` once the walk has made `n` of its node. -/
def Forward.finish (s : Forward) (item : Ref) (n : Node) (room : Bool) : Forward :=
  bundleEnqueue
    { s with
      node := Function.update s.node item (some n)
      inserted := s.inserted ++ [⟨n.shost, n.hostLen, n.ipv4⟩] }
    room item

section Finish

variable (s : Forward) (item : Ref) (n : Node) (room : Bool)

@[simp] theorem Forward.finish_node : (s.finish item n room).node = Function.update s.node item (some n) := by
  cases room <;> rfl

@[simp] theorem Forward.finish_links : (s.finish item n room).links = s.links := by
  cases room <;> rfl

@[simp] theorem Forward.finish_inserted :
    (s.finish item n room).inserted = s.inserted ++ [⟨n.shost, n.hostLen, n.ipv4⟩] := by
  cases room <;> rfl

@[simp] theorem Forward.finish_bundle :
    (s.finish item n room).bundle = if room then s.bundle ++ [item] else s.bundle := by
  cases room <;> rfl

end Finish

theorem parseResponse_eq_some_iff {fuel : Nat} {s s' : Forward} {buff : Int → Byte} {bufflen : Int}
    {room : Bool} {seen : List Ref} : parseResponse fuel s buff bufflen room = some (s', seen) ↔
      ∃ item s₁ seen₁ n visits stored, matchItem fuel s buff = some (item, s₁, seen₁) ∧
        s₁.node item = some n ∧ walk buff bufflen fuel (answerPos n) = some (visits, stored) ∧
        s' = s₁.finish item (storeIpv4 buff n stored) room ∧ seen = seen₁ ++ [item] := by
  constructor
  · intro h
    simp only [parseResponse, Option.bind_eq_bind, Option.bind_eq_some_iff, Option.pure_def, Option.some.injEq,
      Prod.mk.injEq] at h
    obtain ⟨⟨item, s₁, seen₁⟩, hmatch, s₂, hread, s₃, hinsert, rfl, rfl⟩ := h
    simp only [readItem, Option.bind_eq_bind, Option.bind_eq_some_iff, Option.pure_def, Option.some.injEq] at hread
    obtain ⟨n, hn, ⟨visits, stored⟩, hwalk, rfl⟩ := hread
    simp only [insertItem, Function.update_self, Option.bind_eq_bind, Option.bind_some, Option.pure_def,
      Option.some.injEq] at hinsert
    subst hinsert
    exact ⟨item, s₁, seen₁, n, visits, stored, hmatch, hn, hwalk, rfl, rfl⟩
  · intro h
    obtain ⟨item, s₁, seen₁, n, visits, stored, hmatch, hn, hwalk, rfl, rfl⟩ := h
    simp only [parseResponse, hmatch, readItem, hn, hwalk, insertItem, Function.update_self, Option.bind_eq_bind,
      Option.bind_some, Option.pure_def]
    rfl

/-! ### How the loop ends -/

theorem exists_links_of_matchItem {fuel : Nat} {s s₁ : Forward} {buff : Int → Byte} {item : Ref} {seen : List Ref}
    (h : matchItem fuel s buff = some (item, s₁, seen)) : ∃ links, s₁ = { s with links := links } := by
  simp only [matchItem, Option.bind_eq_bind, Option.bind_eq_some_iff, Option.pure_def, Option.some.injEq,
    Prod.mk.injEq] at h
  obtain ⟨_, -, _, -, ⟨_, links, _⟩, -, -, rfl, -⟩ := h
  exact ⟨links, rfl⟩

theorem findItem_succ {s : Forward} {iden : BitVec 16} {head item nxt : Ref} {fuel : Nat}
    {r : Ref × CircularList.Links Ref × List Ref} (h : findItem s iden head fuel item nxt = some r) :
    findItem s iden head (fuel + 1) item nxt = some r := by
  induction fuel generalizing item nxt r with
  | zero => simp [findItem] at h
  | succ fuel ih =>
      rw [findItem] at h ⊢
      by_cases hhead : item = head
      · rw [if_pos hhead] at h ⊢
        exact h
      · rw [if_neg hhead] at h ⊢
        simp only [Option.bind_eq_bind, Option.bind_eq_some_iff] at h ⊢
        obtain ⟨n, hn, h⟩ := h
        refine ⟨n, hn, ?_⟩
        by_cases hiden : n.iden = iden
        · rw [if_pos hiden] at h ⊢
          exact h
        · rw [if_neg hiden] at h ⊢
          simp only [Option.bind_eq_some_iff] at h ⊢
          obtain ⟨nxt', hnxt', found, hfound, h⟩ := h
          exact ⟨nxt', hnxt', found, ih hfound, h⟩

theorem matchItem_add {s : Forward} {buff : Int → Byte} {fuel : Nat} {r : Ref × Forward × List Ref} (more : Nat)
    (h : matchItem fuel s buff = some r) : matchItem (fuel + more) s buff = some r := by
  induction more with
  | zero => exact h
  | succ more ih =>
      simp only [matchItem, Option.bind_eq_bind, Option.bind_eq_some_iff] at ih ⊢
      obtain ⟨first, hfirst, second, hsecond, found, hfound, hr⟩ := ih
      exact ⟨first, hfirst, second, hsecond, found, findItem_succ hfound, hr⟩

def HasIden (s : Forward) (iden : BitVec 16) (id : Nat) : Prop :=
  ∃ n, s.node (.node id) = some n ∧ n.iden = iden

section Cases

variable {s s₁ : Forward} {T : BitVec 32 → List Nat} {buff : Int → Byte} {fuel : Nat} {item : Ref}
  {seen : List Ref}

theorem Table.of_not_hasIden (hT : Table s T) {iden : BitVec 16} {h : BitVec 32} {a : Nat} (ha : a ∈ T h)
    (hno : ¬HasIden s iden a) : ∃ n, s.node (.node a) = some n ∧ n.iden ≠ iden := by
  obtain ⟨n, hn, -⟩ := hT.hashed h a ha
  exact ⟨n, hn, fun heq => hno ⟨n, hn, heq⟩⟩

theorem exists_first {α : Type*} (P : α → Prop) (xs : List α) :
    (∀ a ∈ xs, ¬P a) ∨ ∃ pre a post, xs = pre ++ a :: post ∧ P a ∧ ∀ b ∈ pre, ¬P b := by
  classical
  rcases hfind : xs.find? (fun a => decide (P a)) with _ | a
  · apply Or.inl
    intro a ha hP
    have := List.find?_eq_none.mp hfind a ha
    exact this (decide_eq_true hP)
  · obtain ⟨hP, pre, post, hsplit, hpre⟩ := List.find?_eq_some_iff_append.mp hfind
    refine Or.inr ⟨pre, a, post, hsplit, of_decide_eq_true hP, fun b hb hPb => ?_⟩
    have := hpre b hb
    rw [decide_eq_true hPb] at this
    exact absurd this (by decide)

/-- The loop took the first request with the response's ID, or none had it and the cursor is the head. -/
theorem Table.matchItem_cases (hT : Table s T) (h : matchItem fuel s buff = some (item, s₁, seen)) :
    (∃ pre id post links, T (integerHash (load16 (buff 0) (buff 1))) = pre ++ id :: post ∧
      HasIden s (load16 (buff 0) (buff 1)) id ∧ (∀ a ∈ pre, ¬HasIden s (load16 (buff 0) (buff 1)) a) ∧
      item = .node id ∧ s₁ = { s with links := links } ∧ seen = (pre ++ [id]).map Ref.node ∧
      Table s₁ (Function.update T (integerHash (load16 (buff 0) (buff 1))) (pre ++ post))) ∨
    ((∀ a ∈ T (integerHash (load16 (buff 0) (buff 1))), ¬HasIden s (load16 (buff 0) (buff 1)) a) ∧
      item = .head (integerHash (load16 (buff 0) (buff 1))) ∧ s₁ = s ∧
      seen = (T (integerHash (load16 (buff 0) (buff 1)))).map Ref.node) := by
  have hmore := matchItem_add ((T (integerHash (load16 (buff 0) (buff 1)))).length + 1) h
  rcases exists_first (HasIden s (load16 (buff 0) (buff 1))) (T (integerHash (load16 (buff 0) (buff 1)))) with
    hnone | ⟨pre, id, post, hsplit, ⟨n, hn, hiden⟩, hpre⟩
  · have hmiss := hmore.symm.trans
      (hT.matchItem_miss (fun a ha => hT.of_not_hasIden ha (hnone a ha)) (by omega))
    obtain ⟨rfl, rfl, rfl⟩ := by simpa using hmiss
    exact Or.inr ⟨hnone, rfl, rfl, rfl⟩
  · have hlen : pre.length < (T (integerHash (load16 (buff 0) (buff 1)))).length := by
      rw [hsplit, List.length_append, List.length_cons]
      omega
    have hpre' : ∀ a ∈ pre, ∃ n, s.node (.node a) = some n ∧ n.iden ≠ load16 (buff 0) (buff 1) :=
      fun a ha => hT.of_not_hasIden (hsplit ▸ List.mem_append_left _ ha) (hpre a ha)
    obtain ⟨links, hhit, htable⟩ := hT.matchItem_hit hsplit hn hiden hpre'
      (show pre.length < fuel + ((T (integerHash (load16 (buff 0) (buff 1)))).length + 1) by omega)
    replace hhit := hmore.symm.trans hhit
    simp only [Option.some.injEq, Prod.mk.injEq] at hhit
    obtain ⟨rfl, rfl, rfl⟩ := hhit
    exact Or.inl ⟨pre, id, post, links, hsplit, ⟨n, hn, hiden⟩, hpre, rfl, rfl, rfl, htable⟩

end Cases

end SimpDserver.Daemon

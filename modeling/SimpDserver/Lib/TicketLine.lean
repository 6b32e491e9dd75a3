import Mathlib.Tactic

/-!
# Ticket lines

A line hands out consecutive tickets at its head and serves them at its tail, in the order in which
they were drawn. Between the two, every ticket is held by exactly one party. Drawing and serving
keep that order, and a party that only compares tickets modulo a width can still tell its turn as
long as fewer tickets than the width are out.
-/

namespace Ticket

/-- The next ticket to hand out, the next one to serve, and who holds which. -/
structure Line (τ : Type*) where
  head : Nat
  tail : Nat
  ticket : τ → Option Nat

namespace Line

variable {τ : Type*}

/-- The tickets out are exactly those from the tail up to the head, each with one holder. -/
structure Ordered (q : Line τ) : Prop where
  tail_le_head : q.tail ≤ q.head
  bounds : ∀ {t n}, q.ticket t = some n → q.tail ≤ n ∧ n < q.head
  unique : ∀ {t u n}, q.ticket t = some n → q.ticket u = some n → t = u
  held : ∀ {n}, q.tail ≤ n → n < q.head → ∃ t, q.ticket t = some n

def empty (τ : Type*) : Line τ := ⟨0, 0, fun _ => none⟩

theorem empty_ordered : (empty τ).Ordered where
  tail_le_head := le_rfl
  bounds h := by simp [empty] at h
  unique h := by simp [empty] at h
  held h h' := absurd (h.trans_lt h') (lt_irrefl _)

variable [DecidableEq τ]

/-- `t` takes the ticket at the head. -/
def draw (q : Line τ) (t : τ) : Line τ :=
  { q with head := q.head + 1, ticket := Function.update q.ticket t (some q.head) }

/-- `t` hands in the ticket at the tail. -/
def serve (q : Line τ) (t : τ) : Line τ :=
  { q with tail := q.tail + 1, ticket := Function.update q.ticket t none }

theorem Ordered.draw {q : Line τ} (h : q.Ordered) {t : τ} (hfree : q.ticket t = none) :
    (q.draw t).Ordered where
  tail_le_head := h.tail_le_head.trans (Nat.le_succ _)
  bounds := by
    intro u n hu
    by_cases hut : u = t
    · subst hut
      simp only [Line.draw, Function.update_self, Option.some.injEq] at hu ⊢
      have := h.tail_le_head
      omega
    · simp only [Line.draw, Function.update_of_ne hut] at hu ⊢
      have := h.bounds hu
      omega
  unique := by
    intro u w n hu hw
    by_cases hut : u = t <;> by_cases hwt : w = t
    · rw [hut, hwt]
    · simp only [Line.draw, hut, Function.update_self, Function.update_of_ne hwt,
        Option.some.injEq] at hu hw
      have := (h.bounds hw).2
      omega
    · simp only [Line.draw, hwt, Function.update_self, Function.update_of_ne hut,
        Option.some.injEq] at hu hw
      have := (h.bounds hu).2
      omega
    · simp only [Line.draw, Function.update_of_ne hut, Function.update_of_ne hwt] at hu hw
      exact h.unique hu hw
  held := by
    intro n hlo hhi
    simp only [Line.draw] at hlo hhi ⊢
    rcases Nat.lt_succ_iff_lt_or_eq.mp hhi with hlt | rfl
    · obtain ⟨u, hu⟩ := h.held hlo hlt
      have hut : u ≠ t := by
        rintro rfl
        simp [hfree] at hu
      exact ⟨u, by rwa [Function.update_of_ne hut]⟩
    · exact ⟨t, Function.update_self ..⟩

theorem Ordered.serve {q : Line τ} (h : q.Ordered) {t : τ} (hturn : q.ticket t = some q.tail) :
    (q.serve t).Ordered where
  tail_le_head := (h.bounds hturn).2
  bounds := by
    intro u n hu
    by_cases hut : u = t
    · simp [Line.serve, hut] at hu
    · simp only [Line.serve, Function.update_of_ne hut] at hu ⊢
      have hn : n ≠ q.tail := fun he => hut (h.unique hu (he ▸ hturn))
      have := h.bounds hu
      omega
  unique := by
    intro u w n hu hw
    by_cases hut : u = t
    · simp [Line.serve, hut] at hu
    by_cases hwt : w = t
    · simp [Line.serve, hwt] at hw
    simp only [Line.serve, Function.update_of_ne hut, Function.update_of_ne hwt] at hu hw
    exact h.unique hu hw
  held := by
    intro n hlo hhi
    simp only [Line.serve] at hlo hhi ⊢
    obtain ⟨u, hu⟩ := h.held (by omega) hhi
    have hut : u ≠ t := by
      rintro rfl
      rw [hturn, Option.some.injEq] at hu
      omega
    exact ⟨u, by rwa [Function.update_of_ne hut]⟩

omit [DecidableEq τ] in
/-- A holder whose ticket agrees with the tail modulo a width that fits the line is at its turn. -/
theorem Ordered.eq_tail_of_mod {q : Line τ} (h : q.Ordered) {width : Nat}
    (hfit : q.head ≤ q.tail + width) {t : τ} {n : Nat} (ht : q.ticket t = some n)
    (hmod : n % width = q.tail % width) : n = q.tail := by
  obtain ⟨hlo, hhi⟩ := h.bounds ht
  obtain ⟨d, rfl⟩ := Nat.exists_eq_add_of_le hlo
  have hd : d % width = 0 := by
    have : (q.tail + d) ≡ q.tail + 0 [MOD width] := hmod
    exact Nat.ModEq.add_left_cancel' _ this
  have hlt : d < width := by omega
  rw [Nat.mod_eq_of_lt hlt] at hd
  omega

omit [DecidableEq τ] in
theorem Ordered.head_le_tail_add_card {q : Line τ} (h : q.Ordered) {S : Finset τ}
    (hS : ∀ t n, q.ticket t = some n → t ∈ S) : q.head ≤ q.tail + S.card := by
  classical
  have hsub : (Finset.Ico q.tail q.head).image some ⊆ S.image q.ticket := by
    intro x hx
    obtain ⟨n, hn, rfl⟩ := Finset.mem_image.mp hx
    rw [Finset.mem_Ico] at hn
    obtain ⟨t, ht⟩ := h.held hn.1 hn.2
    exact Finset.mem_image.mpr ⟨t, hS t n ht, ht⟩
  have hcard := (Finset.card_le_card hsub).trans Finset.card_image_le
  rw [Finset.card_image_of_injective _ (Option.some_injective _), Nat.card_Ico] at hcard
  omega

end Line

/-! ### Lines seen through words -/

/-- The ends of a line and the tickets held, as words of `w` bits. -/
structure Window (τ : Type*) (w : Nat) where
  head : BitVec w
  tail : BitVec w
  held : τ → Option (BitVec w)

/-- The words held are those from the tail on, up to the head, each with one holder. -/
structure Window.Exact {τ : Type*} {w : Nat} (s : Window τ w) : Prop where
  bounds : ∀ {t v}, s.held t = some v → ∃ i < (s.head - s.tail).toNat, v = s.tail + BitVec.ofNat w i
  unique : ∀ {t u v}, s.held t = some v → s.held u = some v → t = u
  held : ∀ i < (s.head - s.tail).toNat, ∃ t, s.held t = some (s.tail + BitVec.ofNat w i)

/-- What words of `w` bits show of a line. -/
def Line.window {τ : Type*} (q : Line τ) (w : Nat) : Window τ w :=
  ⟨BitVec.ofNat w q.head, BitVec.ofNat w q.tail, fun t => (q.ticket t).map (BitVec.ofNat w)⟩

section Window

variable {τ : Type*} {w : Nat}

theorem Line.Ordered.window_count {q : Line τ} (h : q.Ordered) (hfit : q.head < q.tail + 2 ^ w) :
    ((q.window w).head - (q.window w).tail).toNat = q.head - q.tail := by
  obtain ⟨d, hd⟩ := Nat.exists_eq_add_of_le h.tail_le_head
  rw [Line.window, hd, BitVec.ofNat_add, BitVec.add_comm, BitVec.add_sub_cancel, BitVec.toNat_ofNat,
    Nat.mod_eq_of_lt (by omega), Nat.add_sub_cancel_left]

/-- As long as fewer tickets than words are out, words tell all tickets apart. -/
theorem Line.Ordered.window_exact {q : Line τ} (h : q.Ordered) (hfit : q.head < q.tail + 2 ^ w) :
    (q.window w).Exact where
  bounds := by
    intro t v hv
    obtain ⟨n, hn, rfl⟩ := Option.map_eq_some_iff.mp hv
    obtain ⟨hlo, hhi⟩ := h.bounds hn
    refine ⟨n - q.tail, ?_, ?_⟩
    · rw [h.window_count hfit]
      omega
    · rw [Line.window, ← BitVec.ofNat_add, Nat.add_sub_cancel' hlo]
  unique := by
    intro t u v ht hu
    obtain ⟨n, hn, rfl⟩ := Option.map_eq_some_iff.mp ht
    obtain ⟨m, hm, hnm⟩ := Option.map_eq_some_iff.mp hu
    have hbn := h.bounds hn
    have hbm := h.bounds hm
    have hmod : m % 2 ^ w = n % 2 ^ w := by
      rw [← BitVec.toNat_inj, BitVec.toNat_ofNat, BitVec.toNat_ofNat] at hnm
      exact hnm
    have heq : m = n := by
      apply Nat.ModEq.eq_of_abs_lt hmod
      rw [abs_lt]
      omega
    exact h.unique hn (heq ▸ hm)
  held := by
    intro i hi
    rw [h.window_count hfit] at hi
    obtain ⟨t, ht⟩ := h.held (n := q.tail + i) (by omega) (by omega)
    refine ⟨t, ?_⟩
    simp only [Line.window, ht, Option.map_some, BitVec.ofNat_add]

/-- While the ends differ, one party holds the word at the tail. -/
theorem Window.Exact.existsUnique_turn {s : Window τ w} (h : s.Exact) (hne : s.tail ≠ s.head) :
    ∃! t, s.held t = some s.tail := by
  have hpos : 0 < (s.head - s.tail).toNat := by
    apply Nat.pos_of_ne_zero
    intro hzero
    have hdiff : s.head - s.tail = 0#w := BitVec.eq_of_toNat_eq hzero
    rw [BitVec.sub_eq_iff_eq_add, BitVec.zero_add] at hdiff
    exact hne hdiff.symm
  obtain ⟨t, ht⟩ := h.held 0 hpos
  have ht' : s.held t = some s.tail := by simpa using ht
  exact ⟨t, ht', fun u hu => h.unique hu ht'⟩

end Window

end Ticket

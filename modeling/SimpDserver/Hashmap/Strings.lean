import Mathlib.Tactic
import Mathlib.Data.List.Lex

/-!
# Keys as C strings

The hand-written comparison and the hash of `net_hashmap_core.c`, over memory read through a
`const char *`. Characters are signed. The comparison gives up after `NET_HASHMAP_DOMAIN_LEN` + 1
equal pairs; for strings that end before that it is the lexicographic order of the signed bytes.
-/

namespace SimpDserver.NetHashmap

abbrev Byte := BitVec 8

/-- Memory from where a `char *` points. -/
abbrev Chars := Nat → Byte

/-- `p + 1` -/
def Chars.next (p : Chars) : Chars := fun i => p (i + 1)

/-- `NET_HASHMAP_DOMAIN_LEN` -/
def domainLen : Nat := 512

/-! ### The code -/

/-- The loop of `inside_strcmp` with `to'` on the countdown, and the three tests after it. -/
def strcmpLoop (to' : Nat) (p1 p2 : Chars) : Int :=
  if p1 0 ≠ 0 ∧ p2 0 ≠ 0 then
    if (p1 0).toInt > (p2 0).toInt then 1
    else if (p1 0).toInt < (p2 0).toInt then -1
    else match to' with
      | 0 => -1
      | to' + 1 => strcmpLoop to' p1.next p2.next
  else if p1 0 = 0 ∧ p2 0 = 0 then 0
  else if p1 0 = 0 then -1
  else 1

/-- `net_hashmap_core_module_inside_strcmp`; `none` is the null pointer. -/
def insideStrcmp : (str1 str2 : Option Chars) → Int
  | none, _ => -1
  | some _, none => 1
  | some p1, some p2 => strcmpLoop domainLen p1 p2

/-- The loop of `inside_hash`: a `char` is sign-extended into the 32-bit sum. -/
def hashLoop : (len : Nat) → Chars → BitVec 32 → BitVec 32
  | 0, _, hash => hash
  | len + 1, p, hash => hashLoop len p.next ((hash <<< 5) + hash + (p 0).signExtend 32)

/-- `net_hashmap_core_module_inside_hash` -/
def insideHash (str : Chars) (len : Nat) : BitVec 32 := hashLoop len str 5381 &&& 1023

/-- `strncpy`: up to the first zero byte of `src`, zero bytes after it, `n` bytes in all. -/
def strncpy (dst src : Chars) (n : Nat) : Chars :=
  fun i => if i < n then (if ∀ j ≤ i, src j ≠ 0 then src i else 0) else dst i

/-! ### The strings they read -/

/-- The string at `p`, or its first `n` bytes. -/
def cstring : (n : Nat) → Chars → List Byte
  | 0, _ => []
  | n + 1, p => if p 0 = 0 then [] else p 0 :: cstring n p.next

/-- There is a zero byte among the first `n`. -/
def Terminated (n : Nat) (p : Chars) : Prop := ∃ i < n, p i = 0

/-- A string in the order of the comparison. -/
def signed (text : List Byte) : List Int := text.map BitVec.toInt

theorem signed_injective : Function.Injective signed :=
  List.map_injective_iff.mpr fun _ _ => BitVec.toInt_inj.mp

theorem Terminated.next {n : Nat} {p : Chars} (h : Terminated (n + 1) p) (hp : p 0 ≠ 0) :
    Terminated n p.next := by
  obtain ⟨i, hi, hpi⟩ := h
  cases i with
  | zero => exact absurd hpi hp
  | succ i => exact ⟨i, by omega, hpi⟩

theorem cstring_eq_map {n len : Nat} {p : Chars} (hlen : len ≤ n) (hne : ∀ i < len, p i ≠ 0)
    (hend : len < n → p len = 0) : cstring n p = (List.range len).map p := by
  induction n generalizing len p with
  | zero =>
      obtain rfl : len = 0 := by omega
      rfl
  | succ n ih =>
      cases len with
      | zero => rw [cstring, if_pos (hend (by omega)), List.range_zero, List.map_nil]
      | succ len =>
          have htail : cstring n p.next = (List.range len).map p.next :=
            ih (by omega) (fun i hi => hne (i + 1) (by omega)) fun hlt => hend (by omega)
          rw [cstring, if_neg (hne 0 (by omega)), htail, List.range_succ_eq_map, List.map_cons, List.map_map]
          rfl

theorem cstring_of_zero {n len : Nat} {p : Chars} (hlen : len ≤ n) (hzero : p len = 0) : cstring n p = cstring len p := by
  induction n generalizing len p with
  | zero => rw [Nat.le_zero.mp hlen]
  | succ n ih =>
      cases len with
      | zero => exact if_pos hzero
      | succ len => rw [cstring, cstring, ih (p := p.next) (Nat.le_of_succ_le_succ hlen) hzero]

theorem hashLoop_congr {n : Nat} {p q : Chars} (h : ∀ i < n, p i = q i) (hash : BitVec 32) :
    hashLoop n p hash = hashLoop n q hash := by
  induction n generalizing p q hash with
  | zero => rfl
  | succ n ih =>
      rw [hashLoop, hashLoop, h 0 (by omega)]
      exact ih (fun i hi => h (i + 1) (by omega)) _

/-- `r` reports how `a` compares with `b`. -/
def Compares (r : Int) (a b : List Int) : Prop := a < b ∧ r = -1 ∨ a = b ∧ r = 0 ∨ b < a ∧ r = 1

theorem Compares.cons {r : Int} {a b : List Int} (h : Compares r a b) (x : Int) :
    Compares r (x :: a) (x :: b) := by
  simpa [Compares, List.cons_lt_cons_iff] using h

/-- When the second string ends before the countdown, the loop compares the two. -/
theorem strcmpLoop_compares {n to' : Nat} {p q : Chars} (hq : Terminated n q) (hto : n ≤ to' + 1) :
    Compares (strcmpLoop to' p q) (signed (cstring n p)) (signed (cstring n q)) := by
  induction n generalizing to' p q with
  | zero =>
      obtain ⟨i, hi, -⟩ := hq
      omega
  | succ n ih =>
      rw [strcmpLoop.eq_def, cstring, cstring]
      by_cases hp0 : p 0 = 0 <;> by_cases hq0 : q 0 = 0
      · rw [if_neg (fun h => h.1 hp0), if_pos ⟨hp0, hq0⟩, if_pos hp0, if_pos hq0]
        exact Or.inr (Or.inl ⟨rfl, rfl⟩)
      · rw [if_neg (fun h => h.1 hp0), if_neg (fun h => hq0 h.2), if_pos hp0, if_pos hp0, if_neg hq0]
        exact Or.inl ⟨List.nil_lt_cons .., rfl⟩
      · rw [if_neg (fun h => h.2 hq0), if_neg (fun h => hp0 h.1), if_neg hp0, if_neg hp0, if_pos hq0]
        exact Or.inr (Or.inr ⟨List.nil_lt_cons .., rfl⟩)
      · rw [if_pos ⟨hp0, hq0⟩, if_neg hp0, if_neg hq0]
        simp only [signed, List.map_cons]
        rcases lt_trichotomy (p 0).toInt (q 0).toInt with hlt | heq | hgt
        · rw [if_neg hlt.not_gt, if_pos hlt]
          exact Or.inl ⟨List.cons_lt_cons_iff.mpr (Or.inl hlt), rfl⟩
        · rw [if_neg heq.not_gt, if_neg heq.not_lt, heq]
          cases to' with
          | zero =>
              obtain ⟨i, hi, hqi⟩ := hq
              obtain rfl : i = 0 := by omega
              exact absurd hqi hq0
          | succ to' => exact (ih (hq.next hq0) (by omega)).cons _
        · rw [if_pos hgt]
          exact Or.inr (Or.inr ⟨List.cons_lt_cons_iff.mpr (Or.inl hgt), rfl⟩)

/-- The string in a `NET_HASHMAP_DOMAIN_LEN` array. -/
def text (p : Chars) : List Byte := cstring domainLen p

section Strcmp

variable {p q : Chars} (hq : Terminated domainLen q)
include hq

theorem insideStrcmp_compares :
    Compares (insideStrcmp (some p) (some q)) (signed (text p)) (signed (text q)) :=
  strcmpLoop_compares hq (by decide)

theorem insideStrcmp_pos : insideStrcmp (some p) (some q) > 0 ↔ signed (text p) > signed (text q) := by
  rcases insideStrcmp_compares (p := p) hq with ⟨h, hr⟩ | ⟨h, hr⟩ | ⟨h, hr⟩ <;> rw [hr]
  · simp [h.not_gt]
  · simp [h]
  · simp [h]

theorem insideStrcmp_neg : insideStrcmp (some p) (some q) < 0 ↔ signed (text p) < signed (text q) := by
  rcases insideStrcmp_compares (p := p) hq with ⟨h, hr⟩ | ⟨h, hr⟩ | ⟨h, hr⟩ <;> rw [hr]
  · simp [h]
  · simp [h]
  · simp [h.not_gt]

end Strcmp

/-! ### What an insertion stores -/

theorem strncpy_terminated {src : Chars} {len : Nat} (h : len < domainLen) :
    Terminated domainLen (strncpy (fun _ => 0) src len) :=
  ⟨len, h, by simp [strncpy]⟩

theorem cstring_strncpy {src : Chars} {len n : Nat} (h : len < n) :
    cstring n (strncpy (fun _ => 0) src len) = cstring len src := by
  induction n generalizing src len with
  | zero => omega
  | succ n ih =>
      cases len with
      | zero => simp [cstring, strncpy]
      | succ len =>
          by_cases h0 : src 0 = 0
          · simp [cstring, strncpy, h0]
          · have hnext : (strncpy (fun _ => 0) src (len + 1)).next = strncpy (fun _ => 0) src.next len := by
              funext i
              have hall : (∀ j ≤ i + 1, src j ≠ 0) ↔ ∀ j ≤ i, src (j + 1) ≠ 0 := by
                constructor
                · intro hj j hji
                  exact hj (j + 1) (by omega)
                · intro hj j hji
                  cases j with
                  | zero => exact h0
                  | succ j => exact hj j (by omega)
              unfold Chars.next strncpy
              simp only [hall, Nat.add_lt_add_iff_right]
            have hhead : strncpy (fun _ => 0) src (len + 1) 0 = src 0 := by
              simpa [strncpy] using fun h => h.symm
            rw [cstring, cstring, hnext, ih (by omega), hhead]

theorem text_strncpy {src : Chars} {len : Nat} (h : len < domainLen) :
    text (strncpy (fun _ => 0) src len) = cstring len src :=
  cstring_strncpy h

end SimpDserver.NetHashmap

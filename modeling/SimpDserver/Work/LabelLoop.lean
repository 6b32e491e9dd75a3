import SimpDserver.Lib.Traced
import SimpDserver.Work.Query

/-!
# The loop over the labels, on any bytes

The loop goes by what it takes for length bytes: each leads to the next, and a zero byte ends them. Where
that chain of length bytes ends says how many bytes the loop writes, whether they fit into `shost`, and
that no read goes further than the end.
-/

namespace SimpDserver.Daemon

/-- Each length byte from `pos` on leads to the next, and the one at `stop` is zero. Lengths are signed
characters, and a negative one skips nothing. -/
inductive Chain (data : Nat → Byte) : (pos stop : Nat) → Prop
  | nil {pos : Nat} (zero : data pos = 0) : Chain data pos pos
  | cons {pos stop : Nat} (length : data pos ≠ 0) (rest : Chain data (pos + 1 + (data pos).toInt.toNat) stop) :
      Chain data pos stop

section Chain

variable {data data' : Nat → Byte} {pos stop : Nat}

theorem Chain.le (h : Chain data pos stop) : pos ≤ stop := by
  induction h with
  | nil zero => exact le_rfl
  | cons length rest ih => omega

theorem Chain.zero (h : Chain data pos stop) : data stop = 0 := by
  induction h with
  | nil zero => exact zero
  | cons length rest ih => exact ih

theorem Chain.lt (h : Chain data pos stop) (hne : data pos ≠ 0) : pos < stop :=
  lt_of_le_of_ne h.le fun heq => hne (heq ▸ h.zero)

theorem Chain.unique {stop' : Nat} (h : Chain data pos stop) (h' : Chain data pos stop') : stop = stop' := by
  induction h with
  | nil zero =>
      cases h' with
      | nil => rfl
      | cons length => exact absurd zero length
  | cons length rest ih =>
      cases h' with
      | nil zero => exact absurd zero length
      | cons _ rest' => exact ih rest'

end Chain

/-- A chain of length bytes that are lawful: from 1 to 63. -/
inductive LabelChain (data : Nat → Byte) : (pos stop : Nat) → Prop
  | nil {pos : Nat} (zero : data pos = 0) : LabelChain data pos pos
  | cons {pos stop : Nat} (length : data pos ≠ 0) (lawful : (data pos).toNat ≤ 63)
      (rest : LabelChain data (pos + 1 + (data pos).toNat) stop) : LabelChain data pos stop

section LabelChain

variable {data : Nat → Byte} {pos stop : Nat}

theorem LabelChain.chain (h : LabelChain data pos stop) : Chain data pos stop := by
  induction h with
  | nil zero => exact .nil zero
  | @cons pos stop length lawful rest ih =>
      have hskip : (data pos).toInt.toNat = (data pos).toNat := by
        rw [BitVec.toInt_eq_toNat_of_lt (by omega), Int.toNat_natCast]
      exact .cons length (hskip ▸ ih)

theorem labelChain_of_holds {labels : List (List Byte)} (hpos : ∀ l ∈ labels, 0 < l.length)
    (hle : ∀ l ∈ labels, l.length ≤ 63) (h : Holds data pos (encodeName labels)) :
    LabelChain data pos (pos + (encodeLabels labels).length) := by
  induction labels generalizing pos with
  | nil => exact .nil h.1
  | cons l ls ih =>
      rw [List.forall_mem_cons] at hpos hle
      rw [encodeName_cons] at h
      obtain ⟨hhead, htail⟩ := h
      have hlength : (data pos).toNat = l.length := by
        rw [hhead, BitVec.toNat_ofNat]
        omega
      have hrest := ih hpos.2 hle.2 (holds_append.mp htail).2
      have hend : pos + (encodeLabels (l :: ls)).length = pos + 1 + l.length + (encodeLabels ls).length := by
        simp only [encodeLabels, List.length_cons, List.length_append]
        omega
      refine .cons (hhead ▸ ofNat_length_ne_zero hpos.1 hle.1) (by omega) ?_
      rw [hlength, hend]
      exact hrest

theorem LabelChain.holds (h : LabelChain data pos stop) :
    ∃ labels, (∀ l ∈ labels, 0 < l.length) ∧ (∀ l ∈ labels, l.length ≤ 63) ∧
      Holds data pos (encodeName labels) ∧ stop = pos + (encodeLabels labels).length := by
  induction h with
  | nil zero => exact ⟨[], by simp, by simp, ⟨zero, trivial⟩, rfl⟩
  | @cons pos stop length lawful rest ih =>
      obtain ⟨ls, hpos, hle, hholds, hstop⟩ := ih
      have hlength : ((List.range (data pos).toNat).map fun k => data (pos + 1 + k)).length = (data pos).toNat := by
        rw [List.length_map, List.length_range]
      have hlt : 0 < (data pos).toNat := Nat.pos_of_ne_zero fun h0 => length (BitVec.eq_of_toNat_eq h0)
      refine ⟨((List.range (data pos).toNat).map fun k => data (pos + 1 + k)) :: ls, ?_, ?_, ?_, ?_⟩
      · exact List.forall_mem_cons.mpr ⟨by rwa [hlength], hpos⟩
      · exact List.forall_mem_cons.mpr ⟨by rwa [hlength], hle⟩
      · rw [encodeName_cons, hlength, BitVec.ofNat_toNat, BitVec.setWidth_eq]
        refine ⟨rfl, holds_append.mpr ⟨?_, by rwa [hlength]⟩⟩
        rw [holds_iff, hlength]
        intro k hk
        rw [List.getD_eq_getElem _ _ (by rwa [hlength]), List.getElem_map, List.getElem_range]
      · rw [hstop, encodeLabels, List.length_cons, List.length_append, hlength]
        omega

end LabelChain

theorem toInt_eq_zero_iff {b : Byte} : b.toInt = 0 ↔ b = 0 := by
  rw [← BitVec.toInt_inj]
  rfl

/-! ### How far the loop goes -/

variable {data : Nat → Byte}

theorem pushHost_eq_some {shost shost' : Nat → Byte} {len len' : Nat} {c : Byte}
    (h : pushHost shost len c = some (shost', len')) :
    len' = len + 1 ∧ len' ≤ hostDataLen ∧ ∀ j, len' ≤ j → shost' j = shost j := by
  rw [pushHost] at h
  split at h
  next hlt =>
    cases h
    exact ⟨rfl, hlt, fun j hj => Function.update_of_ne (by omega) ..⟩
  next => cases h

theorem copyLabel_eq_some {tmp pos2 pos2' len len' : Nat} {shost shost' : Nat → Byte}
    (h : copyLabel data tmp pos2 shost len = some (pos2', shost', len')) (hlen : len ≤ hostDataLen) :
    pos2' = pos2 + tmp ∧ len' = len + tmp ∧ len' ≤ hostDataLen ∧ ∀ j, len' ≤ j → shost' j = shost j := by
  induction tmp generalizing pos2 len shost with
  | zero =>
      cases h
      exact ⟨rfl, rfl, hlen, fun j _ => rfl⟩
  | succ tmp ih =>
      simp only [copyLabel, Option.bind_eq_bind, Option.bind_eq_some_iff] at h
      obtain ⟨⟨shost₁, len₁⟩, hpush, h⟩ := h
      obtain ⟨rfl, hle, hkeep⟩ := pushHost_eq_some hpush
      obtain ⟨rfl, rfl, hle', hkeep'⟩ := ih h hle
      exact ⟨by omega, by omega, hle', fun j hj => (hkeep' j hj).trans (hkeep j (by omega))⟩

theorem copyLabel_isSome {tmp len : Nat} (pos2 : Nat) (shost : Nat → Byte) (hlen : len + tmp ≤ hostDataLen) :
    ∃ shost', copyLabel data tmp pos2 shost len = some (pos2 + tmp, shost', len + tmp) := by
  induction tmp generalizing pos2 len shost with
  | zero => exact ⟨shost, rfl⟩
  | succ tmp ih =>
      obtain ⟨shost', h⟩ : ∃ shost', copyLabel data tmp (pos2 + 1) (put shost len [data pos2]) (len + 1) =
          some (pos2 + 1 + tmp, shost', len + 1 + tmp) := ih _ _ (by omega)
      refine ⟨shost', ?_⟩
      rw [copyLabel, pushHost_eq _ (by omega)]
      simp only [Option.bind_eq_bind, Option.bind_some]
      rw [h, show pos2 + 1 + tmp = pos2 + (tmp + 1) by omega, show len + 1 + tmp = len + (tmp + 1) by omega]

/-- Where the loop ends, the chain does, and it has written a byte for each byte of the chain but two. -/
theorem parseLabels_eq_some {fuel pos2 stop len len' : Nat} {shost shost' : Nat → Byte}
    (h : parseLabels data fuel pos2 shost len = some (stop, shost', len')) (hlen : len ≤ hostDataLen) :
    Chain data pos2 stop ∧ len' ≤ hostDataLen ∧ (data pos2 = 0 → len' = len) ∧
      (data pos2 ≠ 0 → len' + pos2 + 1 = len + stop) ∧ ∀ j, len' ≤ j → shost' j = shost j := by
  induction fuel generalizing pos2 len shost with
  | zero => cases h
  | succ fuel ih =>
      rw [parseLabels] at h
      split at h
      next hlength =>
        have hne : data pos2 ≠ 0 := fun h0 => hlength (toInt_eq_zero_iff.mpr h0)
        simp only [Option.bind_eq_bind, Option.bind_eq_some_iff] at h
        obtain ⟨⟨pos₁, shost₁, len₁⟩, hcopy, h⟩ := h
        obtain ⟨rfl, rfl, hle₁, hkeep₁⟩ := copyLabel_eq_some hcopy hlen
        dsimp only at h
        split at h
        next hnext =>
          simp only [Option.bind_eq_some_iff] at h
          obtain ⟨⟨shost₂, len₂⟩, hpush, h⟩ := h
          obtain ⟨rfl, hle₂, hkeep₂⟩ := pushHost_eq_some hpush
          dsimp only at h
          obtain ⟨hchain, hle, -, hcount, hkeep⟩ := ih h hle₂
          have := hcount hnext
          refine ⟨.cons hne hchain, hle, fun h0 => absurd h0 hne, fun _ => by omega, fun j hj => ?_⟩
          have := hchain.lt hnext
          exact (hkeep j hj).trans ((hkeep₂ j (by omega)).trans (hkeep₁ j (by omega)))
        next hzero =>
          obtain ⟨hchain, hle, hsame, -, hkeep⟩ := ih h hle₁
          have hlen' := hsame (not_not.mp hzero)
          have hstop := (Chain.nil (not_not.mp hzero)).unique hchain
          refine ⟨.cons hne hchain, hle, fun h0 => absurd h0 hne, fun _ => by omega, fun j hj => ?_⟩
          rw [hkeep j hj, hkeep₁ j (by omega)]
      next hzero =>
        cases h
        have h0 : data stop = 0 := toInt_eq_zero_iff.mp (not_not.mp hzero)
        exact ⟨.nil h0, hlen, fun _ => rfl, fun hne => absurd h0 hne, fun j _ => rfl⟩

/-- A chain whose bytes but two fit into `shost` is one the loop gets through. -/
theorem Chain.parseLabels {pos2 stop : Nat} (h : Chain data pos2 stop) {fuel len : Nat} (shost : Nat → Byte)
    (hfuel : stop < pos2 + fuel) (hroom : data pos2 ≠ 0 → len + stop ≤ pos2 + 1 + hostDataLen) :
    ∃ shost' len', parseLabels data fuel pos2 shost len = some (stop, shost', len') := by
  induction h generalizing fuel len shost with
  | nil zero =>
      obtain ⟨f, rfl⟩ := Nat.exists_eq_add_of_lt (Nat.pos_of_ne_zero (n := fuel) (by omega))
      exact ⟨shost, len, by rw [Nat.zero_add, Daemon.parseLabels, if_neg (not_not.mpr (toInt_eq_zero_iff.mpr zero))]⟩
  | @cons pos stop length rest ih =>
      obtain ⟨f, rfl⟩ := Nat.exists_eq_add_of_lt (Nat.pos_of_ne_zero (n := fuel) (by have := rest.le; omega))
      have hle := rest.le
      have hfit := hroom length
      obtain ⟨shost₁, hcopy⟩ : ∃ shost₁, copyLabel data (data pos).toInt.toNat (pos + 1) shost len =
          some (pos + 1 + (data pos).toInt.toNat, shost₁, len + (data pos).toInt.toNat) :=
        copyLabel_isSome _ _ (by omega)
      have htest : (data pos).toInt ≠ 0 := fun h0 => length (toInt_eq_zero_iff.mp h0)
      rw [Nat.zero_add, Daemon.parseLabels, if_pos htest, hcopy]
      simp only [Option.bind_eq_bind, Option.bind_some]
      by_cases hnext : data (pos + 1 + (data pos).toInt.toNat) ≠ 0
      · have hlt := rest.lt hnext
        rw [if_pos hnext, pushHost_eq _ (by omega)]
        simp only [Option.bind_some]
        exact ih _ (by omega) (fun _ => by omega)
      · rw [if_neg hnext]
        exact ih _ (by omega) (fun hne => absurd hne hnext)

/-! ### From the header on -/

section Header

variable {node : Node} {fuel stop : Nat}

theorem EntersLoop.loop_eq_some (h : EntersLoop node) {shost : Nat → Byte} {len : Nat}
    (hloop : parseLabels node.data fuel 12 node.shost 0 = some (stop, shost, len)) :
    Chain node.data 12 stop ∧ len + 13 = stop ∧ len ≤ hostDataLen ∧ ∀ j, len ≤ j → shost j = node.shost j := by
  obtain ⟨hchain, hle, -, hcount, hkeep⟩ := parseLabels_eq_some hloop (Nat.zero_le _)
  have := hcount h.first_ne_zero
  exact ⟨hchain, by omega, hle, hkeep⟩

theorem Chain.loop_ends (h : Chain node.data 12 stop) (hstop : stop ≤ 525) (hfuel : stop < 12 + fuel) :
    ∃ shost len, Daemon.parseLabels node.data fuel 12 node.shost 0 = some (stop, shost, len) := by
  apply h.parseLabels node.shost hfuel
  intro _
  rw [hostDataLen]
  omega

end Header

end SimpDserver.Daemon

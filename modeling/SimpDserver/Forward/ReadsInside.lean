import SimpDserver.Forward.Walk

/-!
# Which reads stay inside the datagram

The walk compares its position with the length once a record, and then reads up to the end of the fixed
fields, wherever the owner name ends, and an address behind them. So its reads stay inside what was
received just when no record is cut short before that, and nothing stops them where one is.
-/

namespace SimpDserver.Daemon

open Traced

/-- The datagram from `pos` on. -/
def rest (buff : Int → Byte) (sz : Int) (pos : Nat) : List Byte :=
  (List.range (sz.toNat - pos)).map fun k => buff (pos + k : Nat)

/-- Records none of which is cut short before the end of its fixed fields, up to one with four bytes of data, which
are there. The data of the others may be cut short. -/
inductive WholeRecords : List Byte → Prop
  | done : WholeRecords []
  | address {owner fixed rest : List Byte} {hi lo : Byte} (howner : OwnerBytes owner) (hfixed : fixed.length = 8)
      (hlen : ntohs hi lo = 4) (hrest : 4 ≤ rest.length) : WholeRecords (owner ++ fixed ++ [hi, lo] ++ rest)
  | record {owner fixed rest : List Byte} {hi lo : Byte} (howner : OwnerBytes owner) (hfixed : fixed.length = 8)
      (hlen : ntohs hi lo ≠ 4) (hrest : WholeRecords (rest.drop (ntohs hi lo))) :
      WholeRecords (owner ++ fixed ++ [hi, lo] ++ rest)

/-- An address inside the first `sz` bytes. -/
def InFirst (sz : Int) (a : Int) : Prop := 0 ≤ a ∧ a < sz

/-- `parse_response` returns, and all it reads of the buffer is in the first `sz` bytes. -/
def ReadsInside (s : Forward) (buff : Int → Byte) (sz : Int) (room : Bool) : Prop :=
  ∃ fuel r, (parseResponseTraced fuel s buff sz room).Within (InFirst sz) r

variable {buff : Int → Byte} {sz : Int}

theorem length_rest (pos : Nat) : (rest buff sz pos).length = sz.toNat - pos := by
  rw [rest, List.length_map, List.length_range]

theorem holds_rest (pos : Nat) : Holds (fun k : Nat => buff k) pos (rest buff sz pos) := by
  rw [holds_iff, length_rest]
  intro k hk
  rw [List.getD_eq_getElem _ _ (by rwa [length_rest])]
  simp only [rest, List.getElem_map, List.getElem_range]

theorem drop_rest (pos n : Nat) : (rest buff sz pos).drop n = rest buff sz (pos + n) := by
  apply List.ext_getElem
  · rw [List.length_drop, length_rest, length_rest]
    omega
  · intro k hk hk'
    simp only [rest, List.getElem_drop, List.getElem_map, List.getElem_range]
    rw [Nat.add_assoc]

/-- The bytes in memory at `pos`, as far as they were received, are the first of the rest. -/
theorem rest_eq_append {pos : Nat} {bytes : List Byte} (h : Holds (fun k : Nat => buff k) pos bytes)
    (hle : pos + bytes.length ≤ sz.toNat) : rest buff sz pos = bytes ++ rest buff sz (pos + bytes.length) := by
  apply holds_ext (holds_rest pos) (holds_append.mpr ⟨h, holds_rest _⟩)
  rw [List.length_append, length_rest, length_rest]
  omega

theorem append_of_rest_eq {pos : Nat} {a b : List Byte} (h : rest buff sz pos = a ++ b) :
    Holds (fun k : Nat => buff k) pos a ∧ b = rest buff sz (pos + a.length) ∧ a.length + b.length = sz.toNat - pos := by
  have hholds : Holds _ pos (rest buff sz pos) := holds_rest pos
  have hlength : (rest buff sz pos).length = _ := length_rest pos
  have hdrop : (rest buff sz pos).drop a.length = _ := drop_rest pos a.length
  rw [h] at hholds hlength hdrop
  rw [List.length_append] at hlength
  rw [List.drop_left] at hdrop
  exact ⟨(holds_append.mp hholds).1, hdrop, hlength⟩

/-- Where the walk returns and has read nothing outside, the records are whole. -/
theorem wholeRecords_of_within {fuel pos : Nat} {r : List Int × Option Int × Int}
    (h : (walkTraced buff sz fuel pos).Within (InFirst sz) r) : WholeRecords (rest buff sz pos) := by
  induction fuel generalizing pos r with
  | zero => exact absurd h.1 (Option.some_ne_none r).symm
  | succ fuel ih =>
      rw [walkTraced] at h
      by_cases hend : sz ≤ pos
      · have : rest buff sz pos = [] := by
          rw [← List.length_eq_zero_iff, length_rest]
          omega
        rw [this]
        exact .done
      rw [if_neg hend] at h
      simp only [within_bind, within_touches] at h
      obtain ⟨field, hskip, _, htouch, h⟩ := h
      obtain ⟨owner, howner, hname, rfl⟩ := owner_of_skipOwnerTraced hskip
      have hfield := (htouch _ (List.mem_cons_of_mem _ List.mem_cons_self)).2
      generalize hhi : buff ((pos + owner.length + 8 : Nat) : Int) = hi at h
      generalize hlo : buff (((pos + owner.length + 8 : Nat) : Int) + 1) = lo at h
      obtain ⟨fixed, hfixed, hholds⟩ : ∃ fixed : List Byte, fixed.length = 8 ∧
          Holds (fun k : Nat => buff k) pos (owner ++ fixed ++ [hi, lo]) := by
        refine ⟨(List.range 8).map fun k => buff (pos + owner.length + k : Nat), rfl, ?_⟩
        rw [List.append_assoc, holds_append, holds_append]
        exact ⟨hname, ⟨rfl, rfl, rfl, rfl, rfl, rfl, rfl, rfl, trivial⟩, hhi, hlo, trivial⟩
      have hfront : (owner ++ fixed ++ [hi, lo]).length = _ := length_front hfixed
      have hsplit : rest buff sz pos = _ := rest_eq_append hholds (by omega)
      rw [hsplit]
      by_cases hlen : ntohs hi lo = 4
      · rw [if_pos hlen] at h
        simp only [within_bind, within_touches] at h
        obtain ⟨_, htouch', -⟩ := h
        have hlast := (field_touches.mp htouch' 3 (by omega)).2
        refine .address howner hfixed hlen ?_
        rw [length_rest]
        omega
      · rw [if_neg hlen, within_bind] at h
        obtain ⟨r', hwalk, -⟩ := h
        refine .record howner hfixed hlen ?_
        rw [drop_rest]
        have hnext : ((pos + owner.length + 8 : Nat) : Int) + ntohs hi lo + 2 =
            ((pos + (owner ++ fixed ++ [hi, lo]).length + ntohs hi lo : Nat) : Int) := by
          rw [hfront]
          push_cast
          ring
        rw [hnext] at hwalk
        exact ih hwalk

theorem WholeRecords.within {bytes : List Byte} (h : WholeRecords bytes) {pos fuel : Nat}
    (hrest : rest buff sz pos = bytes) (hfuel : bytes.length < fuel) :
    ∃ r, (walkTraced buff sz fuel pos).Within (InFirst sz) r := by
  induction h generalizing pos fuel with
  | done =>
      obtain ⟨f, rfl⟩ := Nat.exists_eq_add_of_lt hfuel
      have hend : sz ≤ pos := by
        have : (rest buff sz pos).length = _ := length_rest pos
        rw [hrest, List.length_nil] at this
        omega
      exact ⟨_, by rw [List.length_nil, Nat.zero_add, walkTraced, if_pos hend]; exact within_pure.mpr rfl⟩
  | @address owner fixed tail hi lo howner hfixed hlen htail =>
      obtain ⟨f, rfl⟩ : ∃ f, fuel = f + 1 := ⟨fuel - 1, by omega⟩
      have hfront : (owner ++ fixed ++ [hi, lo]).length = _ := length_front hfixed
      obtain ⟨hholds, rfl, hlength⟩ := append_of_rest_eq hrest
      rw [List.length_append] at hfuel
      rw [length_rest] at hlength hfuel htail
      refine ⟨([(pos : Int)], some ((pos + owner.length + 10 : Nat) : Int), ((pos + owner.length + 10 : Nat) : Int)),
        (walkTraced_record howner hfixed hholds (by omega) (by omega) fun k hk => ⟨by omega, by omega⟩).mpr ?_⟩
      rw [if_pos hlen]
      exact ⟨fun k hk => ⟨by omega, by omega⟩, rfl⟩
  | @record owner fixed tail hi lo howner hfixed hlen _ ih =>
      obtain ⟨f, rfl⟩ : ∃ f, fuel = f + 1 := ⟨fuel - 1, by omega⟩
      obtain ⟨hholds, rfl, hlength⟩ := append_of_rest_eq hrest
      have hfront : (owner ++ fixed ++ [hi, lo]).length = _ := length_front hfixed
      rw [drop_rest, length_rest, hfront, ← Nat.add_assoc] at ih
      rw [List.length_append] at hfuel
      rw [length_rest] at hlength hfuel
      obtain ⟨r', hwalk⟩ := ih rfl (show _ < f by omega)
      refine ⟨((pos : Int) :: r'.1, r'.2),
        (walkTraced_record howner hfixed hholds (by omega) (by omega) fun k hk => ⟨by omega, by omega⟩).mpr ?_⟩
      rw [if_neg hlen]
      exact ⟨r', hwalk, rfl⟩

/-! ### The whole of `parse_response` -/

variable {s : Forward} {T : BitVec 32 → List Nat} {q : Query} {id : Nat} {n : Node} {pre post : List Nat}

theorem Pending.wholeRecords (h : Pending s T q id n pre post) (hbuff : buff 0 = q.iden.1 ∧ buff 1 = q.iden.2)
    {room : Bool} (hinside : ReadsInside s buff sz room) :
    2 ≤ sz ∧ WholeRecords (rest buff sz (12 + q.question.length)) := by
  obtain ⟨fuel, r, hwithin⟩ := hinside
  simp only [parseResponseTraced, within_bind, within_touches, within_lift] at hwithin
  obtain ⟨_, hread, ⟨item, s₁, seen⟩, hmatch, n', hn', walked, hwalk, -⟩ := hwithin
  obtain ⟨rfl, hn⟩ := h.of_matchItem (congrArg₂ load16 hbuff.1 hbuff.2) hmatch
  rw [hn, Option.some.injEq] at hn'
  subst hn'
  rw [h.answerPos] at hwalk
  have htwo := (hread 1 (List.mem_cons_of_mem _ List.mem_cons_self)).2
  exact ⟨by omega, wholeRecords_of_within hwalk⟩

theorem Pending.readsInside (h : Pending s T q id n pre post) (hbuff : buff 0 = q.iden.1 ∧ buff 1 = q.iden.2)
    (room : Bool) (htwo : 2 ≤ sz) (hwhole : WholeRecords (rest buff sz (12 + q.question.length))) :
    ReadsInside s buff sz room := by
  obtain ⟨links, seen, hmatch⟩ := h.matchItem (congrArg₂ load16 hbuff.1 hbuff.2)
    (show pre.length < pre.length + (rest buff sz (12 + q.question.length)).length + 1 by omega)
  obtain ⟨r, hwalk⟩ := hwhole.within rfl
    (show _ < pre.length + (rest buff sz (12 + q.question.length)).length + 1 by omega)
  rw [← h.answerPos] at hwalk
  refine ⟨pre.length + (rest buff sz (12 + q.question.length)).length + 1,
    (Forward.finish { s with links := links } (.node id) (storeIpv4 buff n r.2.1) room, seen ++ [.node id]), ?_⟩
  simp only [parseResponseTraced, within_bind, within_touches, within_lift]
  refine ⟨(), ?_, _, hmatch, n, h.node, r, hwalk, within_pure.mpr rfl⟩
  intro a ha
  simp only [List.mem_cons, List.not_mem_nil, or_false] at ha
  exact ⟨by omega, by omega⟩

/-- The reads of `parse_response` for a waiting request stay inside the `sz` bytes received just when the ID is
among these and no record behind the question is cut short. -/
theorem readsInside_iff (h : Pending s T q id n pre post) (hbuff : buff 0 = q.iden.1 ∧ buff 1 = q.iden.2) (sz : Int)
    (room : Bool) : ReadsInside s buff sz room ↔ 2 ≤ sz ∧ WholeRecords (rest buff sz (12 + q.question.length)) :=
  ⟨h.wholeRecords hbuff, fun hwhole => h.readsInside hbuff room hwhole.1 hwhole.2⟩

/-- A header and the question of `Query.single`, before the records. -/
def singlePrefix : List Byte :=
  [0x12, 0x34, 0x81, 0x80, 0, 1, 0, 1, 0, 0, 0, 0, 1, 0x61, 0, 0, 1, 0, 1]

theorem readsInside_iff_single : ∃ s, ReadsInside s
    (inBuffer (singlePrefix ++ [0xc0, 12, 0, 1, 0, 1, 0, 0, 0, 60, 0, 4, 1, 2, 3, 4])) 35 true := by
  obtain ⟨s, T, n, h⟩ := pending_single
  refine ⟨s, (readsInside_iff h ⟨rfl, rfl⟩ 35 true).mpr ⟨by decide, ?_⟩⟩
  have haddress : WholeRecords ([0xc0, 12] ++ [0, 1, 0, 1, 0, 0, 0, 60] ++ [0, 4] ++ [1, 2, 3, 4]) :=
    .address (.pointer rfl) rfl rfl le_rfl
  exact haddress

theorem readsInside_cut : ¬ ∀ (s : Forward) (T : BitVec 32 → List Nat) (q : Query) (id : Nat) (n : Node)
    (pre post : List Nat) (buff : Int → Byte) (sz : Int) (room : Bool), Pending s T q id n pre post →
    buff 0 = q.iden.1 ∧ buff 1 = q.iden.2 → -1 ≤ sz → sz ≤ 2048 → ReadsInside s buff sz room := by
  intro hall
  obtain ⟨s, T, n, h⟩ := pending_single
  have hinside := hall s T _ 0 n [] [] (inBuffer (singlePrefix ++ [0xc0])) 20 true h ⟨rfl, rfl⟩ (by decide) (by decide)
  have hwhole := (h.wholeRecords ⟨rfl, rfl⟩ hinside).2
  rw [show rest (inBuffer (singlePrefix ++ [0xc0])) 20 (12 + (Query.single (0x12, 0x34) 0x61).question.length) = [0xc0]
    from rfl] at hwhole
  generalize hbytes : [(0xc0 : Byte)] = bytes at hwhole
  have hlength := congrArg List.length hbytes
  cases hwhole with
  | done => cases hbytes
  | address _ hfixed => simp [hfixed] at hlength; omega
  | record _ hfixed => simp [hfixed] at hlength; omega

end SimpDserver.Daemon

import SimpDserver.Lib.Traced
import SimpDserver.Forward.Response
import SimpDserver.Work.Query

/-!
# The walk over the records

`parse_response` looks at the first byte of a record, skips its owner name by one of two rules, and goes
on behind its data. Here the walk keeps the addresses it reads and the position it ends at, and one lemma
says what it makes of a record whose owner name it understands.
-/

namespace SimpDserver.Daemon

open Traced

/-! ### The walk with its reads -/

/-- `skipName` with its reads. -/
def skipNameTraced (buff : Int → Byte) : (fuel : Nat) → (pos : Int) → Traced Int Int
  | 0, _ => lift none
  | fuel + 1, pos => do
      touch pos
      if buff pos ≠ 0 then skipNameTraced buff fuel (pos + 1) else pure (pos + 1)

/-- From a record's first byte to its length field. -/
def skipOwnerTraced (buff : Int → Byte) (fuel : Nat) (pos : Int) : Traced Int Int := do
  touch pos
  if isDeflate (buff pos) then pure (pos + 10)
  else do
    let pos ← skipNameTraced buff fuel pos
    pure (pos + 8)

/-- `walk` with its reads, and the value of `pos` when it is over. -/
def walkTraced (buff : Int → Byte) (bufflen : Int) :
    (fuel : Nat) → (pos : Int) → Traced Int (List Int × Option Int × Int)
  | 0, _ => lift none
  | fuel + 1, pos =>
      if bufflen ≤ pos then pure ([], none, pos)
      else do
        let field ← skipOwnerTraced buff fuel pos
        touches [field, field + 1]
        let reslen := ntohs (buff field) (buff (field + 1))
        if reslen = 4 then do
          touches [field + 2, field + 3, field + 4, field + 5]
          pure ([pos], some (field + 2), field + 2)
        else do
          let (visits, stored, stop) ← walkTraced buff bufflen fuel (field + reslen + 2)
          pure (pos :: visits, stored, stop)

/-- `parseResponse` with its reads of the buffer. -/
def parseResponseTraced (fuel : Nat) (s : Forward) (buff : Int → Byte) (bufflen : Int) (room : Bool) :
    Traced Int (Forward × List Ref) := do
  touches [0, 1]
  let (item, s, seen) ← lift (matchItem fuel s buff)
  let node ← lift (s.node item)
  let (_, stored, _) ← walkTraced buff bufflen fuel (answerPos node)
  pure (s.finish item (storeIpv4 buff node stored) room, seen ++ [item])

variable {buff : Int → Byte}

theorem skipNameTraced_result (fuel : Nat) (pos : Int) :
    (skipNameTraced buff fuel pos).result = skipName buff fuel pos := by
  induction fuel generalizing pos with
  | zero => rfl
  | succ fuel ih =>
      rw [skipNameTraced, skipName, result_bind, result_touch, Option.bind_some]
      split
      · exact ih (pos + 1)
      · rfl

theorem skipOwnerTraced_result (fuel : Nat) (pos : Int) :
    (skipOwnerTraced buff fuel pos).result =
      if isDeflate (buff pos) then some (pos + 10) else (skipName buff fuel pos).map (· + 8) := by
  rw [skipOwnerTraced, result_bind, result_touch, Option.bind_some]
  split
  · rfl
  · rw [result_bind, skipNameTraced_result, Option.map_eq_bind]
    rfl

/-- A round of the walk, the same for both forms of the owner name behind it. -/
theorem walk_round {bufflen : Int} {fuel : Nat} {pos : Int} (hpos : ¬bufflen ≤ pos) :
    walk buff bufflen (fuel + 1) pos = (skipOwnerTraced buff fuel pos).result.bind fun field =>
      if ntohs (buff field) (buff (field + 1)) = 4 then some ([pos], some (field + 2))
      else (walk buff bufflen fuel (field + ntohs (buff field) (buff (field + 1)) + 2)).map fun r => (pos :: r.1, r.2) := by
  rw [walk, if_neg hpos, skipOwnerTraced_result]
  simp only [Option.map_eq_bind]
  by_cases hdeflate : isDeflate (buff pos)
  · rw [if_pos hdeflate, if_pos hdeflate]
    rfl
  · rw [if_neg hdeflate, if_neg hdeflate]
    rfl

/-- Without its reads and the position it ends at the walk is the decoder's. -/
theorem walkTraced_result (bufflen : Int) (fuel : Nat) (pos : Int) :
    (walkTraced buff bufflen fuel pos).result.map (fun r => (r.1, r.2.1)) = walk buff bufflen fuel pos := by
  induction fuel generalizing pos with
  | zero => rfl
  | succ fuel ih =>
      by_cases hend : bufflen ≤ pos
      · rw [walkTraced, walk, if_pos hend, if_pos hend]
        rfl
      rw [walkTraced, walk_round hend, if_neg hend, result_bind, Option.map_bind]
      refine congrArg _ (funext fun field => ?_)
      simp only [Function.comp_apply, result_bind, result_touches, Option.bind_some]
      by_cases hlen : ntohs (buff field) (buff (field + 1)) = 4
      · rw [if_pos hlen, if_pos hlen]
        rfl
      · rw [if_neg hlen, if_neg hlen, ← ih, result_bind, Option.map_map, Option.map_bind, Option.map_eq_bind]
        rfl

theorem exists_walkTraced {bufflen : Int} {fuel : Nat} {pos : Int} {visits : List Int} {stored : Option Int}
    (h : walk buff bufflen fuel pos = some (visits, stored)) :
    ∃ stop, (walkTraced buff bufflen fuel pos).result = some (visits, stored, stop) := by
  rw [← walkTraced_result, Option.map_eq_some_iff] at h
  obtain ⟨⟨visits', stored', stop⟩, hwalk, heq⟩ := h
  obtain ⟨rfl, rfl⟩ := by simpa only [Prod.mk.injEq] using heq
  exact ⟨stop, hwalk⟩

/-- More rounds change nothing about a walk that is over. -/
theorem skipName_succ {fuel : Nat} {pos p : Int} (h : skipName buff fuel pos = some p) :
    skipName buff (fuel + 1) pos = some p := by
  induction fuel generalizing pos with
  | zero => cases h
  | succ fuel ih =>
      rw [skipName] at h ⊢
      by_cases hzero : buff pos ≠ 0
      · rw [if_pos hzero] at h ⊢
        exact ih h
      · rw [if_neg hzero] at h ⊢
        exact h

theorem skipOwnerTraced_succ {fuel : Nat} {pos field : Int} (h : (skipOwnerTraced buff fuel pos).result = some field) :
    (skipOwnerTraced buff (fuel + 1) pos).result = some field := by
  rw [skipOwnerTraced_result] at h ⊢
  by_cases hdeflate : isDeflate (buff pos)
  · rw [if_pos hdeflate] at h ⊢
    exact h
  · rw [if_neg hdeflate, Option.map_eq_some_iff] at h ⊢
    obtain ⟨p, hp, hfield⟩ := h
    exact ⟨p, skipName_succ hp, hfield⟩

theorem walk_succ {bufflen : Int} {fuel : Nat} {pos : Int} {r : List Int × Option Int}
    (h : walk buff bufflen fuel pos = some r) : walk buff bufflen (fuel + 1) pos = some r := by
  induction fuel generalizing pos r with
  | zero => cases h
  | succ fuel ih =>
      by_cases hend : bufflen ≤ pos
      · rw [walk, if_pos hend] at h ⊢
        exact h
      rw [walk_round hend, Option.bind_eq_some_iff] at h ⊢
      obtain ⟨field, hfield, h⟩ := h
      refine ⟨field, skipOwnerTraced_succ hfield, ?_⟩
      by_cases hlen : ntohs (buff field) (buff (field + 1)) = 4
      · rw [if_pos hlen] at h ⊢
        exact h
      · rw [if_neg hlen, Option.map_eq_some_iff] at h ⊢
        obtain ⟨r', hr', heq⟩ := h
        exact ⟨r', ih hr', heq⟩

theorem walk_add {bufflen : Int} {fuel : Nat} {pos : Int} {r : List Int × Option Int} (more : Nat)
    (h : walk buff bufflen fuel pos = some r) : walk buff bufflen (fuel + more) pos = some r := by
  induction more with
  | zero => exact h
  | succ more ih => exact walk_succ ih

theorem parseResponseTraced_result (fuel : Nat) (s : Forward) (bufflen : Int) (room : Bool) :
    (parseResponseTraced fuel s buff bufflen room).result = parseResponse fuel s buff bufflen room := by
  apply Option.ext
  intro r
  obtain ⟨s', seen⟩ := r
  rw [parseResponse_eq_some_iff]
  simp only [parseResponseTraced, result_bind, result_touches, result_lift, Option.bind_some,
    Option.bind_eq_some_iff, result_pure, Option.some.injEq, Prod.mk.injEq]
  constructor
  · intro h
    obtain ⟨⟨item, s₁, seen₁⟩, hmatch, n, hn, ⟨visits, stored, stop⟩, hwalk, rfl, rfl⟩ := h
    refine ⟨item, s₁, seen₁, n, visits, stored, hmatch, hn, ?_, rfl, rfl⟩
    rw [← walkTraced_result, hwalk]
    rfl
  · intro h
    obtain ⟨item, s₁, seen₁, n, visits, stored, hmatch, hn, hwalk, rfl, rfl⟩ := h
    obtain ⟨stop, hwalk⟩ := exists_walkTraced hwalk
    exact ⟨_, hmatch, n, hn, _, hwalk, rfl, rfl⟩

/-! ### One record -/

/-- The owner names the walk understands: two bytes that begin like a pointer, or bytes up to the first zero
that do not. -/
inductive OwnerBytes : List Byte → Prop
  | pointer {b b' : Byte} (deflate : isDeflate b) : OwnerBytes [b, b']
  | name {chars : List Byte} (nonzero : ∀ c ∈ chars, c ≠ 0) (plain : ∀ c ∈ (chars ++ [0]).head?, ¬isDeflate c) :
      OwnerBytes (chars ++ [0])

theorem length_front {owner fixed : List Byte} {hi lo : Byte} (hfixed : fixed.length = 8) :
    (owner ++ fixed ++ [hi, lo]).length = owner.length + 10 := by
  rw [List.length_append, List.length_append, hfixed]
  rfl

variable {allowed : Int → Prop}

theorem skipNameTraced_within {chars : List Byte} {pos fuel : Nat} (nonzero : ∀ c ∈ chars, c ≠ 0)
    (hholds : Holds (fun k : Nat => buff k) pos (chars ++ [0])) (hfuel : chars.length < fuel)
    (hallowed : ∀ k ≤ chars.length, allowed (pos + k : Nat)) {p : Int} :
    (skipNameTraced buff fuel pos).Within allowed p ↔ p = (pos + chars.length + 1 : Nat) := by
  induction chars generalizing pos fuel with
  | nil =>
      obtain ⟨f, rfl⟩ := Nat.exists_eq_add_of_lt hfuel
      have hzero : ¬buff pos ≠ 0 := not_not.mpr hholds.1
      have hpos : allowed pos := hallowed 0 le_rfl
      simp only [List.length_nil, Nat.zero_add, skipNameTraced, within_bind, within_touch, if_neg hzero, within_pure, hpos,
        true_and, exists_const, Nat.add_zero, Nat.cast_add, Nat.cast_one, eq_comm]
  | cons c chars ih =>
      obtain ⟨f, rfl⟩ := Nat.exists_eq_add_of_lt hfuel
      rw [List.forall_mem_cons] at nonzero
      have hchar : buff pos = c := hholds.1
      have hpos : allowed pos := hallowed 0 (Nat.zero_le _)
      have hrest : (skipNameTraced buff ((c :: chars).length + f) (pos + 1 : Nat)).Within allowed p ↔
          p = (pos + 1 + chars.length + 1 : Nat) := ih nonzero.2 hholds.2
        (by rw [List.length_cons]; omega) fun k hk => by
          rw [Nat.add_assoc, Nat.add_comm 1 k]
          exact hallowed (k + 1) (by rw [List.length_cons]; omega)
      rw [skipNameTraced, within_bind]
      simp only [within_touch, hpos, true_and, exists_const, hchar, if_pos nonzero.1]
      rw [show (pos : Int) + 1 = (pos + 1 : Nat) from rfl, hrest, List.length_cons,
        show pos + 1 + chars.length + 1 = pos + (chars.length + 1) + 1 by omega]

/-- A name that was skipped ends in its first zero byte, and was read to there. -/
theorem name_of_skipNameTraced {fuel pos : Nat} {p : Int} (h : (skipNameTraced buff fuel pos).Within allowed p) :
    ∃ chars : List Byte, (∀ c ∈ chars, c ≠ 0) ∧ Holds (fun k : Nat => buff k) pos (chars ++ [0]) ∧
      p = (pos + chars.length + 1 : Nat) ∧ ∀ k ≤ chars.length, allowed (pos + k : Nat) := by
  induction fuel generalizing pos with
  | zero => exact absurd h.1 (Option.some_ne_none p).symm
  | succ fuel ih =>
      rw [skipNameTraced, within_bind] at h
      obtain ⟨_, hpos, h⟩ := h
      rw [within_touch] at hpos
      by_cases hzero : buff pos ≠ 0
      · rw [if_pos hzero] at h
        replace h : (skipNameTraced buff fuel (pos + 1 : Nat)).Within allowed p := h
        obtain ⟨chars, nonzero, hholds, rfl, hallowed⟩ := ih h
        refine ⟨buff pos :: chars, List.forall_mem_cons.mpr ⟨hzero, nonzero⟩, ⟨rfl, hholds⟩, ?_, fun k hk => ?_⟩
        · rw [List.length_cons, show pos + 1 + chars.length + 1 = pos + (chars.length + 1) + 1 by omega]
        · cases k with
          | zero => exact hpos
          | succ k =>
              rw [List.length_cons] at hk
              have := hallowed k (by omega)
              rwa [Nat.add_assoc, Nat.add_comm 1 k] at this
      · rw [if_neg hzero, within_pure] at h
        refine ⟨[], by simp, ⟨not_not.mp hzero, trivial⟩, h.symm, fun k hk => ?_⟩
        obtain rfl : k = 0 := Nat.le_zero.mp hk
        exact hpos

theorem skipOwnerTraced_within {owner : List Byte} (howner : OwnerBytes owner) {pos fuel : Nat}
    (hholds : Holds (fun k : Nat => buff k) pos owner) (hfuel : owner.length ≤ fuel)
    (hallowed : ∀ k < owner.length, allowed (pos + k : Nat)) {p : Int} :
    (skipOwnerTraced buff fuel pos).Within allowed p ↔ p = (pos + owner.length + 8 : Nat) := by
  cases howner with
  | @pointer b b' deflate =>
      have hpos : allowed pos := hallowed 0 Nat.zero_lt_two
      have hfirst : isDeflate (buff pos) := by rwa [show buff pos = b from hholds.1]
      simp only [skipOwnerTraced, within_bind, within_touch, hpos, true_and, exists_const]
      rw [if_pos hfirst, within_pure, eq_comm]
      rfl
  | @name chars nonzero plain =>
      rw [List.length_append, List.length_singleton] at hfuel hallowed
      have hpos : allowed pos := hallowed 0 (Nat.succ_pos _)
      have hfirst : ¬isDeflate (buff pos) := by
        apply plain
        cases chars with
        | nil => exact congrArg some hholds.1.symm
        | cons c chars => exact congrArg some hholds.1.symm
      have hread : ∀ k ≤ chars.length, allowed (pos + k : Nat) := fun k hk => hallowed k (Nat.lt_succ_of_le hk)
      have hname : ∀ p : Int, _ := fun p => skipNameTraced_within nonzero hholds hfuel hread (p := p)
      simp only [skipOwnerTraced, within_bind, within_touch, hpos, true_and, exists_const, if_neg hfirst, within_pure,
        List.length_append, List.length_singleton, hname, exists_eq_left]
      rw [eq_comm]
      rfl

/-- An owner name that was skipped is one of these. -/
theorem owner_of_skipOwnerTraced {fuel pos : Nat} {p : Int} (h : (skipOwnerTraced buff fuel pos).Within allowed p) :
    ∃ owner, OwnerBytes owner ∧ Holds (fun k : Nat => buff k) pos owner ∧ p = (pos + owner.length + 8 : Nat) := by
  rw [skipOwnerTraced, within_bind] at h
  obtain ⟨_, -, h⟩ := h
  by_cases hdeflate : isDeflate (buff pos)
  · rw [if_pos hdeflate, within_pure] at h
    exact ⟨[buff pos, buff (pos + 1 : Nat)], .pointer hdeflate, ⟨rfl, rfl, trivial⟩, h.symm⟩
  · rw [if_neg hdeflate, within_bind] at h
    obtain ⟨p', hname, h⟩ := h
    rw [within_pure] at h
    obtain ⟨chars, nonzero, hholds, rfl, -⟩ := name_of_skipNameTraced hname
    refine ⟨chars ++ [0], .name nonzero ?_, hholds, ?_⟩
    · intro c hc
      cases chars with
      | nil =>
          cases hc
          rwa [show buff pos = 0 from hholds.1] at hdeflate
      | cons c' chars =>
          obtain rfl : c' = c := Option.some.inj hc
          rwa [show buff pos = c' from hholds.1] at hdeflate
    · rw [← h, List.length_append, List.length_singleton]
      rfl

theorem field_touches {pos : Nat} :
    (∀ e ∈ [((pos + 8 : Nat) : Int) + 2, ((pos + 8 : Nat) : Int) + 3, ((pos + 8 : Nat) : Int) + 4,
      ((pos + 8 : Nat) : Int) + 5], allowed e) ↔ ∀ k < 4, allowed (pos + 10 + k : Nat) := by
  constructor
  · intro h k hk
    apply h
    simp only [List.mem_cons, List.not_mem_nil, or_false]
    omega
  · intro h e he
    simp only [List.mem_cons, List.not_mem_nil, or_false] at he
    obtain ⟨k, hk, rfl⟩ : ∃ k < 4, e = ((pos + 10 + k : Nat) : Int) := ⟨(e - (pos + 10 : Nat)).toNat, by omega, by omega⟩
    exact h k hk

theorem walkTraced_record {owner fixed : List Byte} {hi lo : Byte} (howner : OwnerBytes owner)
    (hfixed : fixed.length = 8) {pos fuel : Nat} {bufflen : Int}
    (hholds : Holds (fun k : Nat => buff k) pos (owner ++ fixed ++ [hi, lo])) (hpos : (pos : Int) < bufflen)
    (hfuel : owner.length ≤ fuel) (hallowed : ∀ k < owner.length + 10, allowed (pos + k : Nat))
    {r : List Int × Option Int × Int} :
    (walkTraced buff bufflen (fuel + 1) pos).Within allowed r ↔
      if ntohs hi lo = 4 then
        (∀ k < 4, allowed (pos + owner.length + 10 + k : Nat)) ∧
          r = ([(pos : Int)], some ((pos + owner.length + 10 : Nat) : Int), ((pos + owner.length + 10 : Nat) : Int))
      else ∃ r', (walkTraced buff bufflen fuel (pos + owner.length + 10 + ntohs hi lo : Nat)).Within allowed r' ∧
        r = ((pos : Int) :: r'.1, r'.2) := by
  rw [List.append_assoc, holds_append, holds_append, hfixed] at hholds
  obtain ⟨hname, -, hhi, hlo, -⟩ := hholds
  have hread : ∀ k < owner.length, allowed (pos + k : Nat) := fun k hk => hallowed k (by omega)
  have hfield := hallowed (owner.length + 8) (by omega)
  have hfield' := hallowed (owner.length + 9) (by omega)
  have hhi : buff ((pos + owner.length + 8 : Nat) : Int) = hi := hhi
  have hlo : buff (((pos + owner.length + 8 : Nat) : Int) + 1) = lo := hlo
  have htouch : ∀ e ∈ [((pos + owner.length + 8 : Nat) : Int), ((pos + owner.length + 8 : Nat) : Int) + 1], allowed e := by
    simp only [List.forall_mem_cons, List.not_mem_nil, false_imp_iff, implies_true, and_true]
    exact ⟨hfield, hfield'⟩
  rw [walkTraced, if_neg (not_le.mpr hpos), within_bind]
  simp only [skipOwnerTraced_within howner hname hfuel hread, exists_eq_left, within_bind, within_touches, hhi, hlo]
  by_cases hlen : ntohs hi lo = 4
  · rw [if_pos hlen, if_pos hlen]
    simp only [within_bind, within_touches, within_pure, exists_and_left, exists_const, eq_comm, field_touches]
    exact ⟨fun h => ⟨h.2.1, h.2.2⟩, fun h => ⟨htouch, h.1, h.2⟩⟩
  · rw [if_neg hlen, if_neg hlen]
    simp only [within_bind, within_pure, exists_and_left, exists_const, eq_comm]
    have hnext : ((pos + owner.length + 8 : Nat) : Int) + ntohs hi lo + 2 =
        (pos + owner.length + 10 + ntohs hi lo : Nat) := by
      push_cast
      ring
    rw [hnext]
    exact ⟨fun h => h.2, fun h => ⟨htouch, h⟩⟩

/-! ### The request a response is for -/

/-- The request `id` waits, before any other with the query's ID, and its question is as long as the query's. -/
structure Pending (s : Forward) (T : BitVec 32 → List Nat) (q : Query) (id : Nat) (n : Node) (pre post : List Nat) :
    Prop where
  table : Table s T
  split : T (integerHash (load16 q.iden.1 q.iden.2)) = pre ++ id :: post
  node : s.node (.node id) = some n
  iden : n.iden = load16 q.iden.1 q.iden.2
  hostLen : n.hostLen = q.host.length
  first : ∀ a ∈ pre, ∃ n, s.node (.node a) = some n ∧ n.iden ≠ load16 q.iden.1 q.iden.2

section Pending

variable {s : Forward} {T : BitVec 32 → List Nat} {q : Query} {id : Nat} {n : Node} {pre post : List Nat}

theorem Pending.answerPos (h : Pending s T q id n pre post) : answerPos n = (12 + q.question.length : Nat) := by
  rw [Daemon.answerPos, h.hostLen, q.length_question]
  push_cast
  ring

theorem Pending.matchItem (h : Pending s T q id n pre post) (hbuff : load16 (buff 0) (buff 1) = load16 q.iden.1 q.iden.2)
    {fuel : Nat} (hfuel : pre.length < fuel) :
    ∃ links seen, matchItem fuel s buff = some (.node id, { s with links := links }, seen) := by
  have hsplit := h.split
  have hfirst := h.first
  rw [← hbuff] at hsplit hfirst
  obtain ⟨links, hmatch, -⟩ := h.table.matchItem_hit hsplit h.node (h.iden.trans hbuff.symm) hfirst hfuel
  exact ⟨links, _, hmatch⟩

/-- And nothing else, with whatever fuel the loop ends. -/
theorem Pending.of_matchItem (h : Pending s T q id n pre post)
    (hbuff : load16 (buff 0) (buff 1) = load16 q.iden.1 q.iden.2) {fuel : Nat} {item : Ref} {s₁ : Forward}
    {seen : List Ref} (hmatch : Daemon.matchItem fuel s buff = some (item, s₁, seen)) :
    item = .node id ∧ s₁.node (.node id) = some n := by
  obtain ⟨links, seen', hhit⟩ := h.matchItem hbuff (show pre.length < fuel + (pre.length + 1) by omega)
  have heq := (matchItem_add (pre.length + 1) hmatch).symm.trans hhit
  obtain ⟨rfl, rfl, -⟩ := by simpa only [Option.some.injEq, Prod.mk.injEq] using heq
  exact ⟨rfl, h.node⟩

/-- The walk of a call of `parse_response`: the positions it comes to before the end, where the four bytes are that it
stores, if it does, and where it is over. -/
def WalkOf (fuel : Nat) (s : Forward) (buff : Int → Byte) (bufflen : Int) (visits : List Int) (stored : Option Int)
    (stop : Int) : Prop :=
  ∃ item s₁ seen n, Daemon.matchItem fuel s buff = some (item, s₁, seen) ∧ s₁.node item = some n ∧
    (walkTraced buff bufflen fuel (Daemon.answerPos n)).result = some (visits, stored, stop)

/-- Where the walk returns the whole call does, and what it stores is in the request. -/
theorem Pending.parseResponse (h : Pending s T q id n pre post)
    (hbuff : load16 (buff 0) (buff 1) = load16 q.iden.1 q.iden.2) {fuel : Nat} (hfuel : pre.length < fuel) {bufflen : Int}
    {visits : List Int} {stored : Option Int} {stop : Int}
    (hwalk : (walkTraced buff bufflen fuel (12 + q.question.length : Nat)).result = some (visits, stored, stop)) (room : Bool) :
    ∃ s' seen, Daemon.parseResponse fuel s buff bufflen room = some (s', seen) ∧
      WalkOf fuel s buff bufflen visits stored stop ∧ s'.node (.node id) = some (storeIpv4 buff n stored) := by
  obtain ⟨links, seen, hmatch⟩ := h.matchItem hbuff hfuel
  rw [← h.answerPos] at hwalk
  refine ⟨Forward.finish { s with links := links } (.node id) (storeIpv4 buff n stored) room, seen ++ [.node id],
    parseResponse_eq_some_iff.mpr ⟨_, _, _, n, visits, stored, hmatch, h.node, ?_, rfl, rfl⟩,
    ⟨_, _, _, n, hmatch, h.node, hwalk⟩, ?_⟩
  · rw [← walkTraced_result, hwalk]
    rfl
  · rw [Forward.finish_node, Function.update_self]

end Pending

/-- A datagram in a buffer of zeros. -/
def inBuffer (bytes : List Byte) : Int → Byte := fun k => bytes.getD k.toNat 0

theorem holds_inBuffer (bytes : List Byte) : Holds (fun k : Nat => inBuffer bytes k) 0 bytes := by
  rw [holds_iff]
  intro k _
  rw [Nat.zero_add]
  rfl

theorem pending_single : ∃ s T n, Pending s T (Query.single (0x12, 0x34) 0x61) 0 n [] [] := by
  obtain ⟨links, -, hT⟩ := (Table.init (s := Forward.initial fun _ => some ((Query.single (0x12, 0x34) 0x61).parsed 3 ⟨5, 6⟩))
    rfl).gethostaddr (show Forward.node _ (.node 0) = some _ from rfl) rfl fun _ => List.not_mem_nil
  exact ⟨_, _, ((Query.single (0x12, 0x34) 0x61).parsed 3 ⟨5, 6⟩).setRd 2, hT, Function.update_self ..,
    rfl, rfl, rfl, fun a ha => absurd ha List.not_mem_nil⟩

end SimpDserver.Daemon

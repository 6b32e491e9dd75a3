import Mathlib.Tactic

/-!
# Domain name messages

A message as the protocol's specification lays it out: a header of twelve bytes with four counts, then
as many questions and records as the counts say, section by section, and nothing behind them. A name is
a sequence of labels that a zero byte or a pointer to an earlier name ends. Readers take a packet and an
offset; what they read does not change when only the header does, or when bytes are put behind.
-/

namespace DnsMessage

abbrev Byte := BitVec 8

abbrev Label := List Byte

/-- A datagram: its bytes, and how many they are. -/
structure Packet where
  data : Nat → Byte
  size : Nat

def Packet.ofBytes (bytes : List Byte) : Packet := ⟨fun i => bytes.getD i 0, bytes.length⟩

/-- From an offset in a packet, a value and the offset behind it. -/
def Reader (α : Type) : Type := Packet → Nat → Option (α × Nat)

namespace Reader

instance : Monad Reader where
  pure a := fun _ pos => some (a, pos)
  bind r f := fun p pos => (r p pos).bind fun x => f x.1 p x.2

def fail {α : Type} : Reader α := fun _ _ => none

def byte : Reader Byte := fun p pos => if pos < p.size then some (p.data pos, pos + 1) else none

def bytes : Nat → Reader (List Byte)
  | 0 => return []
  | n + 1 => do
      let b ← byte
      let bs ← bytes n
      return b :: bs

/-- Sixteen bits in network order. -/
def u16 : Reader (BitVec 16) := do
  let a ← byte
  let b ← byte
  return a ++ b

/-- Thirty-two bits in network order. -/
def u32 : Reader (BitVec 32) := do
  let a ← u16
  let b ← u16
  return a ++ b

def many {α : Type} (r : Reader α) : Nat → Reader (List α)
  | 0 => return []
  | n + 1 => do
      let a ← r
      let as ← many r n
      return a :: as

/-- Read at another offset and come back. -/
def elsewhere {α : Type} (target : Nat) (r : Reader α) : Reader α :=
  fun p pos => (r p target).map fun x => (x.1, pos)

end Reader

open Reader

def headerSize : Nat := 12

/-- The labels of a name that starts at `start`. A pointer goes behind the header and before the name it
is in. -/
def labels : (fuel : Nat) → (start : Nat) → Reader (List Label)
  | 0, _ => fail
  | fuel + 1, start => do
      let b ← byte
      if b = 0 then return []
      else if b.toNat < 64 then
        let l ← bytes b.toNat
        let ls ← labels fuel start
        return l :: ls
      else if 192 ≤ b.toNat then
        let c ← byte
        let target := (b.toNat - 192) * 256 + c.toNat
        if headerSize ≤ target ∧ target < start then elsewhere target (labels fuel target) else fail
      else fail

/-- The length of a name, written without pointers. -/
def wireLength (ls : List Label) : Nat := (ls.map fun l => l.length + 1).sum + 1

/-- Rounds that no name needs: a pointer goes to a smaller offset of fourteen bits, and no more than 127
labels fit in 255 bytes. -/
def nameRounds : Nat := 2 ^ 14 + 128

def name : Reader (List Label) := fun p pos => do
  let x ← labels nameRounds pos p pos
  if wireLength x.1 ≤ 255 then some x else none

structure Question where
  name : List Label
  qtype : BitVec 16
  qclass : BitVec 16
  deriving DecidableEq

structure Record where
  name : List Label
  type : BitVec 16
  class' : BitVec 16
  ttl : BitVec 32
  rdata : List Byte
  deriving DecidableEq

structure Message where
  iden : BitVec 16
  flags : BitVec 16
  questions : List Question
  answers : List Record
  authority : List Record
  additional : List Record
  deriving DecidableEq

/-- The bit that tells a response from a query. -/
def Message.qr (m : Message) : Bool := m.flags.getLsbD 15

/-- Recursion available. -/
def Message.ra (m : Message) : Bool := m.flags.getLsbD 7

def question : Reader Question := do
  let name ← name
  let qtype ← u16
  let qclass ← u16
  return ⟨name, qtype, qclass⟩

def record : Reader Record := do
  let name ← name
  let type ← u16
  let class' ← u16
  let ttl ← u32
  let rdlength ← u16
  let rdata ← bytes rdlength.toNat
  return ⟨name, type, class', ttl, rdata⟩

/-- The sections behind the header, for its four counts. -/
def sections (qd an ns ar : Nat) : Reader (List Question × List Record × List Record × List Record) := do
  let questions ← many question qd
  let answers ← many record an
  let authority ← many record ns
  let additional ← many record ar
  return (questions, answers, authority, additional)

/-- The message a packet is, if it is one. -/
def decode (p : Packet) : Option Message := do
  let (iden, pos) ← u16 p 0
  let (flags, pos) ← u16 p pos
  let (qd, pos) ← u16 p pos
  let (an, pos) ← u16 p pos
  let (ns, pos) ← u16 p pos
  let (ar, pos) ← u16 p pos
  let (body, pos) ← sections qd.toNat an.toNat ns.toNat ar.toNat p pos
  if pos = p.size then some ⟨iden, flags, body.1, body.2.1, body.2.2.1, body.2.2.2⟩ else none

/-! ### What readers read -/

namespace Reader

variable {α β : Type} {p p' : Packet} {pos next : Nat}

theorem pure_eq (a : α) : (pure a : Reader α) p pos = some (a, pos) := rfl

theorem bind_eq (r : Reader α) (f : α → Reader β) :
    (r >>= f) p pos = (r p pos).bind fun x => f x.1 p x.2 := rfl

theorem bind_eq_some {r : Reader α} {f : α → Reader β} {b : β} :
    (r >>= f) p pos = some (b, next) ↔ ∃ a mid, r p pos = some (a, mid) ∧ f a p mid = some (b, next) := by
  rw [bind_eq, Option.bind_eq_some_iff, Prod.exists]

theorem pure_eq_some {a b : α} : (pure a : Reader α) p pos = some (b, next) ↔ a = b ∧ pos = next := by
  rw [pure_eq, Option.some.injEq, Prod.mk.injEq]

theorem byte_eq (h : pos < p.size) : byte p pos = some (p.data pos, pos + 1) := if_pos h

theorem byte_eq_some {b : Byte} :
    byte p pos = some (b, next) ↔ pos < p.size ∧ p.data pos = b ∧ pos + 1 = next := by
  rw [byte]
  split <;> simp [*]

theorem u16_eq (h : pos + 1 < p.size) : u16 p pos = some (p.data pos ++ p.data (pos + 1), pos + 2) := by
  simp only [u16, bind_eq, byte_eq (Nat.lt_of_succ_lt h), byte_eq h, Option.bind_some, pure_eq]

theorem u16_eq_some {v : BitVec 16} (h : u16 p pos = some (v, next)) : pos + 2 = next ∧ next ≤ p.size := by
  simp only [u16, bind_eq_some, byte_eq_some, pure_eq_some] at h
  obtain ⟨_, _, ⟨_, _, rfl⟩, _, _, ⟨_, _, rfl⟩, _, rfl⟩ := h
  omega

theorem u32_eq_some {v : BitVec 32} (h : u32 p pos = some (v, next)) : pos + 4 = next := by
  simp only [u32, bind_eq_some, pure_eq_some] at h
  obtain ⟨_, _, hhigh, _, _, hlow, _, rfl⟩ := h
  have := u16_eq_some hhigh
  have := u16_eq_some hlow
  omega

theorem bytes_eq_some {n : Nat} {bs : List Byte} (h : bytes n p pos = some (bs, next)) :
    bs.length = n ∧ pos + n = next := by
  induction n generalizing pos bs with
  | zero =>
      obtain ⟨rfl, rfl⟩ := pure_eq_some.mp h
      exact ⟨rfl, rfl⟩
  | succ n ih =>
      simp only [bytes, bind_eq_some, byte_eq_some, pure_eq_some] at h
      obtain ⟨_, _, ⟨_, _, rfl⟩, tail, _, htail, rfl, rfl⟩ := h
      obtain ⟨hlength, rfl⟩ := ih htail
      exact ⟨congrArg (· + 1) hlength, by omega⟩

theorem length_of_many {r : Reader α} {n : Nat} {as : List α} (h : many r n p pos = some (as, next)) :
    as.length = n := by
  induction n generalizing pos as with
  | zero =>
      obtain ⟨rfl, rfl⟩ := pure_eq_some.mp h
      rfl
  | succ n ih =>
      simp only [many, bind_eq_some, pure_eq_some] at h
      obtain ⟨_, _, _, tail, _, htail, rfl, rfl⟩ := h
      exact congrArg (· + 1) (ih htail)

/-- `p'` is `p` with another header perhaps, and bytes behind. -/
structure Extends (p p' : Packet) : Prop where
  size_le : p.size ≤ p'.size
  data_eq : ∀ i, headerSize ≤ i → i < p.size → p'.data i = p.data i

/-- What the reader reads behind the header it reads in every extension. -/
def Stable (r : Reader α) : Prop :=
  ∀ ⦃p p' : Packet⦄ ⦃pos next : Nat⦄ ⦃a : α⦄, Extends p p' → headerSize ≤ pos → r p pos = some (a, next) →
    r p' pos = some (a, next) ∧ pos ≤ next

theorem Stable.pure (a : α) : Stable (pure a : Reader α) := by
  intro p p' pos next b _ _ h
  obtain ⟨rfl, rfl⟩ := pure_eq_some.mp h
  exact ⟨rfl, le_rfl⟩

theorem Stable.fail : Stable (fail : Reader α) := by
  intro p p' pos next a _ _ h
  exact absurd h.symm (Option.some_ne_none _)

theorem Stable.bind {r : Reader α} {f : α → Reader β} (hr : Stable r) (hf : ∀ a, Stable (f a)) :
    Stable (r >>= f) := by
  intro p p' pos next b hext hpos h
  obtain ⟨a, mid, hfirst, hsecond⟩ := bind_eq_some.mp h
  obtain ⟨hfirst', hmid⟩ := hr hext hpos hfirst
  obtain ⟨hsecond', hnext⟩ := hf a hext (hpos.trans hmid) hsecond
  exact ⟨bind_eq_some.mpr ⟨a, mid, hfirst', hsecond'⟩, hmid.trans hnext⟩

theorem Stable.byte : Stable byte := by
  intro p p' pos next b hext hpos h
  obtain ⟨hlt, rfl, rfl⟩ := byte_eq_some.mp h
  exact ⟨byte_eq_some.mpr ⟨hlt.trans_le hext.size_le, hext.data_eq pos hpos hlt, rfl⟩, Nat.le_succ pos⟩

theorem Stable.bytes (n : Nat) : Stable (bytes n) := by
  induction n with
  | zero => exact .pure []
  | succ n ih => exact .bind .byte fun b => .bind ih fun bs => .pure (b :: bs)

theorem Stable.u16 : Stable u16 := .bind .byte fun a => .bind .byte fun b => .pure (a ++ b)

theorem Stable.u32 : Stable u32 := .bind .u16 fun a => .bind .u16 fun b => .pure (a ++ b)

theorem Stable.many {r : Reader α} (hr : Stable r) (n : Nat) : Stable (many r n) := by
  induction n with
  | zero => exact .pure []
  | succ n ih => exact .bind hr fun a => .bind ih fun as => .pure (a :: as)

theorem Stable.elsewhere {r : Reader α} {target : Nat} (hr : Stable r) (htarget : headerSize ≤ target) :
    Stable (elsewhere target r) := by
  intro p p' pos next a hext _ h
  obtain ⟨⟨b, mid⟩, hread, heq⟩ := Option.map_eq_some_iff.mp h
  obtain ⟨rfl, rfl⟩ := Prod.mk.injEq .. ▸ heq
  exact ⟨Option.map_eq_some_iff.mpr ⟨(b, mid), (hr hext htarget hread).1, rfl⟩, le_rfl⟩

end Reader

/-! ### Names -/

theorem labels_stable (fuel start : Nat) : Stable (labels fuel start) := by
  induction fuel generalizing start with
  | zero => exact .fail
  | succ fuel ih =>
      apply Stable.bind .byte
      intro b
      by_cases hzero : b = 0
      · rw [if_pos hzero]
        exact .pure []
      rw [if_neg hzero]
      by_cases hlabel : b.toNat < 64
      · rw [if_pos hlabel]
        exact .bind (.bytes _) fun l => .bind (ih start) fun ls => .pure (l :: ls)
      rw [if_neg hlabel]
      by_cases hpointer : 192 ≤ b.toNat
      · rw [if_pos hpointer]
        apply Stable.bind .byte
        intro c
        by_cases htarget : headerSize ≤ (b.toNat - 192) * 256 + c.toNat ∧ (b.toNat - 192) * 256 + c.toNat < start
        · rw [if_pos htarget]
          exact .elsewhere (ih _) htarget.1
        · rw [if_neg htarget]
          exact .fail
      · rw [if_neg hpointer]
        exact .fail

/-- One round of the labels, by what the first byte says. -/
theorem labels_cases {fuel start : Nat} {p : Packet} {pos next : Nat} {ls : List Label}
    (h : labels (fuel + 1) start p pos = some (ls, next)) :
    (pos < p.size ∧ p.data pos = 0 ∧ ls = [] ∧ next = pos + 1) ∨
    (∃ l ls', pos < p.size ∧ p.data pos ≠ 0 ∧ (p.data pos).toNat < 64 ∧
      bytes (p.data pos).toNat p (pos + 1) = some (l, pos + 1 + (p.data pos).toNat) ∧
      labels fuel start p (pos + 1 + (p.data pos).toNat) = some (ls', next) ∧ ls = l :: ls') ∨
    (∃ target, headerSize ≤ target ∧ target < start ∧ next = pos + 2 ∧
      (labels fuel target p target).isSome) := by
  simp only [labels, bind_eq_some, byte_eq_some] at h
  obtain ⟨b, mid, ⟨hlt, rfl, rfl⟩, h⟩ := h
  by_cases hzero : p.data pos = 0
  · rw [if_pos hzero, pure_eq_some] at h
    exact Or.inl ⟨hlt, hzero, h.1.symm, h.2.symm⟩
  rw [if_neg hzero] at h
  by_cases hlabel : (p.data pos).toNat < 64
  · rw [if_pos hlabel] at h
    simp only [bind_eq_some, pure_eq_some] at h
    obtain ⟨l, mid, hl, ls', mid', hls, rfl, rfl⟩ := h
    obtain ⟨-, rfl⟩ := bytes_eq_some hl
    exact Or.inr (Or.inl ⟨l, ls', hlt, hzero, hlabel, hl, hls, rfl⟩)
  rw [if_neg hlabel] at h
  split at h
  · simp only [bind_eq_some, byte_eq_some] at h
    obtain ⟨c, mid, ⟨-, rfl, rfl⟩, h⟩ := h
    split at h
    next htarget =>
      obtain ⟨x, hx, heq⟩ := Option.map_eq_some_iff.mp h
      exact Or.inr (Or.inr ⟨_, htarget.1, htarget.2, (congrArg Prod.snd heq).symm, Option.isSome_of_eq_some hx⟩)
    next => exact absurd h.symm (Option.some_ne_none _)
  · exact absurd h.symm (Option.some_ne_none _)

/-- A name takes no more room than written without pointers, but for the second byte of one. -/
theorem le_of_labels {fuel start : Nat} {p : Packet} {pos next : Nat} {ls : List Label}
    (h : labels fuel start p pos = some (ls, next)) : next ≤ pos + wireLength ls + 1 := by
  induction fuel generalizing pos ls with
  | zero => exact absurd h.symm (Option.some_ne_none _)
  | succ fuel ih =>
      rcases labels_cases h with ⟨-, -, rfl, rfl⟩ | ⟨l, ls', -, -, -, hl, hls, rfl⟩ | ⟨_, -, -, rfl, -⟩
      · omega
      · have hlength := (bytes_eq_some hl).1
        have := ih hls
        simp only [wireLength, List.map_cons, List.sum_cons] at this ⊢
        omega
      · simp only [wireLength]
        omega

/-- A name right behind the header has no pointer, and so needs no more rounds than it has labels. -/
theorem labels_of_first {fuel fuel' start : Nat} {p : Packet} {pos next : Nat} {ls : List Label}
    (h : labels fuel start p pos = some (ls, next)) (hstart : start ≤ headerSize) (hfuel : ls.length < fuel') :
    labels fuel' start p pos = some (ls, next) := by
  induction fuel generalizing fuel' pos ls with
  | zero => exact absurd h.symm (Option.some_ne_none _)
  | succ fuel ih =>
      obtain ⟨f, rfl⟩ := Nat.exists_eq_add_of_lt hfuel
      rcases labels_cases h with ⟨hlt, hzero, rfl, rfl⟩ | ⟨l, ls', hlt, hzero, hlabel, hl, hls, rfl⟩ |
        ⟨_, hlow, hhigh, -, -⟩
      · rw [labels, bind_eq, byte_eq hlt, Option.bind_some, if_pos hzero, pure_eq]
      · have hrest : labels (ls'.length + 1 + f) start p _ = some (ls', next) := ih hls (by omega)
        rw [List.length_cons, labels, bind_eq, byte_eq hlt, Option.bind_some, if_neg hzero, if_pos hlabel]
        simp only [bind_eq, hl, Option.bind_some, hrest, pure_eq]
      · omega

theorem name_eq_some {p : Packet} {pos next : Nat} {ls : List Label} :
    name p pos = some (ls, next) ↔ labels nameRounds pos p pos = some (ls, next) ∧ wireLength ls ≤ 255 := by
  simp only [name, Option.bind_eq_bind, Option.bind_eq_some_iff]
  constructor
  · intro h
    obtain ⟨x, hx, h⟩ := h
    split at h
    next hle =>
      cases h
      exact ⟨hx, hle⟩
    next => exact absurd h.symm (Option.some_ne_none _)
  · intro h
    obtain ⟨h, hle⟩ := h
    exact ⟨_, h, if_pos hle⟩

theorem name_stable : Stable name := by
  intro p p' pos next ls hext hpos h
  obtain ⟨hlabels, hle⟩ := name_eq_some.mp h
  obtain ⟨hlabels', hnext⟩ := labels_stable _ _ hext hpos hlabels
  exact ⟨name_eq_some.mpr ⟨hlabels', hle⟩, hnext⟩

theorem length_le_wireLength (ls : List Label) : ls.length < wireLength ls := by
  induction ls with
  | nil => simp [wireLength]
  | cons l ls ih =>
      simp only [wireLength, List.map_cons, List.sum_cons, List.length_cons] at ih ⊢
      omega

theorem labels_of_pointer {fuel start target : Nat} {p : Packet} {pos next : Nat} {ls : List Label}
    (h : labels fuel target p target = some (ls, next)) (hsize : pos + 1 < p.size) (hpointer : 192 ≤ (p.data pos).toNat)
    (htarget : ((p.data pos).toNat - 192) * 256 + (p.data (pos + 1)).toNat = target)
    (hbehind : headerSize ≤ target) (hbefore : target < start) :
    labels (fuel + 1) start p pos = some (ls, pos + 2) := by
  have hzero : p.data pos ≠ 0 := by
    intro hzero
    rw [hzero] at hpointer
    exact absurd hpointer (by decide)
  rw [labels, bind_eq, byte_eq (Nat.lt_of_succ_lt hsize), Option.bind_some, if_neg hzero,
    if_neg (not_lt.mpr (le_trans (by decide) hpointer)), if_pos hpointer, bind_eq, byte_eq hsize,
    Option.bind_some, htarget, if_pos ⟨hbehind, hbefore⟩]
  exact Option.map_eq_some_iff.mpr ⟨_, h, rfl⟩

theorem name_of_pointer {p : Packet} {pos next : Nat} {ls : List Label} (hname : name p headerSize = some (ls, next))
    (hpos : headerSize < pos) (hsize : pos + 1 < p.size) (hhigh : p.data pos = 0xc0) (hlow : p.data (pos + 1) = 12) :
    name p pos = some (ls, pos + 2) := by
  obtain ⟨hlabels, hle⟩ := name_eq_some.mp hname
  have hlength := length_le_wireLength ls
  have hfirst : labels (2 ^ 14 + 127) headerSize p headerSize = some (ls, next) :=
    labels_of_first hlabels le_rfl (by omega)
  refine name_eq_some.mpr ⟨labels_of_pointer hfirst hsize ?_ ?_ le_rfl hpos, hle⟩
  · rw [hhigh]
    decide
  · rw [hhigh, hlow]
    rfl

theorem question_stable : Stable question :=
  .bind name_stable fun ls => .bind .u16 fun qtype => .bind .u16 fun qclass => .pure (Question.mk ls qtype qclass)

theorem record_stable : Stable record :=
  .bind name_stable fun ls => .bind .u16 fun type => .bind .u16 fun class' => .bind .u32 fun ttl =>
    .bind .u16 fun rdlength => .bind (.bytes rdlength.toNat) fun rdata => .pure (Record.mk ls type class' ttl rdata)

theorem sections_stable (qd an ns ar : Nat) : Stable (sections qd an ns ar) :=
  .bind (question_stable.many qd) fun questions => .bind (record_stable.many an) fun answers =>
    .bind (record_stable.many ns) fun authority => .bind (record_stable.many ar) fun additional =>
      .pure (questions, answers, authority, additional)

/-! ### Messages -/

/-- Two bytes of a packet, in network order. -/
def Packet.word (p : Packet) (i : Nat) : BitVec 16 := p.data i ++ p.data (i + 1)

theorem decode_eq_some {p : Packet} {m : Message} : decode p = some m ↔
    headerSize ≤ p.size ∧ m.iden = p.word 0 ∧ m.flags = p.word 2 ∧
      sections (p.word 4).toNat (p.word 6).toNat (p.word 8).toNat (p.word 10).toNat p headerSize =
        some ((m.questions, m.answers, m.authority, m.additional), p.size) := by
  by_cases hsize : headerSize ≤ p.size
  · have hword : ∀ i, i + 1 < headerSize → u16 p i = some (p.word i, i + 2) := fun i hi =>
      u16_eq (hi.trans_le hsize)
    simp only [decode, hword 0 (by decide), hword 2 (by decide), hword 4 (by decide), hword 6 (by decide),
      hword 8 (by decide), hword 10 (by decide), Nat.zero_add, Nat.reduceAdd, Option.bind_eq_bind, Option.bind_some,
      Option.bind_eq_some_iff, hsize, true_and]
    constructor
    · intro h
      obtain ⟨⟨⟨questions, answers, authority, additional⟩, pos⟩, hbody, h⟩ := h
      obtain ⟨rfl, h⟩ := Option.ite_none_right_eq_some.mp h
      cases h
      exact ⟨rfl, rfl, hbody⟩
    · obtain ⟨iden, flags, questions, answers, authority, additional⟩ := m
      intro h
      obtain ⟨rfl, rfl, hbody⟩ := h
      exact ⟨_, hbody, if_pos rfl⟩
  · refine ⟨fun h => ?_, fun h => absurd h.1 hsize⟩
    simp only [decode, Option.bind_eq_bind, Option.bind_eq_some_iff] at h
    obtain ⟨x₀, h₀, x₂, h₂, x₄, h₄, x₆, h₆, x₈, h₈, x₁₀, h₁₀, -⟩ := h
    have e₀ := u16_eq_some h₀
    have e₂ := u16_eq_some h₂
    have e₄ := u16_eq_some h₄
    have e₆ := u16_eq_some h₆
    have e₈ := u16_eq_some h₈
    have e₁₀ := u16_eq_some h₁₀
    simp only [headerSize] at hsize
    omega

theorem sections_eq_some {qd an ns ar : Nat} {p : Packet} {pos next : Nat} {questions : List Question}
    {answers authority additional : List Record} :
    sections qd an ns ar p pos = some ((questions, answers, authority, additional), next) ↔
      ∃ pos₁ pos₂ pos₃, many question qd p pos = some (questions, pos₁) ∧
        many record an p pos₁ = some (answers, pos₂) ∧ many record ns p pos₂ = some (authority, pos₃) ∧
        many record ar p pos₃ = some (additional, next) := by
  simp only [sections, bind_eq_some, pure_eq_some, Prod.mk.injEq]
  constructor
  · intro h
    obtain ⟨_, pos₁, h₁, _, pos₂, h₂, _, pos₃, h₃, _, _, h₄, ⟨rfl, rfl, rfl, rfl⟩, rfl⟩ := h
    exact ⟨pos₁, pos₂, pos₃, h₁, h₂, h₃, h₄⟩
  · intro h
    obtain ⟨pos₁, pos₂, pos₃, h₁, h₂, h₃, h₄⟩ := h
    exact ⟨_, pos₁, h₁, _, pos₂, h₂, _, pos₃, h₃, _, _, h₄, ⟨rfl, rfl, rfl, rfl⟩, rfl⟩

namespace Reader

theorem many_add {α : Type} {r : Reader α} {a b : Nat} {p : Packet} {pos next : Nat} {xs : List α} :
    many r (a + b) p pos = some (xs, next) ↔
      ∃ ys zs mid, many r a p pos = some (ys, mid) ∧ many r b p mid = some (zs, next) ∧ xs = ys ++ zs := by
  induction a generalizing pos xs with
  | zero =>
      simp only [Nat.zero_add, many, pure_eq_some]
      constructor
      · intro h
        exact ⟨[], xs, pos, ⟨rfl, rfl⟩, h, rfl⟩
      · intro h
        obtain ⟨_, _, _, ⟨rfl, rfl⟩, h, rfl⟩ := h
        exact h
  | succ a ih =>
      rw [Nat.add_right_comm]
      simp only [many, bind_eq_some, pure_eq_some]
      constructor
      · intro h
        obtain ⟨x, pos₁, hx, rest, _, hrest, rfl, rfl⟩ := h
        obtain ⟨ys, zs, mid, hys, hzs, rfl⟩ := ih.mp hrest
        exact ⟨x :: ys, zs, mid, ⟨x, pos₁, hx, ys, mid, hys, rfl, rfl⟩, hzs, rfl⟩
      · intro h
        obtain ⟨_, zs, mid, ⟨x, pos₁, hx, ys, _, hys, rfl, rfl⟩, hzs, rfl⟩ := h
        exact ⟨x, pos₁, hx, ys ++ zs, next, ih.mpr ⟨ys, zs, _, hys, hzs, rfl⟩, rfl, rfl⟩

theorem many_one {α : Type} {r : Reader α} {p : Packet} {pos next : Nat} {xs : List α} :
    many r 1 p pos = some (xs, next) ↔ ∃ x, r p pos = some (x, next) ∧ xs = [x] := by
  simp only [many, bind_eq_some, pure_eq_some]
  constructor
  · intro h
    obtain ⟨x, _, hx, _, _, ⟨rfl, rfl⟩, rfl, rfl⟩ := h
    exact ⟨x, hx, rfl⟩
  · intro h
    obtain ⟨x, hx, rfl⟩ := h
    exact ⟨x, next, hx, [], next, ⟨rfl, rfl⟩, rfl, rfl⟩

end Reader

theorem record_of_pointer {p : Packet} {pos next n : Nat} {ls : List Label} {rdata : List Byte}
    (hname : name p headerSize = some (ls, next)) (hpos : headerSize < pos) (hhigh : p.data pos = 0xc0)
    (hlow : p.data (pos + 1) = 12) (hlength : (p.word (pos + 10)).toNat = n)
    (hrdata : bytes n p (pos + 12) = some (rdata, pos + 12 + n)) (hsize : pos + 12 ≤ p.size) :
    record p pos = some (⟨ls, p.word (pos + 2), p.word (pos + 4), p.word (pos + 6) ++ p.word (pos + 8), rdata⟩,
      pos + 12 + n) := by
  have hword : ∀ i, i + 1 < p.size → u16 p i = some (p.word i, i + 2) := fun i hi => u16_eq hi
  simp only [record, u32, bind_eq, name_of_pointer hname hpos (by omega) hhigh hlow, hword _ (show pos + 2 + 1 < _ by omega),
    hword _ (show pos + 4 + 1 < _ by omega), hword _ (show pos + 6 + 1 < _ by omega),
    hword _ (show pos + 8 + 1 < _ by omega), hword _ (show pos + 10 + 1 < _ by omega), add_assoc, Nat.reduceAdd,
    Option.bind_some, pure_eq, hlength]
  rw [add_assoc] at hrdata
  rw [hrdata]
  rfl

theorem le_of_record {p : Packet} {pos next : Nat} {r : Record} (h : record p pos = some (r, next)) :
    wireLength r.name ≤ 255 ∧ next ≤ pos + wireLength r.name + 11 + r.rdata.length := by
  simp only [record, bind_eq_some, pure_eq_some] at h
  obtain ⟨ls, pos₁, hname, _, pos₂, htype, _, pos₃, hclass, _, pos₄, httl, _, pos₅, hlength, rdata, pos₆, hrdata, rfl,
    rfl⟩ := h
  obtain ⟨hlabels, hle⟩ := name_eq_some.mp hname
  have hlabels := le_of_labels hlabels
  have htype := u16_eq_some htype
  have hclass := u16_eq_some hclass
  have httl := u32_eq_some httl
  have hlength := u16_eq_some hlength
  have hrdata := bytes_eq_some hrdata
  refine ⟨hle, ?_⟩
  dsimp only
  omega

/-- A question is a name and four bytes. -/
theorem question_eq_some {p : Packet} {pos next : Nat} {q : Question} (h : question p pos = some (q, next)) :
    ∃ mid, name p pos = some (q.name, mid) ∧ mid + 4 = next ∧ next ≤ p.size := by
  simp only [question, bind_eq_some, pure_eq_some] at h
  obtain ⟨ls, pos₁, hname, _, pos₂, htype, _, pos₃, hclass, rfl, rfl⟩ := h
  have htype := u16_eq_some htype
  have hclass := u16_eq_some hclass
  exact ⟨pos₁, hname, by omega, hclass.2⟩

theorem le_of_question {p : Packet} {pos next : Nat} {q : Question} (h : question p pos = some (q, next)) :
    next ≤ pos + 260 ∧ next ≤ p.size := by
  obtain ⟨mid, hname, hnext, hsize⟩ := question_eq_some h
  obtain ⟨hlabels, hle⟩ := name_eq_some.mp hname
  have hlabels := le_of_labels hlabels
  omega

theorem name_of_question {p : Packet} {next : Nat} {q : Question} (h : question p headerSize = some (q, next)) :
    headerSize < next ∧ ∃ mid, name p headerSize = some (q.name, mid) := by
  obtain ⟨mid, hname, hnext, -⟩ := question_eq_some h
  have hpos := (@name_stable p p _ _ _ ⟨le_rfl, fun _ _ _ => rfl⟩ le_rfl hname).2
  exact ⟨by omega, mid, hname⟩

end DnsMessage

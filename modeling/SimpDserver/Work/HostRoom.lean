import SimpDserver.Forward.Response
import SimpDserver.Hashmap.Strings
import SimpDserver.Work.LabelLoop

/-!
# Room for the host

The loop over the labels compares neither cursor with anything. Its reads stay inside the request, and
its writes inside `shost`, just when the chain of length bytes ends early enough; a datagram may make it
longer than that, by labels of lawful length as well as by others.
-/

namespace SimpDserver.Daemon

open Traced

/-- An access of the loop: a read through `pos2`, as an offset into `data.request`, or a write through `h`,
as an offset into `shost`. -/
inductive Touch where
  | read (pos : Nat)
  | write (pos : Nat)

def Touch.inside : Touch → Prop
  | .read pos => pos < reqDataLen
  | .write pos => pos < hostDataLen

/-! ### The loop with its accesses -/

/-- `copyLabel` with its accesses. A write outside `shost` is noted and is the last. -/
def copyLabelTraced (data : Nat → Byte) : (tmp : Nat) → (pos2 : Nat) → (shost : Nat → Byte) → (len : Nat) →
    Traced Touch (Nat × (Nat → Byte) × Nat)
  | 0, pos2, shost, len => pure (pos2, shost, len)
  | tmp + 1, pos2, shost, len => do
      touch (.read pos2)
      touch (.write len)
      let (shost, len) ← lift (pushHost shost len (data pos2))
      copyLabelTraced data tmp (pos2 + 1) shost len

/-- `parseLabels` with its accesses. -/
def parseLabelsTraced (data : Nat → Byte) : (fuel : Nat) → (pos2 : Nat) → (shost : Nat → Byte) → (len : Nat) →
    Traced Touch (Nat × (Nat → Byte) × Nat)
  | 0, _, _, _ => lift none
  | fuel + 1, pos2, shost, len => do
      touch (.read pos2)
      let tmp := (data pos2).toInt
      if tmp ≠ 0 then do
        let (pos2, shost, len) ← copyLabelTraced data tmp.toNat (pos2 + 1) shost len
        touch (.read pos2)
        if data pos2 ≠ 0 then do
          touch (.write len)
          let (shost, len) ← lift (pushHost shost len 0x2e)
          parseLabelsTraced data fuel pos2 shost len
        else parseLabelsTraced data fuel pos2 shost len
      else pure (pos2, shost, len)

variable {data : Nat → Byte}

theorem copyLabelTraced_result (tmp pos2 : Nat) (shost : Nat → Byte) (len : Nat) :
    (copyLabelTraced data tmp pos2 shost len).result = copyLabel data tmp pos2 shost len := by
  induction tmp generalizing pos2 shost len with
  | zero => rfl
  | succ tmp ih => simp only [copyLabelTraced, copyLabel, result_bind, result_touch, result_lift, Option.bind_some, ih,
      Option.bind_eq_bind]

theorem parseLabelsTraced_result (fuel pos2 : Nat) (shost : Nat → Byte) (len : Nat) :
    (parseLabelsTraced data fuel pos2 shost len).result = parseLabels data fuel pos2 shost len := by
  induction fuel generalizing pos2 shost len with
  | zero => rfl
  | succ fuel ih =>
      rw [parseLabelsTraced, parseLabels]
      simp only [result_bind, result_touch, Option.bind_some]
      by_cases htmp : (data pos2).toInt ≠ 0
      · rw [if_pos htmp, if_pos htmp]
        simp only [result_bind, copyLabelTraced_result, result_touch, Option.bind_some, Option.bind_eq_bind]
        refine congrArg _ (funext fun r => ?_)
        by_cases hnext : data r.1 ≠ 0
        · simp only [if_pos hnext, result_bind, result_touch, result_lift, Option.bind_some, ih]
        · simp only [if_neg hnext, ih]
      · rw [if_neg htmp, if_neg htmp]
        rfl

/-- Reads up to `stop`, and writes before `len`. -/
def Touch.upTo (stop len : Nat) : Touch → Prop
  | .read pos => pos ≤ stop
  | .write pos => pos < len

theorem Touch.upTo_mono {stop stop' len len' : Nat} (hstop : stop ≤ stop') (hlen : len ≤ len') {t : Touch}
    (h : t.upTo stop len) : t.upTo stop' len' := by
  cases t with
  | read pos => exact le_trans h hstop
  | write pos => exact lt_of_lt_of_le h hlen

theorem copyLabelTraced_within {tmp pos2 pos2' len len' : Nat} {shost shost' : Nat → Byte}
    (h : copyLabel data tmp pos2 shost len = some (pos2', shost', len')) (hlen : len ≤ hostDataLen) :
    (copyLabelTraced data tmp pos2 shost len).Within (Touch.upTo pos2' len') (pos2', shost', len') := by
  induction tmp generalizing pos2 len shost with
  | zero =>
      cases h
      exact within_pure.mpr rfl
  | succ tmp ih =>
      simp only [copyLabel, Option.bind_eq_bind, Option.bind_eq_some_iff] at h
      obtain ⟨⟨shost₁, len₁⟩, hpush, h⟩ := h
      obtain ⟨hlen₁, hle, -⟩ := pushHost_eq_some hpush
      obtain ⟨hpos, hcount, -⟩ := copyLabel_eq_some h hle
      simp only [copyLabelTraced, within_bind, within_touch, within_lift]
      exact ⟨(), show pos2 ≤ pos2' by omega, (), show len < len' by omega, _, hpush, ih h hle⟩

/-- The loop reads no further than where it stops and writes nothing behind what it has counted. -/
theorem parseLabelsTraced_within {fuel pos2 stop len len' : Nat} {shost shost' : Nat → Byte}
    (h : parseLabels data fuel pos2 shost len = some (stop, shost', len')) (hlen : len ≤ hostDataLen) :
    (parseLabelsTraced data fuel pos2 shost len).Within (Touch.upTo stop len') (stop, shost', len') := by
  induction fuel generalizing pos2 len shost with
  | zero => cases h
  | succ fuel ih =>
      have hread := (parseLabels_eq_some h hlen).1.le
      rw [parseLabels] at h
      rw [parseLabelsTraced, within_bind]
      refine ⟨(), within_touch.mpr hread, ?_⟩
      by_cases htmp : (data pos2).toInt ≠ 0
      · rw [if_pos htmp] at h ⊢
        simp only [Option.bind_eq_bind, Option.bind_eq_some_iff] at h
        obtain ⟨⟨pos₁, shost₁, len₁⟩, hcopy, h⟩ := h
        have hle₁ := (copyLabel_eq_some hcopy hlen).2.2.1
        dsimp only at h
        by_cases hnext : data pos₁ ≠ 0
        · rw [if_pos hnext] at h
          simp only [Option.bind_eq_some_iff] at h
          obtain ⟨⟨shost₂, len₂⟩, hpush, h⟩ := h
          obtain ⟨hlen₂, hle₂, -⟩ := pushHost_eq_some hpush
          dsimp only at h
          obtain ⟨hchain, -, -, hcount, -⟩ := parseLabels_eq_some h hle₂
          have hstop := hchain.lt hnext
          have hcount := hcount hnext
          simp only [within_bind, within_touch]
          refine ⟨_, (copyLabelTraced_within hcopy hlen).mono fun t => Touch.upTo_mono hstop.le (by omega), (),
            hstop.le, ?_⟩
          dsimp only
          rw [if_pos hnext]
          simp only [within_bind, within_touch, within_lift]
          exact ⟨(), show len₁ < len' by omega, _, hpush, ih h hle₂⟩
        · rw [if_neg hnext] at h
          obtain ⟨hchain, -, hsame, -, -⟩ := parseLabels_eq_some h hle₁
          have hlen' := hsame (not_not.mp hnext)
          simp only [within_bind, within_touch]
          refine ⟨_, (copyLabelTraced_within hcopy hlen).mono fun t => Touch.upTo_mono hchain.le hlen'.ge, (),
            hchain.le, ?_⟩
          dsimp only
          rw [if_neg hnext]
          exact ih h hle₁
      · rw [if_neg htmp] at h ⊢
        cases h
        exact within_pure.mpr rfl

/-! ### When it fits -/

/-- The loop ends, its accesses stay inside, and a byte of `shost` behind the host is zero. -/
def LoopInside (node : Node) : Prop :=
  ∃ fuel stop shost len, (parseLabelsTraced node.data fuel 12 node.shost 0).Within Touch.inside (stop, shost, len) ∧
    len < hostDataLen ∧ shost len = 0

/-- The key under which the parser searches for the request, and later a response to it inserts, is shorter
than `NET_HASHMAP_DOMAIN_LEN`. -/
def KeyFits (node : Node) : Prop :=
  ∀ search parsed, Accepts search node parsed → parsed.hostLen < (NetHashmap.domainLen : Int) ∧
    ∀ (fuel : Nat) (s s' : Forward) (buff : Int → Byte) (bufflen : Int) (room : Bool) (seen : List Ref) (id : Nat),
      s.node (.node id) = some (parsed.setRd 2) → parseResponse fuel s buff bufflen room = some (s', seen) →
      seen.getLast? = some (.node id) →
      ∃ insertion, s'.inserted = s.inserted ++ [insertion] ∧ insertion.domainLen < (NetHashmap.domainLen : Int)

/-- What the parser does with the node stays inside its arrays. -/
def Contained (node : Node) : Prop := (EntersLoop node → LoopInside node) ∧ KeyFits node

/-- From the first length byte on, the chain of length bytes ends early enough. -/
def ChainFits (node : Node) : Prop := ∃ stop ≤ 524, Chain node.data 12 stop

theorem loopInside_iff {node : Node} (h : EntersLoop node) (hzero : ∀ j, node.shost j = 0) :
    LoopInside node ↔ ChainFits node := by
  constructor
  · intro hinside
    obtain ⟨fuel, stop, shost, len, hwithin, hlen, -⟩ := hinside
    have hloop := (parseLabelsTraced_result fuel 12 node.shost 0).symm.trans hwithin.1
    obtain ⟨hchain, hcount, -, -⟩ := h.loop_eq_some hloop
    rw [hostDataLen] at hlen
    exact ⟨stop, by omega, hchain⟩
  · intro hfits
    obtain ⟨stop, hstop, hchain⟩ := hfits
    obtain ⟨shost, len, hloop⟩ := hchain.loop_ends (by omega) (show stop < 12 + stop by omega)
    obtain ⟨-, hcount, -, hkeep⟩ := h.loop_eq_some hloop
    refine ⟨stop, stop, shost, len, ?_, by rw [hostDataLen]; omega, (hkeep len le_rfl).trans (hzero len)⟩
    apply (parseLabelsTraced_within hloop (Nat.zero_le _)).mono
    intro t ht
    cases t with
    | read pos =>
        have hpos : pos ≤ stop := ht
        exact show pos < reqDataLen by rw [reqDataLen]; omega
    | write pos =>
        have hpos : pos < len := ht
        exact show pos < hostDataLen by rw [hostDataLen]; omega

/-- A key that fits is kept: a response to the request inserts under the length the parser left. -/
theorem keyFits_of_lt {node : Node}
    (h : ∀ search parsed, Accepts search node parsed → parsed.hostLen < (NetHashmap.domainLen : Int)) : KeyFits node := by
  intro search parsed haccepts
  refine ⟨h search parsed haccepts, fun fuel s s' buff bufflen room seen id hnode hparse hlast => ?_⟩
  obtain ⟨item, s₁, seen₁, n, visits, stored, hmatch, hn, -, rfl, rfl⟩ := parseResponse_eq_some_iff.mp hparse
  rw [List.getLast?_concat, Option.some.injEq] at hlast
  subst hlast
  obtain ⟨links, rfl⟩ := exists_links_of_matchItem hmatch
  rw [hnode, Option.some.injEq] at hn
  subst hn
  refine ⟨_, Forward.finish_inserted .., ?_⟩
  rw [storeIpv4_hostLen]
  exact h search parsed haccepts

/-- The accesses the parser makes for a datagram stay inside, and the keys of the calls made for it fit, just when
the parser rejects it early or the chain of its length bytes ends within 512 bytes. -/
theorem contained_iff (fd : Int) (cliaddr : SockAddr) (bytes : List Byte) :
    Contained (received fd cliaddr bytes) ↔
      (EntersLoop (received fd cliaddr bytes) → ChainFits (received fd cliaddr bytes)) := by
  refine ⟨fun h henters => (loopInside_iff henters fun _ => rfl).mp (h.1 henters), fun h => ⟨fun henters => ?_, ?_⟩⟩
  · exact (loopInside_iff henters fun _ => rfl).mpr (h henters)
  · apply keyFits_of_lt
    intro search parsed haccepts
    obtain ⟨queue, hparse⟩ := haccepts
    obtain ⟨henters, stop, shost, len, hloop, -, hlen, -⟩ := loop_of_passed hparse (Option.some_ne_none queue)
    obtain ⟨stop', hstop, hchain⟩ := h henters
    obtain ⟨hchain', hcount, -, -⟩ := henters.loop_eq_some hloop
    have := hchain.unique hchain'
    rw [hlen, NetHashmap.domainLen]
    omega

/-- A query for a name of nine labels of 63 bytes. -/
def longQuery : List Byte :=
  [0x12, 0x34, 1, 0, 0, 1, 0, 0, 0, 0, 0, 0] ++ (encodeName (List.replicate 9 (List.replicate 63 0x61)) ++ [0, 1, 0, 1])

/-- Its host would take 575 bytes. -/
theorem longQuery_not_contained : ¬ ∀ (fd : Int) (cliaddr : SockAddr) (bytes : List Byte), 1 ≤ bytes.length →
    bytes.length ≤ reqDataLen → Contained (received fd cliaddr bytes) := by
  intro hall
  have hlength : longQuery.length = 593 := by decide +kernel
  have hcontained := (hall 3 ⟨5, 6⟩ longQuery (by omega) (by rw [hlength]; decide)).1
  have hholds := received_holds 3 ⟨5, 6⟩ (show longQuery.length ≤ reqDataLen by rw [hlength]; decide)
  obtain ⟨hheader, hname⟩ := holds_append.mp hholds
  obtain ⟨-, -, -, -, h4, h5, h6, h7, h8, h9, h10, h11, -⟩ := hheader
  have hchain := (labelChain_of_holds (by decide) (by decide) (holds_append.mp hname).1).chain
  have henters : EntersLoop (received 3 ⟨5, 6⟩ longQuery) := by
    refine ⟨?_, ?_, ?_, ?_, ?_⟩
    · rw [h4, h5]
      decide
    · rw [h6, h7]
      decide
    · rw [h8, h9]
      decide
    · rw [h10, h11]
      decide
    · rw [show (received 3 ⟨5, 6⟩ longQuery).data 12 = 63 from hname.1]
      decide
  obtain ⟨stop, hstop, hchain'⟩ := (loopInside_iff henters fun _ => rfl).mp (hcontained henters)
  have heq := hchain'.unique hchain
  have hend : (encodeLabels (List.replicate 9 (List.replicate 63 (0x61 : Byte)))).length = 576 := by decide +kernel
  rw [hend] at heq
  simp only [List.length_cons, List.length_nil] at heq
  omega

end SimpDserver.Daemon

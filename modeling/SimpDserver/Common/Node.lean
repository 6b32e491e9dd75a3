import Mathlib.Tactic
import Mathlib.Data.List.GetD

/-!
# Requests

`net_common_struct.h`: the node a query lives in from its receipt to its reply, and the sixteen-bit and
thirty-two-bit accesses made to the packet in it. The machine is little-endian, so a `uint16_t` read
from a packet has its first byte low; `ntohs` undoes that.
-/

namespace SimpDserver.Daemon

abbrev Byte := BitVec 8

abbrev Ipv4 := BitVec 32

/-- `NET_REQ_DATA_LEN` -/
def reqDataLen : Nat := 2048

/-- `NET_HOST_DATA_LEN` -/
def hostDataLen : Nat := 512

/-- `struct sockaddr_in`: the port and the address, in network order. -/
structure SockAddr where
  sinPort : BitVec 16
  sinAddr : BitVec 32
  deriving DecidableEq

/-- `struct net_common_ring_node` without its `list_head`. The fields nothing reads (`prot`, `seraddr`,
`clilen`, `header`, `phost`) are left out. `data` is memory from `data.request` on: the
`NET_REQ_DATA_LEN` bytes of the array, then the room of `header` and `phost`, which a reply to a datagram of
nearly that length runs into; the address the parser puts in `phost` is not in it, and would show only in
the TTL of a reply to 2047 bytes or more. `flags` is an offset into it, `none` the null pointer. -/
structure Node where
  fd : Int
  cliaddr : SockAddr
  datalen : Nat
  data : Nat → Byte
  shost : Nat → Byte
  hostLen : Int
  iden : BitVec 16
  flags : Option Nat
  ipv4 : Ipv4

/-- `*(uint16_t *)p` with the bytes at `p` and `p + 1`. -/
def load16 (b0 b1 : Byte) : BitVec 16 := b1 ++ b0

/-- `*(uint32_t *)p` -/
def load32 (b0 b1 b2 b3 : Byte) : BitVec 32 := b3 ++ b2 ++ b1 ++ b0

/-- The bytes `*(uint32_t *)p = v` stores. -/
def store32 (v : BitVec 32) : List Byte :=
  [v.extractLsb' 0 8, v.extractLsb' 8 8, v.extractLsb' 16 8, v.extractLsb' 24 8]

/-- `ntohs(*(uint16_t *)p)` -/
def ntohs (b0 b1 : Byte) : Nat := b0.toNat * 256 + b1.toNat

/-- The bytes `*(uint16_t *)p = htons(v)` stores. -/
def htons (v : BitVec 16) : List Byte := [v.extractLsb' 8 8, v.extractLsb' 0 8]

/-- Memory with some bytes stored from offset `i` on. -/
def put (data : Nat → Byte) (i : Nat) (bytes : List Byte) : Nat → Byte :=
  fun j => if i ≤ j ∧ j < i + bytes.length then bytes.getD (j - i) 0 else data j

/-- `node->ipv4 = ip` -/
def Node.setIpv4 (node : Node) (ip : Ipv4) : Node := { node with ipv4 := ip }

@[simp] theorem Node.setIpv4_ipv4 (node : Node) (ip : Ipv4) : (node.setIpv4 ip).ipv4 = ip := rfl
@[simp] theorem Node.setIpv4_data (node : Node) (ip : Ipv4) : (node.setIpv4 ip).data = node.data := rfl
@[simp] theorem Node.setIpv4_datalen (node : Node) (ip : Ipv4) : (node.setIpv4 ip).datalen = node.datalen := rfl

/-- The first `datalen` bytes, as `sendto` sends them. -/
def Node.datagram (node : Node) : List Byte := (List.range node.datalen).map node.data

/-- The node `net_bundle_core_module_inside_udp_cb` makes of a datagram: zeroed, then filled by
`recvfrom`, which keeps as much of it as the array holds. -/
def received (fd : Int) (cliaddr : SockAddr) (bytes : List Byte) : Node where
  fd := fd
  cliaddr := cliaddr
  datalen := min bytes.length reqDataLen
  data := fun i => (bytes.take reqDataLen).getD i 0
  shost := fun _ => 0
  hostLen := 0
  iden := 0
  flags := none
  ipv4 := 0

theorem load32_store32 (v : BitVec 32) :
    load32 (v.extractLsb' 0 8) (v.extractLsb' 8 8) (v.extractLsb' 16 8) (v.extractLsb' 24 8) = v := by
  rw [load32]
  apply BitVec.eq_of_getLsbD_eq
  intro i hi
  simp only [BitVec.getLsbD_append, BitVec.getLsbD_extractLsb']
  grind

/-! ### Bytes in memory -/

/-- Memory holds the bytes from `pos` on. -/
def Holds (data : Nat → Byte) : (pos : Nat) → List Byte → Prop
  | _, [] => True
  | pos, b :: bytes => data pos = b ∧ Holds data (pos + 1) bytes

instance Holds.decidable (data : Nat → Byte) :
    (pos : Nat) → (bytes : List Byte) → Decidable (Holds data pos bytes)
  | _, [] => .isTrue trivial
  | pos, b :: bytes =>
      have := Holds.decidable data (pos + 1) bytes
      inferInstanceAs (Decidable (data pos = b ∧ Holds data (pos + 1) bytes))

variable {data data' : Nat → Byte}

theorem holds_append {pos : Nat} {a b : List Byte} :
    Holds data pos (a ++ b) ↔ Holds data pos a ∧ Holds data (pos + a.length) b := by
  induction a generalizing pos with
  | nil => simp [Holds]
  | cons x a ih =>
      simp only [List.cons_append, Holds, ih, List.length_cons, and_assoc]
      rw [show pos + 1 + a.length = pos + (a.length + 1) by omega]

theorem holds_iff {pos : Nat} {bytes : List Byte} :
    Holds data pos bytes ↔ ∀ k < bytes.length, data (pos + k) = bytes.getD k 0 := by
  induction bytes generalizing pos with
  | nil => simp [Holds]
  | cons b bytes ih =>
      rw [Holds, ih]
      constructor
      · rintro ⟨h0, h⟩ k hk
        cases k with
        | zero => exact h0
        | succ k =>
            rw [List.getD_cons_succ, ← h k (by simpa using hk)]
            congr 1
            omega
      · intro h
        refine ⟨h 0 (by simp), fun k hk => ?_⟩
        have := h (k + 1) (by simpa using hk)
        rw [List.getD_cons_succ] at this
        rw [← this]
        congr 1
        omega

theorem Holds.congr {pos : Nat} {bytes : List Byte} (h : Holds data pos bytes)
    (heq : ∀ i, pos ≤ i → i < pos + bytes.length → data' i = data i) : Holds data' pos bytes := by
  rw [holds_iff] at h ⊢
  intro k hk
  rw [heq _ (by omega) (by omega), h k hk]

theorem holds_ext {pos : Nat} {a b : List Byte} (ha : Holds data pos a) (hb : Holds data pos b)
    (hlength : a.length = b.length) : a = b := by
  induction a generalizing pos b with
  | nil => exact (List.length_eq_zero_iff.mp hlength.symm).symm
  | cons x a ih =>
      cases b with
      | nil => cases hlength
      | cons y b => rw [← ha.1, ← hb.1, ih ha.2 hb.2 (Nat.succ.inj hlength)]

theorem holds_drop {bytes : List Byte} {n : Nat} (h : Holds data 0 bytes) (hn : n ≤ bytes.length) :
    Holds data n (bytes.drop n) := by
  rw [← List.take_append_drop n bytes, holds_append, List.length_take, Nat.min_eq_left hn, Nat.zero_add] at h
  exact h.2

theorem put_of_lt {i j : Nat} (bytes : List Byte) (h : j < i) : put data i bytes j = data j :=
  if_neg fun hij => by omega

theorem put_of_ge {i j : Nat} (bytes : List Byte) (h : i + bytes.length ≤ j) : put data i bytes j = data j :=
  if_neg fun hij => by omega

theorem holds_put (data : Nat → Byte) (i : Nat) (bytes : List Byte) : Holds (put data i bytes) i bytes := by
  rw [holds_iff]
  intro k hk
  rw [put, if_pos ⟨by omega, by omega⟩, Nat.add_sub_cancel_left]

theorem put_nil (data : Nat → Byte) (i : Nat) : put data i [] = data := by
  funext j
  exact if_neg fun hij => by simp at hij; omega

theorem update_eq_put (data : Nat → Byte) (i : Nat) (b : Byte) : Function.update data i b = put data i [b] := by
  funext j
  by_cases h : j = i
  · subst h
    simp [put]
  · rw [Function.update_of_ne h, put, if_neg]
    simp only [List.length_singleton]
    omega

theorem put_put (data : Nat → Byte) (i : Nat) (a b : List Byte) :
    put (put data i a) (i + a.length) b = put data i (a ++ b) := by
  funext j
  simp only [put, List.length_append]
  by_cases hb : i + a.length ≤ j ∧ j < i + a.length + b.length
  · rw [if_pos hb, if_pos ⟨by omega, by omega⟩, List.getD_append_right _ _ _ _ (by omega)]
    congr 1
    omega
  · rw [if_neg hb]
    by_cases ha : i ≤ j ∧ j < i + a.length
    · rw [if_pos ha, if_pos ⟨ha.1, by omega⟩, List.getD_append _ _ _ _ (by omega)]
    · rw [if_neg ha, if_neg fun h => by omega]

theorem holds_datagram {node : Node} : Holds data 0 node.datagram ↔ ∀ k < node.datalen, data k = node.data k := by
  rw [holds_iff, Node.datagram, List.length_map, List.length_range]
  apply forall_congr'
  intro k
  apply forall_congr'
  intro hk
  rw [Nat.zero_add, List.getD_eq_getElem _ _ (by simpa using hk), List.getElem_map, List.getElem_range]

theorem received_holds (fd : Int) (cliaddr : SockAddr) {bytes : List Byte} (h : bytes.length ≤ reqDataLen) :
    Holds (received fd cliaddr bytes).data 0 bytes := by
  rw [holds_iff]
  intro k _
  simp only [received, Nat.zero_add, List.take_of_length_le h]

end SimpDserver.Daemon

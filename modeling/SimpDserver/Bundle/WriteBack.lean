import SimpDserver.Common.Node

/-!
# The reply

`net_bundle_core_module_inside_write_back` up to its `sendto`: three header fields set in place, and one
resource record put behind whatever was received. The datagram it sends is the node's then.
-/

namespace SimpDserver.Daemon

/-- `net_bundle_core_module_inside_write_back`: the node at the `sendto`. The high half of the TTL is
set and the low half skipped. -/
def writeBack (item : Node) : Node :=
  let data := item.data
  -- QR, then RA: bits 7 and 15 of the little-endian flags
  let data := Function.update data 2 (data 2 ||| 0x80)
  let data := Function.update data 3 (data 3 ||| 0x80)
  let data := put data 6 (htons 1)
  let pos := item.datalen
  let data := put data pos [0xc0, 0x0c]
  let pos := pos + 2
  let data := put data pos (htons 1)
  let pos := pos + 2
  let data := put data pos (htons 1)
  let pos := pos + 2
  let data := put data pos (htons 0x80)
  let pos := pos + 4
  let data := put data pos (htons 4)
  let pos := pos + 2
  let data := put data pos (store32 item.ipv4)
  { item with data := data, datalen := item.datalen + 2 + 2 + 2 + 4 + 2 + 4 }

/-- The record behind the datagram, `low` being the half of the TTL that is not set. -/
def answerRecord (ip : Ipv4) (low : Byte × Byte) : List Byte :=
  [0xc0, 0x0c, 0, 1, 0, 1, 0, 0x80, low.1, low.2, 0, 4] ++ store32 ip

variable (item : Node)

/-- The stores into the header and, in one piece each, the two runs of bytes around the skipped half. -/
theorem writeBack_data : (writeBack item).data =
    put (put (put
      (Function.update (Function.update item.data 2 (item.data 2 ||| 0x80)) 3 (item.data 3 ||| 0x80))
      6 [0, 1])
      item.datalen [0xc0, 0x0c, 0, 1, 0, 1, 0, 0x80])
      (item.datalen + 10) ([0, 4] ++ store32 item.ipv4) := by
  rw [show ([0xc0, 0x0c, 0, 1, 0, 1, 0, 0x80] : List Byte) = [0xc0, 0x0c] ++ [0, 1] ++ [0, 1] ++ [0, 0x80] from rfl,
    ← put_put, ← put_put, ← put_put, ← put_put]
  rfl

theorem writeBack_datalen : (writeBack item).datalen = item.datalen + 16 := rfl

theorem writeBack_data_of_lt {j : Nat} (hj : 8 ≤ j) (hlt : j < item.datalen) :
    (writeBack item).data j = item.data j := by
  rw [writeBack_data, put_of_lt _ (by omega), put_of_lt _ hlt, put_of_ge _ hj, Function.update_of_ne (by omega),
    Function.update_of_ne (by omega)]

theorem writeBack_data_header {j : Nat} (hlen : 12 ≤ item.datalen) (hj : j < 12)
    (hne : j ≠ 2 ∧ j ≠ 3 ∧ j ≠ 6 ∧ j ≠ 7) : (writeBack item).data j = item.data j := by
  have h6 : put (Function.update (Function.update item.data 2 (item.data 2 ||| 0x80)) 3 (item.data 3 ||| 0x80))
      6 [0, 1] j = item.data j := by
    rw [put, if_neg (by simp only [List.length_cons, List.length_nil]; omega), Function.update_of_ne hne.2.1,
      Function.update_of_ne hne.1]
  rw [writeBack_data, put_of_lt _ (by omega), put_of_lt _ (by omega), h6]

theorem writeBack_header (hlen : 12 ≤ item.datalen) :
    (writeBack item).data 2 = item.data 2 ||| 0x80 ∧ (writeBack item).data 3 = item.data 3 ||| 0x80 ∧
      (writeBack item).data 6 = 0 ∧ (writeBack item).data 7 = 1 := by
  refine ⟨?_, ?_, ?_, ?_⟩ <;> rw [writeBack_data, put_of_lt _ (by omega), put_of_lt _ (by omega)] <;> rfl

theorem writeBack_holds_record (hlen : 8 ≤ item.datalen) : Holds (writeBack item).data item.datalen
    (answerRecord item.ipv4 (item.data (item.datalen + 8), item.data (item.datalen + 9))) := by
  have hskipped : ∀ j, item.datalen + 8 ≤ j → j < item.datalen + 10 →
      (writeBack item).data j = item.data j := by
    intro j hj hj'
    have hancount : 6 + ([0, 1] : List Byte).length ≤ j := by
      simp only [List.length_cons, List.length_nil]
      omega
    rw [writeBack_data, put_of_lt _ hj', put_of_ge _ hj, put_of_ge _ hancount,
      Function.update_of_ne (by omega), Function.update_of_ne (by omega)]
  have hfirst : Holds (writeBack item).data item.datalen [0xc0, 0x0c, 0, 1, 0, 1, 0, 0x80] := by
    rw [writeBack_data]
    exact (holds_put _ item.datalen _).congr fun i _ hi =>
      put_of_lt _ (by simp only [List.length_cons, List.length_nil] at hi; omega)
  have hlast : Holds (writeBack item).data (item.datalen + 10) ([0, 4] ++ store32 item.ipv4) := by
    rw [writeBack_data]
    exact holds_put ..
  rw [show answerRecord item.ipv4 (item.data (item.datalen + 8), item.data (item.datalen + 9)) =
      [0xc0, 0x0c, 0, 1, 0, 1, 0, 0x80] ++ [item.data (item.datalen + 8), item.data (item.datalen + 9)] ++
        ([0, 4] ++ store32 item.ipv4) from rfl, holds_append, holds_append]
  exact ⟨⟨hfirst, hskipped _ (by simp) (by simp), hskipped _ (by simp) (by simp), trivial⟩, hlast⟩

end SimpDserver.Daemon

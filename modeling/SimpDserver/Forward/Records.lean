import SimpDserver.Forward.Walk
import SimpDserver.Work.LabelLoop

/-!
# Responses made of records

A response is its header, the question of the request it answers and records. Where each owner name is one
pointer, or written out without a zero byte in its labels, both rules of the walk land on the length field, so
it goes from record to record until one has four bytes of data.
-/

namespace SimpDserver.Daemon

open Traced

/-- What a name ends with: a zero byte, or a pointer. -/
inductive NameEnd where
  | root
  | pointer (hi lo : Byte) (deflate : isDeflate hi)

def NameEnd.encode : NameEnd → List Byte
  | .root => [0]
  | .pointer hi lo _ => [hi, lo]

/-- An owner name: labels of 1 to 63 bytes, and its end. -/
structure OwnerName where
  labels : List (List Byte)
  label_pos : ∀ l ∈ labels, 0 < l.length
  label_le : ∀ l ∈ labels, l.length ≤ 63
  ending : NameEnd

namespace OwnerName

def encode (owner : OwnerName) : List Byte := encodeLabels owner.labels ++ owner.ending.encode

/-- A pointer and nothing else, or no pointer and no zero byte in a label. -/
def Plain (owner : OwnerName) : Prop :=
  match owner.ending with
  | .root => ∀ l ∈ owner.labels, ∀ c ∈ l, c ≠ 0
  | .pointer .. => owner.labels = []

def root : OwnerName := ⟨[], by decide, by decide, .root⟩

def pointer (hi lo : Byte) (deflate : isDeflate hi) : OwnerName := ⟨[], by decide, by decide, .pointer hi lo deflate⟩

end OwnerName

structure ResourceRecord where
  owner : OwnerName
  rtype : Byte × Byte
  rclass : Byte × Byte
  ttl : Byte × Byte × Byte × Byte
  rdata : List Byte
  rdata_lt : rdata.length < 2 ^ 16

namespace ResourceRecord

/-- Type, class and TTL. -/
def fixed (r : ResourceRecord) : List Byte :=
  [r.rtype.1, r.rtype.2, r.rclass.1, r.rclass.2, r.ttl.1, r.ttl.2.1, r.ttl.2.2.1, r.ttl.2.2.2]

def encode (r : ResourceRecord) : List Byte :=
  r.owner.encode ++ r.fixed ++ htons (BitVec.ofNat 16 r.rdata.length) ++ r.rdata

/-- The first four bytes of the data as `item->ipv4` takes them. -/
def address (r : ResourceRecord) : Ipv4 :=
  load32 (r.rdata.getD 0 0) (r.rdata.getD 1 0) (r.rdata.getD 2 0) (r.rdata.getD 3 0)

end ResourceRecord

/-- The datagram that answers a query: the ID, the other ten bytes of a header, the question, and records. -/
def responseBytes (q : Query) (header : List Byte) (records : List ResourceRecord) : List Byte :=
  [q.iden.1, q.iden.2] ++ header ++ q.question ++ records.flatMap ResourceRecord.encode

/-- A response in plain owner names and with four bytes of data in each address record. -/
structure Response where
  query : Query
  header : List Byte
  header_length : header.length = 10
  records : List ResourceRecord
  plain : ∀ r ∈ records, r.owner.Plain
  address_length : ∀ r ∈ records, r.rtype = (0, 1) → r.rdata.length = 4
  length_le : (responseBytes query header records).length ≤ 2048

def Response.encode (resp : Response) : List Byte := responseBytes resp.query resp.header resp.records

/-- The positions where records begin. -/
def boundaries : (pos : Nat) → List ResourceRecord → List Int
  | _, [] => []
  | pos, r :: rs => (pos : Int) :: boundaries (pos + r.encode.length) rs

/-- The records up to the first with four bytes of data. -/
def upToFour : List ResourceRecord → List ResourceRecord
  | [] => []
  | r :: rs => if r.rdata.length = 4 then [r] else r :: upToFour rs

/-! ### The owner names are what the walk understands -/

theorem not_isDeflate_of_le {b : Byte} (h : b.toNat ≤ 63) : ¬isDeflate b := by
  revert b
  decide

theorem encodeLabels_ne_zero {ls : List (List Byte)} (pos : ∀ l ∈ ls, 0 < l.length) (le : ∀ l ∈ ls, l.length ≤ 63)
    (nonzero : ∀ l ∈ ls, ∀ c ∈ l, c ≠ 0) : ∀ c ∈ encodeLabels ls, c ≠ 0 := by
  induction ls with
  | nil => exact fun c hc => absurd hc List.not_mem_nil
  | cons l ls ih =>
      rw [List.forall_mem_cons] at pos le nonzero
      simp only [encodeLabels, List.forall_mem_cons, List.forall_mem_append]
      exact ⟨ofNat_length_ne_zero pos.1 le.1, nonzero.1, ih pos.2 le.2 nonzero.2⟩

/-- No length byte looks like a pointer, and neither does the ending zero. -/
theorem head?_encodeName {ls : List (List Byte)} (le : ∀ l ∈ ls, l.length ≤ 63) :
    ∀ c ∈ (encodeName ls).head?, ¬isDeflate c := by
  intro c hc
  cases ls with
  | nil =>
      obtain rfl : 0 = c := Option.some.inj hc
      decide
  | cons l ls =>
      obtain rfl : BitVec.ofNat 8 l.length = c := Option.some.inj hc
      have := le l List.mem_cons_self
      apply not_isDeflate_of_le
      rw [BitVec.toNat_ofNat]
      omega

theorem OwnerName.Plain.ownerBytes {owner : OwnerName} (h : owner.Plain) : OwnerBytes owner.encode := by
  obtain ⟨ls, pos, le, ending⟩ := owner
  cases ending with
  | root => exact .name (encodeLabels_ne_zero pos le h) (head?_encodeName le)
  | pointer hi lo deflate =>
      obtain rfl : ls = [] := h
      exact .pointer deflate

theorem ntohs_htons (v : BitVec 16) : ntohs (v.extractLsb' 8 8) (v.extractLsb' 0 8) = v.toNat := by
  have := v.isLt
  simp only [ntohs, BitVec.extractLsb'_toNat, Nat.shiftRight_eq_div_pow, pow_zero, Nat.div_one]
  omega

namespace ResourceRecord

variable (r : ResourceRecord)

theorem length_encode : r.encode.length = r.owner.encode.length + 10 + r.rdata.length := by
  simp only [encode, fixed, htons, List.length_append, List.length_cons, List.length_nil]

theorem rdlength : ntohs ((BitVec.ofNat 16 r.rdata.length).extractLsb' 8 8)
    ((BitVec.ofNat 16 r.rdata.length).extractLsb' 0 8) = r.rdata.length := by
  rw [ntohs_htons, BitVec.toNat_ofNat, Nat.mod_eq_of_lt r.rdata_lt]

end ResourceRecord

/-! ### From record to record -/

variable {buff : Int → Byte}

/-- The walk visits the records up to the first with four bytes of data, and stores these; if there is none it
stops where the records end. -/
theorem walkTraced_records {records : List ResourceRecord} (hplain : ∀ r ∈ upToFour records, r.owner.Plain)
    {pos fuel : Nat} (hholds : Holds (fun k : Nat => buff k) pos (records.flatMap ResourceRecord.encode))
    (hfuel : (records.flatMap ResourceRecord.encode).length < fuel) :
    ∃ stored stop, (walkTraced buff (pos + (records.flatMap ResourceRecord.encode).length : Nat) fuel pos).result =
        some (boundaries pos (upToFour records), stored, stop) ∧
      match records.find? (fun r => r.rdata.length = 4) with
      | none => stored = none ∧ stop = (pos + (records.flatMap ResourceRecord.encode).length : Nat)
      | some r => ∃ field : Nat, stored = some (field : Int) ∧ Holds (fun k : Nat => buff k) field r.rdata := by
  induction records generalizing pos fuel with
  | nil =>
      obtain ⟨f, rfl⟩ := Nat.exists_eq_add_of_lt hfuel
      refine ⟨none, pos, ?_, rfl, rfl⟩
      rw [walkTraced, if_pos (by simp)]
      rfl
  | cons r records ih =>
      obtain ⟨f, rfl⟩ : ∃ f, fuel = f + 1 := ⟨fuel - 1, by omega⟩
      have hlength := r.length_encode
      rw [List.flatMap_cons, List.length_append] at hfuel ⊢
      rw [List.flatMap_cons, holds_append] at hholds
      obtain ⟨hrecord, hrest⟩ := hholds
      rw [ResourceRecord.encode, holds_append] at hrecord
      obtain ⟨hfront, hdata⟩ := hrecord
      have hfield : pos + (r.owner.encode ++ r.fixed ++ htons (BitVec.ofNat 16 r.rdata.length)).length =
          pos + r.owner.encode.length + 10 := congrArg (pos + ·) (length_front rfl)
      have hpos : (pos : Int) < (pos + (r.encode.length + (records.flatMap ResourceRecord.encode).length) : Nat) := by omega
      have howner : OwnerBytes r.owner.encode := by
        apply OwnerName.Plain.ownerBytes
        apply hplain
        rw [upToFour]
        split <;> exact List.mem_cons_self
      have hread : ∀ k < r.owner.encode.length + 10, (fun _ : Int => True) (pos + k : Nat) := fun _ _ => trivial
      by_cases hfour : r.rdata.length = 4
      · refine ⟨some (pos + r.owner.encode.length + 10 : Nat), (pos + r.owner.encode.length + 10 : Nat),
          within_true.mp ?_, ?_⟩
        · rw [walkTraced_record howner rfl hfront hpos (by omega) hread, r.rdlength, if_pos hfour, upToFour,
            if_pos hfour]
          exact ⟨fun _ _ => trivial, rfl⟩
        · rw [List.find?_cons_of_pos (by simpa using hfour)]
          exact ⟨_, rfl, hfield ▸ hdata⟩
      · rw [upToFour, if_neg hfour, List.forall_mem_cons] at hplain
        obtain ⟨stored, stop, hwalk, hstored⟩ := ih hplain.2 hrest (show _ < f by omega)
        have hend : pos + r.encode.length + (records.flatMap ResourceRecord.encode).length =
            pos + (r.encode.length + (records.flatMap ResourceRecord.encode).length) := Nat.add_assoc ..
        have hnext : pos + r.encode.length = pos + r.owner.encode.length + 10 + r.rdata.length := by omega
        rw [hend] at hwalk hstored
        refine ⟨stored, stop, within_true.mp ?_, ?_⟩
        · rw [walkTraced_record howner rfl hfront hpos (by omega) hread, r.rdlength, if_neg hfour, upToFour,
            if_neg hfour, ← hnext]
          exact ⟨_, within_true.mpr hwalk, rfl⟩
        · rw [List.find?_cons_of_neg (by simpa using hfour)]
          exact hstored

/-! ### The whole of `parse_response` -/

section Bytes

variable {q : Query} {header : List Byte} {records : List ResourceRecord}

theorem length_responseBytes (hheader : header.length = 10) : (responseBytes q header records).length =
    12 + q.question.length + (records.flatMap ResourceRecord.encode).length := by
  simp only [responseBytes, List.length_append, List.length_cons, List.length_nil, hheader]

theorem holds_responseBytes (hheader : header.length = 10)
    (h : Holds (fun k : Nat => buff k) 0 (responseBytes q header records)) :
    load16 (buff 0) (buff 1) = load16 q.iden.1 q.iden.2 ∧
      Holds (fun k : Nat => buff k) (12 + q.question.length) (records.flatMap ResourceRecord.encode) := by
  have hpos : 0 + ([q.iden.1, q.iden.2] ++ header ++ q.question).length = 12 + q.question.length := by
    rw [Nat.zero_add, List.length_append, List.length_append, hheader]
    rfl
  rw [responseBytes, holds_append, hpos, holds_append, holds_append] at h
  exact ⟨congrArg₂ load16 h.1.1.1.1 h.1.1.1.2.1, h.2⟩

variable {s : Forward} {T : BitVec 32 → List Nat} {id : Nat} {n : Node} {pre post : List Nat}

/-- The four bytes the walk stores from. -/
def fourAt (buff : Int → Byte) (field : Int) : List Byte := [buff field, buff (field + 1), buff (field + 2), buff (field + 3)]

theorem eq_fourAt {rdata : List Byte} (hfour : rdata.length = 4) {field : Nat}
    (hholds : Holds (fun k : Nat => buff k) field rdata) : rdata = fourAt buff field :=
  holds_ext hholds (show Holds (fun k : Nat => buff k) field (fourAt buff field) from ⟨rfl, rfl, rfl, rfl, trivial⟩) hfour

theorem ResourceRecord.storeIpv4_address {r : ResourceRecord} {field : Int} (h : r.rdata = fourAt buff field) (n : Node) :
    (storeIpv4 buff n (some field)).ipv4 = r.address := by
  rw [ResourceRecord.address, h]
  rfl

/-- `parse_response` on records of plain owner names up to the first with four bytes of data. -/
theorem Pending.parseResponse_bytes (h : Pending s T q id n pre post) (hheader : header.length = 10)
    (hplain : ∀ r ∈ upToFour records, r.owner.Plain)
    (hbuff : Holds (fun k : Nat => buff k) 0 (responseBytes q header records)) {fuel : Nat}
    (hfuel : pre.length + (responseBytes q header records).length < fuel) (room : Bool) :
    ∃ s' seen stored stop n',
      Daemon.parseResponse fuel s buff (responseBytes q header records).length room = some (s', seen) ∧
      WalkOf fuel s buff (responseBytes q header records).length (boundaries (12 + q.question.length) (upToFour records))
        stored stop ∧
      s'.node (.node id) = some n' ∧
      match records.find? (fun r => r.rdata.length = 4) with
      | none => stored = none ∧ n'.ipv4 = n.ipv4 ∧ stop = (responseBytes q header records).length
      | some r => n'.ipv4 = r.address ∧
          ∃ field : Nat, stored = some (field : Int) ∧ r.rdata = fourAt buff field := by
  have hlength : (responseBytes q header records).length = _ := length_responseBytes hheader
  obtain ⟨hiden, hrecords⟩ := holds_responseBytes hheader hbuff
  obtain ⟨stored, stop, hwalk, hstored⟩ := walkTraced_records hplain hrecords (show _ < fuel by omega)
  rw [← hlength] at hwalk hstored
  obtain ⟨s', seen, hparse, hvisits, hnode⟩ := h.parseResponse hiden (show _ < fuel by omega) hwalk room
  refine ⟨s', seen, stored, stop, _, hparse, hvisits, hnode, ?_⟩
  cases hfirst : records.find? (fun r => r.rdata.length = 4) with
  | none =>
      rw [hfirst] at hstored
      obtain ⟨rfl, hstop⟩ := hstored
      exact ⟨rfl, rfl, hstop⟩
  | some r =>
      rw [hfirst] at hstored
      obtain ⟨field, rfl, hholds⟩ := hstored
      have hfour : r.rdata.length = 4 := by simpa using List.find?_some hfirst
      have hdata := eq_fourAt hfour hholds
      exact ⟨ResourceRecord.storeIpv4_address hdata n, field, rfl, hdata⟩

end Bytes

/-- The first address record, if no record before it has four bytes of data, is the first record that has. -/
theorem Response.find?_address {resp : Response} {before after : List ResourceRecord} {a : ResourceRecord}
    (hsplit : resp.records = before ++ a :: after) (haddress : a.rtype = (0, 1))
    (hbefore : ∀ r ∈ before, r.rdata.length ≠ 4) : resp.records.find? (fun r => r.rdata.length = 4) = some a := by
  have ha : a ∈ resp.records := by
    rw [hsplit]
    exact List.mem_append_right _ List.mem_cons_self
  rw [hsplit, List.find?_append, List.find?_eq_none.mpr (by simpa using hbefore), Option.none_or]
  exact List.find?_cons_of_pos (by simpa using resp.address_length a ha haddress)

theorem mem_of_mem_upToFour {records : List ResourceRecord} {r : ResourceRecord} (h : r ∈ upToFour records) :
    r ∈ records := by
  induction records with
  | nil => exact h
  | cons r' records ih =>
      rw [upToFour] at h
      split at h
      · exact List.mem_cons.mpr (Or.inl (List.mem_singleton.mp h))
      · exact List.mem_cons.mpr ((List.mem_cons.mp h).imp_right ih)

/-- The walk comes to the records in order and exactly where they begin, up to the first with four bytes of data.
If that is an address record its address is stored; if there is none the address is as it was, and the walk is
over where the datagram is. -/
theorem parseResponse_records {s : Forward} {T : BitVec 32 → List Nat} {id : Nat} {n : Node} {pre post : List Nat}
    {resp : Response} (h : Pending s T resp.query id n pre post) (hbuff : Holds (fun k : Nat => buff k) 0 resp.encode)
    {fuel : Nat} (hfuel : pre.length + resp.encode.length < fuel) (room : Bool) :
    ∃ s' seen stored stop n', parseResponse fuel s buff resp.encode.length room = some (s', seen) ∧
      WalkOf fuel s buff resp.encode.length (boundaries (12 + resp.query.question.length) (upToFour resp.records)) stored
        stop ∧ s'.node (.node id) = some n' ∧
      (∀ before a after, resp.records = before ++ a :: after → a.rtype = (0, 1) →
        (∀ r ∈ before, r.rdata.length ≠ 4) → n'.ipv4 = a.address) ∧
      ((∀ r ∈ resp.records, r.rdata.length ≠ 4) → n'.ipv4 = n.ipv4 ∧ stop = resp.encode.length) := by
  have hplain : ∀ r ∈ upToFour resp.records, r.owner.Plain := fun r hr => resp.plain r (mem_of_mem_upToFour hr)
  obtain ⟨s', seen, stored, stop, n', hparse, hvisits, hnode, hstored⟩ :=
    h.parseResponse_bytes resp.header_length hplain hbuff hfuel room
  refine ⟨s', seen, stored, stop, n', hparse, hvisits, hnode, ?_, ?_⟩
  · intro before a after hsplit haddress hbefore
    rw [Response.find?_address hsplit haddress hbefore] at hstored
    exact hstored.1
  · intro hnone
    rw [List.find?_eq_none.mpr (by simpa using hnone)] at hstored
    exact hstored.2

theorem isDeflate_pointer : isDeflate 0xc0 = true := rfl

theorem address_lt : ([1, 2, 3, 4] : List Byte).length < 2 ^ 16 := by decide

/-- An alias of one byte, and the address. -/
def aliased : Response where
  query := .single (0x12, 0x34) 0x61
  header := [0x81, 0x80, 0, 1, 0, 2, 0, 0, 0, 0]
  header_length := rfl
  records :=
    [⟨.pointer 0xc0 12 isDeflate_pointer, (0, 5), (0, 1), (0, 0, 0, 60), [0], by decide⟩,
     ⟨.root, (0, 1), (0, 1), (0, 0, 0, 60), [1, 2, 3, 4], address_lt⟩]
  plain := by simp [OwnerName.Plain, OwnerName.pointer, OwnerName.root]
  address_length := by simp
  length_le := by decide

theorem parseResponse_records_aliased : ∃ s s' seen n', parseResponse 64 s (inBuffer aliased.encode) aliased.encode.length
    true = some (s', seen) ∧ s'.node (.node 0) = some n' ∧ n'.ipv4 = 0x04030201 := by
  obtain ⟨s, T, n, h⟩ := pending_single
  have hfuel : ([] : List Nat).length + aliased.encode.length < 64 := by decide
  obtain ⟨s', seen, _, _, n', hparse, -, hnode, haddress, -⟩ := parseResponse_records h (holds_inBuffer _) hfuel true
  refine ⟨s, s', seen, n', hparse, hnode, haddress [_] _ [] rfl rfl (by decide)⟩

end SimpDserver.Daemon

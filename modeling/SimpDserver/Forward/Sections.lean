import SimpDserver.Forward.Records
import SimpDserver.Lib.DnsMessage

/-!
# Which record is taken for the answer

The walk goes over all three sections alike and skips type, class and TTL with the same eight bytes: four bytes
of data is all it knows an address by. So what it stores is the data of the first record in the message that
has four bytes of it, of whatever type and section. And where an owner name begins with labels and ends in a
pointer, or has a zero byte in a label, it loses the record altogether.
-/

namespace SimpDserver.Daemon

open DnsMessage (decode Packet)

/-- A response as the protocol has it: the question of the query, and records in three sections, each of at most
as many as a count can say. -/
structure SectionedResponse where
  query : Query
  flags : Byte × Byte
  answers : List ResourceRecord
  authority : List ResourceRecord
  additional : List ResourceRecord
  answers_lt : answers.length < 2 ^ 16
  authority_lt : authority.length < 2 ^ 16
  additional_lt : additional.length < 2 ^ 16

namespace SectionedResponse

/-- The header behind the ID. -/
def header (resp : SectionedResponse) : List Byte :=
  [resp.flags.1, resp.flags.2, 0, 1] ++ htons (BitVec.ofNat 16 resp.answers.length) ++
    htons (BitVec.ofNat 16 resp.authority.length) ++ htons (BitVec.ofNat 16 resp.additional.length)

/-- The records in the order of the datagram. -/
def records (resp : SectionedResponse) : List ResourceRecord := resp.answers ++ resp.authority ++ resp.additional

def encode (resp : SectionedResponse) : List Byte := responseBytes resp.query resp.header resp.records

/-- Whatever `parse_response` stores is the data of an address record of class IN in the answer section. -/
def StoresAnswer (resp : SectionedResponse) : Prop :=
  ∀ s T id n pre post buff, Pending s T resp.query id n pre post → Holds (fun k : Nat => buff k) 0 resp.encode →
    ∀ fuel visits field stop, WalkOf fuel s buff resp.encode.length visits (some field) stop →
      ∃ r ∈ resp.answers, r.rtype = (0, 1) ∧ r.rclass = (0, 1) ∧ r.rdata = fourAt buff field

end SectionedResponse

/-- With plain owner names up to there, `parse_response` stores the data of the first record with four bytes of it,
in whatever section and of whatever type and class that is, and stores nothing if there is none. -/
theorem parseResponse_sections {s : Forward} {T : BitVec 32 → List Nat} {id : Nat} {n : Node} {pre post : List Nat}
    {resp : SectionedResponse} (h : Pending s T resp.query id n pre post) {buff : Int → Byte}
    (hbuff : Holds (fun k : Nat => buff k) 0 resp.encode) (hplain : ∀ r ∈ upToFour resp.records, r.owner.Plain)
    {fuel : Nat} (hfuel : pre.length + resp.encode.length < fuel) (room : Bool) :
    ∃ s' seen visits stored stop n', parseResponse fuel s buff resp.encode.length room = some (s', seen) ∧
      WalkOf fuel s buff resp.encode.length visits stored stop ∧ s'.node (.node id) = some n' ∧
      ((stored = none ∧ n'.ipv4 = n.ipv4 ∧ ∀ r ∈ resp.records, r.rdata.length ≠ 4) ∨
        ∃ before r after field, resp.answers ++ resp.authority ++ resp.additional = before ++ r :: after ∧
          (∀ r' ∈ before, r'.rdata.length ≠ 4) ∧ r.rdata.length = 4 ∧ stored = some field ∧ r.rdata = fourAt buff field ∧
          n'.ipv4 = r.address) := by
  obtain ⟨s', seen, stored, stop, n', hparse, hvisits, hnode, hstored⟩ := h.parseResponse_bytes rfl hplain hbuff hfuel room
  refine ⟨s', seen, _, stored, stop, n', hparse, hvisits, hnode, ?_⟩
  cases hfirst : resp.records.find? (fun r => r.rdata.length = 4) with
  | none =>
      rw [hfirst] at hstored
      exact Or.inl ⟨hstored.1, hstored.2.1, by simpa using List.find?_eq_none.mp hfirst⟩
  | some r =>
      rw [hfirst] at hstored
      obtain ⟨haddress, field, hfield, hdata⟩ := hstored
      obtain ⟨hfour, before, after, hsplit, hbefore⟩ := List.find?_eq_some_iff_append.mp hfirst
      exact Or.inr ⟨before, r, after, field, hsplit, by simpa using hbefore, by simpa using hfour, hfield, hdata, haddress⟩

/-- A referral: the name server of the name, and the server's address in the additional section. -/
def referral : SectionedResponse where
  query := .single (0x12, 0x34) 0x61
  flags := (0x81, 0x80)
  answers := []
  authority :=
    [⟨.pointer 0xc0 12 isDeflate_pointer, (0, 2), (0, 1), (0, 0, 0, 60), [2, 0x6e, 0x73, 0xc0, 12], by decide⟩]
  additional := [⟨.pointer 0xc0 31 isDeflate_pointer, (0, 1), (0, 1), (0, 0, 0, 60), [1, 2, 3, 4], address_lt⟩]
  answers_lt := by decide
  authority_lt := by decide
  additional_lt := by decide

theorem parseResponse_sections_referral : ∃ s s' seen n', parseResponse 64 s (inBuffer referral.encode)
    referral.encode.length true = some (s', seen) ∧ s'.node (.node 0) = some n' ∧
      ∃ before r after, referral.records = before ++ r :: after ∧ r.rdata.length = 4 ∧ n'.ipv4 = r.address := by
  obtain ⟨s, T, n, h⟩ := pending_single
  have hfuel : ([] : List Nat).length + referral.encode.length < 64 := by decide
  have hplain : ∀ r ∈ upToFour referral.records, r.owner.Plain := by
    simp [referral, SectionedResponse.records, upToFour, OwnerName.pointer, OwnerName.Plain]
  obtain ⟨s', seen, _, _, _, n', hparse, -, hnode, hstored⟩ :=
    parseResponse_sections h (holds_inBuffer referral.encode) hplain hfuel true
  rcases hstored with ⟨-, -, hnone⟩ | ⟨before, r, after, _, hsplit, -, hfour, -, -, haddress⟩
  · exact absurd rfl (hnone _ (List.mem_cons_of_mem _ List.mem_cons_self))
  · exact ⟨s, s', seen, n', hparse, hnode, before, r, after, hsplit, hfour, haddress⟩

/-! ### Responses it is wrong about -/

section Wrong

/-- A record of a private type, of a name that ends in a pointer to the question's. -/
def partlyCompressed : SectionedResponse where
  query := .single (0x12, 0x34) 0x61
  flags := (0x81, 0x80)
  answers := [⟨⟨[[0x62]], by decide, by decide, .pointer 0xc0 12 isDeflate_pointer⟩, (0xff, 1), (0, 1),
    (0, 0, 0, 60), [0, 0, 4, 1, 2, 3, 4, 5], by decide⟩]
  authority := []
  additional := []
  answers_lt := by decide
  authority_lt := by decide
  additional_lt := by decide

/-- The address of a name with a zero byte in its label, for four seconds. -/
def zeroInLabel : SectionedResponse where
  query := .single (0x12, 0x34) 0x61
  flags := (0x81, 0x80)
  answers := [⟨⟨[[0, 0x62]], by decide, by decide, .root⟩, (0, 1), (0, 1), (0, 0, 0, 4), [1, 2, 3, 4], address_lt⟩]
  authority := []
  additional := []
  answers_lt := by decide
  authority_lt := by decide
  additional_lt := by decide

theorem not_storesAnswer {resp : SectionedResponse} (hquery : resp.query = .single (0x12, 0x34) 0x61)
    {visits : List Int} {field stop : Int}
    (hwalk : (walkTraced (inBuffer resp.encode) resp.encode.length 64 (12 + resp.query.question.length : Nat)).result =
      some (visits, some field, stop))
    (hnone : ∀ r ∈ resp.answers, r.rtype = (0, 1) → r.rdata ≠ fourAt (inBuffer resp.encode) field) :
    ¬resp.StoresAnswer := by
  intro hall
  obtain ⟨s, T, n, h⟩ := pending_single
  rw [← hquery] at h
  have hbuff := holds_inBuffer resp.encode
  obtain ⟨s', seen, -, hvisits, -⟩ := h.parseResponse (holds_responseBytes rfl hbuff).1 (show 0 < 64 by decide) hwalk true
  obtain ⟨r, hr, htype, -, hdata⟩ := hall s T 0 n [] [] _ h hbuff 64 visits field stop hvisits
  exact hnone r hr htype hdata

/-- Three well-formed responses, one with no answer, one with none of type A, and one whose address it misses. -/
theorem storesAnswer_fails :
    (decode (Packet.ofBytes referral.encode)).map (·.answers) = some [] ∧ ¬referral.StoresAnswer ∧
    (decode (Packet.ofBytes partlyCompressed.encode)).map (fun m => m.answers.map (·.type)) = some [0xff01] ∧
      ¬partlyCompressed.StoresAnswer ∧
    (decode (Packet.ofBytes zeroInLabel.encode)).map (fun m => m.answers.map (·.rdata)) = some [[1, 2, 3, 4]] ∧
      ¬zeroInLabel.StoresAnswer := by
  refine ⟨by decide +kernel, not_storesAnswer rfl rfl (by decide), by decide +kernel,
    not_storesAnswer rfl rfl (by decide), by decide +kernel, not_storesAnswer rfl rfl (by decide)⟩

end Wrong

end SimpDserver.Daemon

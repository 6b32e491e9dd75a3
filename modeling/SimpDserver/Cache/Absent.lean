import SimpDserver.Cache.Code
import SimpDserver.Forward.Records
import SimpDserver.Hashmap.NonZero
import SimpDserver.Work.HostRoom

/-!
# Zero means absent

The worker takes the zero a search returns for a name the map does not hold. It is that as long as no entry is
made with address zero; the loader makes one for an address that `inet_pton` rejects, and the forward thread
for a response in which the walk finds no address. Such an entry stays for good, since the first write wins.
-/

namespace SimpDserver.Daemon

open NetHashmap RedBlack Transition

/-! ### What a response gives -/

/-- From `pos` on there are records, the first of them with four bytes of data having the address in these. -/
inductive GivesAddress (buff : Int → Byte) (bufflen : Int) : (pos : Nat) → Ipv4 → Prop
  | address {pos : Nat} {owner fixed : List Byte} {hi lo b0 b1 b2 b3 : Byte} (hpos : (pos : Int) < bufflen)
      (howner : OwnerBytes owner) (hfixed : fixed.length = 8) (hlen : ntohs hi lo = 4)
      (hholds : Holds (fun k : Nat => buff k) pos (owner ++ fixed ++ [hi, lo] ++ [b0, b1, b2, b3])) :
      GivesAddress buff bufflen pos (load32 b0 b1 b2 b3)
  | record {pos : Nat} {owner fixed : List Byte} {hi lo : Byte} {ip : Ipv4} (hpos : (pos : Int) < bufflen)
      (howner : OwnerBytes owner) (hfixed : fixed.length = 8) (hlen : ntohs hi lo ≠ 4)
      (hholds : Holds (fun k : Nat => buff k) pos (owner ++ fixed ++ [hi, lo]))
      (hrest : GivesAddress buff bufflen (pos + owner.length + 10 + ntohs hi lo) ip) : GivesAddress buff bufflen pos ip

section Gives

variable {buff : Int → Byte} {bufflen : Int}

theorem GivesAddress.of_walk {pos : Nat} {ip : Ipv4} (h : GivesAddress buff bufflen pos ip) {fuel : Nat} {visits : List Int}
    {stored : Option Int} (hwalk : walk buff bufflen fuel pos = some (visits, stored)) (n : Node) :
    (storeIpv4 buff n stored).ipv4 = ip := by
  induction h generalizing fuel visits stored with
  | @address pos owner fixed hi lo b0 b1 b2 b3 hpos howner hfixed hlen hholds =>
      rw [holds_append] at hholds
      obtain ⟨hfront, hdata⟩ := hholds
      obtain ⟨stop, hresult⟩ := exists_walkTraced (walk_add (owner.length + 1) hwalk)
      have hstep := (walkTraced_record howner hfixed hfront hpos (Nat.le_add_left owner.length fuel)
        fun _ _ => trivial).mp (Traced.within_true.mpr hresult)
      rw [if_pos hlen] at hstep
      have hstored : stored = some ((pos + owner.length + 10 : Nat) : Int) := congrArg (fun r => r.2.1) hstep.2
      rw [length_front hfixed, ← Nat.add_assoc] at hdata
      obtain ⟨h0, h1, h2, h3, -⟩ := hdata
      rw [hstored, ← h0, ← h1, ← h2, ← h3]
      rfl
  | @record pos owner fixed hi lo ip hpos howner hfixed hlen hholds _ ih =>
      obtain ⟨stop, hresult⟩ := exists_walkTraced (walk_add (owner.length + 1) hwalk)
      have hstep := (walkTraced_record howner hfixed hholds hpos (Nat.le_add_left owner.length fuel)
        fun _ _ => trivial).mp (Traced.within_true.mpr hresult)
      rw [if_neg hlen] at hstep
      obtain ⟨⟨visits', stored', stop'⟩, hrest, heq⟩ := hstep
      obtain rfl : stored = stored' := congrArg (fun r => r.2.1) heq
      have hwalk' : walk buff bufflen (fuel + owner.length) (pos + owner.length + 10 + ntohs hi lo : Nat) =
          some (visits', stored) := by
        rw [← walkTraced_result, Traced.within_true.mp hrest]
        rfl
      exact ih hwalk'

end Gives

/-! ### The condition -/

/-- An insertion that makes an entry has an address other than zero: a configured address is a dotted one, and a
response has a record with four bytes of data, unless the domain has an entry already. -/
def NeverZero (c : Cache) : CacheStep → Prop
  | .load _ => ∀ ptr ∈ c.ptr.head?, ∀ source ∈ sourceOf ptr,
      (∃ ip, inetPton source.2 = some ip ∧ ip ≠ 0) ∨ c.map.HasEntry source.1.chars source.1.strlen
  | .work .. => True
  | .ask _ => True
  | .response fuel buff bufflen _ _ => ∀ n ∈ requestOf fuel c.forward buff,
      (∃ ip, GivesAddress buff bufflen (12 + n.hostLen.toNat + 6) ip ∧ ip ≠ 0) ∨ c.map.HasEntry n.shost n.hostLen.toNat

/-- A search returns zero only for what has no entry, and for a domain for which memory was had it returns an
address, so that no request for it is passed on to be forwarded. -/
structure ZeroMeansAbsent (c : Cache) : Prop where
  absent : ∀ domain len, c.map.search c.rounds domain len = some 0 → ¬c.map.HasEntry domain len
  returned : ∀ malloc domain len ip, .insert malloc domain len ip ∈ c.calls → malloc ≠ 0 →
    ∃ ip', c.map.search c.rounds domain len = some ip' ∧ ip' ≠ 0
  answered : ∀ malloc domain (len : Nat) ip, .insert malloc domain len ip ∈ c.calls → malloc ≠ 0 → ∀ node r,
    insideParser c.search node = some r → r.node.shost = domain → r.node.hostLen = len → r.passed ≠ some .forward

/-! ### The run -/

/-- The host ends within `shost`, where its length says. -/
def HostEnds (n : Node) : Prop := ∃ len : Nat, n.hostLen = len ∧ len < domainLen ∧ n.shost len = 0

/-- The map has no entry with address zero, and what waits has a domain that may be inserted. -/
structure Cache.Sound (c : Cache) (T : BitVec 32 → RBTree Addr) : Prop where
  map : NonZero c.calls c.map T
  ring : ∀ n ∈ c.ring, HostEnds n
  pending : ∀ id n, c.forward.node (.node id) = some n → HostEnds n

theorem chars_strlen (s : CString) : s.chars s.strlen = 0 := List.getD_eq_default _ _ le_rfl

/-- A request the parser passes on has its host in `shost`, with zero bytes behind it. -/
theorem hostEnds_of_passed {search : (Nat → Byte) → Int → Ipv4} {fd : Int} {cliaddr : SockAddr} {bytes : List Byte}
    {r : ParserResult} (h : insideParser search (received fd cliaddr bytes) = some r) (hpassed : r.passed = some .forward)
    (hlen : r.node.hostLen < domainLen) : HostEnds r.node := by
  obtain ⟨henters, stop, shost, len, hloop, hshost, hhostLen, -⟩ := loop_of_passed h (hpassed ▸ Option.some_ne_none _)
  obtain ⟨-, -, -, hkeep⟩ := henters.loop_eq_some hloop
  refine ⟨len, hhostLen, by omega, ?_⟩
  rw [hshost, hkeep len le_rfl]
  rfl

theorem hostEnds_update {m m' : Ref → Option Node} {id : Nat} {n : Node} (h : ∀ a n, m (.node a) = some n → HostEnds n)
    (hn : HostEnds n) (hm : m' = Function.update m (.node id) (some n)) : ∀ a n, m' (.node a) = some n → HostEnds n := by
  intro a n' hn'
  rw [hm] at hn'
  by_cases ha : a = id
  · rw [ha, Function.update_self, Option.some.injEq] at hn'
    exact hn' ▸ hn
  · rw [Function.update_of_ne fun heq => ha (Ref.node.inj heq)] at hn'
    exact h a n' hn'

theorem node_of_gethostaddr {s s' : Forward} {r : Ref} {bytes : List Byte} (h : gethostaddr s r = some (s', bytes)) :
    ∃ n flags, s.node r = some n ∧ s'.node = Function.update s.node r (some (n.setRd flags)) := by
  simp only [gethostaddr, Option.bind_eq_bind, Option.bind_eq_some_iff, Option.pure_def, Option.some.injEq,
    Prod.mk.injEq] at h
  obtain ⟨n, hn, flags, -, links, -, rfl, -⟩ := h
  exact ⟨n, flags, hn, rfl⟩

section Steps

variable {c c' : Cache} {T : BitVec 32 → RBTree Addr}

/-- The one step on the map. -/
theorem Cache.Sound.insert (hc : c.Sound T) {malloc : Addr} {insertion : Insertion} {len : Nat} (hfresh : FreshBlock c malloc)
    (hdomainLen : insertion.domainLen = len) (hlen : len < domainLen) (hzero : insertion.domain len = 0)
    (hip : insertion.ipv4 ≠ 0 ∨ c.map.HasEntry insertion.domain len) (h : c.insert malloc insertion = some c') :
    ∃ T', NonZero c'.calls c'.map T' ∧ c'.ring = c.ring ∧ c'.forward = c.forward := by
  have htoNat : insertion.domainLen.toNat = len := by
    rw [hdomainLen]
    rfl
  obtain ⟨map, ret, T', hinsert, hmap⟩ :=
    hc.map.insert hlen hzero (show c.calls.length < c.rounds from Nat.lt_succ_self _) hfresh.1 hfresh.2 hip
  rw [Cache.insert, htoNat, hinsert] at h
  cases h
  exact ⟨T', hmap, rfl, rfl⟩

theorem Cache.Sound.load (hc : c.Sound T) {malloc : Addr} (hfresh : FreshBlock c malloc) (hnever : NeverZero c (.load malloc))
    (h : c.load malloc = some c') : ∃ T', c'.Sound T' := by
  rw [Cache.load] at h
  split at h
  · cases h
  next ptr rest hptr =>
    split at h
    · cases h
      exact ⟨T, hc.map, hc.ring, hc.pending⟩
    next source hsource =>
      obtain ⟨c₁, hinsert, rfl⟩ := Option.map_eq_some_iff.mp h
      have hlen : source.1.strlen < domainLen := by
        simp only [sourceOf, Option.bind_eq_bind, Option.bind_eq_some_iff] at hsource
        obtain ⟨domain, -, ipaddr, -, hsource⟩ := hsource
        obtain ⟨hlen, hsource⟩ := Option.ite_none_right_eq_some.mp hsource
        cases hsource
        exact hlen.1
      have hip : (sourceInsertion source).ipv4 ≠ 0 ∨ c.map.HasEntry source.1.chars source.1.strlen := by
        apply (hnever ptr (by rw [hptr]; rfl) source hsource).imp_left
        rintro ⟨ip, hip, hne⟩
        rwa [sourceInsertion, hip, Option.getD_some]
      obtain ⟨T', hmap, hring, hforward⟩ := hc.insert hfresh rfl hlen (chars_strlen source.1) hip hinsert
      exact ⟨T', hmap, fun n hn => hc.ring n (hring ▸ hn), fun id n hn => hc.pending id n (hforward ▸ hn)⟩

theorem Cache.Sound.work (hc : c.Sound T) {fd : Int} {cliaddr : SockAddr} {bytes : List Byte} {room : Bool}
    (hregular : Regular c (.work fd cliaddr bytes room)) (h : c.work (received fd cliaddr bytes) room = some c') :
    ∃ T', c'.Sound T' := by
  simp only [Cache.work, Option.bind_eq_bind, Option.bind_eq_some_iff, Option.pure_def, Option.some.injEq] at h
  obtain ⟨r, hr, rfl⟩ := h
  by_cases hpassed : r.passed = some .forward ∧ room
  · rw [if_pos hpassed]
    refine ⟨T, hc.map, ?_, hc.pending⟩
    intro n hn
    rcases List.mem_append.mp hn with hn | hn
    · exact hc.ring n hn
    · rw [List.mem_singleton.mp hn]
      exact hostEnds_of_passed hr hpassed.1 (hregular r hr hpassed.1)
  · rw [if_neg hpassed]
    exact ⟨T, hc⟩

theorem Cache.Sound.ask (hc : c.Sound T) {id : Nat} (h : c.ask id = some c') : ∃ T', c'.Sound T' := by
  rw [Cache.ask] at h
  split at h
  · cases h
  next node ring hring =>
    obtain ⟨-, h⟩ := Option.ite_none_right_eq_some.mp h
    simp only [Option.bind_eq_bind, Option.bind_eq_some_iff, Option.pure_def, Option.some.injEq] at h
    obtain ⟨⟨forward, bytes⟩, hask, rfl⟩ := h
    obtain ⟨n', flags, hn', hforward⟩ := node_of_gethostaddr hask
    have hnode : HostEnds (node.setRd flags) := hc.ring node (hring ▸ List.mem_cons_self)
    rw [Forward.deliver_node, Function.update_self, Option.some.injEq] at hn'
    rw [Forward.deliver_node, Function.update_idem, ← hn'] at hforward
    refine ⟨T, hc.map, fun n hn => hc.ring n (hring ▸ List.mem_cons_of_mem _ hn), ?_⟩
    exact hostEnds_update hc.pending hnode hforward

/-- The request a response is matched with, and what `parse_response` then inserts. -/
theorem insertion_of_parseResponse {fuel : Nat} {s s' : Forward} {buff : Int → Byte} {bufflen : Int} {room : Bool}
    {seen : List Ref} (h : parseResponse fuel s buff bufflen room = some (s', seen))
    (hrequest : (requestOf fuel s buff).isSome) :
    ∃ id n visits stored, requestOf fuel s buff = some n ∧ s.node (.node id) = some n ∧
      walk buff bufflen fuel (answerPos n) = some (visits, stored) ∧
      s'.node = Function.update s.node (.node id) (some (storeIpv4 buff n stored)) ∧
      s'.inserted.getLast? = some ⟨n.shost, n.hostLen, (storeIpv4 buff n stored).ipv4⟩ := by
  obtain ⟨item, s₁, seen₁, n, visits, stored, hmatch, hn, hwalk, rfl, -⟩ := parseResponse_eq_some_iff.mp h
  have hlinks := exists_links_of_matchItem hmatch
  rw [requestOf, hmatch] at hrequest ⊢
  cases item with
  | head k => cases hrequest
  | node id =>
      obtain ⟨links, rfl⟩ := hlinks
      refine ⟨id, n, visits, stored, hn, hn, hwalk, Forward.finish_node .., ?_⟩
      rw [Forward.finish_inserted, List.getLast?_concat, storeIpv4_shost, storeIpv4_hostLen]

theorem Cache.Sound.response (hc : c.Sound T) {fuel : Nat} {buff : Int → Byte} {bufflen : Int} {room : Bool} {malloc : Addr}
    (hregular : Regular c (.response fuel buff bufflen room malloc))
    (hnever : NeverZero c (.response fuel buff bufflen room malloc))
    (h : c.response fuel buff bufflen room malloc = some c') : ∃ T', c'.Sound T' := by
  simp only [Cache.response, Option.bind_eq_bind, Option.bind_eq_some_iff, Option.pure_def, Option.some.injEq] at h
  obtain ⟨⟨forward, seen⟩, hparse, insertion, hlast, c₁, hinsert, rfl⟩ := h
  obtain ⟨id, n, visits, stored, hrequest, hn, hwalk, hnode, hinserted⟩ :=
    insertion_of_parseResponse hparse hregular.2
  obtain rfl := Option.some.inj (hlast.symm.trans hinserted)
  obtain ⟨len, hhostLen, hlen, hzero⟩ := hc.pending id n hn
  have hip : (storeIpv4 buff n stored).ipv4 ≠ 0 ∨ c.map.HasEntry n.shost len := by
    have hcase := hnever n hrequest
    rw [hhostLen, Int.toNat_natCast] at hcase
    apply hcase.imp_left
    intro hgives
    obtain ⟨ip, hgives, hne⟩ := hgives
    rw [answerPos, hhostLen] at hwalk
    rwa [hgives.of_walk hwalk n]
  obtain ⟨T', hmap, hring, -⟩ := hc.insert hregular.1 hhostLen hlen hzero hip hinsert
  have hends : HostEnds (storeIpv4 buff n stored) := ⟨len, by rwa [storeIpv4_hostLen], hlen, by rwa [storeIpv4_shost]⟩
  exact ⟨T', hmap, fun n' hn' => hc.ring n' (hring ▸ hn'), hostEnds_update hc.pending hends hnode⟩

/-- Where no entry has address zero, zero means absent. -/
theorem Cache.Sound.zeroMeansAbsent (hc : c.Sound T) : ZeroMeansAbsent c := by
  have hfuel : c.calls.length < c.rounds := Nat.lt_succ_self _
  have hreturned : ∀ malloc domain len ip, .insert malloc domain len ip ∈ c.calls → malloc ≠ 0 →
      ∃ ip', c.map.search c.rounds domain len = some ip' ∧ ip' ≠ 0 := fun malloc domain len ip hmem hne =>
    hc.map.search_ne_zero hfuel (hc.map.present malloc domain len ip hmem hne)
  refine ⟨?_, hreturned, ?_⟩
  · intro domain len hzero hentry
    obtain ⟨ip, hsearch, hne⟩ := hc.map.search_ne_zero hfuel (hc.map.after.of_hasEntry hentry)
    exact hne (Option.some.inj (hsearch.symm.trans hzero))
  · intro malloc domain len ip hmem hne node r hr hshost hlen hpassed
    obtain ⟨ip', hsearch, hne'⟩ := hreturned malloc domain len ip hmem hne
    obtain ⟨-, _, shost, len', -, hshost', hlen', -, hzero⟩ := loop_of_passed hr (hpassed ▸ Option.some_ne_none _)
    obtain rfl : domain = shost := hshost.symm.trans hshost'
    obtain rfl : len = len' := Int.natCast_inj.mp (hlen.symm.trans hlen')
    have hzero := hzero hpassed
    rw [Cache.search, Int.toNat_natCast, hsearch, Option.getD_some] at hzero
    exact hne' hzero

end Steps

theorem Cache.Sound.start {ptr : List XmlNode} {node : Ref → Option Node} (hnode : ∀ id, node (.node id) = none) :
    Cache.Sound ⟨ptr, Hashmap.init, [], [], Forward.initial node⟩ fun _ => .leaf where
  map := NonZero.init
  ring _ hn := absurd hn List.not_mem_nil
  pending id _ hn := absurd ((hnode id).symm.trans hn) (Option.some_ne_none _).symm

/-- Where every configured address and every response that makes an entry gives it an address other than zero,
zero means absent, whatever the order of the steps is. -/
theorem zero_means_absent {c : Cache} (h : cache.Reachable (fun c e => Regular c e ∧ NeverZero c e) c) :
    ZeroMeansAbsent c := by
  have hsound : ∃ T, c.Sound T := by
    apply h.invariant (I := fun c => ∃ T, c.Sound T)
    · intro c hstart
      obtain ⟨pdoc, node, hnode, rfl⟩ := hstart
      exact ⟨_, Cache.Sound.start hnode⟩
    · intro c e c' hsound hguard hnext
      obtain ⟨T, hc⟩ := hsound
      obtain ⟨hregular, hnever⟩ := hguard
      cases e with
      | load malloc => exact hc.load hregular hnever hnext
      | work fd cliaddr bytes room => exact hc.work hregular (Option.ite_none_right_eq_some.mp hnext).2
      | ask id => exact hc.ask hnext
      | response fuel buff bufflen room malloc => exact hc.response hregular hnever hnext
  obtain ⟨T, hc⟩ := hsound
  exact hc.zeroMeansAbsent

/-! ### Runs -/

/-- A document with one source, for the domain `a`. -/
def oneSource (ipaddr : CString) : XmlDoc where
  root := some (.mk ⟨literal "DNSCONFIG", by decide⟩ [] [.mk ⟨literal "Root", by decide⟩ []
    [.mk ⟨literal "IPSource", by decide⟩
      [(⟨literal "Domain", by decide⟩, ⟨literal "a", by decide⟩), (⟨literal "ipaddr", by decide⟩, ipaddr)] []]])

/-- The daemon before the loader's loop. -/
def loading (pdoc : Option XmlDoc) : Cache := ⟨firstSource pdoc, Hashmap.init, [], [], Forward.initial fun _ => none⟩

theorem loading_start (pdoc : Option XmlDoc) : cache.start (loading pdoc) := ⟨pdoc, _, fun _ => rfl, rfl⟩

theorem zero_means_absent_one : ∃ c, (loading (some (oneSource ⟨literal "1.2.3.4", by decide⟩))).load 16 = some c ∧
    ZeroMeansAbsent c := by
  have hsome : ((loading (some (oneSource ⟨literal "1.2.3.4", by decide⟩))).load 16).isSome := rfl
  obtain ⟨c, hload⟩ := Option.isSome_iff_exists.mp hsome
  have hnext : cache.next (loading (some (oneSource ⟨literal "1.2.3.4", by decide⟩))) (.load 16) = some c := hload
  have hregular : Regular (loading (some (oneSource ⟨literal "1.2.3.4", by decide⟩))) (.load 16) :=
    ⟨rfl, List.not_mem_nil⟩
  refine ⟨c, hload, zero_means_absent (.step (.start (loading_start _)) ⟨hregular, ?_⟩ hnext)⟩
  intro ptr hptr source hsource
  cases hptr
  cases hsource
  exact Or.inl ⟨0x04030201, by decide, by decide⟩

def hostA : Nat → Byte := put (fun _ => 0) 0 [0x61]

/-- A search for the domain `a` returns zero though it has an entry; a response has given an address for it, and
the parser passes a query for it on to be forwarded. -/
structure Stuck (c : Cache) : Prop where
  entry : c.map.HasEntry hostA 1
  zero : c.map.search c.rounds hostA 1 = some 0
  inserted : ∃ domain, text domain = text hostA ∧ .insert 32 domain 1 0x04030201 ∈ c.calls
  forwarded : (insideParser c.search (received 3 ⟨5, 6⟩ (Query.single (0x12, 0x34) 0x61).encode)).map
    ParserResult.passed = some (some .forward)

/-- A query for `a` that is forwarded, and the response to it, with these records as its answers. -/
def exchanged (id : Nat) (malloc : Addr) (answers : List ResourceRecord) : List CacheStep :=
  let bytes := responseBytes (.single (0x12, 0x34) 0x61)
    [0x81, 0x80, 0, 1, 0, BitVec.ofNat 8 answers.length, 0, 0, 0, 0] answers
  [.work 3 ⟨5, 6⟩ (Query.single (0x12, 0x34) 0x61).encode true, .ask id,
    .response 64 (inBuffer bytes) bytes.length true malloc]

def addressA : ResourceRecord :=
  ⟨.pointer 0xc0 12 isDeflate_pointer, (0, 1), (0, 1), (0, 0, 0, 60), [1, 2, 3, 4], address_lt⟩

/-- What a run shows: the root of the bucket of `a`, the string at address 16, what a search returns, the calls,
and where a query goes. -/
structure Observed where
  root : Addr
  entry : Option (List Byte)
  found : Option Ipv4
  calls : List (Option (Addr × List Byte × Nat × Ipv4))
  passed : Option (Option Queue)
  deriving DecidableEq

def observed (c : Cache) : Observed where
  root := c.map.array (insideHash hostA 1)
  entry := (c.map.entry 16).map fun e => text e.domain
  found := c.map.search c.rounds hostA 1
  calls := c.calls.map fun
    | .insert malloc domain len ip => some (malloc, text domain, len, ip)
    | .search .. => none
  passed := (insideParser c.search (received 3 ⟨5, 6⟩ (Query.single (0x12, 0x34) 0x61).encode)).map ParserResult.passed

/-- The runs below end alike: an entry made with address zero, and the response's insertion behind it. -/
def stuckObserved : Observed :=
  ⟨16, some [0x61], some 0, [some (16, [0x61], 1, 0), some (32, [0x61], 1, 0x04030201)], some (some .forward)⟩

theorem stuck_of_observed {c : Cache} (h : observed c = stuckObserved) : Stuck c := by
  simp only [observed, stuckObserved, Observed.mk.injEq] at h
  obtain ⟨harray, hentry, hzero, hcalls, hforwarded⟩ := h
  obtain ⟨e, he, htext⟩ := Option.map_eq_some_iff.mp hentry
  have htextA : text hostA = [0x61] := by decide +kernel
  refine ⟨⟨16, e, .root harray (by decide), he, htext.trans htextA.symm⟩, hzero, ?_, hforwarded⟩
  have hmem : some ((32 : Addr), [(0x61 : Byte)], 1, (0x04030201 : Ipv4)) ∈ _ :=
    hcalls ▸ List.mem_cons_of_mem _ List.mem_cons_self
  obtain ⟨call, hcall, heq⟩ := List.mem_map.mp hmem
  cases call with
  | search => cases heq
  | insert malloc domain len ip =>
      obtain ⟨rfl, hdomain, rfl, rfl⟩ := by simpa only [Option.some.injEq, Prod.mk.injEq] using heq
      exact ⟨domain, hdomain.trans htextA.symm, hcall⟩

/-- A source whose address `inet_pton` rejects, or a response without an address, and no later response helps. -/
theorem stuck_runs :
    (∃ c, cache.Run Regular (loading (some (oneSource ⟨literal "1.2.3", by decide⟩)))
      (.load 16 :: exchanged 0 32 [addressA]) c ∧ Stuck c) ∧
    ∃ c, cache.Run Regular (loading none) (exchanged 0 16 [] ++ exchanged 1 32 [addressA]) c ∧ Stuck c := by
  have hsource : (cache.replay Regular (loading (some (oneSource ⟨literal "1.2.3", by decide⟩)))
      (.load 16 :: exchanged 0 32 [addressA])).map observed = some stuckObserved := by decide +kernel
  have hresponse : (cache.replay Regular (loading none) (exchanged 0 16 [] ++ exchanged 1 32 [addressA])).map observed =
      some stuckObserved := by decide +kernel
  obtain ⟨c, hrun, hobserved⟩ := Option.map_eq_some_iff.mp hsource
  obtain ⟨c', hrun', hobserved'⟩ := Option.map_eq_some_iff.mp hresponse
  exact ⟨⟨c, .of_replay hrun, stuck_of_observed hobserved⟩, c', .of_replay hrun', stuck_of_observed hobserved'⟩

end SimpDserver.Daemon

import SimpDserver.Cache.Key
import SimpDserver.Cache.Lookup
import SimpDserver.Pipeline.Changes
import SimpDserver.Work.Asked

/-!
# Where addresses come from

Responses are matched with requests by their ID alone, and whatever a response is taken to say is in the cache for
good. What the daemon inserts or sends under a name nevertheless has an origin that names it: the configuration,
or a response with the ID of a request for that name.
-/

namespace SimpDserver.Daemon

open Custody NetHashmap Transition

/-- The daemon, with the hash map that the loader has put the configured sources in. -/
def cachingPipeline (malloc : Nat → Addr) (config : Config) : Machine Pipeline PipelineStep :=
  pipeline fun inserted => searchAfter malloc (config.inserted.map sourceInsertion ++ inserted)

/-- The datagram is this query, as far as it is kept. -/
def Received.Asks (rec : Received) (q : Query) : Prop := q.encode = rec.bytes.take reqDataLen

/-- Where an address for a name comes from, `es` having happened: nowhere, a configured source, or a response that
has the ID of a request for the name and, behind a question of that request's length, records up to one whose four
bytes are the address. -/
inductive Origin (config : Config) (es : List PipelineStep) (received : List Received) (key : List Byte) : Ipv4 → Prop
  | absent : Origin config es received key 0
  | configured {source : CString × CString} (hsource : source ∈ config.inserted) (hkey : source.1.bytes = key) :
      Origin config es received key ((inetPton source.2).getD 0)
  | answered {rec : Received} {q : Query} (hrec : rec ∈ received) (hasks : rec.Asks q) (hkey : q.key = key) {fuel : Nat}
      {buff : Int → Byte} {bufflen : Int} (hresponse : .respond fuel buff bufflen ∈ es)
      (hiden : load16 q.iden.1 q.iden.2 = load16 (buff 0) (buff 1)) {visits : List Int} {pos : Int}
      (hwalk : walk buff bufflen fuel (12 + q.host.length + 6) = some (visits, some pos)) :
      Origin config es received key (load32 (buff pos) (buff (pos + 1)) (buff (pos + 2)) (buff (pos + 3)))

theorem Origin.mono {config : Config} {es es' : List PipelineStep} {received received' : List Received} {key : List Byte}
    {ip : Ipv4} (h : Origin config es received key ip) (hes : es ⊆ es') (hreceived : received ⊆ received') :
    Origin config es' received' key ip := by
  cases h with
  | absent => exact .absent
  | configured hsource hkey => exact .configured hsource hkey
  | answered hrec hasks hkey hresponse hiden hwalk =>
      exact .answered (hreceived hrec) hasks hkey (hes hresponse) hiden hwalk

/-! ### Names -/

/-- The node is what the parser has made of the query, but for the datagram and the address. -/
structure ParsedAs (q : Query) (n : Node) : Prop where
  shost : n.shost = put (fun _ => 0) 0 q.host
  hostLen : n.hostLen = q.host.length
  iden : n.iden = load16 q.iden.1 q.iden.2

theorem Query.cstring_host (q : Query) : cstring q.host.length (put (fun _ => 0) 0 q.host) = q.key := cstring_put le_rfl

theorem Query.host_lt (q : Query) : q.host.length < domainLen := by
  have := q.name.host_le
  rw [Query.host, domainLen]
  omega

theorem Query.text_host (q : Query) : text (put (fun _ => 0) 0 q.host) = q.key := cstring_put q.host_lt.le

theorem CString.cstring_chars {s : CString} (h : s.strlen < domainLen) : cstring s.strlen s.chars = s.bytes :=
  (isDomain h).cstring.trans (text_chars h)

/-! ### Runs -/

variable {s t : Pipeline} {T T' : BitVec 32 → List Nat} {e : PipelineStep}

/-- What holds in every state of a run: requests that have been parsed, insertions and replies have a query that was
received, and an address with an origin. -/
structure Sourced (config : Config) (es : List PipelineStep) (s : Pipeline) (T : BitVec 32 → List Nat) : Prop where
  owned : Owned s T
  wellFormed : ∀ rec ∈ s.received, WellFormed rec.bytes
  parsed : ∀ r, Held (s.holds T) r → ∀ n, s.forward.node r = some n → n.flags ≠ none →
    ∃ rec ∈ s.received, r = .node rec.id ∧ ∃ q, rec.Asks q ∧ ParsedAs q n ∧ Origin config es s.received q.key n.ipv4
  inserted : ∀ ins ∈ s.forward.inserted, ∃ rec ∈ s.received, ∃ q, rec.Asks q ∧ ins.domain = put (fun _ => 0) 0 q.host ∧
    ins.domainLen = q.host.length ∧ Origin config es s.received q.key ins.ipv4
  sent : ∀ m ∈ s.sent, ∃ rec ∈ s.received, m.item = .node rec.id ∧ ∃ q, rec.Asks q ∧
    ∃ ip low, answerRecord ip low <:+ m.datagram ∧ Origin config es s.received q.key ip

/-- The last record of a reply has the node's address. -/
theorem answerRecord_suffix {n : Node} (hlen : 8 ≤ n.datalen) :
    ∃ low, answerRecord n.ipv4 low <:+ (writeBack n).datagram := by
  have hrecord := writeBack_holds_record n hlen
  have hall : Holds (writeBack n).data 0 (writeBack n).datagram := holds_datagram.mpr fun _ _ => rfl
  have hlength : (writeBack n).datagram.length = n.datalen + 16 := by
    rw [Node.datagram, List.length_map, List.length_range, writeBack_datalen]
  have hdrop := holds_ext (holds_drop hall (show n.datalen ≤ _ by omega)) hrecord
    (by rw [List.length_drop, hlength, Nat.add_sub_cancel_left]; rfl)
  exact ⟨_, hdrop ▸ List.drop_suffix n.datalen _⟩

/-- So has that of a reply to a query. -/
theorem Kept.answerRecord_suffix {n : Node} {rec : Received} (h : Kept n rec) (hwell : WellFormed rec.bytes) :
    ∃ low, answerRecord n.ipv4 low <:+ (writeBack n).datagram := by
  apply Daemon.answerRecord_suffix
  have hlen := hwell.headerSize_le
  have hdatalen : n.datalen = min rec.bytes.length reqDataLen := h.datalen
  rw [hdatalen, reqDataLen]
  omega

section Step

variable {malloc : Nat → Addr} {config : Config} {es : List PipelineStep}

theorem Sourced.fits (hs : Sourced config es s T) : ∀ ins ∈ s.forward.inserted, ins.domainLen.toNat < domainLen := by
  intro ins hins
  obtain ⟨-, -, q, -, -, hlen, -⟩ := hs.inserted ins hins
  rw [hlen, Int.toNat_natCast]
  exact q.host_lt

/-- What a search for a query's name returns has an origin. -/
theorem Sourced.found (hs : Sourced config es s T) (hmalloc : Blocks malloc)
    (hfits : ∀ source ∈ config.inserted, source.1.strlen < domainLen) (q : Query) : Origin config es s.received q.key
      (searchAfter malloc (config.inserted.map sourceInsertion ++ s.forward.inserted) (put (fun _ => 0) 0 q.host)
        q.host.length) := by
  have hlen : ∀ ins ∈ config.inserted.map sourceInsertion ++ s.forward.inserted, ins.domainLen.toNat < domainLen := by
    rw [List.forall_mem_append, List.forall_mem_map]
    exact ⟨hfits, hs.fits⟩
  rcases searchAfter_cases hmalloc hlen (put (fun _ => 0) 0 q.host) q.host.length with hzero | ⟨ins, hins, hkey, hip⟩
  · rw [hzero]
    exact .absent
  rw [hip]
  rw [q.text_host] at hkey
  rcases List.mem_append.mp hins with hins | hins
  · obtain ⟨source, hsource, rfl⟩ := List.mem_map.mp hins
    exact .configured hsource ((CString.cstring_chars (hfits source hsource)).symm.trans hkey)
  · obtain ⟨rec, hrec, q', hasks, hdomain, hlen', horigin⟩ := hs.inserted ins hins
    rw [hdomain, hlen', Int.toNat_natCast, q'.cstring_host] at hkey
    exact hkey ▸ horigin

/-- A step leaves requests that have been parsed with a query and an origin. -/
theorem Sourced.parsed_step (hs : Sourced config es s T) (hmalloc : Blocks malloc)
    (hfits : ∀ source ∈ config.inserted, source.1.strlen < domainLen) (hanswering : Answering s e)
    (hnext : (cachingPipeline malloc config).next s e = some t) (htable : Table t.forward T')
    (heffect : Effect (fun inserted => searchAfter malloc (config.inserted.map sourceInsertion ++ inserted)) s T e t T')
    {r : Ref} (hheld : Held (t.holds T') r) {n : Node} (hn : t.forward.node r = some n) (hflags : n.flags ≠ none) :
    ∃ rec ∈ t.received, r = .node rec.id ∧ ∃ q, rec.Asks q ∧ ParsedAs q n ∧
      Origin config (es ++ [e]) t.received q.key n.ipv4 := by
  have hreceived := heffect.received_subset
  have hes : es ⊆ es ++ [e] := List.subset_append_left _ _
  cases hs.owned.held_change hanswering hnext htable heffect hheld hn hflags with
  | same hheld hn =>
      obtain ⟨rec, hrec, hr, q, hasks, hparsed, horigin⟩ := hs.parsed r hheld n hn hflags
      exact ⟨rec, hreceived hrec, hr, q, hasks, hparsed, horigin.mono hes hreceived⟩
  | asked m flags hheld hm hmflags heq =>
      obtain ⟨rec, hrec, hr, q, hasks, hparsed, horigin⟩ := hs.parsed r hheld m hm (hmflags ▸ Option.some_ne_none _)
      subst heq
      exact ⟨rec, hreceived hrec, hr, q, hasks, ⟨hparsed.shost, hparsed.hostLen, hparsed.iden⟩, horigin.mono hes hreceived⟩
  | answered fuel buff bufflen m visits stored he hheld _ hm hmflags hiden hwalk heq =>
      obtain ⟨rec, hrec, hr, q, hasks, hparsed, horigin⟩ := hs.parsed r hheld m hm hmflags
      subst he heq
      refine ⟨rec, hreceived hrec, hr, q, hasks, ?_⟩
      cases stored with
      | none => exact ⟨hparsed, horigin.mono hes hreceived⟩
      | some pos =>
          refine ⟨⟨hparsed.shost, hparsed.hostLen, hparsed.iden⟩, ?_⟩
          rw [answerPos, hparsed.hostLen] at hwalk
          exact .answered (hreceived hrec) hasks rfl (List.mem_append_right _ List.mem_cons_self)
            (hparsed.iden.symm.trans hiden) hwalk
  | parsed rec res hrec hr hres hpassed heq =>
      obtain ⟨q, hasks, rfl⟩ := (hs.wellFormed rec hrec).query hres hpassed
      subst heq
      refine ⟨rec, hreceived hrec, hr, q, hasks, ?_⟩
      have horigin := (hs.found hmalloc hfits q).mono hes hreceived
      rw [Query.passedOn]
      split
      · exact ⟨⟨rfl, rfl, rfl⟩, .absent⟩
      · exact ⟨⟨rfl, rfl, rfl⟩, horigin⟩

theorem Sourced.step (hs : Sourced config es s T) (hmalloc : Blocks malloc)
    (hfits : ∀ source ∈ config.inserted, source.1.strlen < domainLen) (hbehaved : WellBehaved s e)
    (hnext : (cachingPipeline malloc config).next s e = some t) (htable : Table t.forward T')
    (heffect : Effect (fun inserted => searchAfter malloc (config.inserted.map sourceInsertion ++ inserted)) s T e t T') :
    Sourced config (es ++ [e]) t T' := by
  have hreceived := heffect.received_subset
  have hes : es ⊆ es ++ [e] := List.subset_append_left _ _
  refine ⟨hs.owned.step htable heffect, heffect.wellFormed hbehaved hs.wellFormed, ?_, ?_, ?_⟩
  · exact fun r hheld n hn hflags => hs.parsed_step hmalloc hfits hbehaved.1 hnext htable heffect hheld hn hflags
  · have hold : ∀ ins ∈ s.forward.inserted, ∃ rec ∈ t.received, ∃ q, rec.Asks q ∧ ins.domain = put (fun _ => 0) 0 q.host ∧
        ins.domainLen = q.host.length ∧ Origin config (es ++ [e]) t.received q.key ins.ipv4 := by
      intro ins hins
      obtain ⟨rec, hrec, q, hasks, hdomain, hlen, horigin⟩ := hs.inserted ins hins
      exact ⟨rec, hreceived hrec, q, hasks, hdomain, hlen, horigin.mono hes hreceived⟩
    rcases inserted_cases hnext with heq | ⟨item, n, hforwarder, hn, heq⟩
    · exact heq ▸ hold
    · rw [heq, List.forall_mem_append, List.forall_mem_singleton]
      refine ⟨hold, ?_⟩
      have hmem : item ∈ s.holds T .answering := by simp [Pipeline.holds, hforwarder]
      obtain ⟨rec, -, -, hat⟩ := hs.owned.nodeAt hmem hn
      have hkept : Kept n rec := hat
      obtain ⟨rec', hrec, -, q, hasks, hparsed, horigin⟩ := hs.parsed item ⟨_, hmem⟩ n hn
        (hkept.flags ▸ Option.some_ne_none _)
      exact ⟨rec', hreceived hrec, q, hasks, hparsed.shost, hparsed.hostLen, horigin.mono hes hreceived⟩
  · have hold : ∀ m ∈ s.sent, ∃ rec ∈ t.received, m.item = .node rec.id ∧ ∃ q, rec.Asks q ∧
        ∃ ip low, answerRecord ip low <:+ m.datagram ∧ Origin config (es ++ [e]) t.received q.key ip := by
      intro m hm
      obtain ⟨rec, hrec, hitem, q, hasks, ip, low, hsuffix, horigin⟩ := hs.sent m hm
      exact ⟨rec, hreceived hrec, hitem, q, hasks, ip, low, hsuffix, horigin.mono hes hreceived⟩
    rcases heffect.sent_cases with heq | ⟨r, n, hmem, hn, -, heq⟩
    · exact heq ▸ hold
    · rw [heq, List.forall_mem_append, List.forall_mem_singleton]
      refine ⟨hold, ?_⟩
      obtain ⟨rec, hrec, -, hat⟩ := hs.owned.nodeAt hmem hn
      have hkept : Kept n rec := hat
      obtain ⟨low, hsuffix⟩ := hkept.answerRecord_suffix (hs.wellFormed rec hrec)
      obtain ⟨rec', hrec', hr, q, hasks, -, horigin⟩ := hs.parsed r ⟨_, hmem⟩ n hn (hkept.flags ▸ Option.some_ne_none _)
      exact ⟨rec', hreceived hrec', hr, q, hasks, n.ipv4, low, hsuffix, horigin.mono hes hreceived⟩

end Step

theorem Sourced.start (config : Config) {node : Ref → Option Node} (hnode : ∀ id, node (.node id) = none) :
    Sourced config [] (Pipeline.initial node) fun _ => [] where
  owned := .start hnode
  wellFormed _ hrec := absurd hrec List.not_mem_nil
  parsed r hheld _ _ _ := absurd hheld (not_held_initial hnode r)
  inserted _ hins := absurd hins List.not_mem_nil
  sent _ hm := absurd hm List.not_mem_nil

theorem exists_sourced {malloc : Nat → Addr} {config : Config} {node : Ref → Option Node} {es : List PipelineStep}
    (hmalloc : Blocks malloc) (hfits : ∀ source ∈ config.inserted, source.1.strlen < domainLen)
    (hnode : ∀ id, node (.node id) = none)
    (hrun : (cachingPipeline malloc config).Run WellBehaved (Pipeline.initial node) es s) : ∃ T, Sourced config es s T := by
  induction hrun with
  | nil => exact ⟨_, .start config hnode⟩
  | snoc _ hbehaved hnext ih =>
      obtain ⟨T, hs⟩ := ih
      obtain ⟨T', htable, heffect⟩ := hs.owned.effect hbehaved.1 hnext
      exact ⟨T', hs.step hmalloc hfits hbehaved hnext htable heffect⟩

/-- In every run of well-behaved clients and servers, with whatever configuration: an address that is inserted under
a name, or sent in the answer to a query for a name, was configured for this name, or stems from a response that has
the ID of a request for it, or is zero. -/
theorem addresses_sourced {malloc : Nat → Addr} {config : Config} {fuel : Nat} {pdoc : Option XmlDoc} {ret : Int}
    {node : Ref → Option Node} {es : List PipelineStep} {s : Pipeline}
    (hconfig : configModuleParser fuel Config.initial pdoc = some (config, ret)) (hmalloc : Blocks malloc)
    (hnode : ∀ id, node (.node id) = none)
    (hrun : (cachingPipeline malloc config).Run WellBehaved (Pipeline.initial node) es s) :
    (∀ ins ∈ s.forward.inserted, ∃ rec ∈ s.received, ∃ q, rec.Asks q ∧ cstring ins.domainLen.toNat ins.domain = q.key ∧
      Origin config es s.received q.key ins.ipv4) ∧
    ∀ m ∈ s.sent, ∃ rec ∈ s.received, m.item = .node rec.id ∧ ∃ q, rec.Asks q ∧
      ∃ ip low, answerRecord ip low <:+ m.datagram ∧ Origin config es s.received q.key ip := by
  obtain ⟨T, hs⟩ := exists_sourced hmalloc (strlen_of_configModuleParser hconfig) hnode hrun
  refine ⟨fun ins hins => ?_, hs.sent⟩
  obtain ⟨rec, hrec, q, hasks, hdomain, hlen, horigin⟩ := hs.inserted ins hins
  refine ⟨rec, hrec, q, hasks, ?_, horigin⟩
  rw [hdomain, hlen, Int.toNat_natCast, q.cstring_host]

/-- Two addresses are configured for `a`; a query for it is answered from the cache. -/
theorem addresses_sourced_cached : ∃ (es : List PipelineStep) (s : Pipeline), s.sent.length = 1 ∧ ∀ m ∈ s.sent,
    ∃ rec ∈ s.received, m.item = .node rec.id ∧ ∃ q, rec.Asks q ∧ ∃ ip low, answerRecord ip low <:+ m.datagram ∧
      Origin twoSources.config es s.received q.key ip := by
  have hstart : (cachingPipeline twoBlocks twoSources.config).start (Pipeline.initial fun _ => none) := ⟨_, fun _ => rfl, rfl⟩
  obtain ⟨s, hs, hsent⟩ : ∃ s, (cachingPipeline twoBlocks twoSources.config).Reachable OneClient s ∧ _ :=
    Machine.Reachable.of_replay hstart
      [.receive 3 ⟨5, 6⟩ (Query.single (0x12, 0x34) 0x61).encode, .pushWork true, .popWork, .parse, .pass true, .popBundle,
        .writeBack]
      (f := fun s => s.sent.length) (v := 1) (by decide +kernel)
  have hwell : (cachingPipeline twoBlocks twoSources.config).Reachable WellBehaved s :=
    hs.weaken fun _ e _ _ h => wellBehaved_of_oneClient e h
  obtain ⟨_, es, ⟨node, hnode, rfl⟩, hrun⟩ := hwell
  exact ⟨es, s, hsent,
    (addresses_sourced (configModuleParser_eq (show _ < 3 by decide)) blocks_twoBlocks hnode hrun).2⟩

end SimpDserver.Daemon

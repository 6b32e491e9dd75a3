import SimpDserver.Pipeline.Origin

/-!
# Configured names

The loader's insertions come first, and the first write wins: a request for a name that has an address in the
configuration finds it there, whatever responses have said meanwhile. So it never takes the way through the forward
thread, and its reply has the configured address.
-/

namespace SimpDserver.Daemon

open Custody NetHashmap Transition

/-- The query is for a name without zero bytes that the configuration gives this address, other than zero. -/
structure Configured (config : Config) (q : Query) (ip : Ipv4) : Prop where
  plain : ∀ l ∈ q.name.labels, 0 ∉ l
  address : configuredAddress config.inserted q.host = some ip
  ne_zero : ip ≠ 0

section Search

variable {malloc : Nat → Addr} {config : Config} {q : Query} {ip : Ipv4}

theorem Query.isDomain_host (hplain : ∀ l ∈ q.name.labels, 0 ∉ l) : IsDomain (put (fun _ => 0) 0 q.host) q.host.length where
  lt := q.host_lt
  zero := put_of_ge q.host (by rw [Nat.zero_add])
  ne_zero i hi := by
    have hbyte := holds_iff.mp (holds_put (fun _ => 0) 0 q.host) i hi
    rw [Nat.zero_add, List.getD_eq_getElem _ _ hi] at hbyte
    rw [hbyte]
    exact joinLabels_ne_zero hplain _ (List.getElem_mem hi)

theorem Query.key_eq_host (hplain : ∀ l ∈ q.name.labels, 0 ∉ l) : q.key = q.host :=
  List.takeWhile_eq_self_iff.mpr fun _ hc => decide_eq_true (joinLabels_ne_zero hplain _ hc)

/-- The search finds the configured address behind whatever insertions. -/
theorem Configured.search (h : Configured config q ip) (hmalloc : Blocks malloc)
    (hfits : ∀ source ∈ config.inserted, source.1.strlen < domainLen)
    (hmemory : ∀ i < config.inserted.length, malloc i ≠ 0) {inserted : List Insertion}
    (hlen : ∀ ins ∈ inserted, ins.domainLen.toNat < domainLen) :
    searchAfter malloc (config.inserted.map sourceInsertion ++ inserted) (put (fun _ => 0) 0 q.host) q.host.length = ip := by
  apply searchAfter_first hmalloc (proper_sources hmalloc hfits hmemory) (Query.isDomain_host h.plain) _ hlen
  rw [firstInsert_sources malloc hfits, q.text_host, Query.key_eq_host h.plain]
  exact h.address

/-- What the parser makes of the query, with such a search. -/
theorem Received.Asks.insideParser {rec : Received} (h : rec.Asks q) (search : (Nat → Byte) → Int → Ipv4)
    (hsearch : search (put (fun _ => 0) 0 q.host) q.host.length = ip) (hne : ip ≠ 0) :
    Daemon.insideParser search rec.node = some ⟨(q.parsed rec.fd rec.cliaddr).setIpv4 ip, 0, some .bundle⟩ := by
  rw [Received.node, ← received_take, ← show q.encode = rec.bytes.take reqDataLen from h, q.insideParser_eq, hsearch,
    Query.passedOn, if_neg hne]

end Search

/-! ### The way through the forward thread -/

/-- The request is on its way to the upstream server, or has been sent there. -/
def Forwarding (s : Pipeline) (T : BitVec 32 → List Nat) (id : Nat) : Prop :=
  s.worker = .passing id .forward ∨ id ∈ s.forwardRing ∨ s.forwarder = .asking id ∨ ∃ h, id ∈ T h

variable {search : List Insertion → (Nat → Byte) → Int → Ipv4} {s t : Pipeline} {T T' : BitVec 32 → List Nat}
  {e : PipelineStep} {id : Nat}

/-- What waits after a request has been sent upstream: this one, and what waited before. -/
theorem Owned.pending_of_ask (hs : Owned s T) {asked : Nat} {n : Node} {links : CircularList.Links Ref} {f : Forward}
    (hforwarder : s.forwarder = .asking asked) (hn : s.forward.node (.node asked) = some n)
    (hlinks : listAddTail s.forward.links (.node asked) (.head (integerHash n.iden)) = some links)
    (htable : Table f T') (hf : f.links = links) {h : BitVec 32} (hid : id ∈ T' h) : id = asked ∨ id ∈ T h := by
  have hmem : Ref.node asked ∈ s.holds T .asking := by simp [Pipeline.holds, hforwarder]
  obtain ⟨links', hadd, htable'⟩ := hs.table.listAddTail hn (hs.not_waiting hmem (by simp))
  obtain rfl := Option.some.inj (hadd.symm.trans hlinks)
  obtain rfl := htable'.eq_of_links htable hf
  by_cases hh : h = integerHash n.iden
  · subst hh
    rw [Function.update_self, List.mem_append, List.mem_singleton] at hid
    exact hid.symm
  · rw [Function.update_of_ne hh] at hid
    exact Or.inr hid

/-- A response takes at most one request off its list. -/
theorem Table.pending_of_match {f f' forward : Forward} (hT : Table f T) {fuel : Nat} {buff : Int → Byte} {item : Ref}
    {seen : List Ref} (hmatch : matchItem fuel f buff = some (item, forward, seen)) (htable : Table f' T')
    (hf : f'.links = forward.links) {h : BitVec 32} (hid : id ∈ T' h) : id ∈ T h := by
  rcases hT.matchItem_cases hmatch with ⟨pre, id', post, links, hsplit, -, -, -, rfl, -, htable'⟩ | ⟨-, -, rfl, -⟩
  · obtain rfl := htable'.eq_of_links htable hf
    by_cases hh : h = integerHash (load16 (buff 0) (buff 1))
    · subst hh
      rw [Function.update_self, List.mem_append] at hid
      rw [hsplit, List.mem_append, List.mem_cons]
      exact hid.imp_right Or.inr
    · rwa [Function.update_of_ne hh] at hid
  · obtain rfl := hT.eq_of_links htable hf
    exact hid

/-- Only the parser puts a request on that way. -/
theorem Owned.forwarding_step (hs : Owned s T) (hnext : (pipeline search).next s e = some t)
    (htable : Table t.forward T') (h : Forwarding t T' id) : Forwarding s T id ∨ ∃ n res, s.worker = .parsing id ∧
      s.forward.node (.node id) = some n ∧ insideParser (search s.forward.inserted) n = some res ∧
      res.passed = some .forward := by
  have hkept : t.forward.links = s.forward.links → T' = T := hs.table.eq_of_links htable
  cases pipeline_cases hnext with
  | receive | receiveNothing | pushWork | popBundle | writeBack =>
      obtain rfl := hkept rfl
      exact Or.inl h
  | popWork =>
      obtain rfl := hkept rfl
      exact Or.inl (h.imp_left fun hworker => by cases hworker)
  | parse id' n res hworker hn hres =>
      obtain rfl := hkept rfl
      rcases h with hpassing | h
      · dsimp only at hpassing
        cases hpassed : res.passed with
        | none =>
            rw [hpassed] at hpassing
            cases hpassing
        | some queue =>
            rw [hpassed] at hpassing
            cases hpassing
            exact Or.inr ⟨n, res, hworker, hn, hres, hpassed⟩
      · exact Or.inl (Or.inr h)
  | passForward room id' hworker =>
      obtain rfl := hkept rfl
      rcases h with hpassing | hring | h
      · cases hpassing
      · cases room with
        | true =>
            rcases List.mem_append.mp hring with hring | hring
            · exact Or.inl (Or.inr (Or.inl hring))
            · exact Or.inl (Or.inl (List.mem_singleton.mp hring ▸ hworker))
        | false => exact Or.inl (Or.inr (Or.inl hring))
      · exact Or.inl (Or.inr (Or.inr h))
  | passBundle =>
      obtain rfl := hkept (bundleEnqueue_links ..)
      exact Or.inl (h.imp_left fun hpassing => by cases hpassing)
  | popForward id' ring hforwarder hring =>
      obtain rfl := hkept rfl
      rcases h with hpassing | hmem | hasking | h
      · exact Or.inl (Or.inl hpassing)
      · exact Or.inl (Or.inr (Or.inl (hring ▸ List.mem_cons_of_mem _ hmem)))
      · cases hasking
        exact Or.inl (Or.inr (Or.inl (hring ▸ List.mem_cons_self)))
      · exact Or.inl (Or.inr (Or.inr (Or.inr h)))
  | ask id' n flags links hforwarder hn _ hlinks =>
      rcases h with hpassing | hring | hasking | ⟨h, hid⟩
      · exact Or.inl (Or.inl hpassing)
      · exact Or.inl (Or.inr (Or.inl hring))
      · cases hasking
      · rcases hs.pending_of_ask hforwarder hn hlinks htable rfl hid with rfl | hid
        · exact Or.inl (Or.inr (Or.inr (Or.inl hforwarder)))
        · exact Or.inl (Or.inr (Or.inr (Or.inr ⟨h, hid⟩)))
  | respond fuel buff bufflen item links seen n visits stored _ hmatch =>
      rcases h with hpassing | hring | hasking | ⟨h, hid⟩
      · exact Or.inl (Or.inl hpassing)
      · exact Or.inl (Or.inr (Or.inl hring))
      · cases hasking
      · exact Or.inl (Or.inr (Or.inr (Or.inr ⟨h, hs.table.pending_of_match hmatch htable rfl hid⟩)))
  | insert =>
      obtain rfl := hkept rfl
      exact Or.inl (h.imp_right (Or.imp_right (Or.imp_left fun hasking => by cases hasking)))
  | pushBundle =>
      obtain rfl := hkept (bundleEnqueue_links ..)
      exact Or.inl (h.imp_right (Or.imp_right (Or.imp_left fun hasking => by cases hasking)))

/-! ### Runs -/

/-- A datagram is received into a new node. -/
theorem Effect.received_of_lt (h : Effect search s T e t T') {rec : Received} (hrec : rec ∈ t.received)
    (hlt : rec.id < s.allocated) : rec ∈ s.received := by
  rcases h.received_cases with heq | ⟨rec', hid, -, -, heq⟩
  · exact heq ▸ hrec
  · rw [heq] at hrec
    apply (List.mem_append.mp hrec).resolve_right
    intro hnew
    rw [List.mem_singleton.mp hnew] at hlt
    omega

theorem Owned.received_of_held (hs : Owned s T) (heffect : Effect search s T e t T') {rec : Received}
    (hrec : rec ∈ t.received) (hheld : Held (s.holds T) (.node rec.id)) : rec ∈ s.received :=
  heffect.received_of_lt hrec (not_le.mp fun hle => hs.not_held hle hheld)

theorem held_of_forwarding (h : Forwarding s T id) : Held (s.holds T) (.node id) := by
  rcases h with hworker | hring | hforwarder | ⟨h, hid⟩
  · exact ⟨.passing, by simp [Pipeline.holds, hworker]⟩
  · exact ⟨.forwardRing, List.mem_map_of_mem hring⟩
  · exact ⟨.asking, by simp [Pipeline.holds, hforwarder]⟩
  · exact ⟨.pending h, List.mem_map_of_mem hid⟩

/-- Requests for configured names are not forwarded, have the configured address once they have been parsed, and are
answered with it. -/
structure Overriding (config : Config) (s : Pipeline) (T : BitVec 32 → List Nat) : Prop where
  direct : ∀ rec ∈ s.received, ∀ q ip, rec.Asks q → Configured config q ip → ¬Forwarding s T rec.id
  address : ∀ rec ∈ s.received, Held (s.holds T) (.node rec.id) → ∀ n, s.forward.node (.node rec.id) = some n →
    n.flags ≠ none → ∀ q ip, rec.Asks q → Configured config q ip → n.ipv4 = ip
  sent : ∀ m ∈ s.sent, ∀ rec ∈ s.received, m.item = .node rec.id → ∀ q ip, rec.Asks q → Configured config q ip →
    ∃ low, answerRecord ip low <:+ m.datagram

section Step

variable {malloc : Nat → Addr} {config : Config}

theorem Overriding.step (hs : Overriding config s T) (howned : Owned s T) (hlogged : Logged s)
    (hwell : ∀ rec ∈ s.received, WellFormed rec.bytes) (hmalloc : Blocks malloc)
    (hfits : ∀ source ∈ config.inserted, source.1.strlen < domainLen)
    (hmemory : ∀ i < config.inserted.length, malloc i ≠ 0)
    (hlen : ∀ ins ∈ s.forward.inserted, ins.domainLen.toNat < domainLen) (hanswering : Answering s e)
    (hnext : (cachingPipeline malloc config).next s e = some t) (htable : Table t.forward T')
    (heffect : Effect (fun inserted => searchAfter malloc (config.inserted.map sourceInsertion ++ inserted)) s T e t T') :
    Overriding config t T' := by
  have hparse : ∀ rec ∈ s.received, ∀ q ip, rec.Asks q → Configured config q ip → ∀ res,
      insideParser (searchAfter malloc (config.inserted.map sourceInsertion ++ s.forward.inserted)) rec.node = some res →
      res = ⟨(q.parsed rec.fd rec.cliaddr).setIpv4 ip, 0, some .bundle⟩ := by
    intro rec hrec q ip hasks hconfigured res hres
    have hsearch := hconfigured.search hmalloc hfits hmemory hlen
    exact Option.some.inj (hres.symm.trans (hasks.insideParser _ hsearch hconfigured.ne_zero))
  have haddress : ∀ rec ∈ t.received, Held (t.holds T') (.node rec.id) → ∀ n, t.forward.node (.node rec.id) = some n →
      n.flags ≠ none → ∀ q ip, rec.Asks q → Configured config q ip → n.ipv4 = ip := by
    intro rec hrec hheld n hn hflags q ip hasks hconfigured
    have hrec := howned.received_of_held heffect hrec (howned.held_of_effect heffect hheld hn hflags)
    cases howned.held_change hanswering hnext htable heffect hheld hn hflags with
    | same hheld hn => exact hs.address rec hrec hheld n hn hflags q ip hasks hconfigured
    | asked m flags hheld hm hmflags heq =>
        subst heq
        exact hs.address rec hrec hheld m hm (hmflags ▸ Option.some_ne_none _) q ip hasks hconfigured
    | answered fuel buff bufflen m visits stored he hheld hpending hm hmflags hiden hwalk heq =>
        obtain ⟨h, id, hid, hr⟩ := hpending
        obtain rfl := Ref.node.inj hr
        exact absurd (Or.inr (Or.inr (Or.inr ⟨h, hid⟩))) (hs.direct rec hrec q ip hasks hconfigured)
    | parsed rec' res hrec' hr hres hpassed heq =>
        obtain rfl := hlogged.eq_of_id hrec hrec' (Ref.node.inj hr)
        rw [heq, hparse rec hrec q ip hasks hconfigured res hres]
        rfl
  refine ⟨?_, haddress, ?_⟩
  · intro rec hrec q ip hasks hconfigured hforwarding
    rcases howned.forwarding_step hnext htable hforwarding with hbefore | ⟨n, res, hworker, hn, hres, hpassed⟩
    · have hrec := howned.received_of_held heffect hrec (held_of_forwarding hbefore)
      exact hs.direct rec hrec q ip hasks hconfigured hbefore
    · have hmem : Ref.node rec.id ∈ s.holds T .parsing := by simp [Pipeline.holds, hworker]
      have hrec := howned.received_of_held heffect hrec ⟨_, hmem⟩
      obtain ⟨rec', hrec', hid, rfl⟩ := howned.parsing hworker hn
      obtain rfl := hlogged.eq_of_id hrec hrec' hid.symm
      rw [hparse rec hrec q ip hasks hconfigured res hres] at hpassed
      cases hpassed
  · have hold : ∀ m ∈ s.sent, ∀ rec ∈ t.received, m.item = .node rec.id → ∀ q ip, rec.Asks q → Configured config q ip →
        ∃ low, answerRecord ip low <:+ m.datagram := by
      intro m hm rec hrec hitem q ip hasks hconfigured
      obtain ⟨rec', hrec', hitem', -⟩ := hlogged.sent m hm
      have hlt : rec.id < s.allocated := Ref.node.inj (hitem.symm.trans hitem') ▸ hlogged.received_lt rec' hrec'
      exact hs.sent m hm rec (heffect.received_of_lt hrec hlt) hitem q ip hasks hconfigured
    rcases heffect.sent_cases with heq | ⟨r, n, hmem, hn, hreceived, heq⟩
    · exact heq ▸ hold
    · rw [heq, List.forall_mem_append, List.forall_mem_singleton]
      refine ⟨hold, fun rec hrec hitem q ip hasks hconfigured => ?_⟩
      rw [hreceived] at hrec
      obtain ⟨rec', hrec', hr, hat⟩ := howned.nodeAt hmem hn
      obtain rfl := hlogged.eq_of_id hrec hrec' (Ref.node.inj (hitem.symm.trans hr))
      have hkept : Kept n rec := hat
      have hip := hs.address rec hrec ⟨_, hr ▸ hmem⟩ n (hr ▸ hn) (hkept.flags ▸ Option.some_ne_none _) q ip hasks
        hconfigured
      exact hip ▸ hkept.answerRecord_suffix (hwell rec hrec)

end Step

/-- In every run of well-behaved clients and servers, the loader's insertions having got memory: a request for a name
that has an address in the configuration is not sent upstream, and its reply has that address, whatever responses say. -/
theorem configured_wins {malloc : Nat → Addr} {config : Config} {fuel : Nat} {pdoc : Option XmlDoc} {ret : Int}
    (hconfig : configModuleParser fuel Config.initial pdoc = some (config, ret)) (hmalloc : Blocks malloc)
    (hmemory : ∀ i < config.inserted.length, malloc i ≠ 0) (hs : (cachingPipeline malloc config).Reachable WellBehaved s) :
    ∀ rec ∈ s.received, ∀ q ip, rec.Asks q → Configured config q ip → s.forwarder ≠ .asking rec.id ∧
      ¬Waits s.forward rec.id ∧ ∀ m ∈ s.sent, m.item = .node rec.id → ∃ low, answerRecord ip low <:+ m.datagram := by
  have hfits := strlen_of_configModuleParser hconfig
  obtain ⟨s₀, es, ⟨node, hnode, rfl⟩, hrun⟩ := hs
  have hoverriding : ∃ T, Owned s T ∧ Logged s ∧ Overriding config s T := by
    induction hrun with
    | nil =>
        have hstart : (cachingPipeline malloc config).Reachable Answering (Pipeline.initial node) := .start ⟨node, hnode, rfl⟩
        refine ⟨_, .start hnode, logged_of_reachable hstart, ?_, ?_, ?_⟩
        · exact fun _ hrec => absurd hrec List.not_mem_nil
        · exact fun _ hrec => absurd hrec List.not_mem_nil
        · exact fun _ hm => absurd hm List.not_mem_nil
    | snoc hrun hbehaved hnext ih =>
        obtain ⟨T, howned, hlogged, hs⟩ := ih
        obtain ⟨T', htable, heffect⟩ := howned.effect hbehaved.1 hnext
        obtain ⟨_, hsourced⟩ := exists_sourced hmalloc hfits hnode hrun
        exact ⟨T', howned.step htable heffect, hlogged.step howned heffect,
          hs.step howned hlogged hsourced.wellFormed hmalloc hfits hmemory hsourced.fits hbehaved.1 hnext htable heffect⟩
  obtain ⟨T, howned, -, hoverriding⟩ := hoverriding
  intro rec hrec q ip hasks hconfigured
  have hdirect := hoverriding.direct rec hrec q ip hasks hconfigured
  refine ⟨fun hasking => hdirect (Or.inr (Or.inr (Or.inl hasking))), fun hwaits => ?_, fun m hm hitem => ?_⟩
  · exact hdirect (Or.inr (Or.inr (Or.inr (howned.table.waits_iff.mp hwaits))))
  · exact hoverriding.sent m hm rec hrec hitem q ip hasks hconfigured

/-- The first of the two addresses configured for `a` answers the query for it. -/
theorem configured_wins_cached : ∃ s : Pipeline, s.sent.map Sent.item = [.node 0] ∧
    ∀ m ∈ s.sent, m.item = .node 0 → ∃ low, answerRecord 0x04030201 low <:+ m.datagram := by
  have hstart : (cachingPipeline twoBlocks twoSources.config).start (Pipeline.initial fun _ => none) := ⟨_, fun _ => rfl, rfl⟩
  obtain ⟨s, hs, hobserved⟩ : ∃ s, (cachingPipeline twoBlocks twoSources.config).Reachable OneClient s ∧ _ :=
    Machine.Reachable.of_replay hstart
      [.receive 3 ⟨5, 6⟩ (Query.single (0x12, 0x34) 0x61).encode, .pushWork true, .popWork, .parse, .pass true, .popBundle,
        .writeBack]
      (f := fun s => (s.sent.map Sent.item, s.received.map fun rec => (rec.id, rec.bytes)))
      (v := ([.node 0], [(0, (Query.single (0x12, 0x34) 0x61).encode)])) (by decide +kernel)
  obtain ⟨hsent, hreceived⟩ := Prod.mk.inj hobserved
  obtain ⟨rec, hrec, hasks⟩ := List.map_eq_singleton_iff.mp hreceived
  obtain ⟨hid, hbytes⟩ := Prod.mk.inj hasks
  have hwell : (cachingPipeline twoBlocks twoSources.config).Reachable WellBehaved s :=
    hs.weaken fun _ e _ _ h => wellBehaved_of_oneClient e h
  have hwins := configured_wins (configModuleParser_eq (show _ < 3 by decide)) blocks_twoBlocks (by decide) hwell rec
    (by simp [hrec]) (.single (0x12, 0x34) 0x61) 0x04030201 (by rw [Received.Asks, hbytes]; decide)
    ⟨by decide, by decide, by decide⟩
  exact ⟨s, hsent, hid ▸ hwins.2.2⟩

end SimpDserver.Daemon

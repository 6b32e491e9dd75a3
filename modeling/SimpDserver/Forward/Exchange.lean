import SimpDserver.Bundle.WriteBack
import SimpDserver.Forward.Response
import SimpDserver.Lib.Transition
import SimpDserver.Work.Query

/-!
# Clients and an honest upstream server

Clients ask for addresses with IDs of their own choosing; the upstream server answers each forwarded
query at most once, in any order, with that query's ID and question. `parse_response` never looks at the
question: of the requests with the response's ID it takes the oldest. So the requests of one ID are taken
in the order in which they were forwarded, whatever the answers are about.
-/

namespace SimpDserver.Daemon

open CircularList Transition

/-- A query that was forwarded, and the request it was forwarded for. -/
abbrev Request := Nat × Query

def Request.iden (r : Request) : BitVec 16 := load16 r.2.iden.1 r.2.iden.2

/-- A response and what came of it: the query it answers, the request taken, the address inserted. -/
structure Match where
  answered : Request
  buff : Int → Byte
  bufflen : Int
  taken : Option Request
  address : Ipv4

/-- The forward module, and what has been forwarded and answered, in order. -/
structure Exchange where
  forward : Forward
  asked : List Request
  matched : List Match

inductive ExchangeStep where
  | ask (id : Nat) (q : Query) (fd : Int) (cliaddr : SockAddr)
  | answer (r : Request) (fuel : Nat) (buff : Int → Byte) (bufflen : Int) (room : Bool)

def Exchange.request (s : Exchange) : Ref → Option Request
  | .head _ => none
  | .node id => s.asked.find? fun r => r.1 = id

/-- A query the parser passes on, its name not being in the map, is forwarded; a response is parsed. -/
def exchange : Machine Exchange ExchangeStep where
  start s := ∃ node, (∀ id, node (.node id) = none) ∧ s = ⟨Forward.initial node, [], []⟩
  next s
    | .ask id q fd cliaddr => do
        let parsed ← insideParser (fun _ _ => 0) (received fd cliaddr q.encode)
        if (s.forward.node (.node id)).isNone ∧ parsed.passed = some .forward then
          let (forward, _) ← gethostaddr (s.forward.deliver id parsed.node) (.node id)
          return { s with forward := forward, asked := s.asked ++ [(id, q)] }
        else none
    | .answer r fuel buff bufflen room => do
        let (item, _, _) ← matchItem fuel s.forward buff
        let (forward, _) ← parseResponse fuel s.forward buff bufflen room
        let n ← forward.node item
        return { s with
          forward := forward
          matched := s.matched ++ [⟨r, buff, bufflen, s.request item, n.ipv4⟩] }

/-- The response has the query's ID and its question. -/
def Echoes (buff : Int → Byte) (q : Query) : Prop :=
  buff 0 = q.iden.1 ∧ buff 1 = q.iden.2 ∧ Holds (fun k : Nat => buff k) 12 q.question

/-- The upstream server answers what it was asked, once. -/
def honest (s : Exchange) : ExchangeStep → Prop
  | .ask .. => True
  | .answer r _ buff _ _ => r ∈ s.asked ∧ r ∉ s.matched.map Match.answered ∧ Echoes buff r.2

instance (s : Exchange) : (e : ExchangeStep) → Decidable (honest s e)
  | .ask .. => .isTrue trivial
  | .answer r _ buff _ _ => inferInstanceAs (Decidable (r ∈ s.asked ∧ r ∉ s.matched.map Match.answered ∧
      buff 0 = r.2.iden.1 ∧ buff 1 = r.2.iden.2 ∧ Holds (fun k : Nat => buff k) 12 r.2.question))

/-- The address that the walk over a response finds behind a question of a host this long, zero if it
finds none. -/
def AddressRead (buff : Int → Byte) (bufflen : Int) (hostLen : Nat) (ip : Ipv4) : Prop :=
  ∃ fuel visits stored, walk buff bufflen fuel (12 + (hostLen : Int) + 6) = some (visits, stored) ∧
    ip = stored.elim 0 fun pos => load32 (buff pos) (buff (pos + 1)) (buff (pos + 2)) (buff (pos + 3))

/-- The requests of an ID, in the order in which they were forwarded. -/
def Exchange.askedFor (s : Exchange) (iden : BitVec 16) : List Request :=
  s.asked.filter fun r => r.iden = iden

/-- The responses with an ID, in the order in which they arrived. -/
def Exchange.matchedFor (s : Exchange) (iden : BitVec 16) : List Match :=
  s.matched.filter fun m => m.answered.iden = iden

/-! ### The invariant -/

/-- What an insertion is that a match makes. -/
def InsertedBy (m : Match) (insertion : Insertion) : Prop :=
  ∃ r, m.taken = some r ∧ AddressRead m.buff m.bufflen r.2.host.length m.address ∧
    insertion = ⟨put (fun _ => 0) 0 r.2.host, r.2.host.length, m.address⟩

/-- The requests `R` wait; those of one ID are what was forwarded of it less what was taken. -/
structure Ordered (s : Exchange) (R : BitVec 32 → List Request) : Prop where
  table : Table s.forward (List.map Prod.fst ∘ R)
  waiting : ∀ h, ∀ r ∈ R h, ∃ fd cliaddr, s.forward.node (.node r.1) = some ((r.2.parsed fd cliaddr).setRd 2)
  order : ∀ iden, (s.askedFor iden).map some =
    (s.matchedFor iden).map Match.taken ++ ((R (integerHash iden)).filter fun r => r.iden = iden).map some
  asked_nodup : (s.asked.map Prod.fst).Nodup
  asked_alive : ∀ r ∈ s.asked, s.forward.node (.node r.1) ≠ none
  answered_nodup : (s.matched.map Match.answered).Nodup
  answered_asked : ∀ m ∈ s.matched, m.answered ∈ s.asked
  inserted : List.Forall₂ InsertedBy s.matched s.forward.inserted
  stored : ∀ m ∈ s.matched, ∃ r, m.taken = some r ∧ r ∈ s.asked ∧ (∀ h, r.1 ∉ (R h).map Prod.fst) ∧
    ∃ fd cliaddr, s.forward.node (.node r.1) = some (((r.2.parsed fd cliaddr).setRd 2).setIpv4 m.address)

variable {s t : Exchange} {R : BitVec 32 → List Request}

theorem mem_askedFor {iden : BitVec 16} {r : Request} :
    r ∈ s.askedFor iden ↔ r ∈ s.asked ∧ r.iden = iden := by
  simp [Exchange.askedFor]

theorem mem_matchedFor {iden : BitVec 16} {m : Match} :
    m ∈ s.matchedFor iden ↔ m ∈ s.matched ∧ m.answered.iden = iden := by
  simp [Exchange.matchedFor]

theorem Ordered.asked_of_waiting (hR : Ordered s R) {h : BitVec 32} {r : Request} (hr : r ∈ R h) :
    r ∈ s.asked ∧ integerHash r.iden = h := by
  obtain ⟨n, hn, hhash⟩ := hR.table.hashed h r.1 (List.mem_map_of_mem hr)
  obtain ⟨fd, cliaddr, hnode⟩ := hR.waiting h r hr
  have hiden : integerHash r.iden = h := by
    rw [hn] at hnode
    rw [← hhash, Option.some.inj hnode]
    rfl
  have hmem : some r ∈ (s.askedFor r.iden).map some := by
    rw [hR.order, hiden]
    exact List.mem_append_right _ (List.mem_map_of_mem (List.mem_filter.mpr ⟨hr, by simp⟩))
  obtain ⟨r', hr', heq⟩ := List.mem_map.mp hmem
  cases heq
  exact ⟨(mem_askedFor.mp hr').1, hiden⟩

theorem Ordered.hasIden_iff (hR : Ordered s R) {h : BitVec 32} {r : Request} (hr : r ∈ R h) {iden : BitVec 16} :
    HasIden s.forward iden r.1 ↔ r.iden = iden := by
  obtain ⟨fd, cliaddr, hnode⟩ := hR.waiting h r hr
  constructor
  · intro hhas
    obtain ⟨n, hn, hiden⟩ := hhas
    rw [hnode] at hn
    rw [← hiden, ← Option.some.inj hn]
    rfl
  · intro hiden
    exact ⟨_, hnode, hiden⟩

/-- A forwarded query that is not answered yet leaves a request of its ID waiting. -/
theorem Ordered.exists_waiting (hR : Ordered s R) {r : Request} (hr : r ∈ s.asked)
    (hanswered : r ∉ s.matched.map Match.answered) : ∃ r' ∈ R (integerHash r.iden), r'.iden = r.iden := by
  have hnodup : (r :: (s.matchedFor r.iden).map Match.answered).Nodup := by
    have hsub : List.Sublist ((s.matchedFor r.iden).map Match.answered) (s.matched.map Match.answered) :=
      List.filter_sublist.map _
    exact List.nodup_cons.mpr ⟨fun hmem => hanswered (hsub.subset hmem), hsub.nodup hR.answered_nodup⟩
  have hsubset : r :: (s.matchedFor r.iden).map Match.answered ⊆ s.askedFor r.iden := by
    intro r' hr'
    rcases List.mem_cons.mp hr' with rfl | hr'
    · exact mem_askedFor.mpr ⟨hr, rfl⟩
    · obtain ⟨m, hm, rfl⟩ := List.mem_map.mp hr'
      obtain ⟨hm, hiden⟩ := mem_matchedFor.mp hm
      exact mem_askedFor.mpr ⟨hR.answered_asked m hm, hiden⟩
  have hlt := (List.subperm_of_subset hnodup hsubset).length_le
  have hlength := congrArg List.length (hR.order r.iden)
  simp only [List.length_map, List.length_append, List.length_cons] at hlt hlength
  obtain ⟨r', hr'⟩ := List.exists_mem_of_length_pos
    (show 0 < ((R (integerHash r.iden)).filter fun r' => r'.iden = r.iden).length by omega)
  obtain ⟨hmem, hiden⟩ := List.mem_filter.mp hr'
  exact ⟨r', hmem, of_decide_eq_true hiden⟩

/-! ### The lists by ID

A request comes to the end of its list, and the oldest of an ID leaves it. -/

/-- The requests of an ID, when one is forwarded. -/
theorem filter_forwarded (R : BitVec 32 → List Request) (r : Request) (iden : BitVec 16) :
    (Function.update R (integerHash r.iden) (R (integerHash r.iden) ++ [r]) (integerHash iden)).filter (·.iden = iden) =
      (R (integerHash iden)).filter (·.iden = iden) ++ [r].filter (·.iden = iden) := by
  rw [Function.update_apply]
  split
  next heq => rw [List.filter_append, heq]
  next hne =>
    have hiden : r.iden ≠ iden := fun heq => hne (by rw [heq])
    rw [List.filter_cons_of_neg (by simpa using hiden), List.filter_nil, List.append_nil]

section Taken

variable {r : Request} {h : BitVec 32} {pre post : List Request} (hsplit : R h = pre ++ r :: post)
include hsplit

theorem taken_sublist (k : BitVec 32) : (Function.update R h (pre ++ post) k).Sublist (R k) := by
  by_cases hk : k = h
  · subst hk
    rw [Function.update_self, hsplit]
    exact (List.sublist_cons_self r post).append_left pre
  · rw [Function.update_of_ne hk]

/-- The requests of an ID, when the oldest of an ID is taken. -/
theorem filter_taken (hpre : ∀ a ∈ pre, a.iden ≠ r.iden) (hh : h = integerHash r.iden) (iden : BitVec 16) :
    (R (integerHash iden)).filter (·.iden = iden) = [r].filter (·.iden = iden) ++
      (Function.update R h (pre ++ post) (integerHash iden)).filter (·.iden = iden) := by
  by_cases hiden : r.iden = iden
  · subst hiden
    have hnone : pre.filter (·.iden = r.iden) = [] := List.filter_eq_nil_iff.mpr fun a ha => by simpa using hpre a ha
    rw [← hh, Function.update_self, hsplit, List.filter_append, List.filter_append, hnone,
      List.filter_cons_of_pos (by simp), List.filter_cons_of_pos (by simp), List.filter_nil]
    rfl
  · rw [List.filter_cons_of_neg (by simpa using hiden), List.filter_nil, List.nil_append, Function.update_apply]
    split
    next heq => rw [heq, hsplit, List.filter_append, List.filter_append, List.filter_cons_of_neg (by simpa using hiden)]
    next => rfl

end Taken

/-! ### The steps -/

theorem Ordered.start {node : Ref → Option Node} : Ordered ⟨Forward.initial node, [], []⟩ fun _ => [] where
  table := Table.init rfl
  waiting _ _ hr := absurd hr List.not_mem_nil
  order _ := rfl
  asked_nodup := List.nodup_nil
  asked_alive _ hr := absurd hr List.not_mem_nil
  answered_nodup := List.nodup_nil
  answered_asked _ hm := absurd hm List.not_mem_nil
  inserted := List.Forall₂.nil
  stored _ hm := absurd hm List.not_mem_nil

theorem Ordered.next_ask (hR : Ordered s R) {id : Nat} {q : Query} {fd : Int} {cliaddr : SockAddr}
    (h : exchange.next s (.ask id q fd cliaddr) = some t) : s.forward.node (.node id) = none ∧ ∃ links,
      t = { s with
        forward := { s.forward.deliver id ((q.parsed fd cliaddr).setRd 2) with links := links }
        asked := s.asked ++ [(id, q)] } ∧
      Table t.forward (List.map Prod.fst ∘ Function.update R (integerHash (Request.iden (id, q)))
        (R (integerHash (Request.iden (id, q))) ++ [(id, q)])) := by
  simp only [exchange, q.insideParser_eq, Query.passedOn, if_true, Option.bind_eq_bind, Option.bind_some,
    Option.pure_def, and_true] at h
  obtain ⟨hfresh, h⟩ := Option.ite_none_right_eq_some.mp h
  rw [Option.isNone_iff_eq_none] at hfresh
  obtain ⟨links, hask, htable⟩ := hR.table.gethostaddr_deliver (n := q.parsed fd cliaddr)
    (hR.table.not_mem hfresh) rfl
  rw [hask, Option.bind_some] at h
  cases h
  refine ⟨hfresh, links, rfl, ?_⟩
  rw [Function.comp_update, List.map_append]
  exact htable

theorem Ordered.ask (hR : Ordered s R) {id : Nat} {q : Query} {fd : Int} {cliaddr : SockAddr}
    (h : exchange.next s (.ask id q fd cliaddr) = some t) : ∃ R', Ordered t R' := by
  obtain ⟨hfresh, links, rfl, htable⟩ := hR.next_ask h
  have hne : ∀ r ∈ s.asked, r.1 ≠ id := fun r hr heq => hR.asked_alive r hr (heq ▸ hfresh)
  have hnode : ∀ r ∈ s.asked, (s.forward.deliver id ((q.parsed fd cliaddr).setRd 2)).node (.node r.1) =
      s.forward.node (.node r.1) := fun r hr =>
    Function.update_of_ne (fun heq => hne r hr (Ref.node.inj heq)) ..
  refine ⟨Function.update R (integerHash (Request.iden (id, q)))
      (R (integerHash (Request.iden (id, q))) ++ [(id, q)]),
    htable, ?_, ?_, ?_, ?_, hR.answered_nodup, ?_, hR.inserted, ?_⟩
  · intro h r hr
    rw [Function.update_apply] at hr
    have hr' : r ∈ R h ∨ r = (id, q) := by
      split at hr
      next heq => simpa [heq] using hr
      next => exact Or.inl hr
    rcases hr' with hr' | rfl
    · rw [hnode r (hR.asked_of_waiting hr').1]
      exact hR.waiting h r hr'
    · exact ⟨fd, cliaddr, Function.update_self ..⟩
  · intro iden
    have horder := hR.order iden
    simp only [Exchange.askedFor, Exchange.matchedFor, List.filter_append, List.map_append] at horder ⊢
    rw [horder, filter_forwarded, List.map_append, List.append_assoc]
  · rw [List.map_append, List.nodup_append]
    refine ⟨hR.asked_nodup, List.nodup_singleton _, ?_⟩
    intro a ha b hb hab
    obtain ⟨r, hr, rfl⟩ := List.mem_map.mp ha
    rw [List.map_singleton, List.mem_singleton] at hb
    exact hne r hr (hab.trans hb)
  · intro r hr
    rcases List.mem_append.mp hr with hr | hr
    · exact (hnode r hr).trans_ne (hR.asked_alive r hr)
    · rw [List.mem_singleton.mp hr]
      exact (Function.update_self ..).trans_ne (Option.some_ne_none _)
  · intro m hm
    exact List.mem_append_left _ (hR.answered_asked m hm)
  · intro m hm
    obtain ⟨r, htaken, hr, hgone, fd', cliaddr', hstored⟩ := hR.stored m hm
    refine ⟨r, htaken, List.mem_append_left _ hr, fun h hmem => ?_, fd', cliaddr', (hnode r hr).trans hstored⟩
    rw [Function.update_apply] at hmem
    split at hmem
    next heq =>
      rw [List.map_append, List.mem_append, List.map_singleton, List.mem_singleton] at hmem
      exact hmem.elim (hgone _) (hne r hr)
    next => exact hgone h hmem

theorem storeIpv4_eq (buff : Int → Byte) (item : Node) (stored : Option Int) :
    storeIpv4 buff item stored = item.setIpv4 (stored.elim item.ipv4 fun pos =>
      load32 (buff pos) (buff (pos + 1)) (buff (pos + 2)) (buff (pos + 3))) := by
  cases stored <;> rfl

/-- What `answer` does when the response is an honest one: the oldest request with its ID is taken. -/
theorem Ordered.next_answer (hR : Ordered s R) {r : Request} {fuel : Nat} {buff : Int → Byte} {bufflen : Int}
    {room : Bool} (hhonest : honest s (.answer r fuel buff bufflen room))
    (h : exchange.next s (.answer r fuel buff bufflen room) = some t) :
    ∃ pre r' post links ip fd cliaddr, R (integerHash r.iden) = pre ++ r' :: post ∧ r'.iden = r.iden ∧
      (∀ a ∈ pre, a.iden ≠ r.iden) ∧ AddressRead buff bufflen r'.2.host.length ip ∧
      s.forward.node (.node r'.1) = some ((r'.2.parsed fd cliaddr).setRd 2) ∧
      t = { s with
        forward := ({ s.forward with links := links } : Forward).finish (.node r'.1)
          (((r'.2.parsed fd cliaddr).setRd 2).setIpv4 ip) room
        matched := s.matched ++ [⟨r, buff, bufflen, s.request (.node r'.1), ip⟩] } ∧
      Table { s.forward with links := links }
        (List.map Prod.fst ∘ Function.update R (integerHash r.iden) (pre ++ post)) := by
  obtain ⟨hr, hanswered, h0, h1, -⟩ := hhonest
  have hiden : load16 (buff 0) (buff 1) = r.iden := by
    rw [h0, h1]
    rfl
  simp only [exchange, Option.bind_eq_bind, Option.bind_eq_some_iff, Option.pure_def, Option.some.injEq] at h
  obtain ⟨⟨item, s₁, seen₁⟩, hmatch, ⟨forward, seen⟩, hparse, n', hn', rfl⟩ := h
  obtain ⟨item', s₁', seen₁', n, visits, stored, hmatch', hn, hwalk, rfl, -⟩ :=
    parseResponse_eq_some_iff.mp hparse
  cases hmatch.symm.trans hmatch'
  rw [Forward.finish_node, Function.update_self] at hn'
  cases hn'
  have hcases := hR.table.matchItem_cases hmatch
  rw [hiden] at hcases
  rcases hcases with ⟨pre, id, post, links, hsplit, hhas, hpre, rfl, rfl, -, htable⟩ | ⟨hnone, -⟩
  · obtain ⟨pre, rest, hsplit', rfl, hrest⟩ := List.map_eq_append_iff.mp hsplit
    obtain ⟨r', post, rfl, rfl, rfl⟩ := List.map_eq_cons_iff.mp hrest
    have hr' : r' ∈ R (integerHash r.iden) := by
      rw [hsplit']
      simp
    obtain ⟨fd, cliaddr, hnode⟩ := hR.waiting _ _ hr'
    cases hn.symm.trans hnode
    refine ⟨pre, r', post, links, _, fd, cliaddr, hsplit', (hR.hasIden_iff hr').mp hhas, fun a ha heq => ?_,
      ⟨fuel, visits, stored, hwalk, rfl⟩, hnode, by rw [storeIpv4_eq]; rfl, ?_⟩
    · have hmem : a ∈ R (integerHash r.iden) := hsplit' ▸ List.mem_append_left _ ha
      exact hpre a.1 (List.mem_map_of_mem ha) ((hR.hasIden_iff hmem).mpr heq)
    · rw [Function.comp_update, List.map_append]
      exact htable
  · obtain ⟨r', hr', heq⟩ := hR.exists_waiting hr hanswered
    exact absurd ((hR.hasIden_iff hr').mpr heq) (hnone r'.1 (List.mem_map_of_mem hr'))

theorem Ordered.request_eq (hR : Ordered s R) {r : Request} (hr : r ∈ s.asked) :
    s.request (.node r.1) = some r := by
  rcases hfind : s.request (.node r.1) with _ | r'
  · have := List.find?_eq_none.mp hfind r hr
    simp at this
  · have hfst : r'.1 = r.1 := by simpa using List.find?_some hfind
    rw [List.inj_on_of_nodup_map hR.asked_nodup (List.mem_of_find?_eq_some hfind) hr hfst]

theorem Ordered.answer (hR : Ordered s R) {r : Request} {fuel : Nat} {buff : Int → Byte} {bufflen : Int}
    {room : Bool} (hhonest : honest s (.answer r fuel buff bufflen room))
    (h : exchange.next s (.answer r fuel buff bufflen room) = some t) : ∃ R', Ordered t R' := by
  obtain ⟨pre, r', post, links, ip, fd, cliaddr, hsplit, hiden, hpre, hread, hnode, rfl, htable⟩ :=
    hR.next_answer hhonest h
  have hr' : r' ∈ R (integerHash r.iden) := by
    rw [hsplit]
    simp
  have hasked := (hR.asked_of_waiting hr').1
  rw [hR.request_eq hasked]
  have hnotin : ∀ h, r'.1 ∉ (Function.update R (integerHash r.iden) (pre ++ post) h).map Prod.fst := by
    intro h hmem
    rw [Function.update_apply] at hmem
    split at hmem
    next heq =>
      have hnodup := hR.table.nodup (integerHash r.iden)
      rw [Function.comp_apply, hsplit, List.map_append, List.map_cons, List.nodup_middle, List.nodup_cons] at hnodup
      exact hnodup.1 (by rwa [← List.map_append])
    next hne => exact hne (hR.table.unique hmem (List.mem_map_of_mem hr'))
  have hnode_ne : ∀ id, id ≠ r'.1 → (({ s.forward with links := links } : Forward).finish (.node r'.1)
      (((r'.2.parsed fd cliaddr).setRd 2).setIpv4 ip) room).node (.node id) = s.forward.node (.node id) := by
    intro id hne
    rw [Forward.finish_node, Function.update_of_ne (fun heq => hne (Ref.node.inj heq))]
  refine ⟨Function.update R (integerHash r.iden) (pre ++ post), ?_, ?_, ?_, hR.asked_nodup, ?_, ?_, ?_, ?_, ?_⟩
  · exact htable.update (ne_node_of_not_mem hnotin) (Forward.finish_links ..) (Forward.finish_node ..)
  · intro h a ha
    rw [hnode_ne a.1 fun heq => hnotin h (heq ▸ List.mem_map_of_mem ha)]
    exact hR.waiting h a ((taken_sublist hsplit h).subset ha)
  · intro iden
    have horder := hR.order iden
    have htaken : ([r'].filter (·.iden = iden)).map some = ([(⟨r, buff, bufflen, some r', ip⟩ : Match)].filter
        (·.answered.iden = iden)).map Match.taken := by
      by_cases heq : r.iden = iden
      · rw [List.filter_cons_of_pos (by simpa [hiden] using heq), List.filter_cons_of_pos (by simpa using heq)]
        rfl
      · rw [List.filter_cons_of_neg (by simpa [hiden] using heq), List.filter_cons_of_neg (by simpa using heq)]
        rfl
    simp only [Exchange.askedFor, Exchange.matchedFor, List.filter_append, List.map_append] at horder ⊢
    rw [horder, filter_taken hsplit (fun a ha => hiden ▸ hpre a ha) (by rw [hiden]) iden, List.map_append, htaken,
      List.append_assoc]
  · intro a ha
    by_cases heq : a.1 = r'.1
    · rw [heq, Forward.finish_node, Function.update_self]
      exact Option.some_ne_none _
    · exact (hnode_ne a.1 heq).trans_ne (hR.asked_alive a ha)
  · rw [List.map_append, List.nodup_append]
    refine ⟨hR.answered_nodup, List.nodup_singleton _, ?_⟩
    rintro a ha b hb rfl
    have hb : a = r := by simpa using hb
    exact hhonest.2.1 (hb ▸ ha)
  · intro m hm
    rcases List.mem_append.mp hm with hm | hm
    · exact hR.answered_asked m hm
    · rw [List.mem_singleton.mp hm]
      exact hhonest.1
  · rw [Forward.finish_inserted]
    exact List.rel_append hR.inserted (List.Forall₂.cons ⟨r', rfl, hread, rfl⟩ List.Forall₂.nil)
  · intro m hm
    rcases List.mem_append.mp hm with hm | hm
    · obtain ⟨a, htaken, ha, hgone, fd', cliaddr', hstored⟩ := hR.stored m hm
      have hne : a.1 ≠ r'.1 := fun heq => hgone (integerHash r.iden) (by
        rw [heq]
        exact List.mem_map_of_mem hr')
      have hgone' : ∀ h, a.1 ∉ (Function.update R (integerHash r.iden) (pre ++ post) h).map Prod.fst := fun h hmem =>
        hgone h (((taken_sublist hsplit h).map Prod.fst).subset hmem)
      exact ⟨a, htaken, ha, hgone', fd', cliaddr', (hnode_ne a.1 hne).trans hstored⟩
    · rw [List.mem_singleton.mp hm]
      refine ⟨r', rfl, hasked, hnotin, fd, cliaddr, ?_⟩
      rw [Forward.finish_node, Function.update_self]

theorem exists_ordered (hs : exchange.Reachable honest s) : ∃ R, Ordered s R := by
  apply hs.invariant (I := fun s => ∃ R, Ordered s R)
  · intro s hstart
    obtain ⟨node, -, rfl⟩ := hstart
    exact ⟨_, Ordered.start⟩
  · intro s e t hordered hhonest hnext
    obtain ⟨R, hR⟩ := hordered
    cases e with
    | ask id q fd cliaddr => exact hR.ask hnext
    | answer r fuel buff bufflen room => exact hR.answer hhonest hnext

end SimpDserver.Daemon

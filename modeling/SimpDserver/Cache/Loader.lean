import Mathlib.Data.List.TakeWhile
import SimpDserver.Cache.Config

/-!
# The loader

The whole of `net_xml_config_module_parser`: the address and port to bind, the server to forward to, and the
loop over the sources. An attribute that is absent or empty gives the default; an address that `inet_pton`
rejects leaves what was there, which nothing reports.
-/

namespace SimpDserver.Daemon

/-- `struct net_xml_config_server_node`: the address in network order, the port in the machine's. -/
structure ServerNode where
  bindip : Ipv4
  port : BitVec 16
  deriving DecidableEq

/-- `struct net_xml_config_forward_node` -/
structure ForwardNode where
  forwdip : Ipv4
  deriving DecidableEq

/-- `net_xml_config_server_node` and `net_xml_config_forward_node`, and the sources that insertions were made for. -/
structure Config where
  server : ServerNode
  forwd : ForwardNode
  inserted : List (CString × CString)

/-- Before the loader runs, the module's statics are zero. -/
def Config.initial : Config := ⟨⟨0, 0⟩, ⟨0⟩, []⟩

/-! ### Numbers -/

def isSpace (c : Byte) : Bool := c = 0x20 || (0x09 ≤ c.toNat && c.toNat ≤ 0x0d)

def isDigit (c : Byte) : Bool := 0x30 ≤ c.toNat && c.toNat ≤ 0x39

/-- The number the digits in front make. -/
def digits (s : List Byte) : Nat := (s.takeWhile isDigit).foldl (fun v c => v * 10 + (c.toNat - 0x30)) 0

/-- `atoi`: what `strtol` makes of the string, within the range of a `long`; the caller keeps its low bits. -/
def atoi (s : CString) : Int :=
  match s.bytes.dropWhile isSpace with
  | [] => 0
  | c :: s =>
      if c = 0x2d then max (-(digits s : Int)) (-2 ^ 63)
      else if c = 0x2b then min (digits s) (2 ^ 63 - 1)
      else min (digits (c :: s)) (2 ^ 63 - 1)

/-! ### The settings -/

/-- An attribute that is there and not empty. -/
def attrText (ptr : XmlNode) (v : String) : Option CString :=
  (configSearchAttrValue ptr v).filter fun s => 0 < s.strlen

/-- What is done with the `BindSource` element. -/
def parseBindSource (server : ServerNode) (ptr : XmlNode) : ServerNode where
  bindip :=
    match attrText ptr "ipaddr" with
    | some ipaddr => (inetPton ipaddr).getD server.bindip
    | none => 0
  port :=
    match attrText ptr "port" with
    | some port => BitVec.ofInt 16 (atoi port)
    | none => 53

/-- `NET_XML_CONFIG_DEFAULT_DNSNAME` -/
def defaultDnsname : CString := ⟨literal "8.8.8.8", by decide⟩

/-- What is done with the `Forward` element. -/
def parseForward (forwd : ForwardNode) (ptr : XmlNode) : ForwardNode where
  forwdip := (inetPton ((attrText ptr "ipaddr").getD defaultDnsname)).getD forwd.forwdip

/-! ### The whole -/

/-- The loop over the sources, for at most `fuel` tests of its condition: those it makes an insertion for. -/
def parseSources : (fuel : Nat) → (ptr : List XmlNode) → Option (List (CString × CString))
  | 0, _ => none
  | _ + 1, [] => some []
  | fuel + 1, ptr :: rest => do
      let later ← parseSources fuel (nextSource (ptr :: rest))
      return (sourceOf ptr).toList ++ later

/-- `net_xml_config_module_parser`: what it leaves, and what it returns. -/
def configModuleParser (fuel : Nat) (config : Config) : Option XmlDoc → Option (Config × Int)
  | none => some (config, -1)
  | some pdoc => do
      let server := (configSearch3 pdoc "DNSCONFIG" "Server" "BindSource").head?.elim config.server
        (parseBindSource config.server)
      let forwd := (configSearch3 pdoc "DNSCONFIG" "Record" "Forward").head?.elim config.forwd
        (parseForward config.forwd)
      let sources ← parseSources fuel (firstSource (some pdoc))
      return (⟨server, forwd, config.inserted ++ sources⟩, 0)

/-! ### What a document says -/

/-- The element has this name. -/
def XmlNode.Named (v : String) (node : XmlNode) : Bool := node.name.bytes = literal v

/-- The elements of this name in the first element of the other name below the root. -/
def XmlDoc.elements (pdoc : XmlDoc) (f1 f2 f3 : String) : List XmlNode :=
  ((pdoc.root.filter (XmlNode.Named f1)).bind fun root => root.children.find? (XmlNode.Named f2)).elim []
    fun node => node.children.filter (XmlNode.Named f3)

/-- The sources of a document, in its order. -/
def XmlDoc.sources (pdoc : XmlDoc) : List (CString × CString) :=
  (pdoc.elements "DNSCONFIG" "Root" "IPSource").filterMap sourceOf

theorem configSearchList_eq (pnode : List XmlNode) (v : String) :
    configSearchList pnode v = pnode.dropWhile fun node => !node.Named v := by
  rw [configSearchList]
  congr 1
  funext node
  simp [XmlNode.Named]

theorem head?_configSearchList (pnode : List XmlNode) (v : String) :
    (configSearchList pnode v).head? = pnode.find? (XmlNode.Named v) := by
  rw [configSearchList_eq, List.find?_eq_head?_dropWhile_not]

theorem filter_configSearchList (pnode : List XmlNode) (v : String) :
    (configSearchList pnode v).filter (XmlNode.Named v) = pnode.filter (XmlNode.Named v) := by
  rw [configSearchList_eq]
  induction pnode with
  | nil => rfl
  | cons node rest ih =>
      by_cases h : node.Named v
      · rw [List.dropWhile_cons_of_neg (by simp [h])]
      · rw [List.dropWhile_cons_of_pos (by simp [h]), ih, List.filter_cons_of_neg h]

theorem length_configSearchList_le (pnode : List XmlNode) (v : String) :
    (configSearchList pnode v).length ≤ pnode.length := by
  rw [configSearchList_eq]
  exact (List.dropWhile_sublist _).length_le

/-- A pointer that the search functions return: null, or at an element of the name. -/
theorem named_head_configSearchList {pnode rest : List XmlNode} {ptr : XmlNode} {v : String}
    (h : configSearchList pnode v = ptr :: rest) : ptr.Named v := by
  have hfind : pnode.find? (XmlNode.Named v) = some ptr := by
    rw [← head?_configSearchList, h]
    rfl
  exact List.find?_some hfind

/-- `config_search3` finds the first element, and those behind it stay in its list. -/
theorem configSearch3_eq (pdoc : XmlDoc) (f1 f2 f3 : String) :
    ∃ pnode, configSearch3 pdoc f1 f2 f3 = configSearchList pnode f3 ∧
      pnode.filter (XmlNode.Named f3) = pdoc.elements f1 f2 f3 := by
  obtain ⟨root⟩ := pdoc
  rw [configSearch3, configSearch4, XmlDoc.elements]
  cases root with
  | none => exact ⟨[], rfl, rfl⟩
  | some proot =>
      by_cases hroot : proot.Named f1
      · have hbytes : ¬proot.name.bytes ≠ literal f1 := not_not.mpr (of_decide_eq_true hroot)
        simp only [if_neg hbytes, Option.filter_some_pos hroot, Option.bind_some]
        have hhead := head?_configSearchList proot.children f2
        rw [← configSearchChildren] at hhead
        cases hlist : configSearchChildren proot f2 with
        | nil =>
            rw [hlist] at hhead
            rw [← hhead]
            exact ⟨[], rfl, rfl⟩
        | cons node rest =>
            rw [hlist] at hhead
            rw [← hhead]
            refine ⟨node.children, ?_, rfl⟩
            rw [← configSearchChildren]
            dsimp only
            cases configSearchChildren node f3 <;> rfl
      · have hbytes : proot.name.bytes ≠ literal f1 := fun h => hroot (decide_eq_true h)
        simp only [if_pos hbytes, Option.filter_some_neg (Bool.eq_false_of_not_eq_true hroot)]
        exact ⟨[], rfl, rfl⟩

theorem head?_configSearch3 (pdoc : XmlDoc) (f1 f2 f3 : String) :
    (configSearch3 pdoc f1 f2 f3).head? = (pdoc.elements f1 f2 f3).head? := by
  obtain ⟨pnode, hsearch, helements⟩ := configSearch3_eq pdoc f1 f2 f3
  rw [hsearch, ← helements, head?_configSearchList, List.head?_filter]

/-! ### The loop -/

/-- The loop goes through the sources behind its pointer, each once. -/
theorem parseSources_eq {fuel : Nat} {pnode : List XmlNode} (hfuel : (configSearchList pnode "IPSource").length < fuel) :
    parseSources fuel (configSearchList pnode "IPSource") =
      some ((pnode.filter (XmlNode.Named "IPSource")).filterMap sourceOf) := by
  induction fuel generalizing pnode with
  | zero => exact absurd hfuel (Nat.not_lt_zero _)
  | succ fuel ih =>
      rw [← filter_configSearchList]
      cases hptr : configSearchList pnode "IPSource" with
      | nil => rfl
      | cons ptr rest =>
          have hlength := length_configSearchList_le rest "IPSource"
          rw [hptr, List.length_cons] at hfuel
          have hnext : nextSource (ptr :: rest) = configSearchList rest "IPSource" := rfl
          rw [parseSources, hnext, ih (by omega), List.filter_cons_of_pos (named_head_configSearchList hptr)]
          cases hsource : sourceOf ptr with
          | none => rw [List.filterMap_cons_none hsource]; rfl
          | some source => rw [List.filterMap_cons_some hsource]; rfl

/-- What the document says, to a module with nothing in it. -/
def XmlDoc.config (pdoc : XmlDoc) : Config where
  server := (pdoc.elements "DNSCONFIG" "Server" "BindSource").head?.elim ⟨0, 0⟩ (parseBindSource ⟨0, 0⟩)
  forwd := (pdoc.elements "DNSCONFIG" "Record" "Forward").head?.elim ⟨0⟩ (parseForward ⟨0⟩)
  inserted := pdoc.sources

/-- The parser returns, having read the first elements of their names and inserted the sources in their order. -/
theorem configModuleParser_eq {pdoc : XmlDoc} {fuel : Nat} (hfuel : (firstSource (some pdoc)).length < fuel) :
    configModuleParser fuel Config.initial (some pdoc) = some (pdoc.config, 0) := by
  obtain ⟨pnode, hfirst, helements⟩ := configSearch3_eq pdoc "DNSCONFIG" "Root" "IPSource"
  have hfirst : firstSource (some pdoc) = configSearchList pnode "IPSource" := hfirst
  rw [hfirst] at hfuel
  rw [configModuleParser, hfirst, parseSources_eq hfuel, helements, head?_configSearch3, head?_configSearch3]
  rfl

end SimpDserver.Daemon

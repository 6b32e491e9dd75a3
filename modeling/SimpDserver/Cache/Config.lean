import SimpDserver.Forward.Code
import SimpDserver.Hashmap.Strings

/-!
# The configured addresses

`net_xml_config.c` and the part of `net_xml_common.c` it uses: the loop of the loader over the `IPSource`
elements, on a document as the XML library gives it. A pointer to an element is the list of it and the elements
after it, so that `NULL` is the empty list. The addresses to bind and to forward to, which the loader reads
before that loop, have no part in the cache.
-/

namespace SimpDserver.Daemon

/-- A zero-terminated string. -/
structure CString where
  bytes : List Byte
  ne_zero : ∀ b ∈ bytes, b ≠ 0
  deriving DecidableEq

/-- `strlen` -/
def CString.strlen (s : CString) : Nat := s.bytes.length

/-- Memory from its first byte on, as far as it is the string's. -/
def CString.chars (s : CString) : Nat → Byte := fun i => s.bytes.getD i 0

/-- The bytes of a literal. -/
def literal (s : String) : List Byte := s.toList.map fun c => BitVec.ofNat 8 c.toNat

/-- `xmlNode`: the name, the attributes and the children. -/
inductive XmlNode where
  | mk (name : CString) (attrs : List (CString × CString)) (children : List XmlNode)

namespace XmlNode

def name : XmlNode → CString
  | mk name _ _ => name

def attrs : XmlNode → List (CString × CString)
  | mk _ attrs _ => attrs

def children : XmlNode → List XmlNode
  | mk _ _ children => children

end XmlNode

/-- `xmlDoc`, with its root element if it has one. -/
structure XmlDoc where
  root : Option XmlNode

/-! ### Looking up -/

/-- `config_search_attr_value` -/
def configSearchAttrValue (pnode : XmlNode) (v : String) : Option CString :=
  (pnode.attrs.find? fun attr => attr.1.bytes = literal v).map Prod.snd

/-- `config_search_list` -/
def configSearchList (pnode : List XmlNode) (v : String) : List XmlNode :=
  pnode.dropWhile fun node => node.name.bytes ≠ literal v

/-- `config_search_next` -/
def configSearchNext (pnode : List XmlNode) (v : String) : List XmlNode := configSearchList pnode.tail v

/-- `config_search_children` -/
def configSearchChildren (pnode : XmlNode) (v : String) : List XmlNode := configSearchList pnode.children v

/-- `config_search4`; `none` is the null pointer for a level that is not asked for. -/
def configSearch4 (pdoc : XmlDoc) (f1 f2 : String) (f3 f4 : Option String) : List XmlNode :=
  match pdoc.root with
  | none => []
  | some proot =>
      if proot.name.bytes ≠ literal f1 then []
      else
        match configSearchChildren proot f2, f3 with
        | [], _ => []
        | pnode, none => pnode
        | pnode :: _, some f3 =>
            match configSearchChildren pnode f3, f4 with
            | [], _ => []
            | pnode, none => pnode
            | pnode :: _, some f4 => configSearchChildren pnode f4

/-- `config_search3` -/
def configSearch3 (pdoc : XmlDoc) (f1 f2 f3 : String) : List XmlNode := configSearch4 pdoc f1 f2 (some f3) none

/-! ### Addresses -/

/-- The loop of `inet_pton` for `AF_INET`, with the finished octets, the current one, whether it has a digit, and
how many octets have begun. -/
def inetPtonLoop : (src : List Byte) → (tmp : List Byte) → (tp : Nat) → (sawDigit : Bool) → (octets : Nat) →
    Option (List Byte)
  | [], tmp, tp, _, octets => if octets < 4 then none else some (tmp ++ [BitVec.ofNat 8 tp])
  | ch :: src, tmp, tp, sawDigit, octets =>
      if 0x30 ≤ ch.toNat ∧ ch.toNat ≤ 0x39 then
        let new := tp * 10 + (ch.toNat - 0x30)
        if sawDigit ∧ tp = 0 then none
        else if 255 < new then none
        else if sawDigit then inetPtonLoop src tmp new true octets
        else if 4 < octets + 1 then none
        else inetPtonLoop src tmp new true (octets + 1)
      else if ch = 0x2e ∧ sawDigit then
        if octets = 4 then none else inetPtonLoop src (tmp ++ [BitVec.ofNat 8 tp]) 0 false octets
      else none

/-- `inet_pton(AF_INET, src, dst)`: what it stores, `none` when it returns 0 and stores nothing. -/
def inetPton (src : CString) : Option Ipv4 :=
  match inetPtonLoop src.bytes [] 0 false 0 with
  | some [b0, b1, b2, b3] => some (load32 b0 b1 b2 b3)
  | _ => none

/-! ### The loop over the sources -/

/-- Where the loop begins. -/
def firstSource : Option XmlDoc → List XmlNode
  | none => []
  | some pdoc => configSearch3 pdoc "DNSCONFIG" "Root" "IPSource"

def nextSource (ptr : List XmlNode) : List XmlNode := configSearchNext ptr "IPSource"

/-- The domain and the address of an element the loop makes an insertion for. -/
def sourceOf (ptr : XmlNode) : Option (CString × CString) := do
  let domain ← configSearchAttrValue ptr "Domain"
  let ipaddr ← configSearchAttrValue ptr "ipaddr"
  if domain.strlen < NetHashmap.domainLen ∧ ipaddr.strlen ≠ 0 then some (domain, ipaddr) else none

/-- The insertion: `ipv4` is zeroed before `inet_pton`, whose return value nothing looks at. -/
def sourceInsertion (source : CString × CString) : Insertion :=
  ⟨source.1.chars, source.1.strlen, (inetPton source.2).getD 0⟩

/-- A dotted address, and what is none. -/
example : (inetPtonLoop (literal "112.80.248.73") [] 0 false 0 = some [112, 80, 248, 73]) ∧
    inetPtonLoop (literal "112.80.248") [] 0 false 0 = none := by decide

end SimpDserver.Daemon

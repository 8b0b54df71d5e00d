import Mathlib.Algebra.Group.Nat.Defs
import Mathlib.Data.List.Basic

/-! Steering filters and the rules they expand to (match.go). A filter is a list
of matches; matches of one kind are alternatives, different kinds are ANDed. A
rule is one conjunction that a backend installs. -/
namespace Packetio

abbrev MAC := Fin 6 → UInt8

/-- Bit `j` of an address in wire order, the top bit of the first byte first. -/
def addrBit {n : Nat} (a : Fin n → UInt8) (j : Nat) : Bool :=
  if h : j/8<n then (a ⟨j/8,h⟩).toBitVec.getMsbD (j%8) else false

inductive IPAddr where
  | v4 (a : Fin 4 → UInt8)
  | v6 (a : Fin 16 → UInt8)

inductive Prefix where
  | invalid
  | v4 (addr : Fin 4 → UInt8) (bits : Fin 33)
  | v6 (addr : Fin 16 → UInt8) (bits : Fin 129)

def Prefix.isValid : Prefix → Bool
  | .invalid => false
  | _ => true

def Prefix.Contains : Prefix → IPAddr → Prop
  | .v4 a bits, .v4 x => ∀ j<bits.val, addrBit x j=addrBit a j
  | .v6 a bits, .v6 x => ∀ j<bits.val, addrBit x j=addrBit a j
  | _, _ => False

instance (p : Prefix) (x : IPAddr) : Decidable (p.Contains x) :=
  match p, x with
  | .v4 a bits, .v4 x => inferInstanceAs (Decidable (∀ j<bits.val, addrBit x j=addrBit a j))
  | .v6 a bits, .v6 x => inferInstanceAs (Decidable (∀ j<bits.val, addrBit x j=addrBit a j))
  | .v4 _ _, .v6 _ => inferInstanceAs (Decidable False)
  | .v6 _ _, .v4 _ => inferInstanceAs (Decidable False)
  | .invalid, _ => inferInstanceAs (Decidable False)

structure IPHeader (n : Nat) where
  src : Fin n → UInt8
  dst : Fin n → UInt8
  proto : UInt8
  ports : Option (UInt16 × UInt16)

inductive Payload where
  | ipv4 (h : IPHeader 4)
  | ipv6 (h : IPHeader 16)
  | other (etherType : UInt16) (not4 : etherType≠0x0800) (not6 : etherType≠0x86dd)

structure Packet where
  dstMAC : MAC
  vlan : Option UInt16
  payload : Payload

def Packet.etherType (p : Packet) : UInt16 :=
  match p.payload with
  | .ipv4 _ => 0x0800
  | .ipv6 _ => 0x86dd
  | .other t _ _ => t

def Packet.vlanID (p : Packet) : Option UInt16 := p.vlan.map (· &&& 0x0fff)

def Packet.src (p : Packet) : Option IPAddr :=
  match p.payload with
  | .ipv4 h => some (.v4 h.src)
  | .ipv6 h => some (.v6 h.src)
  | .other .. => none

def Packet.dst (p : Packet) : Option IPAddr :=
  match p.payload with
  | .ipv4 h => some (.v4 h.dst)
  | .ipv6 h => some (.v6 h.dst)
  | .other .. => none

def Packet.proto (p : Packet) : Option UInt8 :=
  match p.payload with
  | .ipv4 h => some h.proto
  | .ipv6 h => some h.proto
  | .other .. => none

def Packet.ports (p : Packet) : Option (UInt16 × UInt16) :=
  match p.payload with
  | .ipv4 h => h.ports
  | .ipv6 h => h.ports
  | .other .. => none

def Packet.srcPort (p : Packet) : Option UInt16 := p.ports.map Prod.fst
def Packet.dstPort (p : Packet) : Option UInt16 := p.ports.map Prod.snd

inductive MatchKind where
  | dstMAC
  | vlan
  | etherType
  | ipProto
  | srcIP
  | dstIP
  | srcPort
  | dstPort
  | unknown (n : UInt8)
  deriving DecidableEq

structure Match where
  kind : MatchKind
  mac : MAC := fun _ => 0
  vlan : UInt16 := 0
  etherType : UInt16 := 0
  ipProto : UInt8 := 0
  port : UInt16 := 0
  net : Prefix := .invalid

def ipProtoTCP : UInt8 := 6
def ipProtoUDP : UInt8 := 17
def maxVLAN : UInt16 := 4095

def matchDstMAC (mac : MAC) : Match := { kind := .dstMAC, mac := mac }
def matchVLAN (id : UInt16) : Match := { kind := .vlan, vlan := id }
def matchEtherType (t : UInt16) : Match := { kind := .etherType, etherType := t }
def matchIPProto (p : UInt8) : Match := { kind := .ipProto, ipProto := p }
def matchSrcIP (p : Prefix) : Match := { kind := .srcIP, net := p }
def matchDstIP (p : Prefix) : Match := { kind := .dstIP, net := p }

def matchSrcPort (proto : UInt8) (port : UInt16) : List Match :=
  [matchIPProto proto,{ kind := .srcPort, ipProto := proto, port := port }]

def matchDstPort (proto : UInt8) (port : UInt16) : List Match :=
  [matchIPProto proto,{ kind := .dstPort, ipProto := proto, port := port }]

structure SteeringFilter where
  ms : List Match := []
  promiscuous : Bool := false

inductive FilterError where
  | promiscuousMatch (ms : List Match)
  | twoProtocols (proto other : UInt8)
  | portProtocol (port proto : UInt8)
  | badPrefix
  | badVLAN (id : UInt16)
  | zeroEtherType
  | unknownKind (n : UInt8)
  | unknownRuleKind (n : UInt8)
  | portAlone
  | tooMany (rules : Nat)

def protoName (p : UInt8) : String :=
  if p=ipProtoTCP then "tcp" else if p=ipProtoUDP then "udp" else s!"ip/{p}"

/-- The text of a refusal; `filterString` renders a filter for the line a program
prints at startup. -/
def FilterError.error (filterString : SteeringFilter → String) (e : FilterError) : String :=
  "packetio: unsupported: " ++ match e with
  | .promiscuousMatch ms =>
    "a promiscuous filter cannot also match on " ++ filterString { ms := ms }
  | .twoProtocols proto other =>
    "two different IP protocols, " ++ protoName proto ++ " and " ++ protoName other
  | .portProtocol port proto =>
    "a " ++ protoName port ++ " port match with an " ++ protoName proto ++ " protocol match"
  | .badPrefix => "invalid Prefix is not a valid prefix"
  | .badVLAN id => s!"VLAN {id} is outside the 0 to {maxVLAN} a tag can carry"
  | .zeroEtherType => "EtherType 0 means \"not matched\" in a compiled rule, " ++
    "so this condition would vanish and the filter would be wider than asked"
  | .unknownKind n => s!"unknown match kind {n}; a Match is built with the Match* constructors"
  | .unknownRuleKind n => s!"unknown match kind {n}"
  | .portAlone => "a port can only be matched together with a protocol; " ++
    "use MatchDstPort, which emits both"
  | .tooMany n => s!"this filter needs {n} rules and 16 is the most a backend installs; " ++
    "use fewer alternatives or a wider match"

structure ProtoState where
  proto : Option UInt8 := none
  wantPort : Bool := false

def ProtoState.name (st : ProtoState) (p : UInt8) (refuse : UInt8 → FilterError)
    (next : ProtoState) : Except FilterError ProtoState :=
  match st.proto with
  | some proto => if proto≠p then .error (refuse proto) else .ok next
  | none => .ok next

def validateMatch (st : ProtoState) (m : Match) : Except FilterError ProtoState :=
  match m.kind with
  | .ipProto =>
    st.name m.ipProto (fun proto => .twoProtocols proto m.ipProto)
      { st with proto := some m.ipProto }
  | .srcPort | .dstPort =>
    if m.ipProto≠0 then
      st.name m.ipProto (fun proto => .portProtocol m.ipProto proto) ⟨some m.ipProto,true⟩
    else .ok { st with wantPort := true }
  | .srcIP | .dstIP => if !m.net.isValid then .error .badPrefix else .ok st
  | .vlan => if m.vlan > maxVLAN then .error (.badVLAN m.vlan) else .ok st
  | .dstMAC => .ok st
  | .etherType => if m.etherType=0 then .error .zeroEtherType else .ok st
  | .unknown n => .error (.unknownKind n)

def SteeringFilter.validate (f : SteeringFilter) : Except FilterError Unit :=
  if f.promiscuous ∧ f.ms.length > 0 then .error (.promiscuousMatch f.ms)
  else match f.ms.foldlM validateMatch {} with
    | .error e => .error e
    | .ok st => if st.wantPort ∧ st.proto.isNone then .error .portAlone else .ok ()

structure Rule where
  mac : MAC := fun _ => 0
  macSet : Bool := false
  vlan : UInt16 := 0
  vlanSet : Bool := false
  etherType : UInt16 := 0
  ipProto : UInt8 := 0
  ipProtoSet : Bool := false
  srcPrefix : Prefix := .invalid
  dstPrefix : Prefix := .invalid
  srcPort : UInt16 := 0
  dstPort : UInt16 := 0
  srcPortSet : Bool := false
  dstPortSet : Bool := false
  promiscuous : Bool := false

def maxRules : Nat := 16

def expandRules {α : Type} (rules : List Rule) (alts : List α) (put : Rule → α → Rule) :
    List Rule :=
  if alts.length=0 ∨ rules.length > maxRules then rules
  else rules.flatMap fun r => alts.map (put r)

def dedupe (l : List UInt8) : List UInt8 :=
  if l.length<2 then l else l.foldl (fun out v => if v∈out then out else out++[v]) []

def SteeringFilter.collect {α : Type} (f : SteeringFilter) (k : MatchKind) (get : Match → α) :
    List α :=
  (f.ms.filter (·.kind=k)).map get

def Rule.setMAC (r : Rule) (mac : MAC) : Rule := { r with mac := mac, macSet := true }
def Rule.setVLAN (r : Rule) (id : UInt16) : Rule := { r with vlan := id, vlanSet := true }
def Rule.setEtherType (r : Rule) (t : UInt16) : Rule := { r with etherType := t }
def Rule.setIPProto (r : Rule) (p : UInt8) : Rule := { r with ipProto := p, ipProtoSet := true }
def Rule.setDstPort (r : Rule) (p : UInt16) : Rule := { r with dstPort := p, dstPortSet := true }
def Rule.setSrcPort (r : Rule) (p : UInt16) : Rule := { r with srcPort := p, srcPortSet := true }
def Rule.setSrcPrefix (r : Rule) (n : Prefix) : Rule := { r with srcPrefix := n }
def Rule.setDstPrefix (r : Rule) (n : Prefix) : Rule := { r with dstPrefix := n }

def SteeringFilter.expand (f : SteeringFilter) : List Rule :=
  let rules := [({} : Rule)]
  let rules := expandRules rules (f.collect .dstMAC Match.mac) Rule.setMAC
  let rules := expandRules rules (f.collect .vlan Match.vlan) Rule.setVLAN
  let rules := expandRules rules (f.collect .etherType Match.etherType) Rule.setEtherType
  let rules := expandRules rules (dedupe (f.collect .ipProto Match.ipProto)) Rule.setIPProto
  let rules := expandRules rules (f.collect .dstPort Match.port) Rule.setDstPort
  let rules := expandRules rules (f.collect .srcPort Match.port) Rule.setSrcPort
  let rules := expandRules rules (f.collect .srcIP Match.net) Rule.setSrcPrefix
  expandRules rules (f.collect .dstIP Match.net) Rule.setDstPrefix

def MatchKind.unknown? : MatchKind → Option UInt8
  | .unknown n => some n
  | _ => none

def SteeringFilter.rules (f : SteeringFilter) : Except FilterError (List Rule) :=
  match f.validate with
  | .error e => .error e
  | .ok () =>
    if f.promiscuous then .ok [{ promiscuous := true }]
    else match f.ms.findSome? (·.kind.unknown?) with
      | some n => .error (.unknownRuleKind n)
      | none =>
        if f.expand.length > maxRules then .error (.tooMany f.expand.length) else .ok f.expand

def Match.Matches (m : Match) (p : Packet) : Prop :=
  match m.kind with
  | .dstMAC => p.dstMAC=m.mac
  | .vlan => p.vlanID=some m.vlan
  | .etherType => p.etherType=m.etherType
  | .ipProto => p.proto=some m.ipProto
  | .srcIP => ∃ x∈p.src, m.net.Contains x
  | .dstIP => ∃ x∈p.dst, m.net.Contains x
  | .srcPort => p.proto=some m.ipProto ∧ p.srcPort=some m.port
  | .dstPort => p.proto=some m.ipProto ∧ p.dstPort=some m.port
  | .unknown _ => False

structure Rule.Matches (r : Rule) (p : Packet) : Prop where
  mac : r.macSet=true → p.dstMAC=r.mac
  vlan : r.vlanSet=true → p.vlanID=some r.vlan
  etherType : r.etherType≠0 → p.etherType=r.etherType
  proto : r.ipProtoSet=true → p.proto=some r.ipProto
  src : r.srcPrefix.isValid=true → ∃ x∈p.src, r.srcPrefix.Contains x
  dst : r.dstPrefix.isValid=true → ∃ x∈p.dst, r.dstPrefix.Contains x
  srcPort : r.srcPortSet=true → p.srcPort=some r.srcPort
  dstPort : r.dstPortSet=true → p.dstPort=some r.dstPort

end Packetio

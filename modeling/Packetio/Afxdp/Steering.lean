import Packetio.MatchMeaning

/-! Steering on AF_XDP (afxdp/steering.go): each rule of a filter becomes one match of
go-afxdp, which is not part of it. The matches are ORed, and the only AND among them is a
pair of prefixes. -/
namespace Packetio.Afxdp
open List

inductive XdpMatch where
  | all
  | udpPort (port : UInt16)
  | tcpPort (port : UInt16)
  | udpSrcPort (port : UInt16)
  | tcpSrcPort (port : UInt16)
  | ipv4Proto (proto : UInt8)
  | etherType (t : UInt16)
  | srcIP (net : Prefix)
  | dstIP (net : Prefix)
  | flow (src dst : Prefix)

inductive SteeringError where
  | filter (e : FilterError)
  | vlan
  | mac
  | portProtocol
  | noDefault
  | conjunction (r : Rule)

def prefixMatch (r : Rule) : List XdpMatch :=
  if r.srcPrefix.isValid && r.dstPrefix.isValid then [.flow r.srcPrefix r.dstPrefix]
  else if r.srcPrefix.isValid then [.srcIP r.srcPrefix]
  else if r.dstPrefix.isValid then [.dstIP r.dstPrefix]
  else []

def portMatch (isSet : Bool) (proto : UInt8) (udp tcp : XdpMatch) :
    Except SteeringError (List XdpMatch) :=
  if !isSet then .ok []
  else if proto=ipProtoUDP then .ok [udp]
  else if proto=ipProtoTCP then .ok [tcp]
  else .error .portProtocol

def protoMatch (r : Rule) : List XdpMatch :=
  if r.ipProtoSet && !r.srcPortSet && !r.dstPortSet then [.ipv4Proto r.ipProto] else []

def etherMatch (r : Rule) : List XdpMatch :=
  if r.etherType≠0 then [.etherType r.etherType] else []

def one (r : Rule) : List XdpMatch → Except SteeringError XdpMatch
  | [] => .error .noDefault
  | [m] => .ok m
  | _ => .error (.conjunction r)

def ruleToMatch (r : Rule) : Except SteeringError XdpMatch :=
  if r.vlanSet then .error .vlan
  else if r.macSet then .error .mac
  else do
    let dst ← portMatch r.dstPortSet r.ipProto (.udpPort r.dstPort) (.tcpPort r.dstPort)
    let src ← portMatch r.srcPortSet r.ipProto (.udpSrcPort r.srcPort) (.tcpSrcPort r.srcPort)
    one r (prefixMatch r++dst++src++protoMatch r++etherMatch r)

def steeringOption (f : SteeringFilter) : Except SteeringError (List XdpMatch) :=
  match f.rules with
  | .error e => .error (.filter e)
  | .ok rules =>
    if rules.length=1 && rules.any (·.promiscuous) then .ok [.all]
    else rules.mapM ruleToMatch

def hex4 (t : UInt16) : String :=
  let digits := Nat.toDigits 16 t.toNat
  String.ofList (List.replicate (4-digits.length) '0'++digits)

/-- What a rule asks for; `prefixString` renders a prefix. -/
def describeRule (prefixString : Prefix → String) (r : Rule) : String :=
  let parts := (if r.srcPrefix.isValid then ["from "++prefixString r.srcPrefix] else [])++
    (if r.dstPrefix.isValid then ["to "++prefixString r.dstPrefix] else [])++
    (if r.ipProtoSet then [s!"proto {r.ipProto}"] else [])++
    (if r.dstPortSet then [s!"port {r.dstPort}"] else [])++
    (if r.srcPortSet then [s!"src port {r.srcPort}"] else [])++
    (if r.etherType≠0 then ["ethertype 0x"++hex4 r.etherType] else [])
  " and ".intercalate parts

def SteeringError.error (filterString : SteeringFilter → String) (prefixString : Prefix → String)
    (e : SteeringError) : String :=
  match e with
  | .filter e => e.error filterString
  | .vlan => "packetio: unsupported: AF_XDP filters skip the VLAN tag and cannot match " ++
    "its identifier; match on ports or addresses instead"
  | .mac => "packetio: unsupported: AF_XDP filters have no destination-MAC match"
  | .portProtocol => "packetio: unsupported: a port match needs TCP or UDP"
  | .noDefault => "packetio: unsupported: AF_XDP cannot express \"packets addressed to this " ++
    "interface\", so it has no default filter -- name the traffic you want " ++
    "(MatchDstPort, MatchDstIP, MatchEtherType...), or set Promiscuous to take " ++
    "everything and keep it from the kernel"
  | .conjunction r => "packetio: unsupported: AF_XDP filters cannot AND " ++
    describeRule prefixString r ++ "; only a source and destination prefix pair combine"

/-! What the matches mean -/

def XdpMatch.Says (m : XdpMatch) (p : Packet) : Prop :=
  match m with
  | .all => True
  | .udpPort port => p.proto=some ipProtoUDP ∧ p.dstPort=some port
  | .tcpPort port => p.proto=some ipProtoTCP ∧ p.dstPort=some port
  | .udpSrcPort port => p.proto=some ipProtoUDP ∧ p.srcPort=some port
  | .tcpSrcPort port => p.proto=some ipProtoTCP ∧ p.srcPort=some port
  | .ipv4Proto proto => p.etherType=0x0800 ∧ p.proto=some proto
  | .etherType t => p.etherType=t
  | .srcIP net => ∃ x∈p.src, net.Contains x
  | .dstIP net => ∃ x∈p.dst, net.Contains x
  | .flow src dst => (∃ x∈p.src, src.Contains x) ∧ ∃ x∈p.dst, dst.Contains x

structure Means (accepts : XdpMatch → Packet → Prop) : Prop where
  sound : ∀ m p, accepts m p → m.Says p
  complete : ∀ m p, p.etherType=0x0800 → m.Says p → accepts m p

def XdpMatch.rule : XdpMatch → Rule
  | .all => { promiscuous := true }
  | .udpPort port =>
    { ipProto := ipProtoUDP, ipProtoSet := true, dstPort := port, dstPortSet := true }
  | .tcpPort port =>
    { ipProto := ipProtoTCP, ipProtoSet := true, dstPort := port, dstPortSet := true }
  | .udpSrcPort port =>
    { ipProto := ipProtoUDP, ipProtoSet := true, srcPort := port, srcPortSet := true }
  | .tcpSrcPort port =>
    { ipProto := ipProtoTCP, ipProtoSet := true, srcPort := port, srcPortSet := true }
  | .ipv4Proto proto => { ipProto := proto, ipProtoSet := true }
  | .etherType t => { etherType := t }
  | .srcIP net => { srcPrefix := net }
  | .dstIP net => { dstPrefix := net }
  | .flow src dst => { srcPrefix := src, dstPrefix := dst }

def XdpMatch.Proper : XdpMatch → Prop
  | .all => False
  | .etherType t => t≠0
  | .srcIP net => net.isValid=true
  | .dstIP net => net.isValid=true
  | .flow src dst => src.isValid=true ∧ dst.isValid=true
  | _ => True

def Expressible (r : Rule) : Prop := ∃ m : XdpMatch, m.Proper ∧ r=m.rule

theorem matches_empty (p : Packet) : Rule.Matches {} p := by constructor <;> simp [Prefix.isValid]

variable {p : Packet} {m : XdpMatch} {ms : List XdpMatch} {r : Rule}

theorem says_rule (hm : m.Proper) (h : m.Says p) : m.rule.Matches p := by
  cases m with
  | all => cases hm
  | udpPort port | tcpPort port | udpSrcPort port | tcpSrcPort port =>
    constructor <;> simp [XdpMatch.rule,Prefix.isValid,h.1,h.2]
  | ipv4Proto proto => constructor <;> simp [XdpMatch.rule,Prefix.isValid,h.2]
  | etherType t => constructor <;> simp [XdpMatch.rule,Prefix.isValid,h.symm]
  | srcIP net => exact { matches_empty p with src := fun _ => h }
  | dstIP net => exact { matches_empty p with dst := fun _ => h }
  | flow src dst => exact { matches_empty p with src := fun _ => h.1, dst := fun _ => h.2 }

theorem says_of_rule (hm : m.Proper) (hp : p.etherType=0x0800)
    (h : m.rule.Matches p) : m.Says p := by
  cases m with
  | all => cases hm
  | udpPort port | tcpPort port => exact ⟨h.proto rfl,h.dstPort rfl⟩
  | udpSrcPort port | tcpSrcPort port => exact ⟨h.proto rfl,h.srcPort rfl⟩
  | ipv4Proto proto => exact ⟨hp,h.proto rfl⟩
  | etherType t => exact h.etherType hm
  | srcIP net => exact h.src hm
  | dstIP net => exact h.dst hm
  | flow src dst => exact ⟨h.src hm.1,h.dst hm.2⟩

/-! Which rules become a match -/

structure Plain (r : Rule) : Prop where
  mac : r.macSet=false → r.mac=fun _ => 0
  vlan : r.vlanSet=false → r.vlan=0
  proto : r.ipProtoSet=false → r.ipProto=0
  srcPort : r.srcPortSet=false → r.srcPort=0
  dstPort : r.dstPortSet=false → r.dstPort=0
  promiscuous : r.promiscuous=false

theorem choice_plain (c : Choice) : Plain c.rule := by
  constructor <;> simp +contextual [Choice.rule]

theorem invalid_of_not_isValid {net : Prefix} (h : net.isValid=false) : net = .invalid := by
  cases net with
  | invalid => rfl
  | v4 _ _ | v6 _ _ => cases h

theorem portMatch_ok {isSet : Bool} {proto : UInt8} {udp tcp : XdpMatch} :
    portMatch isSet proto udp tcp = .ok ms ↔ isSet=false ∧ ms = [] ∨
      isSet=true ∧ (proto=ipProtoUDP ∧ ms = [udp] ∨ proto=ipProtoTCP ∧ ms = [tcp]) := by
  rcases isSet with _ | _
  · simp [portMatch,eq_comm]
  by_cases hu : proto=ipProtoUDP
  · simp [portMatch,hu,ipProtoUDP,ipProtoTCP,eq_comm]
  by_cases ht : proto=ipProtoTCP
  · simp [portMatch,ht,ipProtoUDP,ipProtoTCP,eq_comm]
  · simp [portMatch,hu,ht]

theorem one_ok : one r ms = .ok m ↔ ms = [m] := by
  match ms with
  | [] => simp [one]
  | [x] => simp [one]
  | x::y::ms => simp [one]

theorem ruleToMatch_eq_ok : ruleToMatch r = .ok m ↔ r.vlanSet=false ∧ r.macSet=false ∧ ∃ dst src,
      portMatch r.dstPortSet r.ipProto (.udpPort r.dstPort) (.tcpPort r.dstPort) = .ok dst ∧
      portMatch r.srcPortSet r.ipProto (.udpSrcPort r.srcPort) (.tcpSrcPort r.srcPort) = .ok src ∧
      prefixMatch r++dst++src++protoMatch r++etherMatch r = [m] := by
  rw [ruleToMatch]
  cases r.vlanSet with
  | true => simp
  | false =>
    cases r.macSet with
    | true => simp
    | false =>
      cases portMatch r.dstPortSet r.ipProto (.udpPort r.dstPort) (.tcpPort r.dstPort) with
      | error e => simp [bind,Except.bind]
      | ok dst =>
        cases portMatch r.srcPortSet r.ipProto (.udpSrcPort r.srcPort) (.tcpSrcPort r.srcPort) with
        | error e => simp [bind,Except.bind]
        | ok src => simp [bind,Except.bind,one_ok]

theorem prefixMatch_nil (h : prefixMatch r = []) :
    r.srcPrefix = .invalid ∧ r.dstPrefix = .invalid := by
  rw [prefixMatch] at h
  cases hs : r.srcPrefix.isValid with
  | true => cases hd : r.dstPrefix.isValid <;> simp [hs,hd] at h
  | false =>
    cases hd : r.dstPrefix.isValid with
    | true => simp [hs,hd] at h
    | false => exact ⟨invalid_of_not_isValid hs,invalid_of_not_isValid hd⟩

theorem etherMatch_nil (h : etherMatch r = []) : r.etherType=0 := by
  by_contra hne
  rw [etherMatch,if_pos hne] at h
  cases h

theorem Plain.eq (hr : Plain r) (hv : r.vlanSet=false) (hm : r.macSet=false) :
    r = { etherType := r.etherType, ipProto := r.ipProto, ipProtoSet := r.ipProtoSet
          srcPrefix := r.srcPrefix, dstPrefix := r.dstPrefix, srcPort := r.srcPort
          dstPort := r.dstPort, srcPortSet := r.srcPortSet, dstPortSet := r.dstPortSet } := by
  have hmac := hr.mac hm
  have hvlan := hr.vlan hv
  have hprom := hr.promiscuous
  obtain ⟨mac,macSet,vlan,vlanSet,_,_,_,_,_,_,_,_,_,promiscuous⟩ := r
  change mac=_ at hmac
  change vlan=_ at hvlan
  change promiscuous=_ at hprom
  change vlanSet=_ at hv
  change macSet=_ at hm
  rw [hmac,hvlan,hprom,hv,hm]

theorem Plain.protoSet (hr : Plain r) (h : r.ipProto≠0) : r.ipProtoSet=true := by
  cases hset : r.ipProtoSet with
  | true => rfl
  | false => exact absurd (hr.proto hset) h

theorem only_port {dst src : List XdpMatch}
    (h : prefixMatch r++dst++src++protoMatch r++etherMatch r = [m]) (hport : 0<(dst++src).length) :
    dst++src = [m] ∧ r.srcPrefix = .invalid ∧ r.dstPrefix = .invalid ∧ r.etherType=0 := by
  have hlen := congrArg length h
  simp only [length_append,length_singleton] at hlen hport
  have hp : prefixMatch r = [] := length_eq_zero_iff.mp (by omega)
  have hq : protoMatch r = [] := length_eq_zero_iff.mp (by omega)
  have he : etherMatch r = [] := length_eq_zero_iff.mp (by omega)
  rw [hp,hq,he,append_nil,append_nil,nil_append] at h
  obtain ⟨hs,hd⟩ := prefixMatch_nil hp
  exact ⟨h,hs,hd,etherMatch_nil he⟩

theorem only_one (hs : r.srcPortSet=false) (hd : r.dstPortSet=false)
    (h : prefixMatch r++protoMatch r++etherMatch r = [m]) :
    prefixMatch r = [m] ∧ r.ipProtoSet=false ∧ r.etherType=0 ∨
    r.srcPrefix = .invalid ∧ r.dstPrefix = .invalid ∧ r.ipProtoSet=true ∧ m = .ipv4Proto r.ipProto ∧
      r.etherType=0 ∨
    r.srcPrefix = .invalid ∧ r.dstPrefix = .invalid ∧ r.ipProtoSet=false ∧ r.etherType≠0 ∧
      m = .etherType r.etherType := by
  have hproto : protoMatch r=if r.ipProtoSet then [.ipv4Proto r.ipProto] else [] := by
    rw [protoMatch,hs,hd,Bool.not_false,Bool.and_true,Bool.and_true]
  rw [hproto] at h
  cases hset : r.ipProtoSet with
  | true =>
    rw [hset,if_pos rfl] at h
    have hlen := congrArg length h
    simp only [length_append,length_singleton] at hlen
    have hp : prefixMatch r = [] := length_eq_zero_iff.mp (by omega)
    have he : etherMatch r = [] := length_eq_zero_iff.mp (by omega)
    obtain ⟨hsrc,hdst⟩ := prefixMatch_nil hp
    rw [hp,he] at h
    exact .inr (.inl ⟨hsrc,hdst,rfl,by simpa using h.symm,etherMatch_nil he⟩)
  | false =>
    rw [hset,if_neg Bool.false_ne_true,append_nil] at h
    by_cases he : r.etherType=0
    · rw [etherMatch,if_neg (not_not.mpr he),append_nil] at h
      exact .inl ⟨h,rfl,he⟩
    rw [etherMatch,if_pos he] at h
    have hlen := congrArg length h
    simp only [length_append,length_singleton] at hlen
    have hp : prefixMatch r = [] := length_eq_zero_iff.mp (by omega)
    obtain ⟨hsrc,hdst⟩ := prefixMatch_nil hp
    rw [hp] at h
    exact .inr (.inr ⟨hsrc,hdst,rfl,he,by simpa using h.symm⟩)

theorem prefixMatch_one (h : prefixMatch r = [m]) :
    m.Proper ∧ m.rule = { srcPrefix := r.srcPrefix, dstPrefix := r.dstPrefix } := by
  rw [prefixMatch] at h
  cases hs : r.srcPrefix.isValid with
  | true =>
    cases hd : r.dstPrefix.isValid with
    | true =>
      simp [hs,hd] at h
      rw [← h]
      exact ⟨⟨hs,hd⟩,rfl⟩
    | false =>
      simp [hs,hd] at h
      rw [← h,invalid_of_not_isValid hd]
      exact ⟨hs,rfl⟩
  | false =>
    cases hd : r.dstPrefix.isValid with
    | true =>
      simp [hs,hd] at h
      rw [← h,invalid_of_not_isValid hs]
      exact ⟨hd,rfl⟩
    | false => simp [hs,hd] at h

theorem expressed (hr : Plain r) (h : ruleToMatch r = .ok m) : m.Proper ∧ r=m.rule := by
  obtain ⟨hv,hm,dst,src,hdst,hsrc,hone⟩ := ruleToMatch_eq_ok.mp h
  have heq := hr.eq hv hm
  rcases portMatch_ok.mp hdst with ⟨hd,rfl⟩ | ⟨hd,hdst⟩
  · have hdp := hr.dstPort hd
    rcases portMatch_ok.mp hsrc with ⟨hs,rfl⟩ | ⟨hs,hsrc⟩
    · have hsp := hr.srcPort hs
      rw [append_nil,append_nil] at hone
      rcases only_one hs hd hone with ⟨hp,hq,he⟩ | ⟨hp,hp',hq,rfl,he⟩ | ⟨hp,hp',hq,he,rfl⟩
      · obtain ⟨hproper,hrule⟩ := prefixMatch_one hp
        refine ⟨hproper,heq.trans ?_⟩
        rw [hrule,hs,hd,hdp,hsp,he,hq,hr.proto hq]
      · refine ⟨trivial,heq.trans ?_⟩
        rw [hs,hd,hdp,hsp,he,hq,hp,hp']
        rfl
      · refine ⟨he,heq.trans ?_⟩
        rw [hs,hd,hdp,hsp,hq,hr.proto hq,hp,hp']
        rfl
    · have hport : 0<([]++src).length := by rcases hsrc with ⟨-,rfl⟩ | ⟨-,rfl⟩ <;> exact Nat.one_pos
      obtain ⟨hm,hp,hp',he⟩ := only_port hone hport
      rcases hsrc with ⟨hq,rfl⟩ | ⟨hq,rfl⟩
      all_goals
        cases hm
        refine ⟨trivial,heq.trans ?_⟩
        rw [hs,hd,hdp,he,hp,hp',hq,hr.protoSet (by rw [hq]; decide)]
        rfl
  · have hport : 0<(dst++src).length := by
      rw [length_append]
      rcases hdst with ⟨-,rfl⟩ | ⟨-,rfl⟩ <;> exact Nat.le_add_right 1 _
    obtain ⟨hm,hp,hp',he⟩ := only_port hone hport
    rcases portMatch_ok.mp hsrc with ⟨hs,rfl⟩ | ⟨hs,hsrc⟩
    · have hsp := hr.srcPort hs
      rcases hdst with ⟨hq,rfl⟩ | ⟨hq,rfl⟩
      all_goals
        cases hm
        refine ⟨trivial,heq.trans ?_⟩
        rw [hs,hd,hsp,he,hp,hp',hq,hr.protoSet (by rw [hq]; decide)]
        rfl
    · -- both ports would be two matches
      have hlen := congrArg length hm
      rcases hdst with ⟨-,rfl⟩ | ⟨-,rfl⟩ <;> rcases hsrc with ⟨-,rfl⟩ | ⟨-,rfl⟩ <;> cases hlen

theorem ruleToMatch_rule (h : m.Proper) : ruleToMatch m.rule = .ok m := by
  rw [ruleToMatch_eq_ok]
  cases m with
  | all => cases h
  | udpPort port | tcpPort port | udpSrcPort port | tcpSrcPort port | ipv4Proto proto =>
    exact ⟨rfl,rfl,_,_,rfl,rfl,rfl⟩
  | etherType t =>
    refine ⟨rfl,rfl,_,_,rfl,rfl,?_⟩
    exact if_pos h
  | srcIP net | dstIP net =>
    refine ⟨rfl,rfl,[],[],rfl,rfl,?_⟩
    have hnet : net.isValid=true := h
    have hno : Prefix.isValid .invalid=false := rfl
    simp [prefixMatch,protoMatch,etherMatch,XdpMatch.rule,hnet,hno]
  | flow src dst =>
    refine ⟨rfl,rfl,[],[],rfl,rfl,?_⟩
    simp [prefixMatch,protoMatch,etherMatch,XdpMatch.rule,h.1,h.2]

/-! Whole filters -/

theorem mapM_ok_mem {α β ε : Type} {g : α → Except ε β} {xs : List α} {ys : List β}
    (h : xs.mapM g = .ok ys) : (∀ y∈ys, ∃ x∈xs, g x = .ok y) ∧ ∀ x∈xs, ∃ y∈ys, g x = .ok y := by
  induction xs generalizing ys with
  | nil =>
    injection h with h
    rw [← h]
    simp
  | cons x xs ih =>
    rw [mapM_cons] at h
    rcases hx : g x with e | y
    · rw [hx] at h
      cases h
    rcases hxs : xs.mapM g with e | ys'
    · rw [hx,hxs] at h
      cases h
    rw [hx,hxs] at h
    injection h with h
    rw [← h]
    simp only [forall_mem_cons,exists_mem_cons_iff,hx]
    obtain ⟨hleft,hright⟩ := ih hxs
    exact ⟨⟨.inl trivial,fun y hy => .inr (hleft y hy)⟩,.inl trivial,fun x hx => .inr (hright x hx)⟩

theorem mapM_error_iff {α β ε : Type} {g : α → Except ε β} {xs : List α} :
    (∃ e, xs.mapM g = .error e) ↔ ∃ x∈xs, ∃ e, g x = .error e := by
  induction xs with
  | nil => simp [pure,Except.pure]
  | cons x xs ih =>
    rw [mapM_cons,exists_mem_cons_iff]
    rcases g x with e | y
    · simp [bind,Except.bind]
    rw [← ih]
    cases xs.mapM g with
    | error e => simp [bind,Except.bind]
    | ok ys => simp [bind,Except.bind,pure,Except.pure]

section
variable {f : SteeringFilter} {rs : List Rule}

theorem rules_plain (hp : f.promiscuous=false) (h : f.rules = .ok rs) : ∀ r∈rs, Plain r := by
  obtain ⟨-,hall | ⟨-,hlen,rfl⟩⟩ := rules_ok h
  · rw [hp] at hall
    cases hall.1
  · intro r hr
    obtain ⟨c,-,rfl⟩ := (mem_expand hlen r).mp hr
    exact choice_plain c

theorem steeringOption_eq (hp : f.promiscuous=false) (h : f.rules = .ok rs) :
    steeringOption f=rs.mapM ruleToMatch := by
  have hnone : rs.any (·.promiscuous)=false :=
    any_eq_false.mpr fun r hr => by simp [(rules_plain hp h r hr).promiscuous]
  rw [steeringOption,h]
  simp [hnone]

theorem ruleToMatch_error_iff (hr : Plain r) :
    (∃ e, ruleToMatch r = .error e) ↔ ¬ Expressible r := by
  cases h : ruleToMatch r with
  | error e =>
    simp only [Except.error.injEq,exists_eq',true_iff]
    rintro ⟨m,hm,rfl⟩
    rw [ruleToMatch_rule hm] at h
    cases h
  | ok m => simpa using ⟨m,expressed hr h⟩

end

/-- For a filter that is not promiscuous, the matches that SteeringOption gives take nothing
together that the rules do not take, and all they take of IPv4; it refuses just the filters
with a rule that does not ask for one port, protocol, EtherType, prefix or pair of prefixes. -/
theorem steering_exact_or_refused (f : SteeringFilter) (rs : List Rule) (hp : f.promiscuous=false)
    (hr : f.rules = .ok rs) (accepts : XdpMatch → Packet → Prop) (hmean : Means accepts) :
    (∀ ms, steeringOption f = .ok ms → ∀ p, ((∃ m∈ms, accepts m p) → ∃ r∈rs, r.Matches p) ∧
      (p.etherType=0x0800 → (∃ r∈rs, r.Matches p) → ∃ m∈ms, accepts m p)) ∧
    ((∃ e, steeringOption f = .error e) ↔ ∃ r∈rs, ¬ Expressible r) := by
  have hplain := rules_plain hp hr
  rw [steeringOption_eq hp hr]
  refine ⟨fun ms hms p => ?_,?_⟩
  · obtain ⟨hfrom,hto⟩ := mapM_ok_mem hms
    constructor
    · rintro ⟨m,hm,hacc⟩
      obtain ⟨r,hmem,hrm⟩ := hfrom m hm
      obtain ⟨hproper,rfl⟩ := expressed (hplain r hmem) hrm
      exact ⟨_,hmem,says_rule hproper (hmean.sound m p hacc)⟩
    · rintro h4 ⟨r,hmem,hmatch⟩
      obtain ⟨m,hm,hrm⟩ := hto r hmem
      obtain ⟨hproper,rfl⟩ := expressed (hplain r hmem) hrm
      exact ⟨m,hm,hmean.complete m p h4 (says_of_rule hproper h4 hmatch)⟩
  · rw [mapM_error_iff]
    constructor
    · rintro ⟨r,hmem,herr⟩
      exact ⟨r,hmem,(ruleToMatch_error_iff (hplain r hmem)).mp herr⟩
    · rintro ⟨r,hmem,hno⟩
      exact ⟨r,hmem,(ruleToMatch_error_iff (hplain r hmem)).mpr hno⟩

def namePorts : SteeringFilter := { ms := matchDstPort 17 53++matchDstPort 17 5353 }

theorem says_means : Means XdpMatch.Says := ⟨fun _ _ h => h,fun _ _ _ h => h⟩

theorem steering_exact_or_refused_ports :
    ∃ rs, namePorts.rules = .ok rs ∧ steeringOption namePorts = .ok [.udpPort 53,.udpPort 5353] ∧
      ∀ p : Packet, p.etherType=0x0800 → (∃ r∈rs, r.Matches p) →
        ∃ m ∈ [XdpMatch.udpPort 53,.udpPort 5353], m.Says p := by
  obtain ⟨hexact,-⟩ := steering_exact_or_refused namePorts _ rfl rfl XdpMatch.Says says_means
  exact ⟨_,rfl,rfl,fun p => (hexact _ rfl p).2⟩

end Packetio.Afxdp

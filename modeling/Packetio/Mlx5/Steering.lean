import Packetio.Frame
import Packetio.Steering

/-! Steering on a ConnectX card: device.go turns the rules of a filter into
dv.Steering values, and pio_build_flow of shim.c lays each out as a flow
specification. A specification of a zero mask constrains nothing, and the IPv4
part is only there when a mask or a flag asks for it. -/
namespace Packetio.Mlx5

/-- What the rules are laid over: the address of the interface, unless the filter
names its own. `ifi` is the interface's address, if there is such an interface. -/
def steering (ifi : Option (List UInt8)) (f : SteeringFilter) : Except SteerError Steering :=
  match f.validate with
  | .error e => .error (.filter e)
  | .ok () =>
    if f.promiscuous then .ok { promiscuous := true }
    else if !f.namesDstMAC then match ifi with
      | none => .error .lookup
      | some hw =>
        if hw.length≠6 then .error .noAddress
        else .ok { mac := fun i => hw.getD i.val 0, macSet := true }
    else .ok {}

def steeringRules (ifi : Option (List UInt8)) (f : SteeringFilter) :
    Except SteerError (List Steering) :=
  match steering ifi f with
  | .error e => .error e
  | .ok base =>
    if base.promiscuous then .ok [base]
    else match f.rules with
      | .error e => .error (.filter e)
      | .ok rules => steerAll base rules

structure EthSpec where
  dstMAC : MAC
  dstMACMask : MAC
  vlanTag : UInt16
  vlanTagMask : UInt16
  etherType : UInt16
  etherTypeMask : UInt16

structure Flow where
  eth : EthSpec
  ip : Option IPv4Spec
  l4 : Option (UInt8 × L4Spec)

inductive FlowError where
  | portAlone
  | notIPv4 (etherType : UInt16)

def wantL4 (m : PioMatch) : Bool := m.haveSrcPort || m.haveDstPort

def wantIP (m : PioMatch) : Bool :=
  decide (∃ i, m.srcMask i≠0) || decide (∃ i, m.dstMask i≠0) || m.haveProto || wantL4 m

def ethSpec (m : PioMatch) : EthSpec where
  dstMAC := if !m.promisc && m.haveMAC then m.dstMAC else fun _ => 0
  dstMACMask := if !m.promisc && m.haveMAC then fun _ => 0xff else fun _ => 0
  vlanTag := if !m.promisc && m.vlan ≥ 0 then UInt16.ofNat m.vlan.toNat &&& 0x0fff else 0
  vlanTagMask := if !m.promisc && m.vlan ≥ 0 then 0x0fff else 0
  etherType := if m.haveEtherType then m.etherType else if wantIP m then 0x0800 else 0
  etherTypeMask := if m.haveEtherType || wantIP m then 0xffff else 0

def ipSpec (m : PioMatch) : IPv4Spec where
  src := fun i => m.srcIP i &&& m.srcMask i
  srcMask := m.srcMask
  dst := fun i => m.dstIP i &&& m.dstMask i
  dstMask := m.dstMask
  proto := if m.haveProto then m.ipProto else 0
  protoMask := if m.haveProto then 0xff else 0

def pioBuildFlow (m : PioMatch) : Except FlowError Flow :=
  if wantL4 m ∧ !m.haveProto then .error .portAlone
  else if wantIP m ∧ m.haveEtherType ∧ m.etherType≠0x0800 then .error (.notIPv4 m.etherType)
  else .ok
    { eth := ethSpec m
      ip := if wantIP m then some (ipSpec m) else none
      l4 := if wantL4 m then some (if m.ipProto=6 then 6 else 17,m.l4) else none }

def EthSpec.Matches (s : EthSpec) (p : Packetio.Packet) : Prop :=
  Masked p.dstMAC s.dstMAC s.dstMACMask ∧
    (s.vlanTagMask≠0 → ∃ t∈p.vlan, t &&& s.vlanTagMask=s.vlanTag &&& s.vlanTagMask) ∧
    p.etherType &&& s.etherTypeMask=s.etherType &&& s.etherTypeMask

def Flow.Matches (f : Flow) (p : Packetio.Packet) : Prop :=
  f.eth.Matches p ∧ (∀ s∈f.ip, s.Matches p) ∧ ∀ s∈f.l4, s.2.Matches s.1 p

def NoWider (r : Rule) (s : Steering) : Prop :=
  ∀ flow p, pioBuildFlow s.toC = .ok flow → flow.Matches p → r.Matches p

section
variable {r : Rule} {mac : MAC} {macSet : Bool} {p : Packetio.Packet}

theorem wantIP_eq_false (hs6 : r.srcPrefix.Not6) (hd6 : r.dstPrefix.Not6) :
    wantIP (r.steered mac macSet).toC=false ↔ r.srcPrefix.Zero ∧ r.dstPrefix.Zero ∧
      r.ipProtoSet=false ∧ r.srcPortSet=false ∧ r.dstPortSet=false := by
  rw [← Prefix.mask_zero hs6,← Prefix.mask_zero hd6]
  simp [wantIP,wantL4,Rule.steered,Steering.toC,and_assoc]

theorem steered_vlan (r : Rule) (mac : MAC) (macSet : Bool) :
    (r.steered mac macSet).toC.vlan=if r.vlanSet then (r.vlan.toNat : Int) else -1 := by
  by_cases hs : r.vlanSet=true
  · simp [Rule.steered,Steering.toC,hs]
  · simp [Rule.steered,Steering.toC,hs]

theorem ethSpec_matches (hvl : r.vlanSet=true → r.vlan ≤ maxVLAN)
    (h : (ethSpec (r.steered mac macSet).toC).Matches p) :
    (r.macSet=true → p.dstMAC=r.mac) ∧ (r.vlanSet=true → p.vlanID=some r.vlan) ∧
      (r.etherType≠0 → p.etherType=r.etherType) := by
  obtain ⟨hmac,hvlan,heth⟩ := h
  refine ⟨fun hs => ?_,fun hs => ?_,fun hs => ?_⟩
  · funext i
    have hi := hmac i
    simpa [ethSpec,Rule.steered,Steering.toC,hs,and_ones8] using hi
  · have hm : (r.steered mac macSet).toC.vlan=(r.vlan.toNat : Int) := by
      rw [steered_vlan,hs,if_pos rfl]
    have hpr : (r.steered mac macSet).toC.promisc=false := rfl
    simp only [ethSpec,hm,hpr] at hvlan
    obtain ⟨t,ht,he⟩ := hvlan (by simp)
    rw [Packetio.Packet.vlanID,ht,Option.map_some]
    simpa [UInt16.and_assoc,and_vlan (hvl hs)] using he
  · simpa [ethSpec,Rule.steered,Steering.toC,hs,and_ones16] using heth

theorem ethSpec_takes (hip : wantIP (r.steered mac macSet).toC=false)
    (hmac : p.dstMAC=(r.steered mac macSet).mac)
    (hvlan : p.vlan=if r.vlanSet then some r.vlan else none)
    (heth : r.etherType≠0 → p.etherType=r.etherType) :
    (ethSpec (r.steered mac macSet).toC).Matches p := by
  refine ⟨fun i => ?_,fun hm => ?_,?_⟩
  · simp only [ethSpec,hmac]
    split
    · rfl
    · simp
  · simp only [ethSpec,steered_vlan] at hm ⊢
    cases hs : r.vlanSet with
    | true =>
      refine ⟨r.vlan,by simp [hvlan,hs],?_⟩
      simp [Rule.steered,Steering.toC,UInt16.and_assoc]
    | false => simp [hs] at hm
  · simp only [ethSpec,hip,Bool.or_false]
    by_cases h0 : r.etherType=0
    · simp [Rule.steered,Steering.toC,h0]
    · simp [Rule.steered,Steering.toC,h0,heth h0]

theorem ipSpec_matches (h : (ipSpec (r.steered mac macSet).toC).Matches p) :
    (∃ h, p.payload = .ipv4 h ∧ Masked h.src r.srcPrefix.bytes.1 r.srcPrefix.bytes.2 ∧
      Masked h.dst r.dstPrefix.bytes.1 r.dstPrefix.bytes.2) ∧
      (r.ipProtoSet=true → p.proto=some r.ipProto) := by
  obtain ⟨h,hp,hs,hd,hpr⟩ := h
  have hidem : ∀ {x v m : Fin 4 → UInt8}, Masked x (fun i => v i &&& m i) m → Masked x v m := by
    intro x v m hx i
    have hi := hx i
    rwa [UInt8.and_assoc,UInt8.and_self] at hi
  refine ⟨⟨h,hp,hidem hs,hidem hd⟩,fun hset => ?_⟩
  have heq : h.proto=r.ipProto := by
    simpa [ipSpec,Rule.steered,Steering.toC,hset,and_ones8] using hpr
  simp [Packetio.Packet.proto,hp,heq]

theorem zeroOnly_wider (hs6 : r.srcPrefix.Not6) (hd6 : r.dstPrefix.Not6) (hz : r.ZeroOnly) :
    ¬ NoWider r (r.steered mac macSet) := by
  have hip : wantIP (r.steered mac macSet).toC=false :=
    (wantIP_eq_false hs6 hd6).mpr ⟨hz.src,hz.dst,hz.proto,hz.srcPort,hz.dstPort⟩
  have hl4 : wantL4 (r.steered mac macSet).toC=false := by
    simp [wantL4,Rule.steered,Steering.toC,hz.srcPort,hz.dstPort]
  obtain ⟨p,hmac,hvlan,heth,hnot⟩ := exists_stray (r.steered mac macSet).mac
    (if r.vlanSet then some r.vlan else none) hz.etherType
  have hflow : pioBuildFlow (r.steered mac macSet).toC =
      .ok ⟨ethSpec (r.steered mac macSet).toC,none,none⟩ := by
    simp [pioBuildFlow,hip,hl4]
  intro hn
  refine hz.not_matches hs6 hd6 hnot (hn _ p hflow ⟨ethSpec_takes hip hmac hvlan heth,?_,?_⟩)
  · intro s hs
    cases hs
  · intro s hs
    cases hs

theorem not_zeroOnly_noWider (hs6 : r.srcPrefix.Not6) (hd6 : r.dstPrefix.Not6)
    (hvl : r.vlanSet=true → r.vlan ≤ maxVLAN) (hz : ¬ r.ZeroOnly) :
    NoWider r (r.steered mac macSet) := by
  intro flow p hflow hm
  rw [pioBuildFlow] at hflow
  obtain ⟨hproto,hflow⟩ := passed hflow nofun
  obtain ⟨-,hflow⟩ := passed hflow nofun
  cases hflow
  obtain ⟨heth,hip,hl4⟩ := hm
  obtain ⟨h1,h2,h3⟩ := ethSpec_matches hvl heth
  have hports : (r.srcPortSet=true → p.srcPort=some r.srcPort) ∧
      (r.dstPortSet=true → p.dstPort=some r.dstPort) := by
    by_cases hw : wantL4 (r.steered mac macSet).toC=true
    · have hl := l4_ports (hl4 _ (by rw [if_pos hw]; rfl))
      refine ⟨fun hs => ?_,fun hs => ?_⟩
      · simpa [Rule.steered,Steering.toC,hs] using hl.1 hs
      · simpa [Rule.steered,Steering.toC,hs] using hl.2 hs
    · have hno : r.srcPortSet=false ∧ r.dstPortSet=false := by
        simpa [wantL4,Rule.steered,Steering.toC] using hw
      simp [hno]
  by_cases hw : wantIP (r.steered mac macSet).toC=true
  · obtain ⟨hnets,hp⟩ := ipSpec_matches (hip _ (by rw [if_pos hw]; rfl))
    exact Rule.matches_of_steered hs6 hd6 h1 h2 h3 hp hports.1 hports.2 fun _ => hnets
  have hno := (wantIP_eq_false hs6 hd6).mp (Bool.not_eq_true _ ▸ hw)
  refine Rule.matches_of_steered hs6 hd6 h1 h2 h3 (fun hp => ?_) hports.1 hports.2
    (Rule.nets_of_zero hz hs6 hd6 hno h3)
  rw [hno.2.2.1] at hp
  cases hp

end

theorem steering_base {ifi : Option (List UInt8)} {f : SteeringFilter} {base : Steering}
    (hp : f.promiscuous=false) (h : steering ifi f = .ok base) :
    ∃ mac macSet, base = { mac := mac, macSet := macSet } := by
  unfold steering at h
  split at h
  case h_1 => cases h
  rw [hp,if_neg (by simp)] at h
  split at h
  case isTrue =>
    rcases ifi with _ | hw
    · cases h
    simp only at h
    obtain ⟨-,h⟩ := passed h nofun
    injection h with h
    exact ⟨_,_,h.symm⟩
  case isFalse =>
    injection h with h
    exact ⟨_,_,h.symm⟩

/-- For every filter that steeringRules accepts, what the card takes for each of
the values satisfies its rule, just when no rule is left with prefixes of no bits as
its only IPv4 conditions. -/
theorem flows_no_wider_iff (ifi : Option (List UInt8)) (f : SteeringFilter) (ss : List Steering)
    (hp : f.promiscuous = false) (hs : steeringRules ifi f = .ok ss) :
    (∃ rs, f.rules = .ok rs ∧ List.Forall₂ NoWider rs ss) ↔ ¬ f.ZeroNets := by
  rw [steeringRules] at hs
  split at hs
  case h_1 => cases hs
  rename_i base hbase
  obtain ⟨mac,macSet,rfl⟩ := steering_base hp hbase
  rw [if_neg (by simp)] at hs
  split at hs
  case h_1 => cases hs
  rename_i rs hrs
  have hwide := forall_noWider_iff hp hrs hs fun r hs6 hd6 hvl =>
    ⟨fun hn hz => zeroOnly_wider hs6 hd6 hz hn,not_zeroOnly_noWider hs6 hd6 hvl⟩
  rw [← hwide]
  constructor
  · rintro ⟨rs',hrs',h⟩
    rw [hrs] at hrs'
    injection hrs' with hrs'
    exact hrs' ▸ h
  · intro h
    exact ⟨rs,hrs,h⟩

def someMAC : List UInt8 := [2,0,0,0,0,1]

def tenSlash8 : SteeringFilter := { ms := [matchSrcIP tenNet] }

theorem flows_no_wider_iff_ten : ∃ ss, steeringRules (some someMAC) tenSlash8 = .ok ss ∧
      ∃ rs, tenSlash8.rules = .ok rs ∧ List.Forall₂ NoWider rs ss := by
  refine ⟨_,rfl,(flows_no_wider_iff (some someMAC) tenSlash8 _ rfl rfl).mpr fun hz => ?_⟩
  obtain ⟨m,hm,-,h0⟩ := hz.src ⟨_,List.mem_singleton.mpr rfl,rfl⟩
  rw [List.mem_singleton.mp hm] at h0
  cases h0

def anySource : SteeringFilter := { ms := [matchSrcIP anywhere] }

def arpPacket : Packetio.Packet := ⟨fun i => someMAC.getD i.val 0,none,arp⟩

/-- The filter for IPv4 packets from anywhere is accepted, and the flow built for
it takes an ARP packet, which does not satisfy its rule. -/
theorem any_source_takes_arp :
    ∃ s r flow, steeringRules (some someMAC) anySource = .ok [s] ∧ anySource.rules = .ok [r] ∧
      pioBuildFlow s.toC = .ok flow ∧ flow.Matches arpPacket ∧ ¬ r.Matches arpPacket := by
  refine ⟨_,_,_,rfl,rfl,rfl,?_,?_⟩
  · refine ⟨⟨fun i => rfl,fun h => absurd rfl h,rfl⟩,?_,?_⟩
    · intro s hs
      cases hs
    · intro s hs
      cases hs
  · intro hm
    obtain ⟨x,hx,-⟩ := hm.src rfl
    cases hx

end Packetio.Mlx5

import Packetio.Steering

/-! Steering through DPDK: steering.go turns the rules of a filter into eal.Match
values, and pio_flow_create of shim.c lays each out as a list of flow items. An item
asks for its header to be there and compares masked bits; the IPv4 item is only
there when a mask or a flag asks for it. -/
namespace Packetio.Dpdk
open List

inductive PromiscuousAnswer where
  | ok
  | noMode
  | refused

structure Device where
  promisc : Bool
  answer : PromiscuousAnswer
  coexists : Bool
  mac : MAC

def Device.setPromiscuous (d : Device) : Except SteerError Unit :=
  match d.answer with
  | .ok => .ok ()
  | .noMode => if d.coexists then .error .notPromiscuous else .ok ()
  | .refused => .error .notPromiscuous

def Device.base (d : Device) (ifi : Option (List UInt8)) (f : SteeringFilter) : Steering :=
  if !f.namesDstMAC then
    if ifi.any (·.length=6) then { mac := fun i => (ifi.getD []).getD i.val 0, macSet := true }
    else if ∃ i, d.mac i≠0 then { mac := d.mac, macSet := true }
    else {}
  else {}

def Device.steeringRules (d : Device) (ifi : Option (List UInt8)) (f : SteeringFilter) :
    Except SteerError (List Steering) :=
  match if f.promiscuous || d.promisc then d.setPromiscuous else .ok () with
  | .error e => .error e
  | .ok () =>
    -- nothing to match: the port takes everything it is given
    if f.promiscuous ∨ f.ms.length=0 then .ok []
    else match f.rules with
      | .error e => .error (.filter e)
      | .ok rules => steerAll (d.base ifi f) rules

def toC (s : Steering) : PioMatch := { s.toC with vlan := s.vlan, promisc := false }

structure EthItem where
  dst : MAC
  dstMask : MAC
  etherType : UInt16
  etherTypeMask : UInt16

inductive FlowItem where
  | eth (spec : Option EthItem)
  | vlan (tci mask : UInt16)
  | ipv4 (spec : Option IPv4Spec)
  | tcp (spec : L4Spec)
  | udp (spec : L4Spec)

def ethItem (m : PioMatch) : FlowItem :=
  if m.haveMAC || m.haveEtherType then .eth (some
    { dst := if m.haveMAC then m.dstMAC else fun _ => 0
      dstMask := if m.haveMAC then fun _ => 0xff else fun _ => 0
      etherType := if m.haveEtherType then m.etherType else 0
      etherTypeMask := if m.haveEtherType then 0xffff else 0 })
  else .eth none

def needIP (m : PioMatch) : Bool :=
  decide (∃ i, m.srcMask i≠0) || decide (∃ i, m.dstMask i≠0) || m.haveProto ||
    m.haveSrcPort || m.haveDstPort

def ipv4Item (m : PioMatch) : FlowItem :=
  if decide (∃ i, m.srcMask i≠0) || decide (∃ i, m.dstMask i≠0) || m.haveProto then .ipv4 (some
    { src := m.srcIP
      srcMask := m.srcMask
      dst := m.dstIP
      dstMask := m.dstMask
      proto := if m.haveProto then m.ipProto else 0
      protoMask := if m.haveProto then 0xff else 0 })
  else .ipv4 none

def pioFlowCreate (m : PioMatch) : List FlowItem :=
  [ethItem m]++
    (if m.vlan ≥ 0 then [.vlan (UInt16.ofNat m.vlan.toNat) 0x0fff] else [])++
    (if needIP m then [ipv4Item m] else [])++
    (if m.haveSrcPort || m.haveDstPort then [if m.ipProto=6 then .tcp m.l4 else .udp m.l4] else [])

def FlowItem.Matches (p : Packet) : FlowItem → Prop
  | .eth none => True
  | .eth (some s) => Masked p.dstMAC s.dst s.dstMask ∧
      p.etherType &&& s.etherTypeMask=s.etherType &&& s.etherTypeMask
  | .vlan tci mask => ∃ t∈p.vlan, t &&& mask=tci &&& mask
  | .ipv4 none => ∃ h, p.payload = .ipv4 h
  | .ipv4 (some s) => s.Matches p
  | .tcp s => s.Matches 6 p
  | .udp s => s.Matches 17 p

def NoWider (r : Rule) (s : Steering) : Prop :=
  ∀ p, (∀ item∈pioFlowCreate (toC s), item.Matches p) → r.Matches p

theorem mem_optional {α : Type} {c : Prop} [Decidable c] {a x : α} :
    x∈(if c then [a] else []) ↔ c ∧ x=a := by
  split
  case isTrue h | isFalse h => simp [h]

theorem items_match_iff {m : PioMatch} {p : Packet} :
    (∀ item∈pioFlowCreate m, item.Matches p) ↔ (ethItem m).Matches p ∧
      (m.vlan ≥ 0 → (FlowItem.vlan (UInt16.ofNat m.vlan.toNat) 0x0fff).Matches p) ∧
      (needIP m=true → (ipv4Item m).Matches p) ∧ ((m.haveSrcPort || m.haveDstPort)=true →
        (if m.ipProto=6 then FlowItem.tcp m.l4 else .udp m.l4).Matches p) := by
  simp only [pioFlowCreate,mem_append,mem_singleton,mem_optional]
  constructor
  · intro h
    exact ⟨h _ (.inl (.inl (.inl rfl))),fun hv => h _ (.inl (.inl (.inr ⟨hv,rfl⟩))),
      fun hi => h _ (.inl (.inr ⟨hi,rfl⟩)),fun hl => h _ (.inr ⟨hl,rfl⟩)⟩
  · rintro ⟨h1,h2,h3,h4⟩ item (((rfl | ⟨hv,rfl⟩) | ⟨hi,rfl⟩) | ⟨hl,rfl⟩)
    · exact h1
    · exact h2 hv
    · exact h3 hi
    · exact h4 hl

section
variable {r : Rule} {mac : MAC} {macSet : Bool} {p : Packet}

theorem needIP_eq_false (hs6 : r.srcPrefix.Not6) (hd6 : r.dstPrefix.Not6) :
    needIP (toC (r.steered mac macSet))=false ↔ r.srcPrefix.Zero ∧ r.dstPrefix.Zero ∧
      r.ipProtoSet=false ∧ r.srcPortSet=false ∧ r.dstPortSet=false := by
  rw [← Prefix.mask_zero hs6,← Prefix.mask_zero hd6]
  simp [needIP,toC,Rule.steered,Steering.toC,and_assoc]

theorem ethItem_matches (h : (ethItem (toC (r.steered mac macSet))).Matches p) :
    (r.macSet=true → p.dstMAC=r.mac) ∧ (r.etherType≠0 → p.etherType=r.etherType) := by
  rw [ethItem] at h
  split at h
  case isTrue =>
    obtain ⟨hmac,heth⟩ := h
    refine ⟨fun hs => ?_,fun hs => ?_⟩
    · funext i
      simpa [toC,Rule.steered,Steering.toC,hs,and_ones8] using hmac i
    · simpa [toC,Rule.steered,Steering.toC,hs,and_ones16] using heth
  rename_i hno
  rw [Bool.not_eq_true,Bool.or_eq_false_iff] at hno
  have hmac : (r.macSet || macSet)=false := hno.1
  have heth : ¬ r.etherType≠0 := of_decide_eq_false hno.2
  rw [Bool.or_eq_false_iff] at hmac
  exact ⟨fun hs => by simp [hmac.1] at hs,fun hs => absurd hs heth⟩

theorem ethItem_takes (hmac : p.dstMAC=(r.steered mac macSet).mac)
    (heth : r.etherType≠0 → p.etherType=r.etherType) :
    (ethItem (toC (r.steered mac macSet))).Matches p := by
  rw [ethItem]
  split
  case isTrue =>
    refine ⟨fun i => ?_,?_⟩
    · simp only [hmac]
      split
      · rfl
      · simp
    · by_cases h0 : r.etherType=0
      · simp [toC,Rule.steered,Steering.toC,h0]
      · simp [toC,Rule.steered,Steering.toC,h0,heth h0]
  case isFalse => trivial

theorem ipv4Item_matches (h : (ipv4Item (toC (r.steered mac macSet))).Matches p) :
    (∃ h, p.payload = .ipv4 h ∧ Masked h.src r.srcPrefix.bytes.1 r.srcPrefix.bytes.2 ∧
      Masked h.dst r.dstPrefix.bytes.1 r.dstPrefix.bytes.2) ∧
      (r.ipProtoSet=true → p.proto=some r.ipProto) := by
  rw [ipv4Item] at h
  split at h
  case isTrue =>
    obtain ⟨h,hp,hs,hd,hpr⟩ := h
    refine ⟨⟨h,hp,hs,hd⟩,fun hset => ?_⟩
    have heq : h.proto=r.ipProto := by
      simpa [toC,Rule.steered,Steering.toC,hset,and_ones8] using hpr
    simp [Packet.proto,hp,heq]
  rename_i hno
  obtain ⟨h,hp⟩ := h
  have hno' : ((∀ i, r.srcPrefix.bytes.2 i=0) ∧ ∀ i, r.dstPrefix.bytes.2 i=0) ∧
      r.ipProtoSet=false := by
    simpa [toC,Rule.steered,Steering.toC] using hno
  exact ⟨⟨h,hp,.of_zero hno'.1.1,.of_zero hno'.1.2⟩,fun hset => by simp [hno'.2] at hset⟩

theorem vlanItem_matches (hvl : r.vlanSet=true → r.vlan ≤ maxVLAN) (hs : r.vlanSet=true)
    (h : (FlowItem.vlan (UInt16.ofNat (toC (r.steered mac macSet)).vlan.toNat) 0x0fff).Matches p) :
    p.vlanID=some r.vlan := by
  have hv : (toC (r.steered mac macSet)).vlan=(r.vlan.toNat : Int) := by simp [toC,Rule.steered,hs]
  obtain ⟨t,ht,he⟩ := h
  rw [Packet.vlanID,ht,Option.map_some]
  simpa [hv,and_vlan (hvl hs)] using he

theorem vlanItem_takes (hvlan : p.vlan=if r.vlanSet then some r.vlan else none)
    (h : (toC (r.steered mac macSet)).vlan ≥ 0) :
    (FlowItem.vlan (UInt16.ofNat (toC (r.steered mac macSet)).vlan.toNat) 0x0fff).Matches p := by
  by_cases hs : r.vlanSet=true
  · exact ⟨r.vlan,by simp [hvlan,hs],by simp [toC,Rule.steered,hs]⟩
  · simp [toC,Rule.steered,hs] at h

theorem zeroOnly_wider (hs6 : r.srcPrefix.Not6) (hd6 : r.dstPrefix.Not6) (hz : r.ZeroOnly) :
    ¬ NoWider r (r.steered mac macSet) := by
  have hip : needIP (toC (r.steered mac macSet))=false :=
    (needIP_eq_false hs6 hd6).mpr ⟨hz.src,hz.dst,hz.proto,hz.srcPort,hz.dstPort⟩
  have hl4 : ((toC (r.steered mac macSet)).haveSrcPort ||
      (toC (r.steered mac macSet)).haveDstPort)=false := by
    simp [toC,Rule.steered,Steering.toC,hz.srcPort,hz.dstPort]
  obtain ⟨p,hmac,hvlan,heth,hnot⟩ := exists_stray (r.steered mac macSet).mac
    (if r.vlanSet then some r.vlan else none) hz.etherType
  intro hn
  refine hz.not_matches hs6 hd6 hnot (hn p (items_match_iff.mpr
    ⟨ethItem_takes hmac heth,vlanItem_takes hvlan,fun h => ?_,fun h => ?_⟩))
  · rw [hip] at h
    cases h
  · rw [hl4] at h
    cases h

theorem not_zeroOnly_noWider (hs6 : r.srcPrefix.Not6) (hd6 : r.dstPrefix.Not6)
    (hvl : r.vlanSet=true → r.vlan ≤ maxVLAN) (hz : ¬ r.ZeroOnly) :
    NoWider r (r.steered mac macSet) := by
  intro p hm
  obtain ⟨heth,hvlan,hip,hl4⟩ := items_match_iff.mp hm
  obtain ⟨h1,h3⟩ := ethItem_matches heth
  have h2 : r.vlanSet=true → p.vlanID=some r.vlan := fun hs =>
    vlanItem_matches hvl hs (hvlan (by simp [toC,Rule.steered,hs]))
  have hports : (r.srcPortSet=true → p.srcPort=some r.srcPort) ∧
      (r.dstPortSet=true → p.dstPort=some r.dstPort) := by
    by_cases hw : ((toC (r.steered mac macSet)).haveSrcPort ||
        (toC (r.steered mac macSet)).haveDstPort)=true
    · -- whichever of the two items it is, its ports are the rule's
      have hl : ∃ proto, (toC (r.steered mac macSet)).l4.Matches proto p := by
        have hitem := hl4 hw
        split at hitem
        · exact ⟨6,hitem⟩
        · exact ⟨17,hitem⟩
      obtain ⟨proto,hl⟩ := hl
      refine ⟨fun hs => ?_,fun hs => ?_⟩
      · simpa [toC,Rule.steered,Steering.toC,hs] using (l4_ports hl).1 hs
      · simpa [toC,Rule.steered,Steering.toC,hs] using (l4_ports hl).2 hs
    · have hno : r.srcPortSet=false ∧ r.dstPortSet=false := by
        simpa [toC,Rule.steered,Steering.toC] using hw
      simp [hno]
  by_cases hw : needIP (toC (r.steered mac macSet))=true
  · obtain ⟨hnets,hp⟩ := ipv4Item_matches (hip hw)
    exact Rule.matches_of_steered hs6 hd6 h1 h2 h3 hp hports.1 hports.2 fun _ => hnets
  have hno := (needIP_eq_false hs6 hd6).mp (Bool.not_eq_true _ ▸ hw)
  refine Rule.matches_of_steered hs6 hd6 h1 h2 h3 (fun hp => ?_) hports.1 hports.2
    (Rule.nets_of_zero hz hs6 hd6 hno h3)
  rw [hno.2.2.1] at hp
  cases hp

end

theorem Device.base_eq (d : Device) (ifi : Option (List UInt8)) (f : SteeringFilter) :
    ∃ mac macSet, d.base ifi f = { mac := mac, macSet := macSet } := by
  unfold Device.base
  split
  case isTrue =>
    split
    case isTrue => exact ⟨_,_,rfl⟩
    split
    case isTrue | isFalse => exact ⟨_,_,rfl⟩
  case isFalse => exact ⟨_,_,rfl⟩

def Sound (f : SteeringFilter) (ss : List Steering) : Prop :=
  ∀ (i : Nat) s, ss[i]? = some s → ∃ rs r, f.rules = .ok rs ∧ rs[i]? = some r ∧ NoWider r s

theorem sound_iff_forall₂ {f : SteeringFilter} {rs : List Rule} {ss : List Steering}
    (hr : f.rules = .ok rs) (hlen : rs.length=ss.length) :
    Sound f ss ↔ List.Forall₂ NoWider rs ss := by
  rw [forall₂_iff_get]
  constructor
  · refine fun h => ⟨hlen,fun i h1 h2 => ?_⟩
    obtain ⟨rs',r,hr',hi,hn⟩ := h i ss[i] (getElem?_eq_getElem h2)
    rw [hr] at hr'
    cases hr'
    rw [getElem?_eq_getElem h1] at hi
    cases hi
    exact hn
  · rintro ⟨-,h⟩ i s hi
    obtain ⟨h2,rfl⟩ := List.getElem?_eq_some_iff.mp hi
    have h1 : i<rs.length := hlen ▸ h2
    exact ⟨rs,rs[i],hr,getElem?_eq_getElem h1,h i h1 h2⟩

/-- For every filter that steeringRules accepts, what the port takes for each of the
values satisfies its rule, just when the filter is promiscuous (and nothing is
installed) or no rule is left with prefixes of no bits as its only IPv4 conditions. -/
theorem items_no_wider_iff (d : Device) (ifi : Option (List UInt8)) (f : SteeringFilter)
    (ss : List Steering) (hs : d.steeringRules ifi f = .ok ss) :
    Sound f ss ↔ f.promiscuous = true ∨ ¬ f.ZeroNets := by
  have hempty : Sound f [] := by
    intro i s h
    simp at h
  rw [Device.steeringRules] at hs
  split at hs
  case h_1 => cases hs
  split at hs
  case isTrue hnone =>
    cases hs
    refine iff_of_true hempty (hnone.imp id fun h0 hz => ?_)
    rw [length_eq_zero_iff] at h0
    rcases hz.net with ⟨m,hm,-⟩ | ⟨m,hm,-⟩
    · simp [h0] at hm
    · simp [h0] at hm
  rename_i hsome
  have hp : f.promiscuous=false := by simpa using fun h => hsome (.inl h)
  split at hs
  case h_1 => cases hs
  rename_i rs hrs
  obtain ⟨mac,macSet,hb⟩ := d.base_eq ifi f
  rw [hb] at hs
  have hwide := forall_noWider_iff hp hrs hs fun r hs6 hd6 hvl =>
    ⟨fun hn hz => zeroOnly_wider hs6 hd6 hz hn,not_zeroOnly_noWider hs6 hd6 hvl⟩
  rw [sound_iff_forall₂ hrs (steerAll_ok hs).length_eq,hwide,hp]
  simp

def somePort : Device where
  promisc := false
  answer := .ok
  coexists := false
  mac := fun i => if i=0 then 2 else 0

def https : SteeringFilter := { ms := matchDstPort 6 443 }

theorem items_no_wider_iff_https :
    ∃ ss, somePort.steeringRules none https = .ok ss ∧ Sound https ss := by
  refine ⟨_,rfl,(items_no_wider_iff somePort none https _ rfl).mpr (.inr fun hz => hz.proto ?_)⟩
  exact ⟨_,mem_cons_self,rfl⟩

def anyDestination : SteeringFilter := { ms := [matchDstIP anywhere] }

def strayARP : Packet := ⟨somePort.mac,none,arp⟩

/-- The filter for IPv4 packets to anywhere is accepted, and the items built for it
take an ARP packet, which does not satisfy its rule. -/
theorem any_destination_takes_arp : ∃ s r, somePort.steeringRules none anyDestination = .ok [s] ∧
      anyDestination.rules = .ok [r] ∧
      (∀ item ∈ pioFlowCreate (toC s), item.Matches strayARP) ∧ ¬ r.Matches strayARP := by
  refine ⟨_,_,rfl,rfl,?_,?_⟩
  · refine items_match_iff.mpr ⟨⟨fun i => rfl,rfl⟩,?_,?_,?_⟩
    · intro h
      exact absurd h (by decide)
    · intro h
      exact absurd h (by decide)
    · intro h
      exact absurd h (by decide)
  · intro hm
    obtain ⟨x,hx,-⟩ := hm.dst rfl
    cases hx

end Packetio.Dpdk

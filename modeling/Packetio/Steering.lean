import Packetio.MatchMeaning

/-! From a rule to what a card is told (mlx5 device.go and dv.go, dpdk steering.go
and eal). Both backends fill the same fields from a rule, and both read a zero
mask or a cleared flag as a field that is not matched. -/
namespace Packetio
open Nat

structure Steering where
  mac : MAC := fun _ => 0
  macSet : Bool := false
  vlan : Int := -1
  etherType : UInt16 := 0
  srcIP : Fin 4 → UInt8 := fun _ => 0
  dstIP : Fin 4 → UInt8 := fun _ => 0
  srcMask : Fin 4 → UInt8 := fun _ => 0
  dstMask : Fin 4 → UInt8 := fun _ => 0
  ipProto : UInt8 := 0
  ipProtoSet : Bool := false
  srcPort : UInt16 := 0
  dstPort : UInt16 := 0
  srcPortSet : Bool := false
  dstPortSet : Bool := false
  promiscuous : Bool := false

inductive SteerError where
  | filter (e : FilterError)
  | lookup
  | noAddress
  | notIPv4
  | notPromiscuous

/-- The mask byte that covers the first `n` bits. -/
def maskByte (n : Nat) : UInt8 :=
  if n ≥ 8 then 0xff else if n > 0 then 0xff <<< UInt8.ofNat (8-n) else 0

def prefixBytes (addr : Fin 4 → UInt8) (bits : Nat) : (Fin 4 → UInt8) × (Fin 4 → UInt8) :=
  let mask := fun i : Fin 4 => maskByte (bits-i.val*8)
  (fun i => addr i &&& mask i,mask)

def Steering.setSrc (s : Steering) : Prefix → Except SteerError Steering
  | .invalid => .ok s
  | .v4 addr bits => .ok { s with
      srcIP := (prefixBytes addr bits.val).1, srcMask := (prefixBytes addr bits.val).2 }
  | .v6 .. => .error .notIPv4

def Steering.setDst (s : Steering) : Prefix → Except SteerError Steering
  | .invalid => .ok s
  | .v4 addr bits => .ok { s with
      dstIP := (prefixBytes addr bits.val).1, dstMask := (prefixBytes addr bits.val).2 }
  | .v6 .. => .error .notIPv4

def Steering.putMAC (s : Steering) (r : Rule) : Steering :=
  if r.macSet then { s with mac := r.mac, macSet := true } else s

def Steering.putVLAN (s : Steering) (r : Rule) : Steering :=
  if r.vlanSet then { s with vlan := r.vlan.toNat } else s

def Steering.putEtherType (s : Steering) (r : Rule) : Steering :=
  if r.etherType≠0 then { s with etherType := r.etherType } else s

def Steering.putIPProto (s : Steering) (r : Rule) : Steering :=
  if r.ipProtoSet then { s with ipProto := r.ipProto, ipProtoSet := true } else s

def Steering.putSrcPort (s : Steering) (r : Rule) : Steering :=
  if r.srcPortSet then { s with srcPort := r.srcPort, srcPortSet := true } else s

def Steering.putDstPort (s : Steering) (r : Rule) : Steering :=
  if r.dstPortSet then { s with dstPort := r.dstPort, dstPortSet := true } else s

def Rule.steer (base : Steering) (r : Rule) : Except SteerError Steering :=
  match ((((base.putMAC r).putVLAN r).putEtherType r).putIPProto r).setSrc r.srcPrefix with
  | .error e => .error e
  | .ok s => match s.setDst r.dstPrefix with
    | .error e => .error e
    | .ok s => .ok ((s.putSrcPort r).putDstPort r)

def steerAll (base : Steering) : List Rule → Except SteerError (List Steering)
  | [] => .ok []
  | r::rs => match r.steer base with
    | .error e => .error e
    | .ok s => match steerAll base rs with
      | .error e => .error e
      | .ok ss => .ok (s::ss)

def SteeringFilter.namesDstMAC (f : SteeringFilter) : Bool := f.ms.any (·.kind = .dstMAC)

structure PioMatch where
  dstMAC : MAC
  haveMAC : Bool
  vlan : Int
  etherType : UInt16
  haveEtherType : Bool
  srcIP : Fin 4 → UInt8
  dstIP : Fin 4 → UInt8
  srcMask : Fin 4 → UInt8
  dstMask : Fin 4 → UInt8
  ipProto : UInt8
  haveProto : Bool
  srcPort : UInt16
  dstPort : UInt16
  haveSrcPort : Bool
  haveDstPort : Bool
  promisc : Bool

def Steering.toC (s : Steering) : PioMatch where
  dstMAC := s.mac
  haveMAC := s.macSet
  vlan := if s.vlan ≥ 0 then s.vlan else -1
  etherType := s.etherType
  haveEtherType := s.etherType≠0
  srcIP := s.srcIP
  dstIP := s.dstIP
  srcMask := s.srcMask
  dstMask := s.dstMask
  ipProto := s.ipProto
  haveProto := s.ipProtoSet
  srcPort := s.srcPort
  dstPort := s.dstPort
  haveSrcPort := s.srcPortSet
  haveDstPort := s.dstPortSet
  promisc := s.promiscuous

/-! Masks -/

def Masked {n : Nat} (x val mask : Fin n → UInt8) : Prop := ∀ i, x i &&& mask i=val i &&& mask i

theorem maskByte_bit : ∀ n≤8, ∀ t<8, (maskByte n).toBitVec.getMsbD t=decide (t<n) := by decide

theorem maskByte_large {n : Nat} (h : 8≤n) : maskByte n=maskByte 8 := by
  rw [maskByte,if_pos h]
  rfl

theorem and_maskByte {x y : UInt8} {n : Nat} : x &&& maskByte n=y &&& maskByte n ↔
      ∀ t<8, t<n → x.toBitVec.getMsbD t=y.toBitVec.getMsbD t := by
  have hbit : ∀ t<8, (maskByte n).toBitVec.getMsbD t=decide (t<n) := by
    intro t ht
    rcases Nat.le_total n 8 with hn | hn
    · exact maskByte_bit n hn t ht
    · rw [maskByte_large hn,maskByte_bit 8 (Nat.le_refl 8) t ht,decide_eq_decide]
      omega
  rw [← UInt8.toBitVec_inj,UInt8.toBitVec_and,UInt8.toBitVec_and]
  constructor
  · intro h t ht hn
    have hb := congrArg (BitVec.getMsbD · t) h
    simpa [BitVec.getMsbD_and,hbit t ht,hn] using hb
  · intro h
    refine BitVec.eq_of_getMsbD_eq fun t ht => ?_
    rw [BitVec.getMsbD_and,BitVec.getMsbD_and,hbit t ht]
    by_cases hn : t<n
    · rw [h t ht hn]
    · simp [hn]

variable {addr x : Fin 4 → UInt8} {bits : Nat} {n : Prefix} {s s' : Steering} {macSet : Bool}
  {rs : List Rule} {ss : List Steering} {f : SteeringFilter}

theorem masked_prefixBytes (hb : bits≤32) :
    Masked x (prefixBytes addr bits).1 (prefixBytes addr bits).2 ↔
      ∀ j<bits, addrBit x j=addrBit addr j := by
  have hidem : ∀ i : Fin 4, (prefixBytes addr bits).1 i &&& (prefixBytes addr bits).2 i =
      addr i &&& maskByte (bits-i.val*8) := by
    intro i
    simp only [prefixBytes,UInt8.and_assoc,UInt8.and_self]
  constructor
  · intro h j hj
    have hlt : j/8<4 := by omega
    have hi := h ⟨j/8,hlt⟩
    rw [hidem] at hi
    have hbyte := and_maskByte.mp hi (j%8) (Nat.mod_lt _ (by decide)) (by simp only; omega)
    simpa only [addrBit,dif_pos hlt] using hbyte
  · intro h i
    rw [hidem]
    refine and_maskByte.mpr fun t ht hn => ?_
    have hj := h (i.val*8+t) (by omega)
    have hdiv : (i.val*8+t)/8=i.val := by omega
    have hmod : (i.val*8+t)%8=t := by omega
    simpa only [addrBit,hdiv,hmod,dif_pos i.isLt,Fin.eta] using hj

theorem prefixBytes_mask_zero : (∀ i, (prefixBytes addr bits).2 i=0) ↔ bits=0 := by
  constructor
  · intro h
    by_contra hne
    have h0 : maskByte bits=0 := h 0
    have hand : (0xff : UInt8) &&& maskByte bits=0 &&& maskByte bits := by rw [h0]; rfl
    have hbit := and_maskByte.mp hand 0 (by decide) (by omega)
    revert hbit
    decide
  · rintro rfl i
    simp [prefixBytes,maskByte]

def Prefix.bytes : Prefix → (Fin 4 → UInt8) × (Fin 4 → UInt8)
  | .v4 addr bits => prefixBytes addr bits.val
  | _ => (fun _ => 0,fun _ => 0)

def Prefix.Not6 : Prefix → Prop
  | .v6 .. => False
  | _ => True

def Prefix.Zero : Prefix → Prop
  | .invalid => True
  | .v4 _ bits => bits.val=0
  | .v6 _ bits => bits.val=0

theorem Prefix.mask_zero (h6 : n.Not6) : (∀ i, n.bytes.2 i=0) ↔ n.Zero := by
  cases n with
  | invalid => simp [Prefix.bytes,Prefix.Zero]
  | v4 addr bits => exact prefixBytes_mask_zero
  | v6 addr bits => exact h6.elim

theorem Prefix.contains_of_masked (h6 : n.Not6) (hv : n.isValid=true)
    (h : Masked x n.bytes.1 n.bytes.2) : n.Contains (.v4 x) := by
  cases n with
  | invalid => cases hv
  | v4 addr bits => exact (masked_prefixBytes (by omega)).mp h
  | v6 addr bits => exact h6.elim

theorem Prefix.not_contains (h6 : n.Not6) {x : IPAddr} (h : n.Contains x) : ∃ a, x = .v4 a := by
  cases n with
  | invalid => exact h.elim
  | v4 addr bits =>
    cases x with
    | v4 a => exact ⟨a,rfl⟩
    | v6 a => exact h.elim
  | v6 addr bits => exact h6.elim

/-! What a rule is turned into -/

def Rule.steered (mac : MAC) (macSet : Bool) (r : Rule) : Steering where
  mac := if r.macSet then r.mac else mac
  macSet := r.macSet || macSet
  vlan := if r.vlanSet then r.vlan.toNat else -1
  etherType := r.etherType
  srcIP := r.srcPrefix.bytes.1
  dstIP := r.dstPrefix.bytes.1
  srcMask := r.srcPrefix.bytes.2
  dstMask := r.dstPrefix.bytes.2
  ipProto := if r.ipProtoSet then r.ipProto else 0
  ipProtoSet := r.ipProtoSet
  srcPort := if r.srcPortSet then r.srcPort else 0
  dstPort := if r.dstPortSet then r.dstPort else 0
  srcPortSet := r.srcPortSet
  dstPortSet := r.dstPortSet

section
variable (s : Steering) (r : Rule)

theorem putMAC_eq : s.putMAC r = { s with
    mac := if r.macSet then r.mac else s.mac, macSet := r.macSet || s.macSet } := by
  rw [Steering.putMAC]
  cases r.macSet <;> rfl

theorem putVLAN_eq : s.putVLAN r = { s with
    vlan := if r.vlanSet then r.vlan.toNat else s.vlan } := by
  rw [Steering.putVLAN]
  cases r.vlanSet <;> rfl

theorem putEtherType_eq : s.putEtherType r = { s with
    etherType := if r.etherType≠0 then r.etherType else s.etherType } := by
  rw [Steering.putEtherType]
  by_cases h : r.etherType≠0
  · simp [if_pos h]
  · simp [if_neg h]

theorem putIPProto_eq : s.putIPProto r = { s with
    ipProto := if r.ipProtoSet then r.ipProto else s.ipProto
    ipProtoSet := r.ipProtoSet || s.ipProtoSet } := by
  rw [Steering.putIPProto]
  cases r.ipProtoSet <;> rfl

theorem putSrcPort_eq : s.putSrcPort r = { s with
    srcPort := if r.srcPortSet then r.srcPort else s.srcPort
    srcPortSet := r.srcPortSet || s.srcPortSet } := by
  rw [Steering.putSrcPort]
  cases r.srcPortSet <;> rfl

theorem putDstPort_eq : s.putDstPort r = { s with
    dstPort := if r.dstPortSet then r.dstPort else s.dstPort
    dstPortSet := r.dstPortSet || s.dstPortSet } := by
  rw [Steering.putDstPort]
  cases r.dstPortSet <;> rfl

end

theorem setSrc_ok (h : s.setSrc n = .ok s') (h0 : s.srcIP=(fun _ => 0) ∧ s.srcMask=fun _ => 0) :
    s' = { s with srcIP := n.bytes.1, srcMask := n.bytes.2 } ∧ n.Not6 := by
  cases n with
  | v6 addr bits => cases h
  | invalid =>
    injection h with h
    obtain ⟨h1,h2⟩ := h0
    subst h
    cases s
    subst h1 h2
    exact ⟨rfl,trivial⟩
  | v4 addr bits =>
    injection h with h
    exact ⟨h.symm,trivial⟩

theorem setDst_ok (h : s.setDst n = .ok s') (h0 : s.dstIP=(fun _ => 0) ∧ s.dstMask=fun _ => 0) :
    s' = { s with dstIP := n.bytes.1, dstMask := n.bytes.2 } ∧ n.Not6 := by
  cases n with
  | v6 addr bits => cases h
  | invalid =>
    injection h with h
    obtain ⟨h1,h2⟩ := h0
    subst h
    cases s
    subst h1 h2
    exact ⟨rfl,trivial⟩
  | v4 addr bits =>
    injection h with h
    exact ⟨h.symm,trivial⟩

theorem steer_ok {mac : MAC} {r : Rule} (h : r.steer { mac := mac, macSet := macSet } = .ok s) :
    s=r.steered mac macSet ∧ r.srcPrefix.Not6 ∧ r.dstPrefix.Not6 := by
  have het : (if r.etherType≠0 then r.etherType else 0)=r.etherType := by
    by_cases h0 : r.etherType≠0
    · rw [if_pos h0]
    · rw [if_neg h0,not_not.mp h0]
  simp only [Rule.steer,putMAC_eq,putVLAN_eq,putEtherType_eq,putIPProto_eq,putSrcPort_eq,
    putDstPort_eq,het,Bool.or_false] at h
  split at h
  case h_1 => cases h
  rename_i s1 h₁
  obtain ⟨rfl,hs6⟩ := setSrc_ok h₁ ⟨rfl,rfl⟩
  split at h
  case h_1 => cases h
  rename_i s2 h₂
  obtain ⟨rfl,hd6⟩ := setDst_ok h₂ ⟨rfl,rfl⟩
  injection h with h
  simp only [Bool.or_false] at h
  exact ⟨h.symm,hs6,hd6⟩

theorem steerAll_ok {base : Steering}
    (h : steerAll base rs = .ok ss) : List.Forall₂ (fun r s => r.steer base = .ok s) rs ss := by
  induction rs generalizing ss with
  | nil =>
    cases h
    exact .nil
  | cons r rs ih =>
    rw [steerAll] at h
    split at h
    case h_1 => cases h
    rename_i s hs
    split at h
    case h_1 => cases h
    rename_i ss' hss
    cases h
    exact .cons hs (ih hss)

/-! What the flow specifications and items of the two shims ask of a packet -/

structure IPv4Spec where
  src : Fin 4 → UInt8
  srcMask : Fin 4 → UInt8
  dst : Fin 4 → UInt8
  dstMask : Fin 4 → UInt8
  proto : UInt8
  protoMask : UInt8

def IPv4Spec.Matches (s : IPv4Spec) (p : Packet) : Prop :=
  ∃ h, p.payload = .ipv4 h ∧ Masked h.src s.src s.srcMask ∧ Masked h.dst s.dst s.dstMask ∧
    h.proto &&& s.protoMask=s.proto &&& s.protoMask

structure L4Spec where
  srcPort : UInt16
  srcPortMask : UInt16
  dstPort : UInt16
  dstPortMask : UInt16

def L4Spec.Matches (s : L4Spec) (proto : UInt8) (p : Packet) : Prop :=
  p.proto=some proto ∧ ∃ ports∈p.ports, ports.1 &&& s.srcPortMask=s.srcPort &&& s.srcPortMask ∧
    ports.2 &&& s.dstPortMask=s.dstPort &&& s.dstPortMask

def PioMatch.l4 (m : PioMatch) : L4Spec where
  srcPort := if m.haveSrcPort then m.srcPort else 0
  srcPortMask := if m.haveSrcPort then 0xffff else 0
  dstPort := if m.haveDstPort then m.dstPort else 0
  dstPortMask := if m.haveDstPort then 0xffff else 0

theorem and_ones16 (x : UInt16) : x &&& 0xffff=x := by
  rw [← UInt16.toNat_inj,UInt16.toNat_and]
  exact (and_two_pow_sub_one_eq_mod x.toNat 16).trans (mod_eq_of_lt x.toNat_lt)

theorem and_ones8 (x : UInt8) : x &&& 0xff=x := by
  rw [← UInt8.toNat_inj,UInt8.toNat_and]
  exact (Nat.and_two_pow_sub_one_eq_mod x.toNat 8).trans (Nat.mod_eq_of_lt x.toNat_lt)

theorem and_vlan {x : UInt16} (h : x ≤ maxVLAN) : x &&& 0x0fff=x := by
  rw [← UInt16.toNat_inj,UInt16.toNat_and]
  refine (and_two_pow_sub_one_eq_mod x.toNat 12).trans (mod_eq_of_lt ?_)
  have hle := UInt16.le_iff_toNat_le.mp h
  change x.toNat≤4095 at hle
  omega

theorem l4_ports {m : PioMatch} {proto : UInt8} {p : Packet} (h : m.l4.Matches proto p) :
    (m.haveSrcPort=true → p.srcPort=some m.srcPort) ∧
      (m.haveDstPort=true → p.dstPort=some m.dstPort) := by
  obtain ⟨-,ports,hports,hs,hd⟩ := h
  refine ⟨fun h => ?_,fun h => ?_⟩
  · simp only [PioMatch.l4,h,if_true,and_ones16] at hs
    rw [Packet.srcPort,hports,Option.map_some,hs]
  · simp only [PioMatch.l4,h,if_true,and_ones16] at hd
    rw [Packet.dstPort,hports,Option.map_some,hd]

section
variable {r : Rule} {mac : MAC} {macSet : Bool} {p : Packet}

theorem Rule.matches_of_steered (hs6 : r.srcPrefix.Not6) (hd6 : r.dstPrefix.Not6)
    (hmac : r.macSet=true → p.dstMAC=r.mac) (hvlan : r.vlanSet=true → p.vlanID=some r.vlan)
    (heth : r.etherType≠0 → p.etherType=r.etherType)
    (hproto : r.ipProtoSet=true → p.proto=some r.ipProto)
    (hsp : r.srcPortSet=true → p.srcPort=some r.srcPort)
    (hdp : r.dstPortSet=true → p.dstPort=some r.dstPort)
    (hnets : r.srcPrefix.isValid=true ∨ r.dstPrefix.isValid=true →
      ∃ h, p.payload = .ipv4 h ∧ Masked h.src r.srcPrefix.bytes.1 r.srcPrefix.bytes.2 ∧
        Masked h.dst r.dstPrefix.bytes.1 r.dstPrefix.bytes.2) : r.Matches p := by
  refine ⟨hmac,hvlan,heth,hproto,fun hv => ?_,fun hv => ?_,hsp,hdp⟩
  · obtain ⟨h,hp,hsrc,-⟩ := hnets (.inl hv)
    exact ⟨.v4 h.src,by simp [Packet.src,hp],Prefix.contains_of_masked hs6 hv hsrc⟩
  · obtain ⟨h,hp,-,hdst⟩ := hnets (.inr hv)
    exact ⟨.v4 h.dst,by simp [Packet.dst,hp],Prefix.contains_of_masked hd6 hv hdst⟩

theorem Packet.ipv4_of_etherType (h : p.etherType=0x0800) : ∃ h, p.payload = .ipv4 h := by
  cases hp : p.payload with
  | ipv4 hd => exact ⟨hd,rfl⟩
  | ipv6 hd => simp [Packet.etherType,hp] at h
  | other t n4 n6 => exact absurd (by simpa [Packet.etherType,hp] using h) n4

theorem Masked.of_zero {n : Nat} {x val mask : Fin n → UInt8} (h : ∀ i, mask i=0) :
    Masked x val mask := by
  intro i
  simp [h i]

structure Rule.ZeroOnly (r : Rule) : Prop where
  net : r.srcPrefix.isValid=true ∨ r.dstPrefix.isValid=true
  src : r.srcPrefix.Zero
  dst : r.dstPrefix.Zero
  proto : r.ipProtoSet=false
  srcPort : r.srcPortSet=false
  dstPort : r.dstPortSet=false
  etherType : r.etherType≠0x0800

theorem Rule.nets_of_zero (hz : ¬ r.ZeroOnly) (hs6 : r.srcPrefix.Not6) (hd6 : r.dstPrefix.Not6)
    (h : r.srcPrefix.Zero ∧ r.dstPrefix.Zero ∧ r.ipProtoSet=false ∧ r.srcPortSet=false ∧
      r.dstPortSet=false) (heth : r.etherType≠0 → p.etherType=r.etherType)
    (hv : r.srcPrefix.isValid=true ∨ r.dstPrefix.isValid=true) :
    ∃ h, p.payload = .ipv4 h ∧ Masked h.src r.srcPrefix.bytes.1 r.srcPrefix.bytes.2 ∧
      Masked h.dst r.dstPrefix.bytes.1 r.dstPrefix.bytes.2 := by
  obtain ⟨hs,hd,hproto,hsp,hdp⟩ := h
  have het : r.etherType=0x0800 := by
    by_contra hne
    exact hz ⟨hv,hs,hd,hproto,hsp,hdp,hne⟩
  obtain ⟨h,hp⟩ := Packet.ipv4_of_etherType ((heth (by rw [het]; decide)).trans het)
  exact ⟨h,hp,.of_zero ((Prefix.mask_zero hs6).mpr hs),.of_zero ((Prefix.mask_zero hd6).mpr hd)⟩

theorem exists_stray (mac : MAC) (vlan : Option UInt16) {t : UInt16} (h4 : t≠0x0800) :
    ∃ p : Packet, p.dstMAC=mac ∧ p.vlan=vlan ∧ (t≠0 → p.etherType=t) ∧
      ∀ h, p.payload ≠ .ipv4 h := by
  by_cases h0 : t=0
  · exact ⟨⟨mac,vlan,.other 0x0806 (by decide) (by decide)⟩,rfl,rfl,fun h => absurd h0 h,
      nofun⟩
  by_cases h6 : t=0x86dd
  · exact ⟨⟨mac,vlan,.ipv6 ⟨fun _ => 0,fun _ => 0,0,none⟩⟩,rfl,rfl,fun _ => h6.symm,
      nofun⟩
  · exact ⟨⟨mac,vlan,.other t h4 h6⟩,rfl,rfl,fun _ => rfl,nofun⟩

theorem Rule.ZeroOnly.not_matches (h : r.ZeroOnly) (hs6 : r.srcPrefix.Not6)
    (hd6 : r.dstPrefix.Not6) (hp : ∀ h, p.payload ≠ .ipv4 h) : ¬ r.Matches p := by
  intro hm
  rcases h.net with hv | hv
  · obtain ⟨x,hx,hc⟩ := hm.src hv
    obtain ⟨a,rfl⟩ := Prefix.not_contains hs6 hc
    cases hpay : p.payload with
    | ipv4 h => exact hp h hpay
    | ipv6 _ | other _ _ _ => simp [Packet.src,hpay] at hx
  obtain ⟨x,hx,hc⟩ := hm.dst hv
  obtain ⟨a,rfl⟩ := Prefix.not_contains hd6 hc
  cases hpay : p.payload with
  | ipv4 h => exact hp h hpay
  | ipv6 _ | other _ _ _ => simp [Packet.dst,hpay] at hx

end

structure SteeringFilter.ZeroNets (f : SteeringFilter) : Prop where
  net : f.Has .srcIP ∨ f.Has .dstIP
  src : f.Has .srcIP → ∃ m∈f.ms, m.kind = .srcIP ∧ m.net.Zero
  dst : f.Has .dstIP → ∃ m∈f.ms, m.kind = .dstIP ∧ m.net.Zero
  proto : ¬ f.Has .ipProto
  srcPort : ¬ f.Has .srcPort
  dstPort : ¬ f.Has .dstPort
  etherType : f.Has .etherType → ∃ m∈f.ms, m.kind = .etherType ∧ m.etherType≠0x0800

theorem chosen_net {k : MatchKind} (hk : k = .srcIP ∨ k = .dstIP)
    (hfine : ∀ m∈f.ms, m.Fine) {o : Option Prefix} (h : o∈alternatives (f.collect k Match.net)) :
    ((o.getD .invalid).isValid=true ↔ f.Has k) ∧ ((o.getD .invalid).Zero ↔ ∀ n∈o, n.Zero) := by
  rw [← chosen_iff h]
  rcases o with _ | n
  · simp [Prefix.isValid,Prefix.Zero]
  obtain ⟨m,hm,hmk,rfl⟩ := mem_collect_of_choice h
  have hf := hfine m hm
  rcases hk with rfl | rfl
  · rw [Match.Fine,hmk] at hf
    simp [hf]
  · rw [Match.Fine,hmk] at hf
    simp [hf]

theorem Choice.zeroOnly_iff {c : Choice} (hc : c.From f) (hfine : ∀ m∈f.ms, m.Fine) :
    c.rule.ZeroOnly ↔ (f.Has .srcIP ∨ f.Has .dstIP) ∧ (∀ a∈c.etherType, a≠0x0800) ∧
      (∀ a∈c.ipProto, False) ∧ (∀ a∈c.dstPort, False) ∧ (∀ a∈c.srcPort, False) ∧
      (∀ n∈c.srcNet, n.Zero) ∧ ∀ n∈c.dstNet, n.Zero := by
  obtain ⟨hsv,hsz⟩ := chosen_net (.inl rfl) hfine hc.srcNet
  obtain ⟨hdv,hdz⟩ := chosen_net (.inr rfl) hfine hc.dstNet
  have hnone : ∀ {α : Type} (o : Option α), o.isSome=false ↔ ∀ a∈o, False := by
    intro α o
    cases o <;> simp
  have heth : c.etherType.getD 0≠0x0800 ↔ ∀ a∈c.etherType, a≠0x0800 := by
    cases c.etherType with
    | none | some _ => simp
  constructor
  · intro h
    have hnet := h.net.imp hsv.mp hdv.mp
    exact ⟨hnet,heth.mp h.etherType,(hnone _).mp h.proto,(hnone _).mp h.dstPort,
      (hnone _).mp h.srcPort,hsz.mp h.src,hdz.mp h.dst⟩
  · rintro ⟨hnet,h1,h2,h3,h4,h5,h6⟩
    exact ⟨hnet.imp hsv.mpr hdv.mpr,hsz.mpr h5,hdz.mpr h6,(hnone _).mpr h2,(hnone _).mpr h4,
      (hnone _).mpr h3,heth.mpr h1⟩

theorem exists_zeroOnly_iff (hp : f.promiscuous=false)
    (hr : f.rules = .ok rs) : (∃ r∈rs, r.ZeroOnly) ↔ f.ZeroNets := by
  obtain ⟨hv,hrs⟩ := rules_ok hr
  obtain ⟨-,hfine,-,-⟩ := (validate_ok_iff f).mp hv
  rcases hrs with ⟨hp',-⟩ | ⟨-,hlen,rfl⟩
  · rw [hp] at hp'
    cases hp'
  have hany : ∀ k, f.Has k → ∃ m∈f.ms, m.kind=k ∧ True := by
    rintro k ⟨m,hm,hk⟩
    exact ⟨m,hm,hk,trivial⟩
  have hchoice := exists_choice_iff f (fun _ => True) (fun _ => True) (· ≠ 0x0800) (fun _ => False)
    (fun _ => False) (fun _ => False) Prefix.Zero Prefix.Zero
  constructor
  · rintro ⟨r,hr,hz⟩
    obtain ⟨c,hc,rfl⟩ := (mem_expand hlen r).mp hr
    obtain ⟨hnet,h⟩ := (Choice.zeroOnly_iff hc hfine).mp hz
    obtain ⟨-,-,h3,h4,h5,h6,h7,h8⟩ := hchoice.mp ⟨c,hc,fun _ _ => trivial,fun _ _ => trivial,h⟩
    refine ⟨hnet,h7,h8,fun hk => ?_,fun hk => ?_,fun hk => ?_,h3⟩
    · obtain ⟨_,_,_,hf⟩ := h4 hk
      exact hf
    · obtain ⟨_,_,_,hf⟩ := h6 hk
      exact hf
    · obtain ⟨_,_,_,hf⟩ := h5 hk
      exact hf
  · intro h
    obtain ⟨c,hc,-,-,hrest⟩ := hchoice.mpr ⟨hany _,hany _,h.etherType,fun hk => absurd hk h.proto,
      fun hk => absurd hk h.dstPort,fun hk => absurd hk h.srcPort,h.src,h.dst⟩
    exact ⟨c.rule,(mem_expand hlen _).mpr ⟨c,hc,rfl⟩,
      (Choice.zeroOnly_iff hc hfine).mpr ⟨h.net,hrest⟩⟩

theorem forall₂_iff_forall {α β : Type} {R S : α → β → Prop} {P : α → Prop} {l : List α}
    {l' : List β} (h : List.Forall₂ R l l') (hS : ∀ a∈l, ∀ b, R a b → (S a b ↔ P a)) :
    List.Forall₂ S l l' ↔ ∀ a∈l, P a := by
  induction h with
  | nil => simp
  | cons hr _ ih =>
    rw [List.forall₂_cons,ih fun a ha => hS a (by simp [ha]),hS _ (by simp) _ hr]
    simp

theorem rules_vlan (hr : f.rules = .ok rs) : ∀ r∈rs, r.vlanSet=true → r.vlan ≤ maxVLAN := by
  obtain ⟨hv,hrs⟩ := rules_ok hr
  obtain ⟨-,hfine,-,-⟩ := (validate_ok_iff f).mp hv
  intro r hr hs
  rcases hrs with ⟨-,rfl⟩ | ⟨-,hlen,rfl⟩
  · rw [List.mem_singleton.mp hr] at hs
    cases hs
  obtain ⟨c,hc,rfl⟩ := (mem_expand hlen r).mp hr
  obtain ⟨id,hid⟩ := Option.isSome_iff_exists.mp hs
  obtain ⟨m,hm,hk,hmid⟩ := mem_collect_of_choice (hid ▸ hc.vlan)
  have hf := hfine m hm
  rw [Match.Fine,hk] at hf
  rwa [Choice.rule,hid,Option.getD_some,← hmid]

theorem forall_noWider_iff {mac : MAC} {NoWider : Rule → Steering → Prop} (hp : f.promiscuous=false)
    (hr : f.rules = .ok rs) (hs : steerAll { mac := mac, macSet := macSet } rs = .ok ss)
    (hwide : ∀ r : Rule, r.srcPrefix.Not6 → r.dstPrefix.Not6 →
      (r.vlanSet=true → r.vlan ≤ maxVLAN) → (NoWider r (r.steered mac macSet) ↔ ¬ r.ZeroOnly)) :
    List.Forall₂ NoWider rs ss ↔ ¬ f.ZeroNets := by
  rw [← exists_zeroOnly_iff hp hr,forall₂_iff_forall (P := fun r => ¬ r.ZeroOnly) (steerAll_ok hs)]
  · simp
  · intro r hmem s hst
    obtain ⟨rfl,hs6,hd6⟩ := steer_ok hst
    exact hwide r hs6 hd6 (rules_vlan hr r hmem)

def anywhere : Prefix := .v4 (fun _ => 0) 0

def tenNet : Prefix := .v4 (fun i => if i=0 then 10 else 0) 8

def arp : Payload := .other 0x0806 (by decide) (by decide)

end Packetio

import Packetio.Dpdk.MbufFields

/-! Packets that ask a NIC for work, by the bytes of their headers: Ethernet with known
tags, IPv4 or IPv6, TCP or UDP. Parse recognises these and no others. -/
namespace Packetio.Dpdk.Mbuf
open Option Nat

def be16 (p : Slice) (i : Nat) : Nat := 256*(p.get i).toNat+(p.get (i+1)).toNat

def IsTag (et : Nat) : Prop := et=etherVLAN ∨ et=etherQinQ ∨ et=etherQinQ2

instance (et : Nat) : Decidable (IsTag et) := inferInstanceAs (Decidable (_ ∨ _))

structure EthernetAt (p : Slice) (tags etherType : Nat) : Prop where
  most : tags≤2
  known : ∀ i, i<tags → IsTag (be16 p (12+4*i))
  type : be16 p (12+4*tags)=etherType
  fits : 14+4*tags≤p.len

structure IPv4At (p : Slice) (off l3Len : Nat) (proto : UInt8) : Prop where
  version : (p.get off).toNat/16=4
  stated : 4*((p.get off).toNat%16)=l3Len
  least : 20≤l3Len
  fits : off+l3Len≤p.len
  carries : p.get (off+9)=proto

structure IPv6At (p : Slice) (off l3Len : Nat) (proto : UInt8) : Prop where
  version : (p.get off).toNat/16=6
  stated : 40=l3Len
  fits : off+l3Len≤p.len
  carries : p.get (off+6)=proto

def L4At (p : Slice) (off : Nat) (proto : UInt8) : Prop :=
  (proto=protoTCP ∧ off+tcpHeaderLen≤p.len) ∨ (proto=protoUDP ∧ off+udpHeaderLen≤p.len)

structure Form (p : Slice) (h : Headers) : Prop where
  ip : (∃ tags, h.l2Len=14+4*tags ∧ EthernetAt p tags etherIPv4 ∧ h.ipv4=true ∧ h.ipv6=false ∧
      IPv4At p h.l2Len h.l3Len h.proto) ∨
    (∃ tags, h.l2Len=14+4*tags ∧ EthernetAt p tags etherIPv6 ∧ h.ipv4=false ∧ h.ipv6=true ∧
      IPv6At p h.l2Len h.l3Len h.proto)
  l4 : L4At p (h.l2Len+h.l3Len) h.proto

theorem etherTypeAt_eq {p : Slice} {off : Nat} (h : off+1<p.len) :
    etherTypeAt p off=some (be16 p off) := by
  rw [etherTypeAt,Slice.get?_eq (by omega),Slice.get?_eq h]
  have hor := shiftLeft_add_eq_or_of_lt (p.get (off+1)).toNat_lt (p.get off).toNat
  have hmul : (p.get off).toNat <<< 8=256*(p.get off).toNat := by rw [shiftLeft_eq,mul_comm]
  change some _=some _
  rw [← hor,hmul,be16]

section
variable {p : Slice} {n et off : Nat}

theorem skipTags_known (h : IsTag et) (hlen : off+4≤p.len) :
    skipTags p (n+1) et off=skipTags p n (be16 p (off+2)) (off+4) := by
  have hread : etherTypeAt p (off+2)=some (be16 p (off+2)) := etherTypeAt_eq (by omega)
  rw [skipTags,if_pos (by exact h),if_neg (by omega),hread]
  rfl

theorem skipTags_short (h : IsTag et) (hlen : p.len<off+4) : skipTags p (n+1) et off=some none := by
  rw [skipTags,if_pos (by exact h),if_pos hlen]

theorem skipTags_other (h : ¬ IsTag et) : skipTags p n et off=some (some (et,off)) := by
  cases n with
  | zero => rfl
  | succ n => exact if_neg h

end

theorem skipTags_iff (p : Slice) (n a et off : Nat) (hlen : 14+4*a≤p.len) (het : ¬ IsTag et) :
    skipTags p n (be16 p (12+4*a)) (14+4*a)=some (some (et,off)) ↔
      ∃ c, a≤c ∧ c≤a+n ∧ off=14+4*c ∧ et=be16 p (12+4*c) ∧ 14+4*c≤p.len ∧
        ∀ i, a ≤ i → i<c → IsTag (be16 p (12+4*i)) := by
  induction n generalizing a with
  | zero =>
    constructor
    · intro h
      cases h
      exact ⟨a,le_refl _,le_refl _,rfl,rfl,hlen,fun i hlo hhi => absurd hlo (by omega)⟩
    · rintro ⟨c,hlo,hhi,rfl,rfl,-⟩
      obtain rfl : c=a := by omega
      rfl
  | succ n ih =>
    by_cases htag : IsTag (be16 p (12+4*a))
    · -- the type is not a tag, so it is further on
      have hbeyond : ∀ c, a≤c → et=be16 p (12+4*c) → a+1≤c := by
        intro c hlo hc
        rcases eq_or_lt_of_le hlo with rfl | hlt
        · exact absurd (hc ▸ htag) het
        · exact hlt
      by_cases hfits : 14+4*a+4≤p.len
      · rw [skipTags_known htag hfits]
        have hnext : 14+4*a+2=12+4*(a+1) := by omega
        have hoff : 14+4*a+4=14+4*(a+1) := by omega
        rw [hnext,hoff,ih (a+1) (by omega)]
        constructor
        · rintro ⟨c,hlo,hhi,rfl,rfl,hend,hall⟩
          refine ⟨c,by omega,by omega,rfl,rfl,hend,fun i hi hic => ?_⟩
          rcases eq_or_lt_of_le hi with rfl | hlt
          · exact htag
          · exact hall i hlt hic
        · rintro ⟨c,hlo,hhi,rfl,rfl,hend,hall⟩
          exact ⟨c,hbeyond c hlo rfl,by omega,rfl,rfl,hend,fun i hi => hall i (by omega)⟩
      · rw [skipTags_short htag (by omega)]
        constructor
        · intro h
          cases h
        · rintro ⟨c,hlo,-,-,hc,hend,-⟩
          have := hbeyond c hlo hc
          omega
    · rw [skipTags_other htag]
      constructor
      · intro h
        cases h
        exact ⟨a,le_refl _,by omega,rfl,rfl,hlen,fun i hlo hhi => absurd hlo (by omega)⟩
      · rintro ⟨c,hlo,-,rfl,rfl,-,hall⟩
        rcases eq_or_lt_of_le hlo with rfl | hlt
        · rfl
        · exact absurd (hall a (le_refl _) hlt) htag

theorem ethernet_iff {p : Slice} (h14 : 14≤p.len) {et off : Nat} (het : ¬ IsTag et) :
    skipTags p 2 (be16 p 12) 14=some (some (et,off)) ↔
      ∃ tags, off=14+4*tags ∧ EthernetAt p tags et := by
  rw [skipTags_iff p 2 0 et off h14 het]
  constructor
  · rintro ⟨c,-,hmost,hoff,het,hend,hall⟩
    exact ⟨c,hoff,by omega,fun i hi => hall i (zero_le i) hi,het.symm,hend⟩
  · rintro ⟨c,hoff,h⟩
    exact ⟨c,zero_le c,by have := h.most; omega,hoff,h.type.symm,h.fits,fun i _ => h.known i⟩

theorem nibbles (b v : UInt8) : (b >>> 4=v ↔ b.toNat/16=v.toNat) ∧
    (b &&& 0x0f).toNat*4=4*(b.toNat%16) := by
  have h4 : (4 : UInt8).toNat%8=4 := rfl
  have h15 : (0x0f : UInt8).toNat=2^4-1 := rfl
  constructor
  · rw [← UInt8.toNat_inj,UInt8.toNat_shiftRight,h4,shiftRight_eq_div_pow]
  · rw [UInt8.toNat_and,h15,and_two_pow_sub_one_eq_mod,mul_comm]

theorem whole_iff (h h' : Headers) (p : Slice) :
    h.whole p=some h' ↔ h=h' ∧ L4At p (h.l2Len+h.l3Len) h.proto := by
  rw [Headers.whole,L4At]
  by_cases htcp : h.proto=protoTCP
  · have hudp : protoTCP≠protoUDP := by decide
    simp [htcp,hudp]
    tauto
  by_cases hudp : h.proto=protoUDP
  · have hne : protoUDP≠protoTCP := by decide
    simp [hudp,hne]
    tauto
  · simp [htcp,hudp]

theorem parseIPv4_iff (p : Slice) (off : Nat) (h : Headers) :
    parseIPv4 p off=some (some h) ↔ h.l2Len=off ∧ h.ipv4=true ∧ h.ipv6=false ∧
      IPv4At p off h.l3Len h.proto ∧ L4At p (h.l2Len+h.l3Len) h.proto := by
  obtain ⟨hver,hihl⟩ := nibbles (p.get off) 4
  rw [parseIPv4]
  constructor
  · intro hp
    obtain ⟨hlen,hp⟩ := passed hp (by simp)
    rw [Slice.get?_eq (by omega),Slice.get?_eq (by omega)] at hp
    obtain ⟨hv,hp⟩ := passed hp (by simp)
    obtain ⟨hfits,hp⟩ := passed hp (by simp)
    rw [bind_eq_bind,bind_some,some_inj,whole_iff] at hp
    obtain ⟨rfl,hl4⟩ := hp
    exact ⟨rfl,rfl,rfl,
      ⟨hver.mp (not_not.mp hv),hihl.symm,by dsimp only; omega,by dsimp only; omega,rfl⟩,
      hl4⟩
  · obtain ⟨l2Len,l3Len,ipv4,ipv6,proto⟩ := h
    dsimp only
    rintro ⟨rfl,rfl,rfl,⟨hv,rfl,hleast,hfits,rfl⟩,hl4⟩
    rw [if_neg (by omega),Slice.get?_eq (by omega),Slice.get?_eq (by omega),bind_eq_bind,
      bind_some,if_neg (not_not.mpr (hver.mpr hv)),bind_some,hihl,
      if_neg (by omega),some_inj,whole_iff]
    exact ⟨rfl,hl4⟩

theorem parseIPv6_iff (p : Slice) (off : Nat) (h : Headers) :
    parseIPv6 p off=some (some h) ↔ h.l2Len=off ∧ h.ipv4=false ∧ h.ipv6=true ∧
      IPv6At p off h.l3Len h.proto ∧ L4At p (h.l2Len+h.l3Len) h.proto := by
  obtain ⟨hver,-⟩ := nibbles (p.get off) 6
  rw [parseIPv6]
  constructor
  · intro hp
    obtain ⟨hlen,hp⟩ := passed hp (by simp)
    rw [Slice.get?_eq (by omega),Slice.get?_eq (by omega)] at hp
    obtain ⟨hv,hp⟩ := passed hp (by simp)
    obtain ⟨-,hp⟩ := passed hp (by simp)
    rw [some_inj,whole_iff] at hp
    obtain ⟨rfl,hl4⟩ := hp
    exact ⟨rfl,rfl,rfl,⟨hver.mp (not_not.mp hv),rfl,by dsimp only; omega,rfl⟩,hl4⟩
  · obtain ⟨l2Len,l3Len,ipv4,ipv6,proto⟩ := h
    dsimp only
    rintro ⟨rfl,rfl,rfl,⟨hv,rfl,hfits,rfl⟩,hl4⟩
    have hproto : ¬ (p.get (l2Len+6)≠protoTCP ∧ p.get (l2Len+6)≠protoUDP) := by
      rcases hl4 with ⟨h,-⟩ | ⟨h,-⟩
      · exact fun hne => hne.1 h
      · exact fun hne => hne.2 h
    rw [if_neg (by omega),Slice.get?_eq (by omega),Slice.get?_eq (by omega),
      bind_eq_bind,bind_some,if_neg (not_not.mpr (hver.mpr hv)),
      bind_some,if_neg hproto,some_inj,whole_iff]
    exact ⟨rfl,hl4⟩

theorem parse_eq {p : Slice} (h14 : 14≤p.len) {x : Option (Nat × Nat)}
    (hx : skipTags p 2 (be16 p 12) 14=some x) : parse p=x.elim (some none) fun y =>
      if y.1=etherIPv4 then parseIPv4 p y.2
      else if y.1=etherIPv6 then parseIPv6 p y.2 else some none := by
  rw [parse,if_neg (by omega),etherTypeAt_eq (by omega),bind_eq_bind,bind_some,hx]
  cases x with
  | none | some _ => rfl

theorem parse_iff (p : Slice) (h : Headers) : parse p=some (some h) ↔ Form p h := by
  have h4 : ¬ IsTag etherIPv4 := by decide
  have h6 : ¬ IsTag etherIPv6 := by decide
  constructor
  · intro hp
    have h14 : 14≤p.len := by
      have := (passed hp (by simp)).1
      omega
    obtain ⟨x,hx⟩ := skipTags_some p 2 (be16 p 12) 14
    rw [parse_eq h14 hx] at hp
    rcases x with _ | ⟨et,off⟩
    · cases hp
    dsimp only [Option.elim] at hp
    split at hp
    case isTrue het =>
      subst het
      obtain ⟨rfl,hv4,hv6,hip,hl4⟩ := (parseIPv4_iff p off h).mp hp
      obtain ⟨tags,hoff,heth⟩ := (ethernet_iff h14 h4).mp hx
      exact ⟨.inl ⟨tags,hoff,heth,hv4,hv6,hip⟩,hl4⟩
    obtain ⟨het,hp⟩ := (ite_eq_iff.mp hp).resolve_right fun hno => by cases hno.2
    subst het
    obtain ⟨rfl,hv4,hv6,hip,hl4⟩ := (parseIPv6_iff p off h).mp hp
    obtain ⟨tags,hoff,heth⟩ := (ethernet_iff h14 h6).mp hx
    exact ⟨.inr ⟨tags,hoff,heth,hv4,hv6,hip⟩,hl4⟩
  · rintro ⟨⟨tags,hoff,heth,hv4,hv6,hip⟩ | ⟨tags,hoff,heth,hv4,hv6,hip⟩,hl4⟩
    · have h14 : 14≤p.len := by have := heth.fits; omega
      rw [parse_eq h14 ((ethernet_iff h14 h4).mpr ⟨tags,hoff,heth⟩)]
      exact (parseIPv4_iff p h.l2Len h).mpr ⟨rfl,hv4,hv6,hip,hl4⟩
    · have h14 : 14≤p.len := by have := heth.fits; omega
      rw [parse_eq h14 ((ethernet_iff h14 h6).mpr ⟨tags,hoff,heth⟩)]
      exact (parseIPv6_iff p h.l2Len h).mpr ⟨rfl,hv4,hv6,hip,hl4⟩

/-! What a NIC is told about them -/

def txL4Mask : UInt64 := (3 : UInt64) <<< 52

structure FlagsFor (v4 v6 : Bool) (proto : UInt8) (flags : UInt64) : Prop where
  ipv4 : flags &&& txIPv4≠0 ↔ v4=true
  ipv6 : flags &&& txIPv6≠0 ↔ v6=true
  ipChecksum : flags &&& txIPChecksum≠0 ↔ v4=true
  tcp : flags &&& txL4Mask=txTCPChecksum ↔ proto=protoTCP
  udp : flags &&& txL4Mask=txUDPChecksum ↔ proto=protoUDP

namespace Form
variable {p : Slice} {h : Headers} (hf : Form p h)
include hf

theorem version : (h.ipv4=true ∧ h.ipv6=false) ∨ (h.ipv4=false ∧ h.ipv6=true) := by
  rcases hf.ip with ⟨-,-,-,hv4,hv6,-⟩ | ⟨-,-,-,hv4,hv6,-⟩
  · exact .inl ⟨hv4,hv6⟩
  · exact .inr ⟨hv4,hv6⟩

theorem proto : h.proto=protoTCP ∨ h.proto=protoUDP := hf.l4.imp And.left And.left

theorem l2Len : h.l2Len=14 ∨ h.l2Len=18 ∨ h.l2Len=22 := by
  rcases hf.ip with ⟨tags,hl2,heth,-⟩ | ⟨tags,hl2,heth,-⟩
  · have := heth.most
    omega
  · have := heth.most
    omega

theorem l3Len : 20≤h.l3Len ∧ h.l3Len≤60 := by
  rcases hf.ip with ⟨-,-,-,-,-,hip⟩ | ⟨-,-,-,-,-,hip⟩
  · have := hip.stated
    have := hip.least
    omega
  · have := hip.stated
    omega

theorem flags : FlagsFor h.ipv4 h.ipv6 h.proto (checksumFlags h) := by
  have hlens : checksumFlags h=checksumFlags ⟨0,0,h.ipv4,h.ipv6,h.proto⟩ := rfl
  rw [hlens]
  rcases hf.version with ⟨hv4,hv6⟩ | ⟨hv4,hv6⟩
  · rw [hv4,hv6]
    rcases hf.proto with hp | hp
    · rw [hp]
      constructor <;> decide
    · rw [hp]
      constructor <;> decide
  rw [hv4,hv6]
  rcases hf.proto with hp | hp
  · rw [hp]
    constructor <;> decide
  · rw [hp]
    constructor <;> decide

theorem lengths (l4Len segSize : UInt64) :
    txLengths (tsoWord (UInt64.ofNat h.l2Len) (UInt64.ofNat h.l3Len) l4Len segSize) =
      ⟨h.l2Len,h.l3Len,l4Len.toNat%2^8,segSize.toNat%2^16⟩ := by
  have hl2 := hf.l2Len
  have hl3 := hf.l3Len
  rw [txLengths_tsoWord,toNat_small64 _ (by omega),
    toNat_small64 _ (by omega),mod_eq_of_lt (a := h.l2Len) (by omega),
    mod_eq_of_lt (a := h.l3Len) (by omega)]

end Form

/-- For every byte string: no index is out of range, and the result is the headers just
when the packet has the form; the lengths and flags that come of them are the packet's. -/
theorem parse_exact (p : Slice) :
    (∃ r, parse p = some r) ∧ (∀ h, parse p = some (some h) ↔ Form p h) ∧
    ∀ h, parse p = some (some h) → (h.l2Len = 14 ∨ h.l2Len = 18 ∨ h.l2Len = 22) ∧
      FlagsFor h.ipv4 h.ipv6 h.proto (checksumFlags h) ∧ (∀ (b b' : Region) (m : Nat),
        setTxOffload b m (UInt64.ofNat h.l2Len) (UInt64.ofNat h.l3Len) = some b' →
        (txOffload b' m).map txLengths = some ⟨h.l2Len,h.l3Len,0,0⟩) ∧
      ∀ (b b' : Region) (m : Nat) (l4Len segSize : UInt64),
        setTxOffloadTSO b m (UInt64.ofNat h.l2Len) (UInt64.ofNat h.l3Len) l4Len segSize = some b' →
        (txOffload b' m).map txLengths =
          some ⟨h.l2Len,h.l3Len,l4Len.toNat % 2^8,segSize.toNat % 2^16⟩ := by
  refine ⟨parse_some p,parse_iff p,fun h hp => ?_⟩
  have hf := (parse_iff p h).mp hp
  refine ⟨hf.l2Len,hf.flags,fun b b' m hb => ?_,fun b b' m l4Len segSize hb => ?_⟩
  · rw [setTxOffload_eq] at hb
    rw [txOffload_set hb,map_some,hf.lengths]
    rfl
  · rw [txOffload_set hb,map_some,hf.lengths]

def taggedPacket : Slice where
  mem i := [0,0,0,0,0,1,0,0,0,0,0,2,0x81,0,0,7,0x08,0,0x45,0,0,28,0,0,0,0,64,17].getD i 0
  off := 0
  len := 46

theorem parse_exact_tagged : parse taggedPacket = some (some ⟨18,20,true,false,17⟩) ∧
    Form taggedPacket ⟨18,20,true,false,17⟩ := by
  have hp : parse taggedPacket=some (some ⟨18,20,true,false,17⟩) := by decide
  exact ⟨hp,((parse_exact taggedPacket).2.1 _).mp hp⟩

end Packetio.Dpdk.Mbuf

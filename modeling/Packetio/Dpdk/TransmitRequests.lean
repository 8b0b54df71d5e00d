import Packetio.Dpdk.TransmitMbufs

/-! What a NIC is asked to do against what the caller asked for and what the packet is:
checksums of packets that have the header for them, segmentation and checksums as the
Offload says. -/
namespace Packetio.Dpdk
open Dpdk.Mbuf Option

/-! Fragments -/

def Fragment (p : Slice) : Prop :=
  ∃ tags, EthernetAt p tags etherIPv4 ∧ be16 p (14+4*tags+6)%2^14≠0

def L4Header (p : Slice) (l2Len l3Len : Nat) (proto : UInt8) : Prop :=
  ((∃ tags, l2Len=14+4*tags ∧ EthernetAt p tags etherIPv4 ∧ IPv4At p l2Len l3Len proto ∧
      be16 p (l2Len+6)%2^14=0) ∨
    ∃ tags, l2Len=14+4*tags ∧ EthernetAt p tags etherIPv6 ∧ IPv6At p l2Len l3Len proto) ∧
  L4At p (l2Len+l3Len) proto

variable {p : Slice} {f : UInt64} {proto : UInt8} {v4 v6 : Bool} {y : UInt64 × UInt64}
  {w : Option (UInt64 × UInt64)}

theorem Mbuf.EthernetAt.unique {tags tags' et et' : Nat} (h : EthernetAt p tags et)
    (h' : EthernetAt p tags' et') (het : ¬ IsTag et) (het' : ¬ IsTag et') : tags=tags' ∧
    et=et' := by
  have htags : tags=tags' := by
    rcases lt_trichotomy tags tags' with hlt | heq | hgt
    · exact absurd (h.type ▸ h'.known tags hlt) het
    · exact heq
    · exact absurd (h'.type ▸ h.known tags' hgt) het'
  subst htags
  exact ⟨rfl,h.type.symm.trans h'.type⟩

theorem fragment_iff {tags : Nat} (h : EthernetAt p tags etherIPv4) :
    Fragment p ↔ be16 p (14+4*tags+6)%2^14≠0 := by
  have h4 : ¬ IsTag etherIPv4 := by decide
  constructor
  · rintro ⟨tags',h',hne⟩
    rwa [(h.unique h' h4 h4).1]
  · intro hne
    exact ⟨tags,h,hne⟩

theorem Mbuf.Form.l4Header_iff {h : Headers} (hf : Form p h) :
    L4Header p h.l2Len h.l3Len h.proto ↔ ¬ Fragment p := by
  have h4 : ¬ IsTag etherIPv4 := by decide
  have h6 : ¬ IsTag etherIPv6 := by decide
  have h46 : etherIPv4≠etherIPv6 := by decide
  rcases hf.ip with ⟨tags,hl2,heth,-,-,hip⟩ | ⟨tags,hl2,heth,-,-,hip⟩
  · rw [fragment_iff heth,← hl2,not_not]
    constructor
    · rintro ⟨⟨-,-,-,-,hz⟩ | ⟨tags',-,heth',-⟩,-⟩
      · exact hz
      · exact absurd (heth.unique heth' h4 h6).2 h46
    · intro hz
      exact ⟨.inl ⟨tags,hl2,heth,hip,hz⟩,hf.l4⟩
  · refine iff_of_true ⟨.inr ⟨tags,hl2,heth,hip⟩,hf.l4⟩ ?_
    rintro ⟨tags',heth',-⟩
    exact h46 (heth'.unique heth h4 h6).2

/-! What is asked for -/

theorem or_mask {extra m : UInt64} (h : extra &&& m=0) : (f ||| extra) &&& m=f &&& m := by
  rw [← UInt64.toNat_inj] at h ⊢
  rw [UInt64.toNat_and,UInt64.toNat_zero] at h
  rw [UInt64.toNat_and,UInt64.toNat_or,UInt64.toNat_and,Nat.and_or_distrib_right,h,Nat.or_zero]

theorem Mbuf.FlagsFor.seg (h : FlagsFor v4 v6 proto f) : FlagsFor v4 v6 proto (f ||| txTCPSeg) := by
  have h4 : (f ||| txTCPSeg) &&& txIPv4=f &&& txIPv4 := or_mask (by decide)
  have h6 : (f ||| txTCPSeg) &&& txIPv6=f &&& txIPv6 := or_mask (by decide)
  have hip : (f ||| txTCPSeg) &&& txIPChecksum=f &&& txIPChecksum := or_mask (by decide)
  have hl4 : (f ||| txTCPSeg) &&& txL4Mask=f &&& txL4Mask := or_mask (by decide)
  refine ⟨?_,?_,?_,?_,?_⟩
  · rw [h4,h.ipv4]
  · rw [h6,h.ipv6]
  · rw [hip,h.ipChecksum]
  · rw [hl4,h.tcp]
  · rw [hl4,h.udp]

def gsoKind (o : Offload) : UInt8 := o.gsoType &&& ~~~offloadGSOECN

structure Tx.Cuts (t : Tx) (h : Headers) (o : Offload) (len : Nat) : Prop where
  tso : t.tso=true
  kind : gsoKind o=offloadGSOTCPv4 ∨ gsoKind o=offloadGSOTCPv6
  tcp : h.proto=protoTCP
  size : o.gsoSize≠0
  above : h.l2Len+h.l3Len<o.hdrLen.toNat
  inside : o.hdrLen.toNat≤len

namespace Tx
variable {t : Tx} {h : Headers} {o : Offload} {len : Nat} {flags : UInt64}
  {x : UInt64 × UInt64 × UInt64}

theorem segmentation_whole (ho : o.segmented=false) :
    t.segmentation h o len flags = .ok (0,0,flags) := by
  rw [segmentation,ho]
  rfl

theorem segmentation_iff (ho : o.segmented=true) :
    t.segmentation h o len flags = .ok x ↔ t.Cuts h o len ∧
      x=(UInt64.ofNat (o.hdrLen.toNat-(h.l2Len+h.l3Len)),o.gsoSize.toUInt64,
      flags ||| txTCPSeg) := by
  rw [segmentation,ho,if_neg (by decide)]
  constructor
  · intro hs
    obtain ⟨htso,hs⟩ := passed hs nofun
    obtain ⟨hkind,hs⟩ := passed hs nofun
    obtain ⟨htcp,hs⟩ := passed hs nofun
    obtain ⟨hsize,hs⟩ := passed hs nofun
    obtain ⟨hlen,hs⟩ := passed hs nofun
    injection hs with hs
    refine ⟨⟨by simpa using htso,?_,not_not.mp htcp,hsize,by omega,by omega⟩,hs.symm⟩
    tauto
  · rintro ⟨⟨htso,hkind,htcp,hsize,habove,hinside⟩,rfl⟩
    rw [htso,if_neg (by decide),if_neg (by tauto),if_neg (not_not.mpr htcp),
      if_neg hsize,if_neg (by omega)]

end Tx

theorem Tx.Asked.work {t : Tx} {o : Option Offload} (hw : t.Asked p o (some y)) :
    ∃ h, Form p h ∧ FlagsFor h.ipv4 h.ipv6 h.proto y.1 ∧ (txLengths y.2).l2Len=h.l2Len ∧
      (txLengths y.2).l3Len=h.l3Len := by
  cases hw with
  | @checksums h hc hp =>
    have hf := (parse_iff p h).mp hp
    exact ⟨h,hf,hf.flags,by rw [hf.lengths],by rw [hf.lengths]⟩
  | @offload o h l4Len segSize flags ho hp hcsum hseg =>
    have hf := (parse_iff p h).mp hp
    refine ⟨h,hf,?_,by rw [hf.lengths],by rw [hf.lengths]⟩
    cases hcut : o.segmented with
    | false =>
      rw [Tx.segmentation_whole hcut] at hseg
      cases hseg
      exact hf.flags
    | true =>
      obtain ⟨-,hx⟩ := (Tx.segmentation_iff hcut).mp hseg
      cases hx
      exact hf.flags.seg

theorem prepare_asked {checked : Bool} {region r : Region} {c : Config} {t₀ t : Tx}
    (hnew : newTx checked region c = .ok t₀) (hva : c.regionVA.toNat+region.len≤2^64)
    (hq : t.toFixed=t₀.toFixed) (hr : r.len=region.len) (ds : List (Desc × Option Offload)) :
    ∃ t' r' batch, t.prepare r ds=some (t',r',batch) ∧
    ∀ pre d o post, ds=pre++(d,o)::post → pre.length<batch.mbufs.length →
      (∀ x∈post, t.frameOf x.1.addr≠t.frameOf d.addr) →
      ∃ x w, txRead r' (t.mbufOf d)=some x ∧ t.Asked (r.frame d) o w ∧
        x.olFlags=w.elim 0 Prod.fst ∧ ∀ y, w=some y → x.txOffload=y.2 := by
  obtain ⟨k,hk,hlen,hshape,hl,hregion⟩ := newTx_shape hnew hva hq
  rw [hlen] at hr
  obtain ⟨t',r',batch,hp⟩ := Tx.prepare_total hshape hr ds
  refine ⟨t',r',batch,hp,fun pre d o post hds hn hlast => ?_⟩
  rw [hds] at hp
  obtain ⟨n,hb⟩ := Tx.prepare_split hshape hr hp (.inl hn)
  obtain ⟨-,-,w,x,stale,hw,-,hsent⟩ := Tx.build_sent hshape hr hb hn fun y hy =>
    hlast y (List.mem_of_mem_take hy)
  refine ⟨_,w,hsent,hw,rfl,fun y hy => ?_⟩
  rw [hy]
  rfl

def requests (flags : UInt64) (proto : UInt8) : Prop :=
  (proto=protoTCP ∧ flags &&& txL4Mask=txTCPChecksum) ∨
    (proto=protoUDP ∧ flags &&& txL4Mask=txUDPChecksum)

theorem Mbuf.FlagsFor.requests_iff {proto' : UInt8}
    (h : FlagsFor v4 v6 proto f) (hp : proto=protoTCP ∨ proto=protoUDP) :
    requests f proto' ↔ proto'=proto := by
  rw [requests,h.tcp,h.udp]
  rcases hp with rfl | rfl
  · have hne : protoTCP≠protoUDP := by decide
    simp [hne]
  · have hne : protoUDP≠protoTCP := by decide
    simp [hne]

/-- For a transmit queue in any state, over any memory and any batch, without Offloads or
with them: where the driver is asked for a TCP or UDP checksum, that header is at the
lengths it is told just when the packet is not a fragment. -/
theorem l4_checksum_iff (checked : Bool) (region r : Region) (c : Config) (t₀ t : Tx)
    (hnew : newTx checked region c = .ok t₀) (hva : c.regionVA.toNat+region.len ≤ 2^64)
    (hq : t.toFixed = t₀.toFixed) (hr : r.len = region.len) (ds : List (Desc × Option Offload)) :
    ∃ t' r' batch, t.prepare r ds = some (t',r',batch) ∧
    ∀ pre d o post, ds = pre++(d,o)::post → pre.length < batch.mbufs.length →
      (∀ x ∈ post, t.frameOf x.1.addr ≠ t.frameOf d.addr) →
      ∃ x, txRead r' (t.mbufOf d) = some x ∧ ∀ proto, requests x.olFlags proto →
        (L4Header (r.frame d) (txLengths x.txOffload).l2Len (txLengths x.txOffload).l3Len proto ↔
          ¬ Fragment (r.frame d)) := by
  obtain ⟨t',r',batch,hp,hall⟩ := prepare_asked hnew hva hq hr ds
  refine ⟨t',r',batch,hp,fun pre d o post hds hn hlast => ?_⟩
  obtain ⟨x,w,hx,hw,hflags,hword⟩ := hall pre d o post hds hn hlast
  refine ⟨x,hx,fun proto hreq => ?_⟩
  cases w with
  | none =>
    -- nothing is asked for
    rw [hflags] at hreq
    rcases hreq with ⟨-,hno⟩ | ⟨-,hno⟩
    · exact absurd hno (by decide)
    · exact absurd hno (by decide)
  | some y =>
    obtain ⟨h,hf,hfl,hl2,hl3⟩ := hw.work
    rw [hflags] at hreq
    rw [hword y rfl,hl2,hl3,(hfl.requests_iff hf.proto).mp hreq,hf.l4Header_iff]

def workTxConfig : Config := { pairTxConfig with checksums := true, tso := true }

def workTx : Tx := (newTx true smallRegion workTxConfig).toOption.get (by decide)

def holding (packet : List UInt8) : Region :=
  { smallRegion with mem := fun i => if 0xc0 ≤ i then packet.getD (i-0xc0) 0 else 0 }

def udpPacket (frag : UInt8) : List UInt8 :=
  [0,0,0,0,0,1,0,0,0,0,0,2,8,0,0x45,0,0,28,0,0,frag,0,64,17]

theorem udpPacket_form (frag : UInt8) (hfrag : frag=0 ∨ frag=0x20) :
    Form ((holding (udpPacket frag)).frame ⟨0xc0,42,0⟩) ⟨14,20,true,false,17⟩ := by
  apply (parse_iff _ _).mp
  rcases hfrag with rfl | rfl
  · decide
  · decide

theorem udpPacket_ethernet (frag : UInt8) (hfrag : frag=0 ∨ frag=0x20) :
    EthernetAt ((holding (udpPacket frag)).frame ⟨0xc0,42,0⟩) 0 etherIPv4 := by
  refine ⟨Nat.zero_le 2,fun i hi => absurd hi (Nat.not_lt_zero i),?_,
    show 14≤42 by decide⟩
  rcases hfrag with rfl | rfl
  · decide
  · decide

theorem l4_checksum_whole : ∃ t' r' batch x,
      workTx.prepare (holding (udpPacket 0)) [(⟨0xc0,42,0⟩,none)] = some (t',r',batch) ∧
      txRead r' 0x40 = some x ∧ requests x.olFlags protoUDP ∧
      L4Header ((holding (udpPacket 0)).frame ⟨0xc0,42,0⟩) (txLengths x.txOffload).l2Len
        (txLengths x.txOffload).l3Len protoUDP := by
  obtain ⟨t',r',batch,hp,hall⟩ :=
    l4_checksum_iff true smallRegion (holding (udpPacket 0)) workTxConfig
    workTx workTx rfl (by decide) rfl rfl [(⟨0xc0,42,0⟩,none)]
  have hread : (workTx.prepare (holding (udpPacket 0)) [(⟨0xc0,42,0⟩,none)]).map
      (fun y => (y.2.2.mbufs.length,(txRead y.2.1 0x40).map TxFields.olFlags)) =
        some (1,some (txIPv4 ||| txIPChecksum ||| txUDPChecksum)) := by decide
  rw [hp,map_some,some_inj,Prod.mk.injEq] at hread
  obtain ⟨x,hx,hiff⟩ := hall [] ⟨0xc0,42,0⟩ none [] rfl (by rw [hread.1]; decide) (by simp)
  have hx : txRead r' 0x40=some x := hx
  rw [hx,map_some,some_inj] at hread
  have hreq : requests x.olFlags protoUDP := by
    rw [hread.2]
    exact .inr ⟨rfl,by decide⟩
  refine ⟨t',r',batch,x,hp,hx,hreq,(hiff _ hreq).mpr ?_⟩
  rw [fragment_iff (udpPacket_ethernet 0 (.inl rfl))]
  decide

/-- A first fragment: the NIC is asked for the checksum of a datagram of which this is the
beginning. -/
theorem fragment_checksummed : (workTx.prepare (holding (udpPacket 0x20)) [(⟨0xc0,42,0⟩,none)]).map
      (fun y => (y.2.2.mbufs,(txRead y.2.1 0x40).map fun x =>
        (x.olFlags &&& txL4Mask,txLengths x.txOffload))) =
      some ([0x10040],some (txUDPChecksum,⟨14,20,0,0⟩)) ∧
    Fragment ((holding (udpPacket 0x20)).frame ⟨0xc0,42,0⟩) ∧
    ¬ L4Header ((holding (udpPacket 0x20)).frame ⟨0xc0,42,0⟩) 14 20 protoUDP := by
  have hfrag : Fragment ((holding (udpPacket 0x20)).frame ⟨0xc0,42,0⟩) := by
    rw [fragment_iff (udpPacket_ethernet 0x20 (.inr rfl))]
    decide
  refine ⟨by decide,hfrag,fun hno => ?_⟩
  exact (udpPacket_form 0x20 (.inr rfl)).l4Header_iff.mp hno hfrag

/-! Segmentation -/

def tcpLen (p : Slice) (off : Nat) : Nat := 4*((p.get (off+12)).toNat/16)

def SameVersion (p : Slice) (o : Offload) : Prop :=
  (gsoKind o=offloadGSOTCPv4 ∧ ∃ tags, EthernetAt p tags etherIPv4) ∨
    (gsoKind o=offloadGSOTCPv6 ∧ ∃ tags, EthernetAt p tags etherIPv6)

structure Unaltered (p : Slice) (o : Offload) (l : TxLengths) : Prop where
  sum : l.l2Len+l.l3Len+l.l4Len=o.hdrLen.toNat
  size : l.tsoSegsz=o.gsoSize.toNat
  own : l.l4Len=tcpLen p (l.l2Len+l.l3Len)
  version : SameVersion p o

def Suits (p : Slice) (o : Offload) : Prop :=
  SameVersion p o ∧ ∃ h, Form p h ∧
    o.hdrLen.toNat=h.l2Len+h.l3Len+tcpLen p (h.l2Len+h.l3Len)

def needsCsum (o : Offload) : Prop := o.flags &&& offloadNeedsCsum≠0

def Tx.Takes (t : Tx) (p : Slice) (o : Offload) : Prop :=
  ∃ h, Form p h ∧ (needsCsum o → o.csumStart.toNat=h.l2Len+h.l3Len) ∧ t.Cuts h o p.len

theorem Mbuf.Form.eq {h h' : Headers} (hf : Form p h) (hf' : Form p h') : h=h' := by
  rw [← parse_iff] at hf hf'
  rw [hf] at hf'
  exact some.inj (some.inj hf')

section
variable {t : Tx} {p : Slice} {o : Offload} (ho : o.segmented=true)
include ho

theorem segmented_not_ordinary : ¬ Ordinary o := by
  rintro ⟨-,hg⟩
  rw [Offload.segmented,hg] at ho
  exact absurd ho (by decide)

theorem Tx.Asked.segmented (hw : t.Asked p (some o) w) :
    ∃ h, Form p h ∧ (needsCsum o → o.csumStart.toNat=h.l2Len+h.l3Len) ∧ t.Cuts h o p.len ∧
      w=some (checksumFlags h ||| txTCPSeg,tsoWord (UInt64.ofNat h.l2Len) (UInt64.ofNat h.l3Len)
        (UInt64.ofNat (o.hdrLen.toNat-(h.l2Len+h.l3Len))) o.gsoSize.toUInt64) := by
  obtain ⟨h,l4Len,segSize,flags,hp,hcsum,hseg,rfl⟩ := hw.requested (segmented_not_ordinary ho)
  obtain ⟨hcuts,hx⟩ := (Tx.segmentation_iff ho).mp hseg
  cases hx
  exact ⟨h,(parse_iff p h).mp hp,hcsum,hcuts,rfl⟩

theorem Tx.takes_iff : (∃ w, t.Asked p (some o) w) ↔ t.Takes p o := by
  constructor
  · rintro ⟨w,hw⟩
    obtain ⟨h,hf,hcsum,hcuts,-⟩ := hw.segmented ho
    exact ⟨h,hf,hcsum,hcuts⟩
  · rintro ⟨h,hf,hcsum,hcuts⟩
    exact ⟨_,.offload (segmented_not_ordinary ho) ((parse_iff p h).mpr hf) hcsum
      ((Tx.segmentation_iff ho).mpr ⟨hcuts,rfl⟩)⟩

theorem Tx.Asked.unaltered_iff (hw : t.Asked p (some o) (some y)) :
    Unaltered p o (txLengths y.2) ↔ Suits p o := by
  obtain ⟨h,hf,-,hcuts,hy⟩ := hw.segmented ho
  cases hy
  have hlt := o.hdrLen.toNat_lt
  have hlen : tcpLen p (h.l2Len+h.l3Len)<256 := by
    have := (p.get (h.l2Len+h.l3Len+12)).toNat_lt
    rw [tcpLen]
    omega
  have hword := hf.lengths (UInt64.ofNat (o.hdrLen.toNat-(h.l2Len+h.l3Len))) o.gsoSize.toUInt64
  rw [toNat_small64 _ (by omega),UInt16.toNat_toUInt64,
    Nat.mod_eq_of_lt (a := o.gsoSize.toNat) o.gsoSize.toNat_lt] at hword
  rw [hword]
  constructor
  · rintro ⟨hsum,-,hown,hver⟩
    refine ⟨hver,h,hf,?_⟩
    dsimp only at hsum hown
    omega
  · rintro ⟨hver,h',hf',hhdr⟩
    cases hf.eq hf'
    refine ⟨?_,rfl,?_,hver⟩
    · dsimp only
      omega
    · dsimp only
      omega

end

/-- For a transmit queue in any state, over any memory and any batch: a segmented request
that is accepted reaches the driver unaltered just when it suits its packet, and one that
the loop comes to is accepted just when it passes the checks; otherwise it is refused. -/
theorem segmentation_unaltered_iff (checked : Bool) (region r : Region) (c : Config) (t₀ t : Tx)
    (hnew : newTx checked region c = .ok t₀) (hva : c.regionVA.toNat+region.len ≤ 2^64)
    (hq : t.toFixed = t₀.toFixed) (hr : r.len = region.len) (ds : List (Desc × Option Offload)) :
    ∃ t' r' batch, t.prepare r ds = some (t',r',batch) ∧
    ∀ pre d o post, ds = pre++(d,some o)::post → o.segmented = true →
      (pre.length < batch.mbufs.length → (∀ x ∈ post, t.frameOf x.1.addr ≠ t.frameOf d.addr) →
        ∃ x, txRead r' (t.mbufOf d) = some x ∧
          (Unaltered (r.frame d) o (txLengths x.txOffload) ↔ Suits (r.frame d) o)) ∧
      (t.dead = none → pre.length < min t.numFreeSlots t.depth → pre.length ≤ batch.mbufs.length →
        t.descOK d = true → (pre.length < batch.mbufs.length ∧ t.Takes (r.frame d) o) ∨
        (batch.mbufs.length = pre.length ∧ ¬ t.Takes (r.frame d) o ∧
          ∃ e, batch.refused = some (.offload pre.length e))) := by
  obtain ⟨t',r',batch,hp,hall⟩ := prepare_asked hnew hva hq hr ds
  refine ⟨t',r',batch,hp,fun pre d o post hds ho =>
    ⟨fun hn hlast => ?_,fun hopen hslot hreach hok => ?_⟩⟩
  · obtain ⟨x,w,hx,hw,-,hword⟩ := hall pre d (some o) post hds hn hlast
    cases w with
    | none =>
      obtain ⟨h,-,-,-,hno⟩ := hw.segmented ho
      cases hno
    | some y =>
      refine ⟨x,hx,?_⟩
      rw [hword y rfl]
      exact hw.unaltered_iff ho
  · obtain ⟨k,hk,hlen,hshape,-⟩ := newTx_shape hnew hva hq
    rw [hlen] at hr
    rw [hds] at hp
    obtain ⟨n,hb⟩ := Tx.prepare_split hshape hr hp (.inr ⟨hopen,hslot⟩)
    rw [← Tx.takes_iff ho]
    rcases Tx.build_reached hshape hr hb hreach hok with ⟨hlt,hw⟩ | ⟨heq,hno,e,he⟩
    · exact .inl ⟨hlt,hw⟩
    · rw [zero_add] at he
      exact .inr ⟨heq,fun ⟨w,hw⟩ => hno w hw,e,he⟩

def tcpPacket : List UInt8 :=
  [0,0,0,0,0,1,0,0,0,0,0,2,8,0,0x45,0,1,34,0,0,0x40,0,64,6,0,0,10,0,0,1,10,0,0,2,
    0,80,0,80,0,0,0,1,0,0,0,1,0x50,0x10]

def cutting (hdrLen : UInt16) : Offload := { gsoType := 1, hdrLen := hdrLen, gsoSize := 100 }

def cutBatch (hdrLen : UInt16) : List (Desc × Option Offload) :=
    [(⟨0xc0,310,0⟩,some (cutting hdrLen))]

theorem tcpPacket_ethernet : EthernetAt ((holding tcpPacket).frame ⟨0xc0,310,0⟩) 0 etherIPv4 :=
  ⟨Nat.zero_le 2,fun i hi => absurd hi (Nat.not_lt_zero i),by decide,by decide⟩

theorem tcpPacket_form : Form ((holding tcpPacket).frame ⟨0xc0,310,0⟩) ⟨14,20,true,false,6⟩ :=
  (parse_iff _ _).mp (by decide)

theorem segmentation_unaltered_own :
    ∃ t' r' batch x, workTx.prepare (holding tcpPacket) (cutBatch 54) = some (t',r',batch) ∧
      txRead r' 0x40 = some x ∧
      Unaltered ((holding tcpPacket).frame ⟨0xc0,310,0⟩) (cutting 54) (txLengths x.txOffload) := by
  obtain ⟨t',r',batch,hp,hall⟩ := segmentation_unaltered_iff true smallRegion (holding tcpPacket)
    workTxConfig workTx workTx rfl (by decide) rfl rfl (cutBatch 54)
  have hbuilt :
    (workTx.prepare (holding tcpPacket) (cutBatch 54)).map (fun y => y.2.2.mbufs.length) =
      some 1 := by decide
  rw [hp,map_some,some_inj] at hbuilt
  obtain ⟨x,hx,hiff⟩ := (hall [] ⟨0xc0,310,0⟩ (cutting 54) [] rfl (by decide)).1
    (by rw [hbuilt]; decide) (by simp)
  refine ⟨t',r',batch,x,hp,hx,hiff.mpr ⟨.inl ⟨by decide,0,tcpPacket_ethernet⟩,_,tcpPacket_form,?_⟩⟩
  decide

/-- A header length of 256 more: the length of the L4 header is cut to its field, and the
driver reads 54 bytes of headers where the caller asked for 310. -/
theorem segmentation_cut : (workTx.prepare (holding tcpPacket) (cutBatch 310)).map
      (fun y => (y.2.2.mbufs,(txRead y.2.1 0x40).map fun x => txLengths x.txOffload)) =
      some ([0x10040],some ⟨14,20,20,100⟩) ∧
    ¬ Unaltered ((holding tcpPacket).frame ⟨0xc0,310,0⟩) (cutting 310) ⟨14,20,20,100⟩ := by
  refine ⟨by decide,fun hno => ?_⟩
  exact absurd hno.sum (by decide)

/-! Checksums -/

def csumField (x : TxFields) : Nat :=
  (txLengths x.txOffload).l2Len+(txLengths x.txOffload).l3Len+
    if x.olFlags &&& txL4Mask=txTCPChecksum then 16 else 6

structure CsumKept (o : Offload) (x : TxFields) : Prop where
  asked : x.olFlags &&& txL4Mask≠0 ↔ needsCsum o ∨ o.segmented=true
  field : x.olFlags &&& txL4Mask≠0 → csumField x=o.csumStart.toNat+o.csumOff.toNat

def CsumNamed (p : Slice) (o : Offload) : Prop :=
  Ordinary o ∨ ((needsCsum o ∨ o.segmented=true) ∧ ∃ h, Form p h ∧
    o.csumStart.toNat+o.csumOff.toNat=h.l2Len+h.l3Len+if h.proto=protoTCP then 16 else 6)

theorem Mbuf.FlagsFor.l4_ne_zero
    (h : FlagsFor v4 v6 proto f) (hp : proto=protoTCP ∨ proto=protoUDP) : f &&& txL4Mask≠0 := by
  rcases hp with hp | hp
  · rw [h.tcp.mpr hp]
    decide
  · rw [h.udp.mpr hp]
    decide

theorem ordinary_asks_nothing {o : Offload} (ho : Ordinary o) :
    ¬ (needsCsum o ∨ o.segmented=true) := by
  rw [needsCsum,Offload.segmented,ho.1,ho.2]
  decide

section
variable {t : Tx} {p : Slice} {o : Offload} {x : TxFields}

theorem Tx.Asked.kept_ordinary (ho : Ordinary o)
    (hw : t.Asked p (some o) w) (hflags : x.olFlags=w.elim 0 Prod.fst) : CsumKept o x := by
  have hzero : x.olFlags &&& txL4Mask=0 := by
    cases hw with
    | ordinary => rw [hflags]; decide
    | offload ho' => exact absurd ho ho'
  have hno := not_not.mpr hzero
  exact ⟨iff_of_false hno (ordinary_asks_nothing ho),fun hne => absurd hne hno⟩

theorem Tx.Asked.kept_iff (ho : ¬ Ordinary o) (hw : t.Asked p (some o) (some y))
    (hflags : x.olFlags=y.1) (hword : x.txOffload=y.2) : CsumKept o x ↔ CsumNamed p o := by
  obtain ⟨h,hf,hfl,hl2,hl3⟩ := hw.work
  have hne := hfl.l4_ne_zero hf.proto
  have hfield : csumField x=h.l2Len+h.l3Len+if h.proto=protoTCP then 16 else 6 := by
    rw [csumField,hword,hflags,hl2,hl3]
    simp [hfl.tcp]
  rw [← hflags] at hne
  constructor
  · rintro ⟨hasked,hplace⟩
    exact .inr ⟨hasked.mp hne,h,hf,(hplace hne).symm.trans hfield⟩
  · rintro (hord | ⟨hask,h',hf',hplace⟩)
    · exact absurd hord ho
    · cases hf.eq hf'
      exact ⟨iff_of_true hne hask,fun _ => hfield.trans hplace.symm⟩

end

/-- For a transmit queue in any state, over any memory and any batch: the checksum work of
an accepted request is the caller's just when the request asks for nothing, or for a
checksum, or a segmented frame, with the place of the packet's own checksum. -/
theorem checksum_kept_iff (checked : Bool) (region r : Region) (c : Config) (t₀ t : Tx)
    (hnew : newTx checked region c = .ok t₀) (hva : c.regionVA.toNat+region.len ≤ 2^64)
    (hq : t.toFixed = t₀.toFixed) (hr : r.len = region.len) (ds : List (Desc × Option Offload)) :
    ∃ t' r' batch, t.prepare r ds = some (t',r',batch) ∧
    ∀ pre d o post, ds = pre++(d,some o)::post → pre.length < batch.mbufs.length →
      (∀ x ∈ post, t.frameOf x.1.addr ≠ t.frameOf d.addr) →
      ∃ x, txRead r' (t.mbufOf d) = some x ∧ (CsumKept o x ↔ CsumNamed (r.frame d) o) := by
  obtain ⟨t',r',batch,hp,hall⟩ := prepare_asked hnew hva hq hr ds
  refine ⟨t',r',batch,hp,fun pre d o post hds hn hlast => ?_⟩
  obtain ⟨x,w,hx,hw,hflags,hword⟩ := hall pre d (some o) post hds hn hlast
  refine ⟨x,hx,?_⟩
  by_cases ho : Ordinary o
  · exact iff_of_true (hw.kept_ordinary ho hflags) (.inl ho)
  · obtain ⟨h,l4Len,segSize,flags,-,-,-,rfl⟩ := hw.requested ho
    exact hw.kept_iff ho hflags (hword _ rfl)

def summing (csumOff : UInt16) : Offload := { flags := 1, csumStart := 34, csumOff := csumOff }

def sumBatch (csumOff : UInt16) : List (Desc × Option Offload) :=
    [(⟨0xc0,42,0⟩,some (summing csumOff))]

theorem checksum_kept_udp :
    ∃ t' r' batch x, workTx.prepare (holding (udpPacket 0)) (sumBatch 6) = some (t',r',batch) ∧
      txRead r' 0x40 = some x ∧ CsumKept (summing 6) x := by
  obtain ⟨t',r',batch,hp,hall⟩ := checksum_kept_iff true smallRegion (holding (udpPacket 0))
    workTxConfig workTx workTx rfl (by decide) rfl rfl (sumBatch 6)
  have hbuilt : (workTx.prepare (holding (udpPacket 0)) (sumBatch 6)).map
      (fun y => y.2.2.mbufs.length)=some 1 := by decide
  rw [hp,map_some,some_inj] at hbuilt
  obtain ⟨x,hx,hiff⟩ := hall [] ⟨0xc0,42,0⟩ (summing 6) [] rfl (by rw [hbuilt]; decide) (by simp)
  refine ⟨t',r',batch,x,hp,hx,hiff.mpr (.inr ⟨.inl ?_,_,udpPacket_form 0 (.inl rfl),by decide⟩)⟩
  rw [needsCsum]
  decide

/-- The request is accepted, and the NIC writes bytes 40 and 41 where the caller named 50
and 51. -/
theorem checksum_elsewhere :
    ∃ t' r' batch x, workTx.prepare (holding (udpPacket 0)) (sumBatch 16) = some (t',r',batch) ∧
      batch.mbufs = [0x10040] ∧ txRead r' 0x40 = some x ∧ csumField x = 40 ∧
      (summing 16).csumStart.toNat+(summing 16).csumOff.toNat = 50 ∧ ¬ CsumKept (summing 16) x := by
  refine ⟨_,_,_,_,rfl,by decide,rfl,by decide,by decide,fun hno => ?_⟩
  exact absurd (hno.field (by decide)) (by decide)

end Packetio.Dpdk

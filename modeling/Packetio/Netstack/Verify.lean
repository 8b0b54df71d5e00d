import Packetio.Netstack.Frame

/-! The checksums of a received packet (gso.go, checksumsValid; gvisor: header/ipv4.go,
header/tcp.go, header/udp.go): what is read, and what a packet that passes is. -/
namespace Packetio.Netstack
open Lib Option UInt16

def ipFlagsOffset : Nat := 6
def ipProtocolOffset : Nat := 9
def ipVersion4 : UInt8 := 4
def ipFlagMoreFragments : UInt8 := 1
def tcpDataOffset : Nat := 12
def udpProtocolNumber : UInt8 := 17
def udpMinimumSize : Nat := 8
def udpLengthOffset : Nat := 4
def udpChecksumOffset : Nat := 6

namespace IPv4Header
variable (ip : List UInt8)

def headerLength : Option Nat := do
  let v ← ip[0]?
  some ((v &&& 0xf)*4).toNat

def totalLength : Option Nat := do
  let v ← read16 ip ipTotalLenOffset
  some v.toNat

def flags : Option UInt8 := do
  let v ← read16 ip ipFlagsOffset
  some (v >>> 13).toUInt8

def fragmentOffset : Option UInt16 := do
  let v ← read16 ip ipFlagsOffset
  some (v <<< 3)

def isFragment : Option Bool := do
  let off ← fragmentOffset ip
  if off≠0 then some true
  else
    let flags ← flags ip
    some (flags &&& ipFlagMoreFragments != 0)

def sourceAddress : Option (List UInt8) := slice ip ipSrcOffset (ipSrcOffset+4)

def destinationAddress : Option (List UInt8) := slice ip ipDstOffset (ipDstOffset+4)

def isValid (pktSize : Nat) : Option Bool :=
  if ip.length < ipMinimumSize then some false
  else do
    let hlen ← headerLength ip
    let tlen ← totalLength ip
    if hlen < ipMinimumSize ∨ hlen > tlen ∨ tlen > pktSize then some false
    else
      let v : UInt8 ← ip[0]?
      some (v >>> 4 == ipVersion4)

def isChecksumValid : Option Bool := do
  let hlen ← headerLength ip
  let hdr ← slice ip 0 hlen
  some (checksum hdr 0 == 0xffff)

end IPv4Header

def dataOffset (tcp : List UInt8) : Option UInt8 := do
  let v ← tcp[tcpDataOffset]?
  some ((v >>> 4)*4)

def tcpIsChecksumValid (tcp src dst : List UInt8) (payloadChecksum payloadLength : UInt16) :
    Option Bool := do
  let off ← dataOffset tcp
  let xsum := pseudoHeaderChecksum tcpProtocolNumber src dst (off.toUInt16+payloadLength)
  let hdr ← slice tcp 0 off.toNat
  some (checksum hdr (combine xsum payloadChecksum) == 0xffff)

def udpIsChecksumValid (udp src dst : List UInt8) (payloadChecksum : UInt16) : Option Bool := do
  let length ← read16 udp udpLengthOffset
  let xsum := pseudoHeaderChecksum udpProtocolNumber dst src length
  let hdr ← slice udp 0 udpMinimumSize
  some (checksum hdr (combine xsum payloadChecksum) == 0xffff)

def udpValid (ip seg : List UInt8) : Option Bool :=
  if seg.length<udpMinimumSize then some false
  else do
    let sum ← read16 seg udpChecksumOffset
    if sum=0 then some true
    else
      let payload ← slice seg udpMinimumSize seg.length
      let src ← IPv4Header.sourceAddress ip
      let dst ← IPv4Header.destinationAddress ip
      udpIsChecksumValid seg src dst (checksum payload 0)

def tcpValid (ip seg : List UInt8) : Option Bool :=
  if seg.length<tcpMinimumSize then some false
  else do
    let off ← dataOffset seg
    if off.toNat<tcpMinimumSize ∨ off.toNat > seg.length then some false
    else
      let payload ← slice seg off.toNat seg.length
      let src ← IPv4Header.sourceAddress ip
      let dst ← IPv4Header.destinationAddress ip
      tcpIsChecksumValid seg src dst (checksum payload 0) (UInt16.ofNat payload.length)

def transportValid (b : List UInt8) (total : Nat) : Option Bool := do
  let fragment ← IPv4Header.isFragment b
  if fragment then some true
  else
    let ipLen ← IPv4Header.headerLength b
    let seg ← slice b ipLen total
    let protocol ← b[ipProtocolOffset]?
    if protocol=udpProtocolNumber then udpValid b seg
    else if protocol=tcpProtocolNumber then tcpValid b seg
    else some true

def checksumsValid (b : List UInt8) : Option Bool :=
  if b.length < ipMinimumSize then some false
  else do
    let valid ← IPv4Header.isValid b b.length
    if !valid then some false
    else
      let sum ← IPv4Header.isChecksumValid b
      if !sum then some false
      else
        let total ← IPv4Header.totalLength b
        if total > b.length then some false else transportValid b total

/-! What it accepts -/

def ipPayload (ip : List UInt8) : List UInt8 :=
  (ip.drop (ipHeaderLength ip)).take (ipTotalLength ip-ipHeaderLength ip)

def Fragment (ip : List UInt8) : Prop := (get16 ip ipFlagsOffset).toNat%2^14≠0

instance (ip : List UInt8) : Decidable (Fragment ip) :=
  inferInstanceAs (Decidable ((get16 ip ipFlagsOffset).toNat%2^14≠0))

def transportPseudo (ip : List UInt8) (protocol : UInt8) (len : Nat) : List UInt8 :=
  ipSourceAddress ip++(ipDestinationAddress ip++([0,protocol]++be16 (UInt16.ofNat len)))

def SumsUp (b : List UInt8) : Prop := ones (wordSum b)=65535

structure WellFormed (ip : List UInt8) : Prop where
  version : ip.getD 0 0 >>> 4=ipVersion4
  header : ipMinimumSize ≤ ipHeaderLength ip
  total : ipHeaderLength ip ≤ ipTotalLength ip
  inside : ipTotalLength ip ≤ ip.length

structure ValidTCP (ip : List UInt8) : Prop where
  min : tcpMinimumSize≤((ipPayload ip).getD tcpDataOffset 0 >>> 4).toNat*4
  max : ((ipPayload ip).getD tcpDataOffset 0 >>> 4).toNat*4≤(ipPayload ip).length
  sum : SumsUp (transportPseudo ip tcpProtocolNumber (ipPayload ip).length++ipPayload ip)

structure ValidUDP (ip : List UInt8) : Prop where
  min : udpMinimumSize≤(ipPayload ip).length
  sum : get16 (ipPayload ip) udpChecksumOffset≠0 → SumsUp (transportPseudo ip udpProtocolNumber
    (get16 (ipPayload ip) udpLengthOffset).toNat++ipPayload ip)

structure Verified (ip : List UInt8) : Prop extends WellFormed ip where
  sum : SumsUp (ip.take (ipHeaderLength ip))
  tcp : ¬ Fragment ip → ip.getD ipProtocolOffset 0=tcpProtocolNumber → ValidTCP ip
  udp : ¬ Fragment ip → ip.getD ipProtocolOffset 0=udpProtocolNumber → ValidUDP ip

/-! Reading a packet -/

section
variable {ip : List UInt8} (h : ipMinimumSize ≤ ip.length)
include h

theorem headerLength_some : IPv4Header.headerLength ip=some (ipHeaderLength ip) := by
  have h : 20 ≤ ip.length := h
  have hget : ip[0]? = some (ip.getD 0 0) := by
    rw [List.getD_eq_getElem?_getD,List.getElem?_eq_getElem (by omega),getD_some]
  rw [IPv4Header.headerLength,hget]
  rfl

theorem totalLength_some : IPv4Header.totalLength ip=some (ipTotalLength ip) := by
  have h : 20 ≤ ip.length := h
  rw [IPv4Header.totalLength,read16_some (by change 4≤_; omega)]
  rfl

theorem isFragment_some : IPv4Header.isFragment ip=some (decide (Fragment ip)) := by
  have h : 20 ≤ ip.length := h
  have hread : read16 ip ipFlagsOffset=some (get16 ip ipFlagsOffset) :=
    read16_some (by change 8≤_; omega)
  generalize hw : get16 ip ipFlagsOffset=v at hread
  have hoff : v <<< 3=0 ↔ v.toNat%2^13=0 := by
    rw [← UInt16.toNat_inj,UInt16.toNat_shiftLeft,Nat.shiftLeft_eq]
    change v.toNat*2^3%2^16=0 ↔ _
    omega
  have hmore : (v >>> 13).toUInt8 &&& ipFlagMoreFragments=0 ↔ v.toNat/2^13%2=0 := by
    rw [← UInt8.toNat_inj,UInt8.toNat_and,UInt16.toNat_toUInt8,UInt16.toNat_shiftRight,
      Nat.shiftRight_eq_div_pow]
    change (v.toNat/2^13%2^8) &&& 1=0 ↔ _
    rw [Nat.and_one_is_mod]
    omega
  have hfragment : Fragment ip ↔ v <<< 3≠0 ∨ (v >>> 13).toUInt8 &&& ipFlagMoreFragments≠0 := by
    rw [Fragment,hw,ne_eq,ne_eq,ne_eq,hoff,hmore]
    omega
  simp only [IPv4Header.isFragment,IPv4Header.fragmentOffset,IPv4Header.flags,hread,
    bind_eq_bind,bind_some,hfragment]
  split
  case isTrue hne => simp [hne]
  case isFalse hz => simp [not_not.mp hz,bne,beq_eq_decide]

theorem sourceAddress_some : IPv4Header.sourceAddress ip=some (ipSourceAddress ip) :=
  slice_some (by decide) (le_trans (by decide) h)

theorem destinationAddress_some : IPv4Header.destinationAddress ip=some (ipDestinationAddress ip) :=
  slice_some (by decide) h

theorem isValid_spec : ∃ v, IPv4Header.isValid ip ip.length=some v ∧ (v=true ↔ WellFormed ip) := by
  have hget : ip[0]? = some (ip.getD 0 0) := by
    have h : 20 ≤ ip.length := h
    rw [List.getD_eq_getElem?_getD,List.getElem?_eq_getElem (by omega),getD_some]
  rw [IPv4Header.isValid,if_neg (by omega),headerLength_some h,totalLength_some h,hget]
  simp only [bind_eq_bind,bind_some]
  split
  case isTrue hbad =>
    refine ⟨false,rfl,iff_of_false (by simp) fun hw => ?_⟩
    have hheader := hw.header
    have htotal := hw.total
    have hinside := hw.inside
    omega
  refine ⟨_,rfl,?_⟩
  rw [beq_iff_eq]
  constructor
  · intro hversion
    exact ⟨hversion,by omega,by omega,by omega⟩
  · intro hw
    exact hw.version

end

theorem sumsUp_iff (buf : List UInt8) : (checksum buf 0 == 0xffff)=true ↔ SumsUp buf := by
  rw [beq_iff_eq,← UInt16.toNat_inj,checksum_toNat,SumsUp]
  change ones (0+wordSum buf)=65535 ↔ _
  rw [zero_add]

theorem sumsUp_transport {ip seg : List UInt8} {protocol : UInt8} {len : UInt16} {off : Nat}
    {xsum : UInt16} (h : ipMinimumSize ≤ ip.length) (he : off%2=0) (hoff : off ≤ seg.length)
    (hx : xsum.toNat=ones (wordSum (ipSourceAddress ip)+wordSum (ipDestinationAddress ip)+
      len.toNat+protocol.toNat)) :
    (checksum (seg.take off) (combine xsum (checksum (seg.drop off) 0)) == 0xffff)=true ↔
      SumsUp (transportPseudo ip protocol len.toNat++seg) := by
  have hsrc : (ipSourceAddress ip).length=4 := by
    have h : 20 ≤ ip.length := h
    rw [ipSourceAddress,List.length_take,List.length_drop]
    change min 4 (ip.length-12)=4
    omega
  have hdst : (ipDestinationAddress ip).length=4 := by
    have h : 20 ≤ ip.length := h
    rw [ipDestinationAddress,List.length_take,List.length_drop]
    change min 4 (ip.length-16)=4
    omega
  have hseg : wordSum seg=wordSum (seg.take off)+wordSum (seg.drop off) := by
    rw [← wordSum_append _ (by rw [List.length_take, min_eq_left hoff]; exact he),
      List.take_append_drop]
  have hpseudo : wordSum (transportPseudo ip protocol len.toNat++seg) =
      wordSum (ipSourceAddress ip)+wordSum (ipDestinationAddress ip)+len.toNat+protocol.toNat+
        wordSum seg := by
    rw [transportPseudo,UInt16.ofNat_toNat,List.append_assoc,List.append_assoc,List.append_assoc,
      wordSum_append _ (by omega),wordSum_append _ (by omega),wordSum_append _ (by simp),
      wordSum_append _ (by simp [be16]),wordSum_be16]
    simp only [wordSum,UInt8.toNat_zero]
    omega
  rw [beq_iff_eq,← UInt16.toNat_inj,checksum_toNat,combine_toNat,checksum_toNat,hx,SumsUp,
    hpseudo,hseg]
  change ones (ones (ones _+ones (0+wordSum (seg.drop off)))+wordSum (seg.take off))=65535 ↔ _
  generalize wordSum (ipSourceAddress ip)+wordSum (ipDestinationAddress ip)+len.toNat+
    protocol.toNat=fixed
  rw [ones_add_ones,zero_add,add_assoc,ones_add_ones,add_comm fixed,add_assoc,ones_add_ones]
  have hsame : wordSum (seg.drop off)+(wordSum (seg.take off)+fixed) =
    fixed+(wordSum (seg.take off)+wordSum (seg.drop off)) := by omega
  rw [hsame]

theorem ipPayload_length_lt (ip : List UInt8) : (ipPayload ip).length<65536 := by
  have hlt : ipTotalLength ip<65536 := toNat_lt _
  rw [ipPayload,List.length_take]
  omega

section
variable {ip : List UInt8} (h : ipMinimumSize ≤ ip.length)
include h

theorem udpValid_spec : ∃ v, udpValid ip (ipPayload ip)=some v ∧ (v=true ↔ ValidUDP ip) := by
  rw [udpValid]
  split
  case isTrue hshort =>
    refine ⟨false,rfl,iff_of_false (by simp) fun hu => ?_⟩
    exact absurd hu.min (by omega)
  have hmin : udpMinimumSize=8 := rfl
  have hsum :
    read16 (ipPayload ip) udpChecksumOffset=some (get16 (ipPayload ip) udpChecksumOffset) :=
    read16_some (by change 8≤_; omega)
  have hlen : read16 (ipPayload ip) udpLengthOffset=some (get16 (ipPayload ip) udpLengthOffset) :=
    read16_some (by change 6≤_; omega)
  have hhdr : slice (ipPayload ip) 0 udpMinimumSize=some ((ipPayload ip).take udpMinimumSize) :=
    slice_some (Nat.zero_le _) (by omega)
  simp only [hsum,bind_eq_bind,bind_some]
  split
  case isTrue hzero => exact ⟨true,rfl,iff_of_true rfl ⟨by omega,fun hne => absurd hzero hne⟩⟩
  rename_i hne
  rw [slice_from (by omega),sourceAddress_some h,destinationAddress_some h]
  simp only [udpIsChecksumValid,hlen,hhdr,bind_eq_bind,bind_some]
  have hpseudo := pseudoHeaderChecksum_toNat udpProtocolNumber (ipDestinationAddress ip)
    (ipSourceAddress ip) (get16 (ipPayload ip) udpLengthOffset)
  rw [add_comm (wordSum (ipDestinationAddress ip))] at hpseudo
  have hle : udpMinimumSize≤(ipPayload ip).length := by omega
  refine ⟨_,rfl,(sumsUp_transport h (by decide) hle hpseudo).trans ⟨fun hup => ?_,fun hu => ?_⟩⟩
  · exact ⟨hle,fun _ => hup⟩
  · exact hu.sum hne

theorem tcpValid_spec : ∃ v, tcpValid ip (ipPayload ip)=some v ∧ (v=true ↔ ValidTCP ip) := by
  have hmin : tcpMinimumSize=20 := rfl
  have hword : ((ipPayload ip).getD tcpDataOffset 0 >>> 4).toNat<16 := by
    rw [UInt8.toNat_shiftRight,Nat.shiftRight_eq_div_pow]
    exact Nat.div_lt_of_lt_mul (UInt8.toNat_lt _)
  rw [tcpValid]
  split
  case isTrue hshort =>
    refine ⟨false,rfl,iff_of_false (by simp) fun ht => ?_⟩
    exact absurd (le_trans ht.min ht.max) (by omega)
  have hoff : dataOffset (ipPayload ip)=some (((ipPayload ip).getD tcpDataOffset 0 >>> 4)*4) := by
    have hlt : tcpDataOffset<(ipPayload ip).length := by
      change 12 < _
      omega
    rw [dataOffset,List.getD_eq_getElem?_getD,List.getElem?_eq_getElem hlt]
    rfl
  have hnat : (((ipPayload ip).getD tcpDataOffset 0 >>> 4)*4).toNat =
      ((ipPayload ip).getD tcpDataOffset 0 >>> 4).toNat*4 := by
    rw [UInt8.toNat_mul]
    exact Nat.mod_eq_of_lt (by change _*4<256; omega)
  simp only [tcpIsChecksumValid,hoff,bind_eq_bind,bind_some]
  generalize hfield : ((ipPayload ip).getD tcpDataOffset 0 >>> 4)*4=off at hnat
  split
  case isTrue hbad =>
    refine ⟨false,rfl,iff_of_false (by simp) fun ht => ?_⟩
    have := ht.min
    have := ht.max
    omega
  rw [slice_from (by omega),sourceAddress_some h,destinationAddress_some h,
    slice_some (Nat.zero_le _) (by omega)]
  have hle : off.toNat≤(ipPayload ip).length := by omega
  have hlen : (off.toUInt16+ofNat ((ipPayload ip).drop off.toNat).length).toNat =
      (ipPayload ip).length := by
    have hlt := ipPayload_length_lt ip
    rw [List.length_drop,UInt16.toNat_add,UInt8.toNat_toUInt16,UInt16.toNat_ofNat']
    omega
  have hpseudo := pseudoHeaderChecksum_toNat tcpProtocolNumber (ipSourceAddress ip)
    (ipDestinationAddress ip) (off.toUInt16+ofNat ((ipPayload ip).drop off.toNat).length)
  have hiff := sumsUp_transport h (by omega : off.toNat%2=0) hle hpseudo
  rw [hlen] at hiff
  refine ⟨_,rfl,hiff.trans ⟨fun hup => ?_,fun ht => ht.sum⟩⟩
  exact ⟨by omega,by omega,hup⟩

end

theorem transportValid_spec {b : List UInt8} (hw : WellFormed b)
    (hsum : SumsUp (b.take (ipHeaderLength b))) :
    ∃ v, transportValid b (ipTotalLength b)=some v ∧ (v=true ↔ Verified b) := by
  have h := hw.header.trans (hw.total.trans hw.inside)
  have hslice := slice_some hw.total hw.inside
  have hprotocol : b[ipProtocolOffset]? = some (b.getD ipProtocolOffset 0) := by
    have hlt : ipProtocolOffset<b.length := lt_of_lt_of_le (by decide) h
    rw [List.getD_eq_getElem?_getD,List.getElem?_eq_getElem hlt,getD_some]
  simp only [transportValid,isFragment_some h,headerLength_some h,hslice,hprotocol,bind_eq_bind,
    bind_some,decide_eq_true_eq]
  split
  case isTrue hfrag =>
    exact ⟨true,rfl,
      iff_of_true rfl ⟨hw,hsum,fun hnot => absurd hfrag hnot,fun hnot => absurd hfrag hnot⟩⟩
  rename_i hfrag
  split
  case isTrue hudp =>
    obtain ⟨v,hv,hiff⟩ := udpValid_spec h
    refine ⟨v,hv,hiff.trans ⟨fun hu => ?_,fun hv => hv.udp hfrag hudp⟩⟩
    exact ⟨hw,hsum,fun _ htcp => absurd (hudp.symm.trans htcp) (by decide),fun _ _ => hu⟩
  rename_i hudp
  split
  case isTrue htcp =>
    obtain ⟨v,hv,hiff⟩ := tcpValid_spec h
    refine ⟨v,hv,hiff.trans ⟨fun ht => ?_,fun hv => hv.tcp hfrag htcp⟩⟩
    exact ⟨hw,hsum,fun _ _ => ht,fun _ hp => absurd hp hudp⟩
  case isFalse htcp =>
    exact ⟨true,rfl,iff_of_true rfl
      ⟨hw,hsum,fun _ hp => absurd hp htcp,fun _ hp => absurd hp hudp⟩⟩

theorem checksumsValid_spec (b : List UInt8) :
    ∃ v, checksumsValid b=some v ∧ (v=true ↔ Verified b) := by
  rw [checksumsValid]
  split
  case isTrue hshort =>
    refine ⟨false,rfl,iff_of_false (by simp) fun hv => ?_⟩
    exact absurd (le_trans hv.header (le_trans hv.total hv.inside)) (by omega)
  rename_i hlong
  have h := not_lt.mp hlong
  obtain ⟨valid,hvalid,hwell⟩ := isValid_spec h
  rw [hvalid,bind_eq_bind,bind_some]
  split
  case isTrue hbad =>
    refine ⟨false,rfl,iff_of_false (by simp) fun hv => ?_⟩
    rw [hwell.mpr hv.toWellFormed] at hbad
    cases hbad
  rename_i hgood
  have hw := hwell.mp (by simpa using hgood)
  have hslice : slice b 0 (ipHeaderLength b)=some (b.take (ipHeaderLength b)) :=
    slice_some (Nat.zero_le _) (hw.total.trans hw.inside)
  have hvalid : IPv4Header.isChecksumValid b =
      some (checksum (b.take (ipHeaderLength b)) 0 == 0xffff) := by
    rw [IPv4Header.isChecksumValid,headerLength_some h,bind_eq_bind,bind_some,hslice]
    rfl
  have hsum := sumsUp_iff (b.take (ipHeaderLength b))
  rw [hvalid,bind_some]
  split
  case isTrue hbad =>
    refine ⟨false,rfl,iff_of_false (by simp) fun hv => ?_⟩
    rw [hsum.mpr hv.sum] at hbad
    cases hbad
  rename_i hgood
  rw [totalLength_some h,bind_eq_bind,bind_some,if_neg (not_lt.mpr hw.inside)]
  exact transportValid_spec hw (hsum.mp (by simpa using hgood))

end Packetio.Netstack

import Packetio.Netstack.Gso

/-! What segmentation has to put on the wire. The frames of a packet are described on their
own, with sums taken over all of their bytes, and the description is taken apart: lengths,
sequence numbers, flags, checksums, payload. -/
namespace Packetio.Netstack
open Lib List Nat

def internetChecksum (b : List UInt8) : UInt16 := UInt16.ofNat (65535-ones (wordSum b))

structure Splittable (p : PacketBuffer) : Prop where
  inside : p.headerOffset+p.headerSize≤p.bytes.length
  link : p.linkLen≤vlanHdrLen
  ipMin : ipMinimumSize≤p.networkLen
  ipMax : p.networkLen ≤ ipMaximumHeaderSize
  ihl : ipHeaderLength p.networkHeader=p.networkLen
  tcpMin : tcpMinimumSize≤p.transportLen
  tcpMax : p.transportLen≤tcpHeaderMaximumSize
  total : p.networkLen+p.transportLen+p.data.length≤65535
  segmented : p.gso.segmented=true
  mss : p.gso.mss≠0

def pseudoHeader (ip : List UInt8) (len : Nat) : List UInt8 :=
  ipSourceAddress ip++ipDestinationAddress ip++([0,tcpProtocolNumber]++be16 (UInt16.ofNat len))

namespace PacketBuffer
variable (p : PacketBuffer) (i : Nat)

def chunk : List UInt8 := (p.data.drop (i*p.gso.mss.toNat)).take p.gso.mss.toNat

/-- The IPv4 header of segment `i` with its checksum not yet in it. -/
def ipBlank : List UInt8 :=
  let total := UInt16.ofNat (p.networkLen+p.transportLen+(p.chunk i).length)
  patch (patch p.networkHeader ipTotalLenOffset (be16 total)) ipChecksumOffset [0,0]

def segmentFlags : UInt8 :=
  let flags := p.transportHeader.getD tcpFlagsOffset 0
  if i+1=segments p then flags else flags &&& ~~~(tcpFlagPsh ||| tcpFlagFin)

def tcpBlank : List UInt8 :=
  let seq := get32 p.transportHeader tcpSeqOffset+UInt32.ofNat (i*p.gso.mss.toNat)
  let tcp := patch p.transportHeader tcpSeqOffset (be32 seq)
  patch (patch tcp tcpFlagsOffset [p.segmentFlags i]) tcpChecksumOffset [0,0]

def ipSegment : List UInt8 :=
  patch (p.ipBlank i) ipChecksumOffset (be16 (internetChecksum (p.ipBlank i)))

def tcpSegment : List UInt8 :=
  let sum := internetChecksum
    (pseudoHeader p.networkHeader (p.transportLen+(p.chunk i).length)++(p.tcpBlank i++p.chunk i))
  patch (p.tcpBlank i) tcpChecksumOffset (be16 sum)

def wireFrame : List UInt8 :=
  let frame := p.linkHeader++(p.ipSegment i++(p.tcpSegment i++p.chunk i))
  frame++List.replicate (minFrameLen-frame.length) 0

end PacketBuffer

/-! Lengths -/

theorem PacketBuffer.lengths {p : PacketBuffer} (h : p.headerOffset+p.headerSize≤p.bytes.length) :
    p.linkHeader.length=p.linkLen ∧ p.networkHeader.length=p.networkLen ∧
      p.transportHeader.length=p.transportLen := by
  simp only [headerSize] at h
  simp only [linkHeader,networkHeader,transportHeader,length_take,length_drop]
  omega

namespace Splittable
variable {p : PacketBuffer} (h : Splittable p)
include h

theorem link_length : p.linkHeader.length=p.linkLen := (PacketBuffer.lengths h.inside).1

theorem ip_length : p.networkHeader.length=p.networkLen := (PacketBuffer.lengths h.inside).2.1

theorem tcp_length : p.transportHeader.length=p.transportLen := (PacketBuffer.lengths h.inside).2.2

/-- What ends in the first 20 bytes of a header is inside of it. -/
theorem ip_room {b : List UInt8} {n : Nat} (hb : b.length=p.networkLen) (hn : n.ble 20=true) :
    n≤b.length := hb ▸ (Nat.le_of_ble_eq_true hn).trans h.ipMin

theorem tcp_room {b : List UInt8} {n : Nat} (hb : b.length=p.transportLen) (hn : n.ble 20=true) :
    n≤b.length := hb ▸ (Nat.le_of_ble_eq_true hn).trans h.tcpMin

theorem mss_pos : 0<p.gso.mss.toNat := by
  have hne := h.mss
  rw [pos_iff_ne_zero]
  exact fun h0 => hne (UInt16.toNat_inj.mp h0)

theorem segments_eq : segments p=max 1 ((p.data.length+p.gso.mss.toNat-1)/p.gso.mss.toNat) := by
  have hpos := h.mss_pos
  have hne := beq_false_of_ne h.mss
  simp only [segments,h.segmented,hne,Bool.not_true,Bool.or_self,Bool.false_eq_true,if_false]
  split
  case isTrue hle =>
    have hdiv : (p.data.length+p.gso.mss.toNat-1)/p.gso.mss.toNat≤1 := by
      refine Nat.le_of_lt_succ (Nat.div_lt_of_lt_mul ?_)
      omega
    omega
  case isFalse hgt =>
    have hdiv : 1≤(p.data.length+p.gso.mss.toNat-1)/p.gso.mss.toNat :=
      (Nat.one_le_div_iff hpos).mpr (by omega)
    omega

theorem covered : p.data.length ≤ segments p*p.gso.mss.toNat := by
  have hpos := h.mss_pos
  have hdiv := div_add_mod (p.data.length+p.gso.mss.toNat-1) p.gso.mss.toNat
  have hmod := mod_lt (p.data.length+p.gso.mss.toNat-1) hpos
  refine le_trans ?_ (mul_le_mul_right _ (h.segments_eq ▸ le_max_right 1 _))
  rw [mul_comm]
  omega

theorem full {i : Nat} (hi : i+1<segments p) : (i+1)*p.gso.mss.toNat≤p.data.length := by
  rw [h.segments_eq] at hi
  have hq : i+2≤(p.data.length+p.gso.mss.toNat-1)/p.gso.mss.toNat := by omega
  have hmul := Nat.mul_le_of_le_div _ _ _ hq
  rw [add_mul] at hmul ⊢
  omega

theorem ipLen_length (v : List UInt8) (hv : v.length=2) :
    (patch p.networkHeader ipTotalLenOffset v).length=p.networkLen := by
  have hip := h.ip_length
  have hmin : 20≤p.networkLen := h.ipMin
  rw [patch_length (by rw [hv, hip]; change 4≤_; omega),hip]

theorem ipBlank_length (i : Nat) : (p.ipBlank i).length=p.networkLen := by
  rw [PacketBuffer.ipBlank,patch_length (h.ip_room (h.ipLen_length _ rfl) (by rfl)),
    h.ipLen_length _ rfl]

theorem ipSegment_length (i : Nat) : (p.ipSegment i).length=p.networkLen := by
  have hblank := h.ipBlank_length i
  rw [PacketBuffer.ipSegment,patch_length (h.ip_room hblank (by rfl)),hblank]

theorem tcpSeq_length (v : UInt32) :
    (patch p.transportHeader tcpSeqOffset (be32 v)).length=p.transportLen := by
  have htcp := h.tcp_length
  rw [patch_length (h.tcp_room htcp (by rfl)),htcp]

theorem tcpFlags_length (v : UInt32) (flags : UInt8) :
    (patch (patch p.transportHeader tcpSeqOffset (be32 v)) tcpFlagsOffset [flags]).length =
      p.transportLen := by
  have hseq := h.tcpSeq_length v
  rw [patch_length (h.tcp_room hseq (by rfl)),hseq]

theorem tcpBlank_length (i : Nat) : (p.tcpBlank i).length=p.transportLen := by
  rw [PacketBuffer.tcpBlank,patch_length (h.tcp_room (h.tcpFlags_length _ _) (by rfl)),
    h.tcpFlags_length]

theorem tcpSegment_length (i : Nat) : (p.tcpSegment i).length=p.transportLen := by
  have hblank := h.tcpBlank_length i
  rw [PacketBuffer.tcpSegment,patch_length (h.tcp_room hblank (by rfl)),hblank]

end Splittable

theorem PacketBuffer.chunk_length (p : PacketBuffer) (i : Nat) :
    (p.chunk i).length=min p.gso.mss.toNat (p.data.length-i*p.gso.mss.toNat) := by
  rw [chunk,length_take,length_drop]

/-! What the description says -/

namespace PacketBuffer
variable (p : PacketBuffer)

def payloadOf (frame : List UInt8) : List UInt8 :=
  (frame.drop p.headerSize).take
    (ipTotalLength (frame.drop p.linkLen)-(p.networkLen+p.transportLen))

def ipOf (frame : List UInt8) : List UInt8 := (frame.drop p.linkLen).take p.networkLen

def tcpOf (frame : List UInt8) : List UInt8 :=
  (frame.drop (p.linkLen+p.networkLen)).take
    (ipTotalLength (frame.drop p.linkLen)-p.networkLen)

def Rewritten (j : Nat) : Prop :=
  let ip := p.linkLen
  let tcp := p.linkLen+p.networkLen
  ip+ipTotalLenOffset≤j ∧ j < ip+ipTotalLenOffset+2 ∨
    ip+ipChecksumOffset≤j ∧ j < ip+ipChecksumOffset+2 ∨
    tcp+tcpSeqOffset≤j ∧ j<tcp+tcpSeqOffset+4 ∨ j=tcp+tcpFlagsOffset ∨
    tcp+tcpChecksumOffset≤j ∧ j<tcp+tcpChecksumOffset+2

end PacketBuffer

structure IsSegment (p : PacketBuffer) (i : Nat) (last : Bool) (frame : List UInt8) : Prop where
  full : last=false → (p.payloadOf frame).length=p.gso.mss.toNat
  seq : get32 frame (p.linkLen+p.networkLen+tcpSeqOffset) =
    get32 p.transportHeader tcpSeqOffset+UInt32.ofNat (i*p.gso.mss.toNat)
  flags : frame.getD (p.linkLen+p.networkLen+tcpFlagsOffset) 0 =
    if last then p.transportHeader.getD tcpFlagsOffset 0
    else p.transportHeader.getD tcpFlagsOffset 0 &&& ~~~(tcpFlagPsh ||| tcpFlagFin)
  same : ∀ j, j<p.headerSize → ¬ p.Rewritten j →
    frame.getD j 0=p.bytes.getD (p.headerOffset+j) 0
  total : ipTotalLength (frame.drop p.linkLen) =
    p.networkLen+p.transportLen+(p.payloadOf frame).length
  ipSum : get16 (p.ipOf frame) ipChecksumOffset =
    internetChecksum (patch (p.ipOf frame) ipChecksumOffset [0,0])
  tcpSum : get16 (p.tcpOf frame) tcpChecksumOffset =
    internetChecksum (pseudoHeader (p.ipOf frame) (p.tcpOf frame).length++
      patch (p.tcpOf frame) tcpChecksumOffset [0,0])
  length : frame.length=max minFrameLen (p.linkLen+ipTotalLength (frame.drop p.linkLen))
  padded : frame.drop (p.linkLen+ipTotalLength (frame.drop p.linkLen)) =
    List.replicate (minFrameLen-(p.linkLen+ipTotalLength (frame.drop p.linkLen))) 0

namespace Splittable
variable {p : PacketBuffer} (h : Splittable p) (i : Nat)
include h

theorem ipSegment_total : ipTotalLength (p.ipSegment i) =
    p.networkLen+p.transportLen+(p.chunk i).length := by
  have hip := h.ip_length
  have hblank := h.ipBlank_length i
  have htotal := h.total
  have hchunk := p.chunk_length i
  rw [ipTotalLength,PacketBuffer.ipSegment,
    get16_patch_outside (h.ip_room hblank (by rfl)) (.inl (by decide)),
    PacketBuffer.ipBlank,get16_patch_outside (h.ip_room (h.ipLen_length _ rfl) (by rfl))
    (.inl (by decide)),get16_patch _ (h.ip_room hip (by rfl)),
    UInt16.toNat_ofNat_of_lt' (by change _<65536; omega)]

theorem wireFrame_eq : p.wireFrame i=p.linkHeader++(p.ipSegment i++(p.tcpSegment i++(p.chunk i++
    List.replicate (minFrameLen-(p.headerSize+(p.chunk i).length)) 0))) := by
  have hlen : (p.linkHeader++(p.ipSegment i++(p.tcpSegment i++p.chunk i))).length =
      p.headerSize+(p.chunk i).length := by
    simp only [length_append,h.link_length,h.ipSegment_length,h.tcpSegment_length,
      PacketBuffer.headerSize]
    omega
  rw [PacketBuffer.wireFrame,hlen]
  simp

theorem wire_ip : (p.wireFrame i).drop p.linkLen=p.ipSegment i++(p.tcpSegment i++(p.chunk i++
    List.replicate (minFrameLen-(p.headerSize+(p.chunk i).length)) 0)) := by
  rw [h.wireFrame_eq]
  exact drop_left' h.link_length

theorem wire_tcp : (p.wireFrame i).drop (p.linkLen+p.networkLen)=p.tcpSegment i++(p.chunk i++
      List.replicate (minFrameLen-(p.headerSize+(p.chunk i).length)) 0) := by
  rw [← drop_drop,h.wire_ip]
  exact drop_left' (h.ipSegment_length i)

theorem wire_data : (p.wireFrame i).drop p.headerSize=p.chunk i++
    List.replicate (minFrameLen-(p.headerSize+(p.chunk i).length)) 0 := by
  rw [PacketBuffer.headerSize,← drop_drop,h.wire_tcp]
  exact drop_left' (h.tcpSegment_length i)

theorem wire_total : ipTotalLength ((p.wireFrame i).drop p.linkLen) =
    p.networkLen+p.transportLen+(p.chunk i).length := by
  rw [← h.ipSegment_total,h.wire_ip,ipTotalLength,
    get16_front (h.ip_room (h.ipSegment_length i) (by rfl))]
  rfl

theorem wire_payload : p.payloadOf (p.wireFrame i)=p.chunk i := by
  rw [PacketBuffer.payloadOf,h.wire_total,h.wire_data,Nat.add_sub_cancel_left]
  exact take_left

theorem wire_ipOf : p.ipOf (p.wireFrame i)=p.ipSegment i := by
  rw [PacketBuffer.ipOf,h.wire_ip]
  exact take_left' (h.ipSegment_length i)

theorem wire_tcpOf : p.tcpOf (p.wireFrame i)=p.tcpSegment i++p.chunk i := by
  rw [PacketBuffer.tcpOf,h.wire_total,h.wire_tcp,← append_assoc]
  refine take_left' ?_
  rw [length_append,h.tcpSegment_length]
  omega

theorem wire_seq : get32 (p.wireFrame i) (p.linkLen+p.networkLen+tcpSeqOffset) =
    get32 p.transportHeader tcpSeqOffset+UInt32.ofNat (i*p.gso.mss.toNat) := by
  have hfront : (p.linkHeader++p.ipSegment i).length=p.linkLen+p.networkLen := by
    rw [length_append,h.link_length,h.ipSegment_length]
  rw [h.wireFrame_eq,← append_assoc,
    get32_part hfront (h.tcp_room (h.tcpSegment_length i) (by rfl)),PacketBuffer.tcpSegment,
    get32_patch_outside (h.tcp_room (h.tcpBlank_length i) (by rfl)) (.inl (by decide)),
    PacketBuffer.tcpBlank,
    get32_patch_outside (h.tcp_room (h.tcpFlags_length _ _) (by rfl)) (.inl (by decide)),
    get32_patch_outside (h.tcp_room (h.tcpSeq_length _) (by rfl)) (.inl (by decide)),
    get32_patch _ (h.tcp_room h.tcp_length (by rfl))]

theorem wire_getD {j : Nat} (hj : j<p.headerSize) : (p.wireFrame i).getD j 0 =
    if j<p.linkLen then p.linkHeader.getD j 0
    else if j<p.linkLen+p.networkLen then (p.ipSegment i).getD (j-p.linkLen) 0
    else (p.tcpSegment i).getD (j-(p.linkLen+p.networkLen)) 0 := by
  have hlink := h.link_length
  have hip := h.ipSegment_length i
  have htcp := h.tcpSegment_length i
  have hsize : p.headerSize=p.linkLen+p.networkLen+p.transportLen := rfl
  rw [h.wireFrame_eq]
  split
  case isTrue hl => exact getD_append _ _ _ _ (by omega)
  rename_i hl
  rw [getD_append_right _ _ _ _ (by omega),hlink]
  split
  case isTrue hi => exact getD_append _ _ _ _ (by omega)
  rename_i hi
  rw [getD_append_right _ _ _ _ (by omega),hip,Nat.sub_sub]
  exact getD_append _ _ _ _ (by omega)

theorem wire_flags : (p.wireFrame i).getD (p.linkLen+p.networkLen+tcpFlagsOffset) 0 =
    p.segmentFlags i := by
  have hmin : 20≤p.transportLen := h.tcpMin
  have hj : p.linkLen+p.networkLen+tcpFlagsOffset<p.headerSize := by
    change _+13<p.linkLen+p.networkLen+p.transportLen
    omega
  rw [h.wire_getD i hj,if_neg (by omega),if_neg (by omega),Nat.add_sub_cancel_left,
    PacketBuffer.tcpSegment,
    getD_patch_outside (h.tcp_room (h.tcpBlank_length i) (by rfl)) (.inl (by decide)),
    PacketBuffer.tcpBlank,
    getD_patch_outside (h.tcp_room (h.tcpFlags_length _ _) (by rfl)) (.inl (by decide))]
  exact getD_patch [p.segmentFlags i] 0 (h.tcp_room (h.tcpSeq_length _) (by rfl)) one_pos

theorem wire_same {j : Nat} (hj : j<p.headerSize) (hout : ¬ p.Rewritten j) :
    (p.wireFrame i).getD j 0=p.bytes.getD (p.headerOffset+j) 0 := by
  have hip := h.ip_length
  have htcp := h.tcp_length
  have hsize : p.headerSize=p.linkLen+p.networkLen+p.transportLen := rfl
  simp only [PacketBuffer.Rewritten,ipTotalLenOffset,ipChecksumOffset,tcpSeqOffset,
    tcpFlagsOffset,tcpChecksumOffset,not_or,not_and,not_lt] at hout
  rw [h.wire_getD i hj]
  split
  case isTrue hl => exact getD_part _ _ hl
  rename_i hl
  split
  case isTrue hi =>
    have hpart : p.networkHeader.getD (j-p.linkLen) 0=p.bytes.getD (p.headerOffset+j) 0 := by
      rw [PacketBuffer.networkHeader,getD_part _ _ (by omega)]
      congr 1
      omega
    rw [PacketBuffer.ipSegment,getD_patch_outside (h.ip_room (h.ipBlank_length i) (by rfl))
      (by change _<10 ∨ 12≤_; omega),PacketBuffer.ipBlank,
      getD_patch_outside (h.ip_room (h.ipLen_length _ rfl) (by rfl))
        (by change _<10 ∨ 12≤_; omega),
      getD_patch_outside (h.ip_room hip (by rfl)) (by change _<2 ∨ 4≤_; omega),hpart]
  rename_i hi
  have hpart : p.transportHeader.getD (j-(p.linkLen+p.networkLen)) 0 =
      p.bytes.getD (p.headerOffset+j) 0 := by
    rw [PacketBuffer.transportHeader,getD_part _ _ (by omega)]
    congr 1
    omega
  rw [PacketBuffer.tcpSegment,getD_patch_outside (h.tcp_room (h.tcpBlank_length i) (by rfl))
    (by change _<16 ∨ 18≤_; omega),PacketBuffer.tcpBlank,
    getD_patch_outside (h.tcp_room (h.tcpFlags_length _ _) (by rfl))
    (by change _<16 ∨ 18≤_; omega),
    getD_patch_outside (h.tcp_room (h.tcpSeq_length _) (by rfl))
    (by change _<13 ∨ 14≤_; omega),
    getD_patch_outside (h.tcp_room htcp (by rfl)) (by change _<4 ∨ 8≤_; omega),hpart]

theorem ipSegment_sum : get16 (p.ipSegment i) ipChecksumOffset =
    internetChecksum (patch (p.ipSegment i) ipChecksumOffset [0,0]) := by
  have hback : patch (p.ipSegment i) ipChecksumOffset [0,0]=p.ipBlank i :=
    patch_back (h.ip_room (h.ipLen_length _ rfl) (by rfl)) rfl
  rw [hback,PacketBuffer.ipSegment,get16_patch _ (h.ip_room (h.ipBlank_length i) (by rfl))]

theorem pseudoHeader_segment (len : Nat) :
    pseudoHeader (p.ipSegment i) len=pseudoHeader p.networkHeader len := by
  have hip := h.ip_length
  have hdrop (k : Nat) (hk : 12≤k) : (p.ipSegment i).drop k=p.networkHeader.drop k := by
    rw [PacketBuffer.ipSegment,patch_drop (h.ip_room (h.ipBlank_length i) (by rfl)) hk,
      PacketBuffer.ipBlank,patch_drop (h.ip_room (h.ipLen_length _ rfl) (by rfl)) hk,
      patch_drop (h.ip_room hip (by rfl)) (by change 4≤k; omega)]
  rw [pseudoHeader,pseudoHeader,ipSourceAddress,ipDestinationAddress,hdrop _ (by decide),
    hdrop _ (by decide)]
  rfl

theorem tcpSegment_sum : get16 (p.tcpSegment i++p.chunk i) tcpChecksumOffset =
    internetChecksum (pseudoHeader (p.ipSegment i) (p.tcpSegment i++p.chunk i).length++
      patch (p.tcpSegment i++p.chunk i) tcpChecksumOffset [0,0]) := by
  have hback : patch (p.tcpSegment i) tcpChecksumOffset [0,0]=p.tcpBlank i :=
    patch_back (h.tcp_room (h.tcpFlags_length _ _) (by rfl)) rfl
  rw [patch_append (h.tcp_room (h.tcpSegment_length i) (by rfl)),hback,
    h.pseudoHeader_segment,length_append,h.tcpSegment_length,
    get16_front (h.tcp_room (h.tcpSegment_length i) (by rfl)),PacketBuffer.tcpSegment,
    get16_patch _ (h.tcp_room (h.tcpBlank_length i) (by rfl))]

theorem wire_isSegment {i : Nat} (hi : i<segments p) :
    IsSegment p i (i+1 == segments p) (p.wireFrame i) := by
  constructor
  case full =>
    intro hlast
    have hne : i+1≠segments p := by simpa using hlast
    have hfull := h.full (by omega : i+1<segments p)
    rw [h.wire_payload,p.chunk_length]
    rw [add_mul] at hfull
    omega
  case seq => exact h.wire_seq i
  case flags =>
    rw [h.wire_flags,PacketBuffer.segmentFlags]
    simp
  case same => exact fun j hj hout => h.wire_same i hj hout
  case total => rw [h.wire_total,h.wire_payload]
  case ipSum =>
    rw [h.wire_ipOf]
    exact h.ipSegment_sum i
  case tcpSum =>
    rw [h.wire_tcpOf,h.wire_ipOf]
    exact h.tcpSegment_sum i
  case length =>
    rw [h.wire_total,h.wireFrame_eq]
    simp only [length_append,length_replicate,h.link_length,h.ipSegment_length,
      h.tcpSegment_length,PacketBuffer.headerSize]
    omega
  case padded =>
    have hall : p.linkLen+(p.networkLen+p.transportLen+(p.chunk i).length) =
        p.headerSize+(p.chunk i).length := by
      rw [PacketBuffer.headerSize]
      omega
    rw [h.wire_total,hall,← drop_drop,h.wire_data]
    exact drop_left

omit h in
theorem chunks_flatten (n : Nat) :
    ((List.range n).map p.chunk).flatten=p.data.take (n*p.gso.mss.toNat) := by
  induction n with
  | zero => simp
  | succ n ih =>
    rw [range_succ,map_append,flatten_append,ih,add_mul,one_mul,take_add]
    simp [PacketBuffer.chunk]

end Splittable

structure Exact (p : PacketBuffer) (sent : List (List UInt8)) : Prop where
  count : sent.length=segments p
  payload : (sent.map p.payloadOf).flatten=p.data
  each : ∀ i frame, sent[i]? = some frame → IsSegment p i (i+1 == segments p) frame

end Packetio.Netstack

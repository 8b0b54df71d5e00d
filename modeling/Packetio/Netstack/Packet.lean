import Packetio.Netstack.Checksum
import Packetio.Lib.Patch
import Mathlib.Data.List.GetD

/-! Packets as the TCP/IP stack hands them to an endpoint, and the fields and sums of their
headers that the endpoint works with (gvisor: stack/packet_buffer.go, header/ipv4.go,
header/tcp.go, header/checksum.go). -/
namespace Packetio.Netstack
open Lib List

/-! Bytes -/

def be16 (v : UInt16) : List UInt8 := [(v >>> 8).toUInt8,v.toUInt8]

def be32 (v : UInt32) : List UInt8 :=
  [(v >>> 24).toUInt8,(v >>> 16).toUInt8,(v >>> 8).toUInt8,v.toUInt8]

/-- The byte at `i`. -/
def byteAt (b : List UInt8) (i : Nat) : Nat := (b.getD i 0).toNat

def get16 (b : List UInt8) (off : Nat) : UInt16 :=
  UInt16.ofNat (byteAt b off*2^8+byteAt b (off+1))

def get32 (b : List UInt8) (off : Nat) : UInt32 :=
  UInt32.ofNat (byteAt b off*2^24+byteAt b (off+1)*2^16+byteAt b (off+2)*2^8+byteAt b (off+3))

/-- Bytes stored at `off`. `none` is the panic of an index out of range. -/
def put (b : List UInt8) (off : Nat) (xs : List UInt8) : Option (List UInt8) :=
  if off+xs.length≤b.length then some (patch b off xs) else none

/-! Checksums -/

/-- The machine and the address do not matter: `calculateChecksum_eq`. -/
def checksum (buf : List UInt8) (initial : UInt16) : UInt16 :=
  (calculateChecksum .little 0 buf false initial).1

def combine (a b : UInt16) : UInt16 :=
  let v := a.toUInt32+b.toUInt32
  (v+v >>> 16).toUInt16

def pseudoHeaderChecksum (protocol : UInt8) (srcAddr dstAddr : List UInt8) (totalLen : UInt16) :
    UInt16 :=
  let xsum := checksum srcAddr 0
  let xsum := checksum dstAddr xsum
  let xsum := checksum (be16 totalLen) xsum
  checksum [0,protocol] xsum

/-! Header fields -/

def ipTotalLenOffset : Nat := 2
def ipChecksumOffset : Nat := 10
def ipSrcOffset : Nat := 12
def ipDstOffset : Nat := 16
def ipMinimumSize : Nat := 20
def ipMaximumHeaderSize : Nat := 60
def tcpSeqOffset : Nat := 4
def tcpFlagsOffset : Nat := 13
def tcpChecksumOffset : Nat := 16
def tcpMinimumSize : Nat := 20
def tcpHeaderMaximumSize : Nat := 60
def tcpProtocolNumber : UInt8 := 6
def tcpFlagFin : UInt8 := 1
def tcpFlagPsh : UInt8 := 8

def ipHeaderLength (ip : List UInt8) : Nat := ((ip.getD 0 0 &&& 0xf)*4).toNat

def ipTotalLength (ip : List UInt8) : Nat := (get16 ip ipTotalLenOffset).toNat

def ipSourceAddress (ip : List UInt8) : List UInt8 := (ip.drop ipSrcOffset).take 4

def ipDestinationAddress (ip : List UInt8) : List UInt8 := (ip.drop ipDstOffset).take 4

/-! Packets -/

structure GSO where
  /-- The type is not `GSONone`. -/
  segmented : Bool
  mss : UInt16
  needsCsum : Bool
  deriving DecidableEq, Repr

structure PacketBuffer where
  views : List (List UInt8)
  headerOffset : Nat
  linkLen : Nat
  networkLen : Nat
  transportLen : Nat
  gso : GSO
  isIPv4 : Bool
  isTCP : Bool
  deriving DecidableEq, Repr

namespace PacketBuffer
variable (p : PacketBuffer)

def bytes : List UInt8 := p.views.flatten

def headerSize : Nat := p.linkLen+p.networkLen+p.transportLen

def linkHeader : List UInt8 := (p.bytes.drop p.headerOffset).take p.linkLen

def networkHeader : List UInt8 := (p.bytes.drop (p.headerOffset+p.linkLen)).take p.networkLen

def transportHeader : List UInt8 :=
  (p.bytes.drop (p.headerOffset+p.linkLen+p.networkLen)).take p.transportLen

def data : List UInt8 := p.bytes.drop (p.headerOffset+p.headerSize)

end PacketBuffer

/-! What the sums are -/

theorem checksum_toNat (buf : List UInt8) (initial : UInt16) :
    (checksum buf initial).toNat=ones (initial.toNat+wordSum buf) :=
  calculateChecksum_eq .little 0 buf false initial

theorem combine_toNat (a b : UInt16) : (combine a b).toNat=ones (a.toNat+b.toNat) := by
  have ha := a.toNat_lt
  have hb := b.toNat_lt
  have hv : (a.toUInt32+b.toUInt32).toNat=a.toNat+b.toNat := by
    rw [UInt32.toNat_add,UInt16.toNat_toUInt32,UInt16.toNat_toUInt32,Nat.mod_eq_of_lt (by omega)]
  have hshift : ((a.toUInt32+b.toUInt32) >>> 16).toNat=(a.toNat+b.toNat)/2^16 := by
    rw [UInt32.toNat_shiftRight,hv,Nat.shiftRight_eq_div_pow]
    rfl
  rw [combine,UInt32.toNat_toUInt16,UInt32.toNat_add,hv,hshift,← ones_halves16,
    ones_of_le (by omega)]
  omega

theorem wordSum_be16 (v : UInt16) : wordSum (be16 v)=v.toNat := by
  rw [be16,wordSum,wordSum,halves_toNat,add_zero]

theorem pseudoHeaderChecksum_toNat (protocol : UInt8) (src dst : List UInt8) (len : UInt16) :
    (pseudoHeaderChecksum protocol src dst len).toNat =
      ones (wordSum src+wordSum dst+len.toNat+protocol.toNat) := by
  simp only [pseudoHeaderChecksum,checksum_toNat,wordSum_be16,ones_add_ones]
  congr 1
  simp only [wordSum,UInt16.toNat_zero,UInt8.toNat_zero]
  omega

variable {b xs : List UInt8} {off i : Nat}

theorem wordSum_patch (v : UInt16) (h : off+2≤b.length)
    (he : off%2=0) : wordSum (patch b off (be16 v))=wordSum (patch b off [0,0])+v.toNat := by
  have htake : (b.take off).length%2=0 := by
    rw [length_take]
    omega
  have hsplit (x y : UInt8) : wordSum (patch b off [x,y]) =
      wordSum (b.take off)+(x.toNat*256+y.toNat+wordSum (b.drop (off+2))) := by
    rw [patch,append_assoc,wordSum_append _ htake]
    rfl
  have hword := wordSum_be16 v
  rw [be16,wordSum,wordSum] at hword
  rw [be16,hsplit,hsplit]
  simp only [UInt8.toNat_zero]
  omega

/-! Fields read back -/

theorem put_fits (h : off+xs.length≤b.length) : put b off xs=some (patch b off xs) := if_pos h

section
variable (xs : List UInt8) (i : Nat) (h : off+xs.length≤b.length) (hi : i<xs.length)
include h hi

theorem getD_patch : (patch b off xs).getD (off+i) 0=xs.getD i 0 := by
  rw [getD_eq_getElem?_getD,patch_inside h hi,getD_eq_getElem?_getD]

theorem byteAt_patch : byteAt (patch b off xs) (off+i)=byteAt xs i := by
  rw [byteAt,byteAt,getD_patch xs i h hi]

end

theorem getD_part (b : List UInt8) (k : Nat) {n j : Nat} (h : j<n) :
    ((b.drop k).take n).getD j 0=b.getD (k+j) 0 := by
  rw [getD_eq_getElem?_getD,getElem?_take_of_lt h,getElem?_drop,getD_eq_getElem?_getD]

section
variable (h : off+xs.length≤b.length) (hi : i<off ∨ off+xs.length ≤ i)
include h hi

theorem getD_patch_outside : (patch b off xs).getD i 0=b.getD i 0 := by
  rw [getD_eq_getElem?_getD,patch_outside h hi,getD_eq_getElem?_getD]

theorem byteAt_patch_outside : byteAt (patch b off xs) i=byteAt b i := by
  rw [byteAt,byteAt,getD_patch_outside h hi]

end

theorem get16_patch (v : UInt16) (h : off+2≤b.length) : get16 (patch b off (be16 v)) off=v := by
  have hsum : byteAt (be16 v) 0*2^8+byteAt (be16 v) 1=v.toNat := by
    rw [← wordSum_be16 v]
    simp [be16,wordSum,byteAt]
  have hhi := byteAt_patch (be16 v) 0 h Nat.two_pos
  have hlo := byteAt_patch (be16 v) 1 h Nat.one_lt_two
  rw [add_zero] at hhi
  rw [get16,hhi,hlo,hsum,UInt16.ofNat_toNat]

theorem get16_patch_outside (h : off+xs.length≤b.length)
    (hi : i+2≤off ∨ off+xs.length ≤ i) : get16 (patch b off xs) i=get16 b i := by
  rw [get16,byteAt_patch_outside h (by omega),byteAt_patch_outside h (by omega),get16]

theorem get16_front {a : List UInt8} (h : i+2≤a.length) : get16 (a++b) i=get16 a i := by
  rw [get16,byteAt,byteAt,getD_append _ _ _ _ (by omega),getD_append _ _ _ _ (by omega)]
  rfl

theorem get32_part {a c : List UInt8} {k : Nat} (ha : a.length=k) (h : i+4≤b.length) :
    get32 (a++(b++c)) (k+i)=get32 b i := by
  have hbyte (j : Nat) (hj : j<b.length) : byteAt (a++(b++c)) (k+j)=byteAt b j := by
    rw [byteAt,getD_append_right _ _ _ _ (by omega),ha,Nat.add_sub_cancel_left,
      getD_append _ _ _ _ hj]
    rfl
  rw [get32,hbyte i (by omega),add_assoc k i 1,hbyte (i+1) (by omega),add_assoc k i 2,
    hbyte (i+2) (by omega),add_assoc k i 3,hbyte (i+3) (by omega)]
  rfl

theorem get32_patch_outside (h : off+xs.length≤b.length)
    (hi : i+4≤off ∨ off+xs.length ≤ i) : get32 (patch b off xs) i=get32 b i := by
  rw [get32,byteAt_patch_outside h (by omega),byteAt_patch_outside h (by omega),
    byteAt_patch_outside h (by omega),byteAt_patch_outside h (by omega),get32]

theorem get32_patch (v : UInt32) (h : off+4≤b.length) : get32 (patch b off (be32 v)) off=v := by
  have hv := v.toNat_lt
  have hshift (k : UInt32) : ((v >>> k).toUInt8).toNat=v.toNat/2^(k.toNat%32)%2^8 := by
    rw [UInt32.toNat_toUInt8,UInt32.toNat_shiftRight,Nat.shiftRight_eq_div_pow]
  have h0 : byteAt (be32 v) 0=v.toNat/2^24%2^8 := hshift 24
  have h1 : byteAt (be32 v) 1=v.toNat/2^16%2^8 := hshift 16
  have h2 : byteAt (be32 v) 2=v.toNat/2^8%2^8 := hshift 8
  have h3 : byteAt (be32 v) 3=v.toNat%2^8 := UInt32.toNat_toUInt8 v
  have hsum : byteAt (be32 v) 0*2^24+byteAt (be32 v) 1*2^16+byteAt (be32 v) 2*2^8+
      byteAt (be32 v) 3=v.toNat := by omega
  have p0 := byteAt_patch (be32 v) 0 h (by simp [be32])
  rw [add_zero] at p0
  rw [get32,p0,byteAt_patch (be32 v) 1 h (by simp [be32]),
    byteAt_patch (be32 v) 2 h (by simp [be32]),
    byteAt_patch (be32 v) 3 h (by simp [be32]),hsum,UInt32.ofNat_toNat]

end Packetio.Netstack

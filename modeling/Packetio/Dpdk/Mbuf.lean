import Packetio.Frame
import Packetio.Lib.Little

/-! The rte_mbuf in front of every packet (mbuf/mbuf.go): where it is in a frame, the
fields that sending and receiving use, and the headers of a packet that asks the NIC
for work. A result of `none` is a run-time panic. -/
namespace Packetio
open Option

def Region.put (b : Region) (pos n v : Nat) : Option Region :=
  if pos+n≤b.len then some { b with mem := Lib.blit b.mem pos n (Lib.leByte v) } else none

def Region.get (b : Region) (pos n : Nat) : Option Nat :=
  if pos+n≤b.len then some (Lib.leNat n fun i => b.mem (pos+i)) else none

def Region.putUint64 (b : Region) (pos : Nat) (v : UInt64) : Option Region := b.put pos 8 v.toNat
def Region.putUint32 (b : Region) (pos : Nat) (v : UInt32) : Option Region := b.put pos 4 v.toNat
def Region.putUint16 (b : Region) (pos : Nat) (v : UInt16) : Option Region := b.put pos 2 v.toNat
def Region.uint64 (b : Region) (pos : Nat) : Option UInt64 := (b.get pos 8).map UInt64.ofNat

def Slice.get? (s : Slice) (i : Nat) : Option UInt8 := if i<s.len then some (s.get i) else none

theorem Slice.get?_eq {s : Slice} {i : Nat} (h : i<s.len) : s.get? i=some (s.get i) := if_pos h

variable {b b' : Region} {n pos off m : Nat} {p : UInt64}

theorem Region.get_congr (hlen : b'.len=b.len)
    (h : ∀ i, i<n → b'.mem (pos+i)=b.mem (pos+i)) : b'.get pos n=b.get pos n := by
  rw [Region.get,Region.get,hlen,Lib.leNat_congr n _ _ h]

structure Region.Within (lo hi : Nat) (b b' : Region) : Prop where
  len : b'.len=b.len
  same : ∀ j, j<lo ∨ hi≤j → b'.mem j=b.mem j

namespace Region.Within
variable {lo hi : Nat} {b b' b'' : Region}

theorem trans (h : Within lo hi b b') (h' : Within lo hi b' b'') : Within lo hi b b'' :=
  ⟨h'.len.trans h.len,fun j hj => (h'.same j hj).trans (h.same j hj)⟩

theorem mono (h : Within lo hi b b') {lo' hi' : Nat} (hlo : lo'≤lo) (hhi : hi≤hi') :
    Within lo' hi' b b' :=
  ⟨h.len,fun j hj => h.same j (by omega)⟩

end Region.Within

theorem Region.put_within (b : Region) (pos n v : Nat) (h : pos+n≤b.len) :
    ∃ b', b.put pos n v=some b' ∧ Within pos (pos+n) b b' ∧ b'.get pos n=some (v%256^n) := by
  refine ⟨_,if_pos h,⟨rfl,fun j hj => Lib.blit_outside _ _ _ _ _ hj⟩,?_⟩
  rw [Region.get,if_pos h]
  exact congrArg some (Lib.leNat_blit b.mem pos n v)

theorem Region.put_get {v : Nat} (h : b.put pos n v=some b') {j k : Nat}
    (hk : j+k≤n) : b'.get (pos+j) k=some (v/256^j%256^k) := by
  rw [Region.put] at h
  split at h
  case isFalse => cases h
  rename_i hfits
  cases h
  have hpart := Lib.leNat_blit_part b.mem (v := v) (Nat.le_add_right pos j)
    (show pos+j+k≤pos+n by omega)
  rw [Nat.add_sub_cancel_left] at hpart
  exact (if_pos (show pos+j+k≤b.len by omega)).trans (congrArg some hpart)

structure Store where
  off : Nat
  n : Nat
  v : Nat

def Store.Apart (s u : Store) : Prop := s.off+s.n≤u.off ∨ u.off+u.n ≤ s.off

/-- Stores to the object at `m`, one after the other. -/
def Region.stores (b : Region) (m : Nat) : List Store → Option Region
  | [] => some b
  | s::ss => (b.put (m+s.off) s.n s.v).bind fun b => b.stores m ss

section
variable {b b' : Region} {m : Nat} {ss : List Store}

theorem Region.stores_within {size : Nat} (hm : m+size≤b.len) (hin : ∀ s∈ss, s.off+s.n ≤ size) :
    ∃ b', b.stores m ss=some b' ∧ Within m (m+size) b b' := by
  induction ss generalizing b with
  | nil => exact ⟨b,rfl,rfl,fun _ _ => rfl⟩
  | cons s ss ih =>
    have hs := hin s List.mem_cons_self
    obtain ⟨b1,h1,hw1,-⟩ := b.put_within (m+s.off) s.n s.v (by omega)
    obtain ⟨b',h',hw'⟩ := ih (by rwa [hw1.len]) fun u hu => hin u (List.mem_cons_of_mem _ hu)
    refine ⟨b',?_,(hw1.mono (by omega) (by omega)).trans hw'⟩
    rw [Region.stores,h1,bind_some,h']

section
variable (h : b.stores m ss=some b')
include h

theorem Region.stores_beside
    (hout : ∀ s∈ss, s.off+s.n≤off ∨ off+n ≤ s.off) : b'.get (m+off) n=b.get (m+off) n := by
  induction ss generalizing b with
  | nil =>
    cases h
    rfl
  | cons s ss ih =>
    obtain ⟨b1,h1,h⟩ := bind_eq_some_iff.mp h
    have hs := hout s List.mem_cons_self
    rw [ih h fun u hu => hout u (List.mem_cons_of_mem _ hu)]
    rw [Region.put] at h1
    split at h1
    case isFalse => cases h1
    cases h1
    exact Region.get_congr rfl fun i hi => Lib.blit_outside _ _ _ _ _ (by omega)

theorem Region.stores_get (hap : ss.Pairwise Store.Apart) {s : Store}
    (hs : s∈ss) {j k : Nat} (hk : j+k ≤ s.n) : b'.get (m+(s.off+j)) k=some (s.v/256^j%256^k) := by
  induction ss generalizing b with
  | nil => cases hs
  | cons u ss ih =>
    obtain ⟨b1,h1,h2⟩ := bind_eq_some_iff.mp h
    obtain ⟨hu,hap⟩ := List.pairwise_cons.mp hap
    cases hs with
    | head =>
      -- the later stores are beside this one
      have hrest : b'.get (m+(s.off+j)) k=b1.get (m+(s.off+j)) k := by
        apply Region.stores_beside h2
        intro x hx
        have := hu x hx
        rw [Store.Apart] at this
        omega
      rw [hrest,← add_assoc]
      exact Region.put_get h1 hk
    | tail _ hs => exact ih h2 hap hs

theorem Region.stores_uint64 (hap : ss.Pairwise Store.Apart)
    {v : UInt64} (hs : ⟨off,8,v.toNat⟩∈ss) : b'.uint64 (m+off)=some v := by
  have hget : b'.get (m+off) 8=some (v.toNat/256^0%256^8) :=
    Region.stores_get h hap hs (le_of_eq (zero_add 8))
  have hlt : v.toNat%256^8=v.toNat := Nat.mod_eq_of_lt v.toNat_lt
  rw [Region.uint64,hget,map_some,pow_zero,Nat.div_one,hlt,UInt64.ofNat_toNat]

end

end

variable {ss : List Store}

namespace Dpdk.Mbuf

structure Layout where
  frameSize : Nat
  objHeader : Nat
  mbufSize : Nat
  headroom : Nat
  deriving DecidableEq, Repr

def size : Nat := 128

def Layout.dataStart (l : Layout) : Nat := l.objHeader+l.mbufSize+l.headroom

def onesCount64 (n : Nat) : Nat := (List.range 64).countP fun i => n.testBit i

def Layout.validate (l : Layout) : Except String Unit :=
  if l.frameSize=0 ∨ onesCount64 l.frameSize≠1 then
    .error s!"dpdk: a frame size of {l.frameSize}, which must be a power of two"
  else if l.mbufSize<size then
    .error (s!"dpdk: an object header of {l.objHeader}, mbuf of {l.mbufSize} and headroom of "++
      s!"{l.headroom}")
  else if l.dataStart ≥ l.frameSize then
    .error (s!"dpdk: a {l.frameSize}-byte frame has no room for a packet after {l.dataStart} "++
      "bytes of object header, mbuf and headroom")
  else .ok ()

def offRearm : Nat := 16
def offOlFlags : Nat := 24
def offPktLen : Nat := 36
def offDataLen : Nat := 40
def offPool : Nat := 56
def offNext : Nat := 64
def offTxOffload : Nat := 72

def portInvalid : UInt16 := 0xffff

def rxIPChecksumGood : UInt64 := (1 : UInt64) <<< 7
def rxL4ChecksumGood : UInt64 := (1 : UInt64) <<< 8

def txIPv4 : UInt64 := (1 : UInt64) <<< 55
def txIPv6 : UInt64 := (1 : UInt64) <<< 56
def txIPChecksum : UInt64 := (1 : UInt64) <<< 54
def txTCPChecksum : UInt64 := (1 : UInt64) <<< 52
def txUDPChecksum : UInt64 := (3 : UInt64) <<< 52
def txTCPSeg : UInt64 := (1 : UInt64) <<< 50

def pool (b : Region) (m : Nat) : Option UInt64 := b.uint64 (m+offPool)

def setPool (b : Region) (m : Nat) (pool : UInt64) : Option Region := b.putUint64 (m+offPool) pool

def rearm (dataOff refcnt nbSegs port : UInt16) : UInt64 :=
  dataOff.toUInt64 ||| refcnt.toUInt64 <<< 16 ||| nbSegs.toUInt64 <<< 32 ||| port.toUInt64 <<< 48

def resetRx (b : Region) (m : Nat) (headroom : UInt16) (pool : UInt64) : Option Region := do
  let b ← b.putUint64 (m+offRearm) (rearm headroom 1 1 portInvalid)
  let b ← b.putUint64 (m+offNext) 0
  b.putUint64 (m+offPool) pool

/-- One packet of `length` bytes, `dataOff` into the buffer, that goes back to `pool`. -/
def prepareTx (b : Region) (m : Nat) (pool : UInt64) (dataOff : UInt16) (length : UInt32) :
    Option Region := do
  let b ← b.putUint64 (m+offRearm) (rearm dataOff 1 1 portInvalid)
  let b ← b.putUint64 (m+offOlFlags) 0
  let b ← b.putUint32 (m+offPktLen) length
  let b ← b.putUint16 (m+offDataLen) length.toUInt16
  let b ← b.putUint64 (m+offNext) 0
  setPool b m pool

structure RxFields where
  dataOff : UInt16
  nbSegs : UInt16
  dataLen : UInt16
  olFlags : UInt64
  deriving DecidableEq, Repr

def rxRead (b : Region) (m : Nat) : Option RxFields := do
  let rearmWord ← b.uint64 (m+offRearm)
  let lenWord ← b.uint64 (m+offPktLen)
  let olFlags ← b.uint64 (m+offOlFlags)
  some ⟨rearmWord.toUInt16,(rearmWord >>> 32).toUInt16,(lenWord >>> 32).toUInt16,olFlags⟩

def setOlFlags (b : Region) (m : Nat) (v : UInt64) : Option Region := b.putUint64 (m+offOlFlags) v

def setTxOffload (b : Region) (m : Nat) (l2Len l3Len : UInt64) : Option Region :=
  b.putUint64 (m+offTxOffload) ((l2Len &&& 0x7f : UInt64) ||| (l3Len &&& 0x1ff : UInt64) <<< 7)

def setTxOffloadTSO (b : Region) (m : Nat) (l2Len l3Len l4Len segSize : UInt64) : Option Region :=
  b.putUint64 (m+offTxOffload) ((l2Len &&& 0x7f : UInt64) ||| (l3Len &&& 0x1ff : UInt64) <<< 7 |||
    (l4Len &&& 0xff : UInt64) <<< 16 ||| (segSize &&& 0xffff : UInt64) <<< 24)

structure Stamped (m : Nat) (p : UInt64) (b b' : Region) : Prop where
  within : Region.Within m (m+size) b b'
  pool : pool b' m=some p

theorem Stamped.stores {b0 : Region} (h : Stamped m p b0 b)
    (hm : m+size≤b0.len) (hb : b.stores m ss=some b') (hin : ∀ s∈ss, s.off+s.n ≤ size)
    (hout : ∀ s∈ss, s.off+s.n≤offPool ∨ offPool+8 ≤ s.off) : Stamped m p b0 b' := by
  obtain ⟨b'',hb'',hw⟩ := Region.stores_within (b := b) (by rwa [h.within.len]) hin
  rw [hb] at hb''
  cases hb''
  refine ⟨h.within.trans hw,?_⟩
  rw [Mbuf.pool,Region.uint64,Region.stores_beside hb hout]
  exact h.pool

theorem prepareTx_eq (b : Region) (m : Nat) (p : UInt64) (dataOff : UInt16) (length : UInt32) :
    prepareTx b m p dataOff length=b.stores m [⟨offRearm,8,(rearm dataOff 1 1 portInvalid).toNat⟩,
      ⟨offOlFlags,8,0⟩,⟨offPktLen,4,length.toNat⟩,⟨offDataLen,2,length.toUInt16.toNat⟩,
      ⟨offNext,8,0⟩,
      ⟨offPool,8,p.toNat⟩] := by
  simp [prepareTx,setPool,Region.putUint64,Region.putUint32,Region.putUint16,Region.stores,bind]

theorem resetRx_eq (b : Region) (m : Nat) (headroom : UInt16) (p : UInt64) :
    resetRx b m headroom p=b.stores m [⟨offRearm,8,(rearm headroom 1 1 portInvalid).toNat⟩,
      ⟨offNext,8,0⟩,⟨offPool,8,p.toNat⟩] := by
  simp [resetRx,Region.putUint64,Region.stores,bind]

theorem stores_stamped (hm : m+size≤b.len)
    (hin : ∀ s∈ss, s.off+s.n ≤ size) (hap : ss.Pairwise Store.Apart)
    (hpool : ⟨offPool,8,p.toNat⟩∈ss) : ∃ b', b.stores m ss=some b' ∧ Stamped m p b b' := by
  obtain ⟨b',hb,hw⟩ := Region.stores_within hm hin
  exact ⟨b',hb,hw,Region.stores_uint64 hb hap hpool⟩

theorem prepareTx_stamped (hm : m+size≤b.len) (p : UInt64) (dataOff : UInt16) (length : UInt32) :
    ∃ b', prepareTx b m p dataOff length=some b' ∧ Stamped m p b b' := by
  rw [prepareTx_eq]
  apply stores_stamped hm
  · simp [offRearm,offOlFlags,offPktLen,offDataLen,offNext,offPool,size]
  · simp [Store.Apart,offRearm,offOlFlags,offPktLen,offDataLen,offNext,offPool]
  · simp

theorem resetRx_stamped (hm : m+size≤b.len) (headroom : UInt16)
    (p : UInt64) : ∃ b', resetRx b m headroom p=some b' ∧ Stamped m p b b' := by
  rw [resetRx_eq]
  apply stores_stamped hm
  · simp [offRearm,offNext,offPool,size]
  · simp [Store.Apart,offRearm,offNext,offPool]
  · simp

/-! The headers of a packet -/

def protoTCP : UInt8 := 6
def protoUDP : UInt8 := 17
def tcpHeaderLen : Nat := 20
def udpHeaderLen : Nat := 8
def etherIPv4 : Nat := 0x0800
def etherIPv6 : Nat := 0x86dd
def etherVLAN : Nat := 0x8100
def etherQinQ : Nat := 0x88a8
def etherQinQ2 : Nat := 0x9100

structure Headers where
  l2Len : Nat
  l3Len : Nat
  ipv4 : Bool := false
  ipv6 : Bool := false
  proto : UInt8
  deriving DecidableEq, Repr

def etherTypeAt (p : Slice) (off : Nat) : Option Nat := do
  let hi ← p.get? off
  let lo ← p.get? (off+1)
  some (hi.toNat <<< 8 ||| lo.toNat)

/-- Step over at most this many tags; `some none` is a packet that ends before its tag does. -/
def skipTags (p : Slice) : Nat → Nat → Nat → Option (Option (Nat × Nat))
  | 0, et, off => some (some (et,off))
  | tags+1, et, off =>
    if et=etherVLAN ∨ et=etherQinQ ∨ et=etherQinQ2 then
      if p.len<off+4 then some none
      else do
        let et ← etherTypeAt p (off+2)
        skipTags p tags et (off+4)
    else some (some (et,off))

def Headers.whole (h : Headers) (p : Slice) : Option Headers :=
  if h.proto≠protoTCP ∧ h.proto≠protoUDP then none
  else
    let need := if h.proto=protoTCP then tcpHeaderLen else udpHeaderLen
    if p.len ≥ h.l2Len+h.l3Len+need then some h else none

def parseIPv4 (p : Slice) (off : Nat) : Option (Option Headers) :=
  if p.len<off+20 then some none
  else do
    let b ← p.get? off
    if b >>> 4≠4 then some none
    else
      let ihl := (b &&& 0x0f).toNat*4
      if ihl<20 ∨ p.len<off+ihl then some none
      else do
        let proto ← p.get? (off+9)
        some (Headers.whole { l2Len := off, l3Len := ihl, ipv4 := true, proto := proto } p)

def parseIPv6 (p : Slice) (off : Nat) : Option (Option Headers) :=
  if p.len<off+40 then some none
  else do
    let b ← p.get? off
    if b >>> 4≠6 then some none
    else do
      let next ← p.get? (off+6)
      if next≠protoTCP ∧ next≠protoUDP then some none
      else some (Headers.whole { l2Len := off, l3Len := 40, ipv6 := true, proto := next } p)

/-- `some none` is a packet whose headers are not recognised. -/
def parse (p : Slice) : Option (Option Headers) :=
  if p.len<14 then some none
  else do
    let et ← etherTypeAt p 12
    match ← skipTags p 2 et 14 with
    | none => some none
    | some (et,off) =>
      if et=etherIPv4 then parseIPv4 p off
      else if et=etherIPv6 then parseIPv6 p off
      else some none

/-! Parse reads no byte past the end -/

section
variable (p : Slice)

theorem etherTypeAt_some (off : Nat) (h : off+1<p.len) : ∃ et, etherTypeAt p off=some et := by
  rw [etherTypeAt,Slice.get?_eq (by omega),Slice.get?_eq h]
  exact ⟨_,rfl⟩

theorem skipTags_some (tags et off : Nat) : ∃ r, skipTags p tags et off=some r := by
  induction tags generalizing et off with
  | zero => exact ⟨_,rfl⟩
  | succ tags ih =>
    rw [skipTags]
    split
    case isTrue =>
      split
      case isTrue => exact ⟨_,rfl⟩
      rename_i hlen
      obtain ⟨et',h⟩ := etherTypeAt_some p (off+2) (by omega)
      rw [h]
      exact ih et' (off+4)
    case isFalse => exact ⟨_,rfl⟩

theorem parseIPv4_some (off : Nat) : ∃ r, parseIPv4 p off=some r := by
  rw [parseIPv4]
  split
  case isTrue => exact ⟨_,rfl⟩
  rename_i hlen
  rw [Slice.get?_eq (by omega),Slice.get?_eq (by omega)]
  simp only [bind,Option.bind]
  split
  case isTrue => exact ⟨_,rfl⟩
  split
  case isTrue | isFalse => exact ⟨_,rfl⟩

theorem parseIPv6_some (off : Nat) : ∃ r, parseIPv6 p off=some r := by
  rw [parseIPv6]
  split
  case isTrue => exact ⟨_,rfl⟩
  rename_i hlen
  rw [Slice.get?_eq (by omega),Slice.get?_eq (by omega)]
  simp only [bind,Option.bind]
  split
  case isTrue => exact ⟨_,rfl⟩
  split
  case isTrue | isFalse => exact ⟨_,rfl⟩

theorem parse_some : ∃ r, parse p=some r := by
  rw [parse]
  split
  case isTrue => exact ⟨_,rfl⟩
  rename_i hlen
  obtain ⟨et,het⟩ := etherTypeAt_some p 12 (by omega)
  obtain ⟨r,hr⟩ := skipTags_some p 2 et 14
  simp only [het,hr,bind,Option.bind]
  rcases r with _ | ⟨et',off⟩
  · exact ⟨_,rfl⟩
  dsimp only
  split
  case isTrue => exact parseIPv4_some p off
  split
  case isTrue => exact parseIPv6_some p off
  case isFalse => exact ⟨_,rfl⟩

end

def Headers.l4Flags (h : Headers) (f : UInt64) : UInt64 :=
  if h.proto=protoTCP then f ||| txTCPChecksum
  else if h.proto=protoUDP then f ||| txUDPChecksum
  else f

def checksumFlags (h : Headers) : UInt64 :=
  if h.ipv4 then h.l4Flags (txIPv4 ||| txIPChecksum)
  else if h.ipv6 then h.l4Flags txIPv6
  else 0

end Dpdk.Mbuf

end Packetio

import Mathlib.Algebra.Group.Nat.Defs
import Mathlib.Data.List.Basic

/-! Descriptors, the work asked for with them, and the frame memory they point into
(desc.go, offload.go); and the loop in which SendFunc, of any backend, has frames built. -/
namespace Packetio
open UInt64 Nat

structure Desc where
  addr : UInt64
  len : UInt32
  options : UInt32
  deriving DecidableEq, Repr, Inhabited

def optContinued : UInt32 := 1
def optChecksumOK : UInt32 := (1 : UInt32) <<< 1
def optL3ChecksumOK : UInt32 := (1 : UInt32) <<< 2

def Desc.continued (d : Desc) : Bool := d.options &&& optContinued≠0

structure Offload where
  flags : UInt8 := 0
  gsoType : UInt8 := 0
  hdrLen : UInt16 := 0
  gsoSize : UInt16 := 0
  csumStart : UInt16 := 0
  csumOff : UInt16 := 0
  deriving DecidableEq, Repr

def offloadNeedsCsum : UInt8 := 1
def offloadGSONone : UInt8 := 0
def offloadGSOTCPv4 : UInt8 := 1
def offloadGSOTCPv6 : UInt8 := 4
def offloadGSOECN : UInt8 := 0x80

def Offload.segmented (o : Offload) : Bool := (o.gsoType &&& ~~~offloadGSOECN)≠offloadGSONone

def offloadHdrLen : Nat := 10

def Offload.marshal (o : Offload) : List UInt8 :=
  [o.flags,o.gsoType,o.hdrLen.toUInt8,(o.hdrLen >>> 8).toUInt8,o.gsoSize.toUInt8,
    (o.gsoSize >>> 8).toUInt8,o.csumStart.toUInt8,(o.csumStart >>> 8).toUInt8,o.csumOff.toUInt8,
    (o.csumOff >>> 8).toUInt8]

def unmarshalOffload (src : List UInt8) : Offload :=
  let u16 (i : Nat) : UInt16 := (src.getD i 0).toUInt16 ||| (src.getD (i+1) 0).toUInt16 <<< 8
  { flags := src.getD 0 0, gsoType := src.getD 1 0, hdrLen := u16 2, gsoSize := u16 4,
    csumStart := u16 6, csumOff := u16 8 }

structure Slice where
  mem : Nat → UInt8
  off : Nat
  len : Nat

def Slice.get (s : Slice) (i : Nat) : UInt8 := s.mem (s.off+i)

/-- `s[:n]` -/
def Slice.upTo (s : Slice) (n : Nat) : Slice := { s with len := n }

def Slice.toList (s : Slice) : List UInt8 := (List.range s.len).map s.get

theorem passed {α : Type*} {p : Prop} [Decidable p] {bad x y : α} (h : (if p then bad else x)=y)
    (hne : bad≠y) : ¬ p ∧ x=y := by
  split at h
  case isTrue => exact absurd h hne
  case isFalse hp => exact ⟨hp,h⟩

def addInt (a b : Int) : Int := Int.bmod (a+b) (2^64)

theorem toNat_small64 (n : Nat) (h : n<2^64) : (UInt64.ofNat n).toNat=n :=
    UInt64.toNat_ofNat_of_lt' h

structure Region where
  mem : Nat → UInt8
  len : Nat
  len_lt : len<2^63

/-- `b[lo:hi]`; `none` is the run-time panic of a slice out of range. -/
def Region.slice (r : Region) (lo hi : UInt64) : Option Slice :=
  if lo≤hi ∧ hi.toNat≤r.len then some ⟨r.mem,lo.toNat,hi.toNat-lo.toNat⟩ else none

def Region.frame (r : Region) (d : Desc) : Slice := ⟨r.mem,d.addr.toNat,d.len.toNat⟩

def Region.bytes (r : Region) (d : Desc) : List UInt8 := (r.frame d).toList

theorem Region.slice_eq (r : Region) (d : Desc) (h : d.addr.toNat+d.len.toNat≤r.len) :
    r.slice d.addr (d.addr+d.len.toUInt64)=some (r.frame d) := by
  have hlt := r.len_lt
  have hs : (d.addr+d.len.toUInt64).toNat=d.addr.toNat+d.len.toNat := by
    rw [UInt64.toNat_add,UInt32.toNat_toUInt64,Nat.mod_eq_of_lt (by omega)]
  have hle : d.addr≤d.addr+d.len.toUInt64 := by
    rw [le_iff_toNat_le,hs]
    omega
  have hsub : d.addr.toNat+d.len.toNat-d.addr.toNat=d.len.toNat := by omega
  simp [Region.slice,Region.frame,hs,hle,h,hsub]

/-- From a descriptor's address to `stop`, or to the end of the region; empty outside of
it. -/
def Region.writableTo (r : Region) (d : Desc) (stop : UInt64) : Option Slice :=
  if d.addr.toNat ≥ r.len then some ⟨r.mem,0,0⟩
  else r.slice d.addr (if stop.toNat > r.len then UInt64.ofNat r.len else stop)

theorem Region.writableTo_some (r : Region) (d : Desc) {stop : UInt64}
    (h : d.addr.toNat<r.len → d.addr.toNat ≤ stop.toNat) : ∃ s, r.writableTo d stop=some s := by
  rw [Region.writableTo]
  split
  case isTrue => exact ⟨_,rfl⟩
  rename_i hin
  have hlen := r.len_lt
  have hnat : (ofNat r.len).toNat=r.len := UInt64.toNat_ofNat_of_lt' (Nat.lt_trans hlen (by decide))
  refine ⟨_,if_pos ⟨?_,?_⟩⟩
  · rw [le_iff_toNat_le]
    split
    · omega
    · omega
  · split
    · omega
    · omega

/-- The `len` bytes at `addr` lie in one frame of a region of `total` bytes, from `start` on. -/
def InFrame (size total start addr len : Nat) : Prop :=
  0<len ∧ ∃ i, i*size+start≤addr ∧ addr+len≤(i+1)*size ∧ (i+1)*size≤total

theorem inFrame_iff {size total start addr len : Nat} (hsize : 0<size) (hwhole : size ∣ total) :
    InFrame size total start addr len ↔
      addr<total ∧ start≤addr%size ∧ 0<len ∧ len ≤ size-addr%size := by
  obtain ⟨c,rfl⟩ := hwhole
  have hdm := div_add_mod' addr size
  have hmod := mod_lt addr hsize
  constructor
  · rintro ⟨hpos,i,hlo,hhi,hend⟩
    rw [succ_mul] at hhi hend
    have hi : addr/size=i := Nat.div_eq_of_lt_le (by omega) (by rw [Nat.succ_mul]; omega)
    rw [hi] at hdm
    omega
  · rintro ⟨hin,hstart,hpos,hlen⟩
    have hend : (addr/size+1)*size ≤ size*c := by
      rw [mul_comm]
      exact Nat.mul_le_mul_left _ (Nat.div_lt_of_lt_mul hin)
    refine ⟨hpos,addr/size,by omega,?_,hend⟩
    rw [succ_mul]
    omega

/-- A length of zero wraps to the largest word, which no room is above. -/
theorem pred_lt_iff (len : UInt32) (room : UInt64) :
    len.toUInt64-1<room ↔ 0<len.toNat ∧ len.toNat≤room.toNat := by
  have hl := len.toNat_lt
  have hr := room.toNat_lt
  rw [UInt64.lt_iff_toNat_lt,UInt64.toNat_sub,UInt32.toNat_toUInt64]
  change (2^64-1+len.toNat)%2^64<_ ↔ _
  omega

section
variable {k : Nat} {mask : UInt64} (hmask : mask.toNat=2^k-1)
include hmask

theorem toNat_and_frameMask (addr : UInt64) : (addr &&& mask).toNat=addr.toNat%2^k := by
  rw [UInt64.toNat_and,hmask,Nat.and_two_pow_sub_one_eq_mod]

theorem toNat_frame_rest (hk : k<64) (addr : UInt64) :
    (mask+1-(addr &&& mask)).toNat=2^k-addr.toNat%2^k := by
  have hlt : 2^k<2^64 := Nat.pow_lt_pow_right (by decide) hk
  have hmod := Nat.mod_lt addr.toNat (Nat.two_pow_pos k)
  rw [UInt64.toNat_sub,UInt64.toNat_add,toNat_and_frameMask hmask,hmask]
  change (2^64-_+(2^k-1+1)%2^64)%2^64=_
  omega

end

def buildBatch {E : Type} (badLength : Int → Nat → E) (writable : Desc → Option Slice)
    (build : Nat → Slice → Int) : Nat → List Desc → Option (Except E (List Desc))
  | _, [] => some (.ok [])
  | i, d::ds => match writable d with
    | none => none
    | some frame =>
      let n := build i frame
      if n=0 then some (.ok [])
      else if n<0 ∨ n > frame.len then some (.error (badLength n frame.len))
      else match buildBatch badLength writable build (i+1) ds with
        | some (.ok rest) => some (.ok ({ d with len := UInt32.ofInt n }::rest))
        | failed => failed

theorem buildBatch_spec {E : Type} (badLength : Int → Nat → E) {writable : Desc → Option Slice}
    (hw : ∀ d, ∃ s, writable d=some s) (build : Nat → Slice → Int) (i : Nat) (ds : List Desc) :
    ∃ res, buildBatch badLength writable build i ds=some res ∧ ∀ built, res = .ok built →
      built.map Desc.addr=(ds.take built.length).map Desc.addr := by
  induction ds generalizing i with
  | nil =>
    refine ⟨_,rfl,fun built hb => ?_⟩
    injection hb with hb
    simp [← hb]
  | cons d ds ih =>
    obtain ⟨s,hs⟩ := hw d
    obtain ⟨res,hres,hbuilt⟩ := ih (i+1)
    simp only [buildBatch,hs]
    split
    case isTrue =>
      refine ⟨_,rfl,fun built hb => ?_⟩
      injection hb with hb
      simp [← hb]
    split
    case isTrue =>
      refine ⟨_,rfl,fun built hb => ?_⟩
      cases hb
    rw [hres]
    cases res with
    | error e =>
      refine ⟨_,rfl,fun built hb => ?_⟩
      cases hb
    | ok rest =>
      refine ⟨_,rfl,fun built hb => ?_⟩
      injection hb with hb
      simp [← hb,hbuilt rest rfl]

end Packetio

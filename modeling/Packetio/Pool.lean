import Mathlib.Data.List.Perm.Subperm
import Mathlib.Data.List.Nodup
import Mathlib.Data.List.Range
import Packetio.Lib.BitSet

/-! The free list of frames of one queue (internal/pool). It is a stack of frame
starts; a checked build also keeps one bit for each frame, and refuses a frame
that is on the list already. -/
namespace Packetio.Pool
open List Nat UInt64

structure Frames where
  checked : Bool
  free : List UInt64
  cap : Nat
  frameMask : UInt64
  frameShift : Nat
  base : UInt64
  endAddr : UInt64
  rejected : UInt64 := 0
  words : List UInt64

def trailingZeros64 (n : UInt64) : Nat :=
  ((List.range 64).find? fun i => n.toNat.testBit i).getD 64

def initChecks (checked : Bool) (count : Nat) : List UInt64 :=
  if checked then
    let ws := List.replicate ((count+63)/64) 0xffffffffffffffff
    let r := count%64
    if r≠0 then ws.set (ws.length-1) ((1 <<< UInt64.ofNat r)-1) else ws
  else []

/-- A pool of the `count` frames from frame number `base` on. -/
def newFrames (checked : Bool) (base count frameSize : Nat) : Frames :=
  let start := UInt64.ofNat base*UInt64.ofNat frameSize
  { checked := checked
    free := (List.range count).map fun i => UInt64.ofNat (base+count-1-i)*UInt64.ofNat frameSize
    cap := count
    frameMask := UInt64.ofNat (frameSize-1)
    frameShift := trailingZeros64 (UInt64.ofNat frameSize)
    base := start
    endAddr := start+UInt64.ofNat count*UInt64.ofNat frameSize
    words := initChecks checked count }

def Frames.len (p : Frames) : Nat := p.free.length

def Frames.owns (p : Frames) (addr : UInt64) : Bool := p.base≤addr && addr<p.endAddr

def Frames.index (p : Frames) (addr : UInt64) : UInt64 :=
  if p.frameShift<64 then (addr-p.base) >>> UInt64.ofNat p.frameShift else 0

/-- Whether the frame may be added; `none` is an index out of range. -/
def Frames.markFree (p : Frames) (addr : UInt64) : Option (Frames × Bool) :=
  if p.checked then
    let i := p.index addr
    match p.words[(i >>> 6).toNat]? with
    | none => none
    | some w =>
      if w &&& (1 <<< (i &&& 63))≠0 then some (p,false)
      else some ({ p with words := p.words.set (i >>> 6).toNat (w ||| (1 <<< (i &&& 63))) },true)
  else some (p,true)

def Frames.markTaken (p : Frames) : List UInt64 → Option Frames
  | [] => some p
  | addr::addrs =>
    if p.checked then
      let i := p.index addr
      match p.words[(i >>> 6).toNat]? with
      | none => none
      | some w => Frames.markTaken
          { p with words := p.words.set (i >>> 6).toNat (w &&& ~~~(1 <<< (i &&& 63))) } addrs
    else p.markTaken addrs

/-- Take up to `n` frames off the end of the list, appending them to `dst`. -/
def Frames.pop (p : Frames) (n : Int) (dst : List UInt64) : Option (Frames × List UInt64) :=
  let n := if n > p.free.length then (p.free.length : Int) else n
  if n≤0 then some (p,dst)
  else
    let start := p.free.length-n.toNat
    match p.markTaken (p.free.drop start) with
    | none => none
    | some q => some ({ q with free := q.free.take start },dst++q.free.drop start)

def Frames.push (p : Frames) (addr : UInt64) : Option Frames :=
  if addr<p.base ∨ addr ≥ p.endAddr ∨ addr &&& p.frameMask≠0 ∨ p.free.length ≥ p.cap then
    some { p with rejected := p.rejected+1 }
  else match p.markFree addr with
    | none => none
    | some (p,false) => some { p with rejected := p.rejected+1 }
    | some (p,true) => some { p with free := p.free++[addr] }

def Frames.baseOf (p : Frames) (addr : UInt64) : UInt64 := addr &&& ~~~p.frameMask

/-- The starts of the `count` frames from frame number `first` on. -/
def frameStarts (first count frameSize : Nat) : List UInt64 :=
  (List.range count).map fun j => UInt64.ofNat ((first+j)*frameSize)

theorem frameStarts_append (first m n size : Nat) :
    frameStarts first m size++frameStarts (first+m) n size=frameStarts first (m+n) size := by
  rw [frameStarts,frameStarts,frameStarts,range_add,map_append,map_map]
  congr 1
  refine map_congr_left fun j _ => ?_
  rw [Function.comp_apply,add_assoc]

section
variable {first count k : Nat} (hfit : (first+count)*2^k<2^64)
include hfit

theorem start_toNat {j : Nat} (hj : j<count) :
    (UInt64.ofNat ((first+j)*2^k)).toNat=(first+j)*2^k := by
  have hle : (first+j)*2^k≤(first+count)*2^k := mul_le_mul_right _ (by omega)
  exact toNat_ofNat_of_lt' (lt_of_le_of_lt hle hfit)

theorem mem_frameStarts {a : UInt64} :
    a∈frameStarts first count (2^k) ↔ ∃ j<count, a.toNat=(first+j)*2^k := by
  simp only [frameStarts,mem_map,mem_range]
  constructor
  · rintro ⟨j,hj,rfl⟩
    exact ⟨j,hj,start_toNat hfit hj⟩
  · rintro ⟨j,hj,ha⟩
    refine ⟨j,hj,?_⟩
    rw [← UInt64.toNat_inj,start_toNat hfit hj,ha]

theorem start_inj {i j : Nat} (hi : i<count) (hj : j<count)
    (h : UInt64.ofNat ((first+i)*2^k)=UInt64.ofNat ((first+j)*2^k)) : i=j := by
  have hn := congrArg toNat h
  rw [start_toNat hfit hi,start_toNat hfit hj] at hn
  have := Nat.eq_of_mul_eq_mul_right (Nat.two_pow_pos k) hn
  omega

theorem nodup_frameStarts : (frameStarts first count (2^k)).Nodup := by
  refine List.Nodup.map_on ?_ nodup_range
  intro i hi j hj h
  exact start_inj hfit (mem_range.mp hi) (mem_range.mp hj) h

end

theorem length_lt_of_not_mem {first count k : Nat} {l : List UInt64} (hl : l.Nodup)
    (hown : ∀ a∈l, a∈frameStarts first count (2^k)) {a : UInt64}
    (ha : a∈frameStarts first count (2^k)) (hnot : a∉l) : l.length<count := by
  have hsub : (a::l).Subperm (frameStarts first count (2^k)) :=
    (nodup_cons.mpr ⟨hnot,hl⟩).subperm fun x hx => by
      cases mem_cons.mp hx with
      | inl h => exact h ▸ ha
      | inr h => exact hown x h
  have hlen := hsub.length_le
  rwa [frameStarts,length_map,length_range,length_cons] at hlen

structure Frames.Shape (first count k : Nat) (p : Frames) : Prop where
  fits : (first+count)*2^k<2^64
  small : k<64
  base : p.base.toNat=first*2^k
  endAddr : p.endAddr.toNat=(first+count)*2^k
  mask : p.frameMask.toNat=2^k-1
  shift : p.frameShift=k
  cap : p.cap=count
  words : p.checked=true → p.words.length=(count+63)/64

namespace Frames.Shape
variable {first count k : Nat} {p : Frames} {a : UInt64} (h : p.Shape first count k)
include h

theorem refused_iff : (a<p.base ∨ a ≥ p.endAddr ∨ a &&& p.frameMask≠0) ↔
    a∉frameStarts first count (2^k) := by
  have hmask : (a &&& p.frameMask).toNat=a.toNat%2^k := by
    rw [UInt64.toNat_and,h.mask,Nat.and_two_pow_sub_one_eq_mod]
  rw [mem_frameStarts h.fits,UInt64.lt_iff_toNat_lt,ge_iff_le,UInt64.le_iff_toNat_le,ne_eq,
    ← UInt64.toNat_inj,hmask,h.base,h.endAddr,UInt64.toNat_zero]
  constructor
  · rintro hr ⟨j,hj,ha⟩
    have hlo : first*2^k≤a.toNat := ha ▸ Nat.mul_le_mul_right _ (by omega)
    have hhi : a.toNat<(first+count)*2^k :=
      ha ▸ Nat.mul_lt_mul_of_pos_right (by omega) (Nat.two_pow_pos k)
    have hmod : a.toNat%2^k=0 := ha ▸ Nat.mul_mod_left _ _
    omega
  · intro hno
    by_contra hr
    push Not at hr
    obtain ⟨hlo,hhi,hmod⟩ := hr
    obtain ⟨m,hm⟩ := Nat.dvd_of_mod_eq_zero hmod
    rw [mul_comm] at hm
    have hlo' : first ≤ m := Nat.le_of_mul_le_mul_right (hm ▸ hlo) (Nat.two_pow_pos k)
    have hhi' : m<first+count := Nat.lt_of_mul_lt_mul_right (hm ▸ hhi)
    exact hno ⟨m-first,by omega,by rw [hm]; congr 1; omega⟩

theorem index_start {j : Nat} (ha : a.toNat=(first+j)*2^k) : (p.index a).toNat=j := by
  have hle : p.base≤a := by
    rw [UInt64.le_iff_toNat_le,h.base,ha]
    exact Nat.mul_le_mul_right _ (by omega)
  have hk : (UInt64.ofNat k).toNat=k :=
    UInt64.toNat_ofNat_of_lt' (lt_of_lt_of_le h.small (by decide))
  have hsub : (first+j)*2^k-first*2^k=j*2^k := by rw [Nat.add_mul,Nat.add_sub_cancel_left]
  rw [Frames.index,h.shift,if_pos h.small,UInt64.toNat_shiftRight,hk,Nat.mod_eq_of_lt h.small,
    UInt64.toNat_sub_of_le _ _ hle,ha,h.base,hsub,Nat.shiftRight_eq_div_pow,
    Nat.mul_div_cancel _ (Nat.two_pow_pos k)]

theorem word_start (hc : p.checked=true) (ha : a∈frameStarts first count (2^k)) :
    ∃ i w, i<count ∧ UInt64.ofNat ((first+i)*2^k)=a ∧ (p.index a >>> 6).toNat=i/64 ∧
      (p.index a &&& 63).toNat=i%64 ∧ p.words[i/64]? = some w := by
  obtain ⟨i,hi,hai⟩ := (mem_frameStarts h.fits).mp ha
  have hidx := h.index_start hai
  have hlen := h.words hc
  have hlt : i/64<p.words.length := by omega
  refine ⟨i,_,hi,?_,?_,?_,getElem?_eq_getElem hlt⟩
  · rw [← UInt64.toNat_inj,start_toNat h.fits hi,hai]
  · rw [UInt64.toNat_shiftRight,hidx]
    exact shiftRight_eq_div_pow i 6
  · rw [UInt64.toNat_and,hidx]
    exact and_two_pow_sub_one_eq_mod i 6

end Frames.Shape

end Packetio.Pool

import Packetio.Frame
import Packetio.Lib.Counter

/-! The two rings of mbuf addresses between the driver and a queue (queue/ring.go),
with the mempool operations that use the same words from C (eal/shim.c). -/
namespace Packetio.Dpdk
open Lib List UInt32 Nat

structure Ring where
  buf : Nat → UInt64
  cap : Nat
  mask : UInt32
  head : UInt32
  tail : UInt32

def newRingOver (buf : Nat → UInt64) (len : Nat) (head tail : Option UInt32) : Except String Ring :=
  if len=0 ∨ len &&& (len-1)≠0 then
    .error s!"dpdk: a ring of {len} entries, which must be a power of two"
  else match head, tail with
    | some head, some tail => .ok
        { buf := buf, cap := len, mask := UInt32.ofNat (len-1), head := head, tail := tail }
    | _, _ => .error "dpdk: a ring without its indices"

namespace Ring

def len (r : Ring) : Nat := (r.tail-r.head).toNat

def room (r : Ring) : Int := r.cap-r.len

def put (r : Ring) (addr : UInt64) : Ring :=
  { r with buf := Function.update r.buf (r.tail &&& r.mask).toNat addr, tail := r.tail+1 }

def push (r : Ring) (addrs : List UInt64) : Ring × Int :=
  let n := if (addrs.length : Int) > r.room then r.room else addrs.length
  ((addrs.take n.toNat).foldl put r,n)

def next (r : Ring) : Ring × UInt64 := ({ r with head := r.head+1 },r.buf (r.head &&& r.mask).toNat)

def nexts : Nat → Ring → Ring × List UInt64
  | 0, r => (r,[])
  | n+1, r =>
    let x := r.next
    let xs := nexts n x.1
    (xs.1,x.2::xs.2)

/-- Remove up to `n` addresses. -/
def pop (r : Ring) (n : Int) : Ring × List UInt64 :=
  nexts (if n > r.len then (r.len : Int) else n).toNat r

def enqueue (r : Ring) : List UInt64 → Ring × Nat
  | [] => (r,0)
  | a::as => if r.tail-r.head > r.mask then (r,as.length+1) else enqueue (r.put a) as

def dequeue (r : Ring) (n : UInt32) : Option (Ring × List UInt64) :=
  if r.tail-r.head<n then none else some (nexts n.toNat r)

/-! What a ring holds -/

def items (r : Ring) : List UInt64 :=
  (List.range r.len).map fun i => r.buf ((r.head+UInt32.ofNat i) &&& r.mask).toNat

@[simp] theorem items_length (r : Ring) : r.items.length = r.len := by
  rw [items,length_map,length_range]

structure Sized (r : Ring) : Prop where
  cells : ∃ k<32, r.cap=2^k ∧ r.mask.toNat=2^k-1
  le : r.len≤r.cap

theorem newRingOver_sized {buf : Nat → UInt64} {len : Nat} {head : UInt32} {r : Ring}
    (hlen : len<2^32) (h : newRingOver buf len (some head) (some head) = .ok r) :
    r.Sized ∧ r.cap=len ∧ r.items = [] := by
  rw [newRingOver] at h
  obtain ⟨hpow,h⟩ := passed h nofun
  injection h with h
  rw [not_or,Classical.not_not] at hpow
  obtain ⟨k,rfl⟩ := (and_sub_one_eq_zero_iff_isPowerOfTwo hpow.1).mp hpow.2
  have hk : k<32 := (Nat.pow_lt_pow_iff_right (by decide)).mp hlen
  have hmask : r.mask.toNat=2^k-1 := by
    rw [← h]
    exact toNat_small _ (by omega)
  have hcap : r.cap=2^k := by rw [← h]
  have hzero : r.len=0 := by
    rw [Ring.len,← h,UInt32.sub_self]
    rfl
  refine ⟨⟨⟨k,hk,hcap,hmask⟩,by omega⟩,hcap,?_⟩
  rw [items,hzero]
  rfl

section
variable {r : Ring}

theorem tail_eq (r : Ring) : r.tail=r.head+UInt32.ofNat r.len := by
  rw [len,UInt32.ofNat_toNat,UInt32.add_comm,UInt32.sub_add_cancel]

section
variable (h : r.Sized)
include h

theorem Sized.cap_lt : r.cap<2^32 := by
  obtain ⟨k,hk,hc,-⟩ := h.cells
  rw [hc]
  exact Nat.pow_lt_pow_right (by decide) hk

theorem Sized.slot (i : Nat) :
    ((r.head+UInt32.ofNat i) &&& r.mask).toNat=(r.head.toNat+i)%r.cap := by
  obtain ⟨k,hk,hc,hm⟩ := h.cells
  have hsum : r.head+ofNat i=ofNat (r.head.toNat+i) := by
    rw [ofNat_add,UInt32.ofNat_toNat]
  rw [hsum,ofNat_and_mask _ k _ (by omega) hm,hc]

theorem Sized.len_put (hroom : r.len<r.cap) (a : UInt64) : (r.put a).len=r.len+1 := by
  have hcap := h.cap_lt
  have ht : r.tail+1-r.head=ofNat (r.len+1) := by
    rw [tail_eq,ofNat_add,UInt32.add_assoc,UInt32.add_comm r.head,UInt32.add_sub_cancel,
      UInt32.ofNat_one]
  change (r.tail+1-r.head).toNat=r.len+1
  rw [ht,toNat_small _ (by omega)]

theorem Sized.put (hroom : r.len<r.cap) (a : UInt64) :
    (r.put a).Sized ∧ (r.put a).items=r.items++[a] := by
  have hlen := h.len_put hroom a
  refine ⟨⟨h.cells,by rw [hlen]; exact hroom⟩,?_⟩
  rw [items,items,hlen,range_succ,map_append,map_singleton]
  congr 1
  · refine map_congr_left fun i hi => ?_
    have hne : ((r.head+ofNat i) &&& r.mask).toNat≠(r.tail &&& r.mask).toNat := by
      have hi' := mem_range.mp hi
      rw [tail_eq,h.slot,h.slot]
      exact mod_ne_of_near r.cap _ _ (by omega) (by omega)
    exact Function.update_of_ne hne _ _
  · change [Function.update r.buf _ a ((r.head+ofNat r.len) &&& r.mask).toNat] = [a]
    rw [← tail_eq,Function.update_self]

theorem Sized.puts (as : List UInt64) (hroom : r.len+as.length≤r.cap) :
    (as.foldl Ring.put r).Sized ∧ (as.foldl Ring.put r).cap=r.cap ∧
      (as.foldl Ring.put r).items=r.items++as := by
  induction as generalizing r with
  | nil => exact ⟨h,rfl,by simp⟩
  | cons a as ih =>
    rw [length_cons] at hroom
    obtain ⟨h',hitems⟩ := h.put (by omega) a
    have hlen := h.len_put (by omega) a
    obtain ⟨hs,hc,hi⟩ := ih h' (by rw [hlen]; change r.len+1+as.length≤r.cap; omega)
    exact ⟨hs,hc,by rw [foldl_cons,hi,hitems,append_assoc]; rfl⟩

theorem Sized.push (as : List UInt64) :
    ∃ n : Nat, (r.push as).2=n ∧ n=min as.length (r.cap-r.len) ∧ (r.push as).1.Sized ∧
      (r.push as).1.cap=r.cap ∧ (r.push as).1.items=r.items++as.take n := by
  have hle := h.le
  have hn : (if (as.length : Int) > r.room then r.room else as.length) =
      ((min as.length (r.cap-r.len) : Nat) : Int) := by
    rw [room]
    split <;> omega
  have hputs := h.puts (as.take (min as.length (r.cap-r.len))) (by rw [length_take]; omega)
  refine ⟨_,hn,rfl,?_⟩
  simpa only [Ring.push,hn,Int.toNat_natCast] using hputs

theorem Sized.next (hpos : 0<r.len) : r.next.1.Sized ∧ r.items=r.next.2::r.next.1.items := by
  have hcap := h.cap_lt
  have hle := h.le
  have hlen : r.next.1.len+1=r.len := by
    have hone : UInt32.ofNat r.len=1+UInt32.ofNat (r.len-1) := by
      rw [← UInt32.ofNat_one,← ofNat_add,Nat.add_sub_cancel' hpos]
    have hsub : r.tail-(r.head+1)=UInt32.ofNat (r.len-1) := by
      rw [tail_eq,hone,← UInt32.add_assoc,UInt32.add_comm (r.head+1),UInt32.add_sub_cancel]
    change (r.tail-(r.head+1)).toNat+1=r.len
    rw [hsub,toNat_small _ (by omega),Nat.sub_add_cancel hpos]
  refine ⟨⟨h.cells,by change r.next.1.len≤r.cap; omega⟩,?_⟩
  rw [items,← hlen,range_succ_eq_map,map_cons,items,map_map]
  congr 1
  · rw [Ring.next]
    simp
  · refine map_congr_left fun i _ => ?_
    have hhead : r.head+UInt32.ofNat (i+1)=r.head+1+UInt32.ofNat i := by
      rw [add_comm i,ofNat_add,← UInt32.add_assoc,UInt32.ofNat_one]
    simp only [Function.comp_apply,Ring.next,succ_eq_add_one,hhead]

theorem Sized.nexts (n : Nat) (hn : n≤r.len) :
    (nexts n r).1.Sized ∧ (nexts n r).1.cap=r.cap ∧ r.items=(nexts n r).2++(nexts n r).1.items ∧
      (nexts n r).2.length=n := by
  induction n generalizing r with
  | zero => exact ⟨h,rfl,rfl,rfl⟩
  | succ n ih =>
    obtain ⟨h',hitems⟩ := h.next (by omega)
    have hlen := congrArg length hitems
    rw [length_cons,items_length,items_length] at hlen
    obtain ⟨hs,hc,hi,hl⟩ := ih h' (by omega)
    refine ⟨hs,hc,?_,?_⟩
    · rw [hitems,hi]
      rfl
    · rw [Ring.nexts,length_cons,hl]

theorem Sized.pop (n : Int) :
    (r.pop n).1.Sized ∧ (r.pop n).1.cap=r.cap ∧ r.items=(r.pop n).2++(r.pop n).1.items ∧
      (r.pop n).2.length=min n.toNat r.len := by
  have hn : (if n > r.len then (r.len : Int) else n).toNat=min n.toNat r.len := by split <;> omega
  rw [Ring.pop,hn]
  exact h.nexts _ (min_le_right _ _)

theorem Sized.full_iff : r.tail-r.head > r.mask ↔ r.cap≤r.len := by
  obtain ⟨k,hk,hc,hm⟩ := h.cells
  have hpos := Nat.two_pow_pos k
  rw [gt_iff_lt,lt_iff_toNat_lt,hm,hc,← len]
  omega

theorem Sized.enqueue_eq (as : List UInt64) :
    r.enqueue as=((as.take (r.cap-r.len)).foldl Ring.put r,as.length-(r.cap-r.len)) := by
  induction as generalizing r with
  | nil => simp [Ring.enqueue]
  | cons a as ih =>
    rw [Ring.enqueue]
    split
    case isTrue hfull =>
      rw [Nat.sub_eq_zero_of_le (h.full_iff.mp hfull)]
      rfl
    rename_i hno
    rw [h.full_iff,not_le] at hno
    obtain ⟨m,hm⟩ := exists_eq_add_one_of_ne_zero (sub_ne_zero_of_lt hno)
    have hleft : (r.put a).cap-(r.put a).len=m := by
      rw [h.len_put hno a]
      change r.cap-(r.len+1)=m
      omega
    rw [ih (h.put hno a).1,hleft,hm,take_succ_cons,foldl_cons,length_cons,Nat.add_sub_add_right]

theorem Sized.enqueue (as : List UInt64) (hroom : r.len+as.length≤r.cap) :
    r.enqueue as=(as.foldl Ring.put r,0) := by
  rw [h.enqueue_eq,take_of_length_le (by omega),Nat.sub_eq_zero_of_le (by omega)]

theorem Sized.dequeue {n : UInt32} {r' : Ring} {as : List UInt64}
    (hd : r.dequeue n=some (r',as)) : r'.Sized ∧ r'.cap=r.cap ∧ r.items=as++r'.items := by
  rw [Ring.dequeue] at hd
  obtain ⟨hno,hd⟩ := passed hd nofun
  rw [lt_iff_toNat_lt,← len] at hno
  injection hd with hd
  obtain ⟨hs,hc,hi,-⟩ := h.nexts n.toNat (by omega)
  rw [hd] at hs hc hi
  exact ⟨hs,hc,hi⟩

end

end

end Ring

end Packetio.Dpdk

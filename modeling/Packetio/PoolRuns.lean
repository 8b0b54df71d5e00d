import Packetio.Pool

/-! What holds of a pool whatever is popped from it and pushed at it: different
frames of its own on the list, and in a checked build bits that say which. -/
namespace Packetio.Pool
open Lib List UInt64

structure Frames.Inv (first count k : Nat) (p : Frames) : Prop where
  shape : p.Shape first count k
  own : ∀ a∈p.free, a∈frameStarts first count (2^k)
  nodup : p.free.Nodup
  bits : p.checked=true → ∀ j, bit p.words j=true ↔
    j<count ∧ UInt64.ofNat ((first+j)*2^k)∈p.free

theorem ones_bit (r i : Nat) (hr : r<64) :
    ((1 <<< UInt64.ofNat r)-1 : UInt64).toBitVec.getLsbD i=decide (i<r) := by
  have hpow : 2^r<2^64 := Nat.pow_lt_pow_right (by decide) hr
  have hone : (1 <<< UInt64.ofNat r : UInt64).toNat=2^r := by
    rw [UInt64.toNat_shiftLeft,toNat_ofNat_of_lt' (by change r<2^64; omega),
      Nat.mod_eq_of_lt hr,toNat_one,Nat.one_shiftLeft,Nat.mod_eq_of_lt hpow]
  have hle : (1 : UInt64)≤1 <<< UInt64.ofNat r := by
    rw [le_iff_toNat_le,hone]
    exact Nat.one_le_two_pow
  change ((1 <<< UInt64.ofNat r)-1 : UInt64).toNat.testBit i=decide (i<r)
  rw [UInt64.toNat_sub_of_le _ _ hle,hone,toNat_one,Nat.testBit_two_pow_sub_one]

theorem all_ones_bit {i : Nat} (hi : i<64) :
    (0xffffffffffffffff : UInt64).toBitVec.getLsbD i=true := by
  have h : ∀ i<64, (0xffffffffffffffff : UInt64).toBitVec.getLsbD i=true := by decide
  exact h i hi

theorem initChecks_bit (count j : Nat) : bit (initChecks true count) j=decide (j<count) := by
  have hj : j%64<64 := Nat.mod_lt _ (by decide)
  have hr : count%64<64 := Nat.mod_lt _ (by decide)
  have hfull : bit (replicate ((count+63)/64) 0xffffffffffffffff) j =
      decide (j/64<(count+63)/64) := by
    by_cases hlt : j/64<(count+63)/64
    · rw [bit,getElem?_replicate,if_pos hlt,Option.getD_some,all_ones_bit hj]
      simp [hlt]
    · simp [bit,hlt]
  simp only [initChecks,if_true,length_replicate]
  split
  case isTrue h0 =>
    have hlast : (count+63)/64-1=count/64 := by omega
    have hin : count/64<(replicate ((count+63)/64) (0xffffffffffffffff : UInt64)).length := by
      rw [length_replicate]
      omega
    rw [hlast,bit_set hin,hfull,ones_bit _ _ hr]
    split
    case isTrue | isFalse => exact decide_eq_decide.mpr (by omega)
  case isFalse h0 =>
    rw [hfull]
    exact decide_eq_decide.mpr (by omega)

theorem trailingZeros64_two_pow : ∀ k<64, trailingZeros64 (UInt64.ofNat (2^k))=k := by decide

theorem newFrames_free (checked : Bool) (first count frameSize : Nat) :
    (newFrames checked first count frameSize).free =
      (frameStarts first count frameSize).reverse := by
  have hrange : (frameStarts first count frameSize) =
      (range' first count).map fun i => ofNat (i*frameSize) := by
    rw [frameStarts,range'_eq_map_range,map_map]
    rfl
  rw [hrange,← map_reverse,reverse_range',map_map,newFrames]
  simp

theorem newFrames_inv (checked : Bool) {first count k : Nat} (hk : k<63)
    (hfit : (first+count)*2^k<2^64) : (newFrames checked first count (2^k)).Inv first count k := by
  have hmul : first*2^k+count*2^k=(first+count)*2^k := (Nat.add_mul _ _ _).symm
  have hfirst : first*2^k<2^64 := by omega
  have hpow : 2^k-1<2^64 :=
    lt_of_le_of_lt (Nat.sub_le _ _) (Nat.pow_lt_pow_right (by decide) (by omega))
  refine ⟨⟨hfit,by omega,?_,?_,?_,?_,rfl,?_⟩,?_,?_,?_⟩
  · rw [newFrames,← ofNat_mul]
    exact toNat_ofNat_of_lt' hfirst
  · rw [newFrames,← ofNat_mul,← ofNat_mul,← ofNat_add,hmul]
    exact toNat_ofNat_of_lt' hfit
  · exact toNat_ofNat_of_lt' hpow
  · exact trailingZeros64_two_pow k (by omega)
  · rintro rfl
    simp only [newFrames,initChecks,if_true]
    split <;> simp
  · intro a ha
    rw [newFrames_free] at ha
    exact mem_reverse.mp ha
  · rw [newFrames_free,nodup_reverse]
    exact nodup_frameStarts hfit
  · rintro rfl j
    rw [newFrames_free,mem_reverse]
    simp only [newFrames,initChecks_bit,decide_eq_true_eq]
    refine ⟨fun hj => ⟨hj,?_⟩,fun hj => hj.1⟩
    exact mem_map.mpr ⟨j,mem_range.mpr hj,rfl⟩

section
variable {first count k : Nat} {p : Frames}

theorem Frames.Shape.markTaken (h : p.Shape first count k) (addrs : List UInt64)
    (hown : ∀ a∈addrs, a∈frameStarts first count (2^k)) :
    ∃ ws, p.markTaken addrs=some { p with words := ws } ∧
      { p with words := ws }.Shape first count k ∧
      (p.checked=true → ∀ j<count, bit ws j=true ↔
        bit p.words j=true ∧ UInt64.ofNat ((first+j)*2^k)∉addrs) ∧
      ∀ j, count≤j → bit ws j=bit p.words j := by
  induction addrs generalizing p with
  | nil => exact ⟨p.words,rfl,h,fun _ j _ => by simp,fun _ _ => rfl⟩
  | cons a addrs ih =>
    have hown' : ∀ b∈addrs, b∈frameStarts first count (2^k) := fun b hb => hown b (by simp [hb])
    by_cases hc : p.checked=true
    · obtain ⟨i,w,hi,hstart,hq,hs,hw⟩ := h.word_start hc (hown a (by simp))
      have h' : Frames.Shape first count k
          { p with words := p.words.set (i/64) (w &&& ~~~(1 <<< (p.index a &&& 63))) } :=
        { h with words := fun hc => by simpa using h.words hc }
      obtain ⟨ws,hws,hshape,hbit,hrest⟩ := ih h' hown'
      refine ⟨ws,?_,hshape,fun _ j hj => ?_,fun j hj => ?_⟩
      · rw [Frames.markTaken,if_pos hc]
        simp only [hq,hw]
        exact hws
      · have hne : j≠i ↔ ofNat ((first+j)*2^k)≠a :=
          not_congr ⟨fun he => he ▸ hstart,fun he => start_inj h.fits hj hi (he.trans hstart.symm)⟩
        rw [hbit hc j hj,bit_erase hw hs,Bool.and_eq_true,decide_eq_true_eq,hne,mem_cons,not_or]
        tauto
      · rw [hrest j hj,bit_erase hw hs]
        have hne : j≠i := by omega
        simp [hne]
    · obtain ⟨ws,hws,hshape,-,hrest⟩ := ih h hown'
      refine ⟨ws,?_,hshape,fun ht => absurd ht hc,hrest⟩
      rw [Frames.markTaken,if_neg hc,hws]

theorem mem_left_iff {α : Type*} {l r : List α} (h : (l++r).Nodup) (x : α) :
    x∈l ↔ x∈l++r ∧ x∉r := by
  rw [mem_append]
  constructor
  · intro hx
    exact ⟨.inl hx,disjoint_of_nodup_append h hx⟩
  · rintro ⟨hx,hr⟩
    exact hx.resolve_right hr

theorem Frames.Inv.pop (h : p.Inv first count k) (n : Int) (dst : List UInt64) :
    ∃ p' taken, p.pop n dst=some (p',dst++taken) ∧ p'.Inv first count k ∧
      p.free=p'.free++taken ∧ taken.length=min n.toNat p.free.length ∧
      p'.rejected=p.rejected ∧ p'.checked=p.checked := by
  rw [Frames.pop]
  by_cases h0 : (if n > p.free.length then (p.free.length : Int) else n)≤0
  · refine ⟨p,[],?_,h,by simp,?_,rfl,rfl⟩
    · simp [if_pos h0]
    · split at h0
      · rw [length_nil]
        omega
      · rw [length_nil]
        omega
  simp only [if_neg h0]
  generalize hm : (if n > p.free.length then (p.free.length : Int) else n).toNat=m
  obtain ⟨ws,hws,hshape,hbit,hrest⟩ := h.shape.markTaken (p.free.drop (p.free.length-m))
    fun a ha => h.own a (mem_of_mem_drop ha)
  have hsplit := take_append_drop (p.free.length-m) p.free
  refine ⟨{ p with words := ws, free := p.free.take (p.free.length-m) },
    p.free.drop (p.free.length-m),?_,⟨?_,?_,?_,?_⟩,hsplit.symm,?_,rfl,rfl⟩
  · simp [hws]
  · exact { h.shape with words := hshape.words }
  · exact fun a ha => h.own a (mem_of_mem_take ha)
  · exact h.nodup.sublist (take_sublist _ _)
  · intro hc j
    by_cases hj : j<count
    · have hmem := mem_left_iff (hsplit.symm ▸ h.nodup) (ofNat ((first+j)*2^k))
      rw [hsplit] at hmem
      rw [hbit hc j hj,h.bits hc j,and_assoc,← hmem]
    · rw [hrest j (by omega),h.bits hc j]
      exact ⟨fun hx => absurd hx.1 hj,fun hx => absurd hx.1 hj⟩
  · rw [length_drop]
    omega

theorem Frames.Inv.push (h : p.Inv first count k) {a : UInt64}
    (ha : a∈frameStarts first count (2^k)) (hnot : a∉p.free) :
    ∃ ws, p.push a=some { p with words := ws, free := p.free++[a] } ∧
      { p with words := ws, free := p.free++[a] }.Inv first count k := by
  have hpass : ¬ (a<p.base ∨ a ≥ p.endAddr ∨ a &&& p.frameMask≠0 ∨ p.free.length ≥ p.cap) := by
    have haddr := mt h.shape.refused_iff.mp (Classical.not_not.mpr ha)
    have hroom := not_le.mpr (length_lt_of_not_mem h.nodup h.own ha hnot)
    rw [h.shape.cap]
    tauto
  have hnodup : (p.free++[a]).Nodup := by
    rw [nodup_append]
    exact ⟨h.nodup,nodup_singleton a,fun x hx y hy => by
      rw [mem_singleton] at hy
      rintro rfl
      exact hnot (hy ▸ hx)⟩
  have hown : ∀ x∈p.free++[a], x∈frameStarts first count (2^k) := by
    intro x hx
    cases mem_append.mp hx with
    | inl hx => exact h.own x hx
    | inr hx => exact mem_singleton.mp hx ▸ ha
  rw [Frames.push,if_neg hpass]
  by_cases hc : p.checked=true
  · obtain ⟨i,w,hi,hstart,hq,hs,hw⟩ := h.shape.word_start hc ha
    have hclear : ¬ w &&& (1 <<< (p.index a &&& 63))≠0 := by
      rw [and_mask_ne_zero hs]
      have hb := mt (h.bits hc i).mp (fun hx => hnot (hstart ▸ hx.2))
      rwa [bit,hw,Option.getD_some] at hb
    refine ⟨p.words.set (i/64) (w ||| (1 <<< (p.index a &&& 63))),?_,⟨?_,hown,hnodup,?_⟩⟩
    · rw [Frames.markFree,if_pos hc]
      simp [hq,hw,if_neg hclear]
    · exact { h.shape with words := fun hc => by simpa using h.shape.words hc }
    · intro _ j
      rw [bit_insert hw hs,Bool.or_eq_true,decide_eq_true_eq,h.bits hc j,mem_append,mem_singleton]
      constructor
      · rintro (rfl | hx)
        · exact ⟨hi,.inr hstart⟩
        · exact ⟨hx.1,.inl hx.2⟩
      · rintro ⟨hj,hx | hx⟩
        · exact .inr ⟨hj,hx⟩
        · exact .inl (start_inj h.shape.fits hj hi (hx.trans hstart.symm))
  · refine ⟨p.words,?_,⟨?_,hown,hnodup,fun ht => absurd ht hc⟩⟩
    · rw [Frames.markFree,if_neg hc]
    · exact { h.shape with words := fun ht => absurd ht hc }

theorem Frames.Inv.push_refused (h : p.Inv first count k) (hc : p.checked=true) {a : UInt64}
    (ha : a∉frameStarts first count (2^k) ∨ a∈p.free) :
    p.push a=some { p with rejected := p.rejected+1 } := by
  rw [Frames.push]
  by_cases hno : a<p.base ∨ a ≥ p.endAddr ∨ a &&& p.frameMask≠0 ∨ p.free.length ≥ p.cap
  · rw [if_pos hno]
  rw [if_neg hno]
  have hin : a∈frameStarts first count (2^k) := by
    have hr := mt h.shape.refused_iff.mpr (fun hx => hno (by tauto))
    exact Classical.not_not.mp hr
  have hon : a∈p.free := ha.resolve_left (Classical.not_not.mpr hin)
  obtain ⟨i,w,hi,hstart,hq,hs,hw⟩ := h.shape.word_start hc hin
  have hset : w &&& (1 <<< (p.index a &&& 63))≠0 := by
    rw [and_mask_ne_zero hs]
    have hb := (h.bits hc i).mpr ⟨hi,hstart ▸ hon⟩
    rwa [bit,hw,Option.getD_some] at hb
  rw [Frames.markFree,if_pos hc]
  simp [hq,hw,if_pos hset]

end

inductive Frames.Reach (checked : Bool) (first count frameSize : Nat) : Frames → Prop
  | new : Reach checked first count frameSize (newFrames checked first count frameSize)
  | pop {p p' : Frames} (n : Int) (dst out : List UInt64)
    (hp : Reach checked first count frameSize p)
    (h : p.pop n dst=some (p',out)) : Reach checked first count frameSize p'
  | push {p p' : Frames} (a : UInt64) (hp : Reach checked first count frameSize p)
    (h : p.push a=some p') : Reach checked first count frameSize p'

theorem Frames.Reach.inv {first count k : Nat} (hk : k<63) (hfit : (first+count)*2^k<2^64)
    {p : Frames} (h : Frames.Reach true first count (2^k) p) :
    p.Inv first count k ∧ p.checked=true := by
  induction h with
  | new => exact ⟨newFrames_inv true hk hfit,rfl⟩
  | pop n dst out _ hpop ih =>
    obtain ⟨q,taken,hq,hinv,-,-,-,hc⟩ := ih.1.pop n dst
    rw [hpop] at hq
    injection hq with hq
    injection hq with hq
    exact ⟨hq ▸ hinv,hq ▸ hc.trans ih.2⟩
  | @push p p' a _ hpush ih =>
    obtain ⟨hinv,hc⟩ := ih
    by_cases ha : a∉frameStarts first count (2^k) ∨ a∈p.free
    · rw [hinv.push_refused hc ha] at hpush
      cases hpush
      exact ⟨{ hinv with shape := ⟨hfit,hinv.shape.small,hinv.shape.base,hinv.shape.endAddr,
        hinv.shape.mask, hinv.shape.shift,hinv.shape.cap,hinv.shape.words⟩ },hc⟩
    rw [not_or,Classical.not_not] at ha
    obtain ⟨ws,hws,hinv'⟩ := hinv.push ha.1 ha.2
    rw [hpush] at hws
    injection hws with hws
    exact ⟨hws ▸ hinv',hws ▸ hc⟩

/-- Whatever is popped and pushed, in a checked build the list holds different
frames of the pool's own range, at most all of them, and the bits say which. No
operation indexes out of range. A push appends or leaves the list and counts a
refusal, and it always appends a frame of the pool that is not on the list. -/
theorem free_list_sound (first count k : Nat) (hk : k < 63) (hfit : (first+count)*2^k < 2^64)
    (p : Frames) (h : Frames.Reach true first count (2^k) p) :
    p.free.Nodup ∧ (∀ a ∈ p.free, ∃ j < count, a.toNat = (first+j)*2^k) ∧ p.free.length ≤ count ∧
      (∀ j, bit p.words j = true ↔ j < count ∧ UInt64.ofNat ((first+j)*2^k) ∈ p.free) ∧
      (∀ n dst, (p.pop n dst).isSome) ∧ ∀ a, ∃ p', p.push a = some p' ∧
        (p'.free = p.free++[a] ∧ p'.rejected = p.rejected ∨
          p'.free = p.free ∧ p'.rejected = p.rejected+1) ∧
        ((∃ j < count, a.toNat = (first+j)*2^k) → a ∉ p.free →
          p'.free = p.free++[a] ∧ p'.rejected = p.rejected) := by
  obtain ⟨hinv,hc⟩ := h.inv hk hfit
  have hlen : p.free.length≤count := by
    have hsub := (hinv.nodup.subperm hinv.own).length_le
    rwa [frameStarts,length_map,length_range] at hsub
  refine ⟨hinv.nodup,fun a ha => (mem_frameStarts hfit).mp (hinv.own a ha),hlen,hinv.bits hc,
    fun n dst => ?_,fun a => ?_⟩
  · obtain ⟨q,taken,hq,-⟩ := hinv.pop n dst
    rw [hq]
    rfl
  · by_cases ha : a∉frameStarts first count (2^k) ∨ a∈p.free
    · refine ⟨_,hinv.push_refused hc ha,.inr ⟨rfl,rfl⟩,fun hown hnot => ?_⟩
      exact absurd ((mem_frameStarts hfit).mpr hown) (ha.resolve_right hnot)
    rw [not_or,Classical.not_not] at ha
    obtain ⟨ws,hws,-⟩ := hinv.push ha.1 ha.2
    exact ⟨_,hws,.inl ⟨rfl,rfl⟩,fun _ _ => ⟨rfl,rfl⟩⟩

theorem free_list_sound_three :
    ∃ p, Frames.Reach true 1 3 64 p ∧ p.free = [192,128] ∧ p.push 64 = some { p with
      words := [7], free := [192,128,64] } ∧ p.free.Nodup ∧ p.free.length ≤ 3 := by
  have hpop : (newFrames true 1 3 (2^6)).pop 1 [] =
      some ({ newFrames true 1 3 (2^6) with free := [192,128], words := [6] },[64]) := rfl
  have hreach : Frames.Reach true 1 3 (2^6) _ := .pop 1 [] [64] .new hpop
  have hs := free_list_sound 1 3 6 (by decide) (by decide) _ hreach
  exact ⟨_,hreach,rfl,rfl,hs.1,hs.2.2.1⟩

end Packetio.Pool

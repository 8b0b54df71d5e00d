import Mathlib.Algebra.Order.Group.Multiset
import Packetio.Frame
import Packetio.Lib.Spans
import Packetio.PoolRuns

/-! Frames by the descriptors that lie in them, and what putting frames back does to a
pool: its own go on the list, the others are refused. -/
namespace Packetio.Pool
open List Multiset UInt64 Nat

def pushBases (p : Frames) : List Desc → Option Frames
  | [] => some p
  | d::ds => match p.push (p.baseOf d.addr) with
    | none => none
    | some p => pushBases p ds

def clamp (n : Int) (avail : Nat) : Option Int :=
  if n > avail then if avail=0 then none else some avail else some n

def Frames.pushAll (p : Frames) : List UInt64 → Option Frames
  | [] => some p
  | a::as => match p.push a with
    | none => none
    | some p => p.pushAll as

/-- The start of the frame a descriptor lies in, for frames of `2^k` bytes. -/
def frameOf (k : Nat) (d : Desc) : UInt64 := UInt64.ofNat (d.addr.toNat/2^k*2^k)

def bases (k : Nat) (ds : List Desc) : Multiset UInt64 := ↑(ds.map (frameOf k))

@[simp] theorem bases_nil (k : Nat) : bases k [] = 0 := rfl

@[simp] theorem bases_append (k : Nat) (ds es : List Desc) :
    bases k (ds++es) = bases k ds+bases k es := by
  rw [bases,bases,bases,map_append,coe_add]

theorem spans_frames (first size : Nat) (ns : List Nat) :
    ((Lib.spans first ns).map fun x => (↑(frameStarts x.1 x.2 size) : Multiset UInt64)).sum =
      ↑(frameStarts first ns.sum size) := by
  induction ns generalizing first with
  | nil => rfl
  | cons n ns ih =>
    rw [Lib.spans,List.map_cons,List.sum_cons,ih,coe_add,frameStarts_append,List.sum_cons]

variable {ds es : List Desc} {as : List UInt64} {k off count first : Nat} {a : UInt64} {p : Frames}

theorem bases_congr (k : Nat) (h : ds.map Desc.addr=es.map Desc.addr) : bases k ds=bases k es := by
  have hmap : ∀ ds : List Desc, ds.map (frameOf k) =
      (ds.map Desc.addr).map fun a => ofNat (a.toNat/2^k*2^k) := by
    intro ds
    rw [List.map_map]
    rfl
  rw [bases,bases,hmap,hmap,h]

theorem bases_split (k n : Nat) (ds : List Desc) :
    bases k (ds.drop n)+bases k (ds.take n)=bases k ds := by
  rw [add_comm,← bases_append,take_append_drop]

theorem bases_take_le (k n : Nat) (ds : List Desc) : bases k (ds.take n)≤bases k ds :=
  bases_split k n ds ▸ le_add_left _ _

theorem own_of_bases_le (h : ∀ d∈ds, frameOf k d∈as) (hle : bases k es≤bases k ds) :
    ∀ d∈es, frameOf k d∈as := by
  intro d hd
  have hmem := mem_of_le hle (mem_coe.mpr (mem_map_of_mem hd))
  obtain ⟨d',hd',heq⟩ := mem_map.mp (mem_coe.mp hmem)
  exact heq ▸ h d' hd'

theorem and_not_mask {mask : UInt64} (h : mask.toNat=2^k-1) (a : UInt64) :
    a &&& ~~~mask=UInt64.ofNat (a.toNat/2^k*2^k) := by
  rw [← UInt64.toBitVec_inj]
  refine BitVec.eq_of_getLsbD_eq fun i hi => ?_
  have hmask : mask.toBitVec.getLsbD i=decide (i<k) := by
    rw [BitVec.getLsbD,toNat_toBitVec,h,testBit_two_pow_sub_one]
  have hstart : (a.toNat/2^k*2^k).testBit i=(decide (k ≤ i) && a.toNat.testBit i) := by
    rw [testBit_mul_two_pow,testBit_div_two_pow]
    by_cases hk : k ≤ i
    · rw [Nat.sub_add_cancel hk]
    · simp [hk]
  rw [UInt64.toBitVec_and,UInt64.toBitVec_not,BitVec.getLsbD_and,BitVec.getLsbD_not,hmask,
    toBitVec_ofNat',BitVec.getLsbD_ofNat,hstart,BitVec.getLsbD,toNat_toBitVec]
  by_cases hk : k ≤ i
  · simp [hi,hk]
  · simp [hi,hk,Nat.lt_of_not_le hk]

theorem frameOf_toNat (k : Nat) (d : Desc) : (frameOf k d).toNat=d.addr.toNat/2^k*2^k :=
  toNat_ofNat_of_lt' (lt_of_le_of_lt (div_mul_le_self _ _) d.addr.toNat_lt)

section
variable {first count k : Nat} (hfit : (first+count)*2^k<2^64)
include hfit

section
variable (ha : a∈frameStarts first count (2^k))
include ha

theorem frameOf_inside {d : Desc}
    (hoff : off<2^k) (hd : d.addr.toNat=a.toNat+off) : frameOf k d=a := by
  obtain ⟨j,hj,haj⟩ := (mem_frameStarts hfit).mp ha
  have hdiv : d.addr.toNat/2^k=first+j := by
    rw [hd,haj,Nat.mul_comm,Nat.mul_add_div (Nat.two_pow_pos k),Nat.div_eq_of_lt hoff,add_zero]
  rw [frameOf,hdiv,← UInt64.toNat_inj,start_toNat hfit hj,haj]

theorem frameStarts_end : a.toNat+2^k≤(first+count)*2^k := by
  obtain ⟨j,hj,haj⟩ := (mem_frameStarts hfit).mp ha
  rw [haj,← succ_mul]
  exact mul_le_mul_right _ (by omega)

theorem frameOf_headroom
    (hoff : off<2^k) (len options : UInt32) : (a+UInt64.ofNat off).toNat=a.toNat+off ∧
      frameOf k ⟨a+UInt64.ofNat off,len,options⟩=a := by
  have hend := frameStarts_end hfit ha
  have haddr : (a+ofNat off).toNat=a.toNat+off := by
    rw [UInt64.toNat_add,toNat_ofNat_of_lt' (by change _<2^64; omega)]
    exact mod_eq_of_lt (by omega)
  exact ⟨haddr,frameOf_inside hfit ha hoff haddr⟩

end

theorem frameOf_mem (h : p.Shape first count k) {d : Desc}
    (ho : p.owns d.addr=true) : frameOf k d∈frameStarts first count (2^k) := by
  rw [Frames.owns,Bool.and_eq_true,decide_eq_true_eq,decide_eq_true_eq,
    le_iff_toNat_le,lt_iff_toNat_lt,h.base,h.endAddr] at ho
  have hlo := (Nat.le_div_iff_mul_le (Nat.two_pow_pos k)).mpr ho.1
  have hhi := (Nat.div_lt_iff_lt_mul (Nat.two_pow_pos k)).mpr ho.2
  refine (mem_frameStarts hfit).mpr ⟨d.addr.toNat/2^k-first,by omega,?_⟩
  rw [frameOf_toNat,Nat.add_sub_cancel' hlo]

end

theorem Frames.Shape.push_foreign (h : p.Shape first count k)
    (ha : a∉frameStarts first count (2^k)) : p.push a=some { p with rejected := p.rejected+1 } := by
  have hno := h.refused_iff.mpr ha
  rw [Frames.push,if_pos (by tauto)]

theorem Frames.Inv.reject (h : p.Inv first count k) (n : UInt64) :
    { p with rejected := n }.Inv first count k :=
  { h with shape := ⟨h.shape.fits,h.shape.small,h.shape.base,h.shape.endAddr,h.shape.mask,
    h.shape.shift,h.shape.cap, h.shape.words⟩ }

theorem Frames.Inv.pushAll (h : p.Inv first count k)
    (as : List UInt64) (hnd : ((p.free : Multiset UInt64)+as).Nodup) :
    ∃ p', p.pushAll as=some p' ∧ p'.Inv first count k ∧
      p'.free=p.free++as.filter (· ∈ frameStarts first count (2^k)) ∧
      ((∀ a∈as, a∈frameStarts first count (2^k)) → p'.rejected=p.rejected) := by
  induction as generalizing p with
  | nil => exact ⟨p,rfl,h,by simp,fun _ => rfl⟩
  | cons a as ih =>
    by_cases ha : a∈frameStarts first count (2^k)
    · have hnot : a∉p.free := fun hm =>
        (nodup_append.mp hnd).2.2 a hm a mem_cons_self rfl
      obtain ⟨ws,hp,hinv⟩ := h.push ha hnot
      have hnd' : (((p.free++[a] : List UInt64) : Multiset UInt64)+as).Nodup := by
        rwa [coe_add,coe_nodup,append_assoc]
      obtain ⟨p',hp',hinv',hfree,hrej⟩ := ih hinv hnd'
      refine ⟨p',?_,hinv',?_,fun hall => hrej fun b hb => hall b (mem_cons_of_mem a hb)⟩
      · rwa [Frames.pushAll,hp]
      · rw [hfree,List.filter_cons_of_pos (by simpa using ha),append_assoc]
        rfl
    · have hnd' : ((p.free : Multiset UInt64)+as).Nodup := by
        exact hnd.sublist ((sublist_cons_self a as).append_left p.free)
      obtain ⟨p',hp',hinv',hfree,-⟩ := ih (h.reject (p.rejected+1)) hnd'
      refine ⟨p',?_,hinv',?_,fun hall => absurd (hall a mem_cons_self) ha⟩
      · rwa [Frames.pushAll,h.shape.push_foreign ha]
      · rw [hfree,List.filter_cons_of_neg (by simpa using ha)]

theorem Frames.Shape.owns_iff (h : p.Shape first count k) (ha : a.toNat%2^k=0) :
    p.owns a=true ↔ a∈frameStarts first count (2^k) := by
  have hmask : a &&& p.frameMask=0 := by
    rw [← UInt64.toNat_inj,UInt64.toNat_and,h.mask,and_two_pow_sub_one_eq_mod,ha,UInt64.toNat_zero]
  rw [← not_iff_not,← h.refused_iff,Frames.owns,Bool.and_eq_true,decide_eq_true_eq,
    decide_eq_true_eq,not_and_or,UInt64.not_le,UInt64.not_lt,hmask]
  tauto

theorem Frames.Inv.putBack (h : p.Inv first count k)
    (as : List UInt64) (hal : ∀ a∈as, a.toNat%2^k=0) (hnd : ((p.free : Multiset UInt64)+as).Nodup) :
    ∃ p', p.pushAll as=some p' ∧ p'.Inv first count k ∧
      (p'.free : Multiset UInt64)+↑(as.filter fun a => !p.owns a)=(p.free : Multiset UInt64)+as ∧
      ((as.filter fun a => !p.owns a) = [] → p'.rejected=p.rejected) := by
  obtain ⟨p',hp,hinv,hfree,hrej⟩ := h.pushAll as hnd
  have hown : ∀ a∈as, (p.owns a=true ↔ a∈frameStarts first count (2^k)) :=
    fun a ha => h.shape.owns_iff (hal a ha)
  have hfilter : as.filter (· ∈ frameStarts first count (2^k))=as.filter fun a => p.owns a := by
    refine filter_congr fun a ha => ?_
    rw [Bool.eq_iff_iff,decide_eq_true_eq,hown a ha]
  refine ⟨p',hp,hinv,?_,fun hnil => hrej fun a ha => (hown a ha).mp ?_⟩
  · have hsplit := filter_append_perm (fun a => p.owns a) as
    rw [hfree,hfilter,coe_add,coe_add,append_assoc,coe_eq_coe]
    exact hsplit.append_left p.free
  · have hno := filter_eq_nil_iff.mp hnil a ha
    simpa using hno

structure Frames.Alike (p p' : Frames) : Prop where
  base : p'.base=p.base
  endAddr : p'.endAddr=p.endAddr
  mask : p'.frameMask=p.frameMask
  shift : p'.frameShift=p.frameShift
  cap : p'.cap=p.cap
  checked : p'.checked=p.checked
  words : p'.words.length=p.words.length

section
variable {p p' p'' : Frames}

theorem Frames.Alike.refl (p : Frames) : p.Alike p := ⟨rfl,rfl,rfl,rfl,rfl,rfl,rfl⟩

theorem Frames.Alike.trans (h : p.Alike p') (h' : p'.Alike p'') : p.Alike p'' :=
  ⟨h'.base.trans h.base,h'.endAddr.trans h.endAddr,h'.mask.trans h.mask,h'.shift.trans h.shift,
    h'.cap.trans h.cap,h'.checked.trans h.checked,h'.words.trans h.words⟩

theorem Frames.Shape.alike (h : p.Shape first count k) (ha : p.Alike p') : p'.Shape first count k :=
  ⟨h.fits,h.small,ha.base ▸ h.base,ha.endAddr ▸ h.endAddr,ha.mask ▸ h.mask,ha.shift.trans h.shift,
    ha.cap.trans h.cap,fun hc => ha.words.trans (h.words (ha.checked ▸ hc))⟩

theorem Frames.markFree_alike {free : Bool} (h : p.markFree a=some (p',free)) : p.Alike p' := by
  rw [Frames.markFree] at h
  split at h
  case isTrue =>
    rcases hw : p.words[(p.index a >>> 6).toNat]? with _ | w
    · simp only [hw,reduceCtorEq] at h
    simp only [hw] at h
    split at h
    case isTrue =>
      cases h
      exact .refl p
    cases h
    exact ⟨rfl,rfl,rfl,rfl,rfl,rfl,length_set⟩
  case isFalse =>
    cases h
    exact .refl p

theorem Frames.push_alike (h : p.push a=some p') : p.Alike p' := by
  rw [Frames.push] at h
  split at h
  case isTrue =>
    cases h
    exact ⟨rfl,rfl,rfl,rfl,rfl,rfl,rfl⟩
  rcases hm : p.markFree a with _ | ⟨p1,free⟩
  · simp [hm] at h
  have hp1 := Frames.markFree_alike hm
  cases free with
  | false | true =>
    simp only [hm] at h
    cases h
    exact { hp1 with }

theorem Frames.pushAll_alike (h : p.pushAll as=some p') : p.Alike p' := by
  induction as generalizing p with
  | nil =>
    cases h
    exact .refl _
  | cons a as ih =>
    rw [Frames.pushAll] at h
    cases hp : p.push a with
    | none => simp [hp] at h
    | some p1 =>
      simp only [hp] at h
      exact (Frames.push_alike hp).trans (ih h)

theorem Frames.markTaken_alike (h : p.markTaken as=some p') : p.Alike p' := by
  induction as generalizing p with
  | nil =>
    cases h
    exact .refl _
  | cons a as ih =>
    rw [Frames.markTaken] at h
    split at h
    case isTrue =>
      rcases hw : p.words[(p.index a >>> 6).toNat]? with _ | w
      · simp only [hw,reduceCtorEq] at h
      simp only [hw] at h
      have hset : p.Alike { p with
          words := p.words.set (p.index a >>> 6).toNat (w &&& ~~~(1 <<< (p.index a &&& 63))) } :=
        ⟨rfl,rfl,rfl,rfl,rfl,rfl,length_set⟩
      exact hset.trans (ih h)
    case isFalse => exact ih h

theorem Frames.pop_alike {n : Int} {dst out : List UInt64} (h : p.pop n dst=some (p',out)) :
    p.Alike p' := by
  rw [Frames.pop] at h
  generalize (if n > p.free.length then (p.free.length : Int) else n)=m at h
  split at h
  case isTrue =>
    cases h
    exact .refl _
  rcases hm : p.markTaken (p.free.drop (p.free.length-m.toNat)) with _ | p1
  · simp [hm] at h
  simp only [hm] at h
  cases h
  have hp1 := Frames.markTaken_alike hm
  exact { hp1 with }

theorem Frames.Shape.push_total (h : p.Shape first count k) (a : UInt64) :
    ∃ p', p.push a=some p' := by
  rw [Frames.push]
  split
  case isTrue => exact ⟨_,rfl⟩
  rename_i hpass
  have ha : a∈frameStarts first count (2^k) := by
    by_contra hno
    have hrefused := h.refused_iff.mpr hno
    tauto
  rw [Frames.markFree]
  by_cases hc : p.checked=true
  · obtain ⟨i,w,-,-,hq,-,hw⟩ := h.word_start hc ha
    simp only [if_pos hc,hq,hw]
    by_cases hset : w &&& (1 <<< (p.index a &&& 63))≠0
    · simp only [if_pos hset]
      exact ⟨_,rfl⟩
    · simp only [if_neg hset]
      exact ⟨_,rfl⟩
  · simp only [if_neg hc]
    exact ⟨_,rfl⟩

end

theorem pushBases_eq (h : p.frameMask.toNat=2^k-1) (ds : List Desc) :
    pushBases p ds=p.pushAll (ds.map (frameOf k)) := by
  induction ds generalizing p with
  | nil => rfl
  | cons d ds ih =>
    rw [pushBases,List.map_cons,Frames.pushAll,Frames.baseOf,and_not_mask h,← frameOf]
    cases hp : p.push (frameOf k d) with
    | none => rfl
    | some p' => exact ih ((Frames.push_alike hp).mask.symm ▸ h)

section
variable (h : p.Inv first count k)
include h

theorem Frames.Inv.free_le : (p.free : Multiset UInt64) ≤ ↑(frameStarts first count (2^k)) :=
  (le_iff_subset (coe_nodup.mpr h.nodup)).mpr fun a ha => h.own a ha

theorem Frames.Inv.own_back
    {away held : Multiset UInt64} (hnd : ((p.free : Multiset UInt64)+away+held).Nodup)
    {descs : List Desc} (hc : bases k descs≤held ∧ ∀ d∈descs, p.owns d.addr=true) :
    (∀ d∈descs, frameOf k d∈frameStarts first count (2^k)) ∧
      ((p.free : Multiset UInt64)+bases k descs).Nodup := by
  refine ⟨fun d hd => frameOf_mem h.shape.fits h.shape (hc.2 d hd),?_⟩
  exact nodup_of_le (add_le_add (le_add_right _ _) hc.1) hnd

theorem Frames.Inv.pushOwn (hown : ∀ a∈as, a∈frameStarts first count (2^k))
    (hnd : ((p.free : Multiset UInt64)+as).Nodup) :
    ∃ p', p.pushAll as=some p' ∧ p'.Inv first count k ∧ p'.rejected=p.rejected ∧
      (p'.free : Multiset UInt64)=(p.free : Multiset UInt64)+as := by
  obtain ⟨p',hp,hinv,hfree,hrej⟩ := h.pushAll as hnd
  rw [List.filter_eq_self.mpr (by simpa using hown)] at hfree
  exact ⟨p',hp,hinv,hrej hown,by rw [hfree,coe_add]⟩

theorem pushBases_spec (ds : List Desc) (hown : ∀ d∈ds, frameOf k d∈frameStarts first count (2^k))
    (hnd : ((p.free : Multiset UInt64)+bases k ds).Nodup) :
    ∃ p', pushBases p ds=some p' ∧ p'.Inv first count k ∧ p'.rejected=p.rejected ∧
      (p'.free : Multiset UInt64)=(p.free : Multiset UInt64)+bases k ds := by
  have hall : ∀ a∈ds.map (frameOf k), a∈frameStarts first count (2^k) := by
    intro a ha
    obtain ⟨d,hd,rfl⟩ := mem_map.mp ha
    exact hown d hd
  rw [pushBases_eq h.shape.mask]
  exact h.pushOwn hall hnd

end

end Packetio.Pool

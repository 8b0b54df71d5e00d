import Packetio.Dpdk.PortFrames

/-! Which bytes Receive hands out: the driver writes where in its buffer a packet starts,
and the check that follows looks at the frame this leads to. -/
namespace Packetio.Dpdk
open Pool Dpdk.Mbuf List

namespace Fixed

/-- The descriptor of a packet as the driver described it in the mbuf of `frame`. -/
def describe (b : Fixed) (frame : UInt64) (f : RxFields) : Desc :=
  ⟨frame+b.bufStart+f.dataOff.toUInt64,f.dataLen.toUInt32,Rx.rxOptions f.olFlags⟩

def delivered (b : Fixed) (r : Region) (va : UInt64) : Option (UInt64 × Desc) :=
  match b.frameOfVA va with
  | none => none
  | some frame => match rxRead r (b.mbufAt frame) with
    | none => none
    | some f => if f.nbSegs≠1 then none
      else if !b.descOK (b.describe frame f) then none else some (frame,b.describe frame f)

/-- Bytes of the packet area of `frame`, at least one. -/
def InArea (b : Fixed) (frame : UInt64) (d : Desc) : Prop :=
  frame.toNat+b.bufStart.toNat≤d.addr.toNat ∧
    d.addr.toNat+d.len.toNat≤frame.toNat+b.l.frameSize ∧ 0<d.len.toNat

end Fixed

variable {acc acc' : Rx.Delivery} {q q' : Rx} {r : Region} {va frame : UInt64}

namespace Rx

def burst (q : Rx) (max got : Int) (out : List UInt64) : List UInt64 :=
  if !q.polls max then []
  else if got≤0 ∨ got > min max q.depth then [] else out.take got.toNat

def Alike (q q' : Rx) : Prop := q'.toFixed=q.toFixed ∧ q'.pool.frameMask=q.pool.frameMask

def Kept (q q' : Rx) : Prop := q'.toFixed=q.toFixed ∧ q.pool.Alike q'.pool

theorem deliver_descs (h : q.deliver r acc va=some (q',acc')) :
    q.Kept q' ∧ acc'.descs=acc.descs++((q.delivered r va).map Prod.snd).toList := by
  rw [Fixed.delivered]
  cases deliver_turn h with
  | foreign hframe =>
    simp only [hframe]
    exact ⟨⟨rfl,.refl _⟩,(append_nil _).symm⟩
  | @refused frame f st _ hframe hread hbad hq =>
    have hnone : (if f.nbSegs≠1 then none else if !q.descOK (q.describe frame f) then none
        else some (frame,q.describe frame f))=none := by
      by_cases hseg : f.nbSegs=1
      · have hbad : q.descOK (q.describe frame f)=false := hbad hseg
        simp [hbad]
      · simp [hseg]
    obtain ⟨p,hp,rfl⟩ := refuse_some hq
    simp only [hframe,hread,hnone]
    exact ⟨⟨rfl,Frames.push_alike hp⟩,(append_nil _).symm⟩
  | @passed frame f d hframe hread hseg hd hok =>
    have hd : d=q.describe frame f := hd
    rw [hd] at hok
    simp only [hframe,hread,hseg,hok,hd]
    exact ⟨⟨rfl,.refl _⟩,rfl⟩

theorem delivers_descs {vas : List UInt64}
    (h : vas.foldlM (fun x va => x.1.deliver r x.2 va) (q,acc)=some (q',acc')) :
    q.Kept q' ∧ acc'.descs=acc.descs++(vas.filterMap (q.delivered r)).map Prod.snd := by
  induction vas generalizing q acc with
  | nil =>
    cases h
    exact ⟨⟨rfl,.refl _⟩,(append_nil _).symm⟩
  | cons va vas ih =>
    obtain ⟨⟨q1,acc1⟩,h1,h⟩ := Option.bind_eq_some_iff.mp h
    obtain ⟨⟨hfixed,hpool⟩,hdescs⟩ := deliver_descs h1
    obtain ⟨⟨hfixed',hpool'⟩,hdescs'⟩ := ih h
    refine ⟨⟨hfixed'.trans hfixed,hpool.trans hpool'⟩,?_⟩
    rw [hdescs',hdescs,append_assoc,hfixed,filterMap_cons]
    cases q.delivered r va with
    | none | some _ => rfl

theorem receive_descs {max got : Int} {out : List UInt64} {descs : List Desc}
    (h : q.receive r max got out=some (q',descs)) :
    q.Kept q' ∧ descs=((q.burst max got out).filterMap (q.delivered r)).map Prod.snd := by
  cases receive_some h with
  | inl h =>
    obtain ⟨hnot,rfl,rfl⟩ := h
    have hnil : q'.burst max got out = [] := by
      rw [burst]
      cases hnot with
      | inl hpoll => rw [if_pos hpoll]
      | inr hgot =>
        rw [if_pos hgot]
        exact ite_self _
    rw [hnil]
    exact ⟨⟨rfl,.refl _⟩,rfl⟩
  | inr h =>
    obtain ⟨q1,acc,hpoll,hgot,hd,rfl,rfl⟩ := h
    obtain ⟨hkept,hdescs⟩ := delivers_descs hd
    rw [nil_append] at hdescs
    rw [burst,if_neg hpoll,if_neg hgot,← hdescs]
    exact ⟨hkept,rfl⟩

end Rx

section
variable {k total : Nat} {b : Fixed} (h : b.Shape k total)
include h

theorem Fixed.Shape.frameOfVA_mem (hf : b.frameOfVA va=some frame) :
    frame∈frameStarts 0 total (2^k) := by
  rw [Fixed.frameOfVA,Option.map_eq_some_iff] at hf
  obtain ⟨off,hoff,rfl⟩ := hf
  obtain ⟨-,hoff⟩ := passed hoff (by simp)
  obtain ⟨hlt,hoff⟩ := passed hoff (by simp)
  injection hoff with hoff
  rw [hoff,ge_iff_le,UInt64.le_iff_toNat_le,h.regionLen,not_le] at hlt
  rw [h.frameOf_eq ⟨off,0,0⟩]
  exact h.frameOf_mem hlt

theorem Fixed.Shape.describe_addr (ha : frame∈frameStarts 0 total (2^k)) (f : RxFields) :
    (b.describe frame f).addr.toNat=frame.toNat+b.bufStart.toNat+f.dataOff.toNat := by
  have hle := h.frame_le ha
  have hfits := h.fits
  have hhdr := h.header_lt
  have hbuf := h.bufStart
  have hoff := f.dataOff.toNat_lt
  rw [Fixed.describe,UInt64.toNat_add,UInt64.toNat_add,UInt16.toNat_toUInt64,
    Nat.mod_eq_of_lt (a := frame.toNat+_) (by omega),Nat.mod_eq_of_lt (by omega)]

theorem Fixed.Shape.inArea_iff (ha : frame∈frameStarts 0 total (2^k))
    {f : RxFields} (hok : b.descOK (b.describe frame f)=true) :
    (b.InArea frame (b.describe frame f) ∧ Pool.frameOf k (b.describe frame f)=frame) ↔
      b.bufStart.toNat+f.dataOff.toNat<b.l.frameSize := by
  have haddr := h.describe_addr ha f
  obtain ⟨-,hend,hpos⟩ := h.descOK_inside hok
  rw [Fixed.InArea,h.frameSize]
  constructor
  · rintro ⟨⟨-,hle,-⟩,-⟩
    omega
  · intro hlt
    have hframe : Pool.frameOf k (b.describe frame f)=frame :=
      frameOf_inside h.fits64 ha hlt (by rw [haddr,add_assoc])
    rw [hframe] at hend
    exact ⟨⟨by omega,hend,hpos⟩,hframe⟩

end

theorem Fixed.delivered_some {b : Fixed} {x : UInt64 × Desc} (hx : b.delivered r va=some x) :
    ∃ f, b.frameOfVA va=some x.1 ∧ rxRead r (b.mbufAt x.1)=some f ∧ f.nbSegs=1 ∧
      b.descOK (b.describe x.1 f)=true ∧ x.2=b.describe x.1 f := by
  rw [Fixed.delivered] at hx
  rcases hframe : b.frameOfVA va with _ | frame
  · simp [hframe] at hx
  rcases hf : rxRead r (b.mbufAt frame) with _ | f
  · simp [hframe,hf] at hx
  simp only [hframe,hf] at hx
  obtain ⟨hseg,hx⟩ := passed hx nofun
  obtain ⟨hok,hx⟩ := passed hx nofun
  cases hx
  exact ⟨f,rfl,hf,not_not.mp hseg,by simpa using hok,rfl⟩

def Fixed.OffsetsInside (b : Fixed) (r : Region) (vas : List UInt64) : Prop :=
  ∀ va∈vas, ∀ frame f, b.frameOfVA va=some frame → rxRead r (b.mbufAt frame)=some f →
    f.nbSegs=1 → b.descOK (b.describe frame f)=true →
    b.bufStart.toNat+f.dataOff.toNat<b.l.frameSize

/-- For a receive queue in any state, over any memory and with any addresses delivered:
what Receive returns is in the frames of the mbufs that were delivered, and goes back to
them, just when the offsets the driver wrote are inside. -/
theorem received_in_area_iff (k : Nat) (checked : Bool) (region r : Region) (c : Config) (q₀ q : Rx)
    (hk : c.layout.frameSize = 2^k) (hva : c.regionVA.toNat+region.len ≤ 2^64)
    (hnew : newRx checked region c = .ok q₀) (hq : q₀.Alike q) (max got : Int) (out : List UInt64)
    (q' : Rx) (descs : List Desc) (h : q.receive r max got out = some (q',descs)) :
    descs = ((q.burst max got out).filterMap (q.delivered r)).map Prod.snd ∧
    ((∀ x ∈ (q.burst max got out).filterMap (q.delivered r),
      q.InArea x.1 x.2 ∧ q'.pool.baseOf x.2.addr = x.1) ↔
      q.OffsetsInside r (q.burst max got out)) := by
  obtain ⟨⟨-,hpool⟩,hdescs⟩ := Rx.receive_descs h
  obtain ⟨b,supply,hb,-,rfl⟩ := newRx_ok hnew
  obtain ⟨hfixed,hmask⟩ := hq
  obtain ⟨hshape,hinv,-⟩ := initBase_sound hb hk (initBase_whole hb hk) hva
  have hshape := hfixed ▸ hshape
  have hbase : ∀ d : Desc, q'.pool.baseOf d.addr=Pool.frameOf k d := by
    intro d
    have hmask' : q'.pool.frameMask.toNat=2^k-1 := by
      rw [hpool.mask,hmask]
      exact hinv.shape.mask
    rw [Frames.baseOf,and_not_mask hmask',Pool.frameOf]
  refine ⟨hdescs,fun hall va hva frame f hframe hread hseg hok => ?_,fun hin x hx => ?_⟩
  · have hsome : q.delivered r va=some (frame,q.describe frame f) := by
      simp [Fixed.delivered,hframe,hread,hseg,hok]
    obtain ⟨harea,hback⟩ := hall _ (mem_filterMap.mpr ⟨va,hva,hsome⟩)
    exact (hshape.inArea_iff (hshape.frameOfVA_mem hframe) hok).mp ⟨harea,hbase _ ▸ hback⟩
  · obtain ⟨va,hva,hsome⟩ := mem_filterMap.mp hx
    obtain ⟨f,hframe,hread,hseg,hok,hd⟩ := Fixed.delivered_some hsome
    rw [hbase,hd]
    exact (hshape.inArea_iff (hshape.frameOfVA_mem hframe) hok).mpr
      (hin va hva x.1 f hframe hread hseg hok)

def packetAt (off : UInt16) : Region :=
  ((smallRegion.putUint64 (0x440+offRearm) (off.toUInt64+0x100000000)).get (by rfl)).putUint16
    (0x440+offDataLen) 64 |>.get (by rfl)

theorem received_in_area_iff_near :
    ∃ q' descs, pairRx.receive (packetAt 128) 1 1 [0x10440] = some (q',descs) ∧
      descs = [⟨0x540,64,0⟩] ∧
      ∀ x ∈ (pairRx.burst 1 1 [0x10440]).filterMap (pairRx.delivered (packetAt 128)),
        pairRx.InArea x.1 x.2 ∧ q'.pool.baseOf x.2.addr = x.1 := by
  refine ⟨_,_,rfl,by decide,?_⟩
  refine (received_in_area_iff 9 true smallRegion (packetAt 128) pairRxConfig pairRx pairRx rfl
    (by decide) rfl ⟨rfl,rfl⟩ 1 1 [0x10440] _ _ rfl).2.mpr ?_
  intro va hva frame f hframe hread _ _
  have hburst : pairRx.burst 1 1 [0x10440] = [0x10440] := by decide
  rw [hburst,mem_singleton] at hva
  have hfirst : pairRx.frameOfVA 0x10440=some 0x400 := by decide
  rw [hva,hfirst] at hframe
  cases hframe
  cases hread
  decide

/-- An offset of more than a frame: the descriptor is of the next frame, and that is the
frame that Recycle puts back. -/
theorem offset_leaves_frame :
    ∃ q' descs, pairRx.receive (packetAt 640) 1 1 [0x10440] = some (q',descs) ∧
      pairRx.delivered (packetAt 640) 0x10440 = some (0x400,⟨0x740,64,0⟩) ∧ descs = [⟨0x740,64,0⟩] ∧
      ¬ pairRx.InArea 0x400 ⟨0x740,64,0⟩ ∧ q'.pool.baseOf 0x740 = 0x600 := by
  refine ⟨_,_,rfl,by decide,by decide,fun harea => ?_,by decide⟩
  exact absurd harea.2.1 (by decide)

end Packetio.Dpdk

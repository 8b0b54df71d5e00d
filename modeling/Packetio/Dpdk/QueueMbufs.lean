import Packetio.Dpdk.TransmitWork

/-! Frames and the mbufs in them: how the addresses of frames, mbufs and packets turn
into each other, and which frames a queue writes to. -/
namespace Packetio.Dpdk
open Pool Dpdk.Mbuf Multiset

structure Fixed.Shape (k total : Nat) (b : Fixed) : Prop where
  small : k<63
  frameSize : b.l.frameSize=2^k
  mask : b.frameMask.toNat=2^k-1
  regionLen : b.regionLen.toNat=total*2^k
  fits : total*2^k<2^63
  dataStart : b.dataStart.toNat=b.l.dataStart
  bufStart : b.bufStart.toNat=b.l.objHeader+b.l.mbufSize
  mbufSize : size≤b.l.mbufSize
  room : b.l.dataStart<2^k
  va : b.regionVA.toNat+total*2^k≤2^64
  within : b.firstFrame+b.frames≤total

def Fixed.frameAt (b : Fixed) (va : UInt64) : UInt64 := b.frameOf (va-b.regionVA)

variable {a p : UInt64} {d : Desc} {fs : List UInt64} {r : Region}

theorem Fixed.descOK_iff {b : Fixed} {k : Nat} (hk : k<64) (hmask : b.frameMask.toNat=2^k-1)
    (d : Desc) : b.descOK d=true ↔ d.addr.toNat<b.regionLen.toNat ∧
      b.bufStart.toNat≤d.addr.toNat%2^k ∧ 0<d.len.toNat ∧ d.len.toNat≤2^k-d.addr.toNat%2^k := by
  have hbuf : d.addr &&& b.frameMask<b.bufStart ↔ d.addr.toNat%2^k<b.bufStart.toNat := by
    rw [UInt64.lt_iff_toNat_lt,toNat_and_frameMask hmask]
  have hlen := pred_lt_iff d.len (b.frameMask+1-(d.addr &&& b.frameMask))
  rw [toNat_frame_rest hmask hk] at hlen
  simp only [Fixed.descOK,ge_iff_le,UInt64.le_iff_toNat_le,hbuf,Bool.if_false_left,
    Bool.and_eq_true,Bool.not_eq_true',decide_eq_false_iff_not,not_le,not_lt,
      decide_eq_true_iff,hlen]

namespace Fixed.Shape
variable {k total : Nat} {b : Fixed} (h : b.Shape k total)
include h

theorem fits64 : (0+total)*2^k<2^64 := by
  have hfits := h.fits
  rw [Nat.zero_add]
  omega

section
variable (ha : a∈frameStarts 0 total (2^k))
include ha

theorem frame_toNat : ∃ j<total, a.toNat=j*2^k := by
  obtain ⟨j,hj,haj⟩ := (mem_frameStarts h.fits64).mp ha
  exact ⟨j,hj,by rw [haj,Nat.zero_add]⟩

theorem frame_le : a.toNat+2^k≤total*2^k := by
  obtain ⟨j,hj,haj⟩ := h.frame_toNat ha
  rw [haj,← Nat.succ_mul]
  exact Nat.mul_le_mul_right _ hj

theorem frame_apart {a' : UInt64} (ha' : a'∈frameStarts 0 total (2^k)) (hne : a≠a') :
    a.toNat+2^k≤a'.toNat ∨ a'.toNat+2^k≤a.toNat := by
  obtain ⟨i,-,hi⟩ := h.frame_toNat ha
  obtain ⟨j,-,hj⟩ := h.frame_toNat ha'
  rw [hi,hj,← Nat.succ_mul,← Nat.succ_mul]
  rcases Nat.lt_trichotomy i j with hij | hij | hij
  · exact .inl (Nat.mul_le_mul_right _ hij)
  · exact absurd (UInt64.toNat_inj.mp (by rw [hi,hj,hij])) hne
  · exact .inr (Nat.mul_le_mul_right _ hij)

end

theorem own_mem (ha : a∈frameStarts b.firstFrame b.frames (2^k)) : a∈frameStarts 0 total (2^k) := by
  have hle : (b.firstFrame+b.frames)*2^k≤total*2^k := Nat.mul_le_mul_right _ h.within
  have hfits := h.fits
  have hin := h.within
  obtain ⟨j,hj,haj⟩ := (mem_frameStarts (by omega)).mp ha
  exact (mem_frameStarts h.fits64).mpr ⟨b.firstFrame+j,by omega,by rw [haj,Nat.zero_add]⟩

theorem frameOf_eq (d : Desc) : b.frameOf d.addr=Pool.frameOf k d := by
  rw [Fixed.frameOf,and_not_mask h.mask,Pool.frameOf]

theorem header_lt : b.l.objHeader+b.l.mbufSize<2^k := by
  have := h.room
  rw [Layout.dataStart] at this
  omega

theorem mbufAt_le (a : UInt64) : b.mbufAt a+size≤a.toNat+2^k := by
  have := h.header_lt
  have := h.mbufSize
  rw [Fixed.mbufAt]
  omega

section
variable (ha : a∈frameStarts 0 total (2^k))
include ha

theorem mbufVA_toNat : (b.mbufVA a).toNat=b.regionVA.toNat+(a.toNat+b.l.objHeader) := by
  have hle := h.frame_le ha
  have hm := h.mbufAt_le a
  have hva := h.va
  rw [Fixed.mbufAt,size] at hm
  rw [Fixed.mbufVA,Fixed.mbufAt,UInt64.toNat_add,toNat_small64 _ (by omega),
    Nat.mod_eq_of_lt (by omega)]

theorem mbufVA_sub : (b.mbufVA a-b.regionVA).toNat=b.mbufAt a := by
  have hle : b.regionVA≤b.mbufVA a := by
    rw [UInt64.le_iff_toNat_le,h.mbufVA_toNat ha]
    omega
  rw [UInt64.toNat_sub_of_le _ _ hle,h.mbufVA_toNat ha,Fixed.mbufAt,Nat.add_sub_cancel_left]

theorem frameAt_mbufVA : b.frameAt (b.mbufVA a)=a := by
  have hhdr : b.l.objHeader<2^k := by
    have := h.header_lt
    omega
  rw [Fixed.frameAt,h.frameOf_eq ⟨b.mbufVA a-b.regionVA,0,0⟩]
  refine frameOf_inside h.fits64 ha hhdr ?_
  rw [h.mbufVA_sub ha,Fixed.mbufAt]

end

theorem frames_mbufs (hF : ∀ a∈fs, a∈frameStarts 0 total (2^k)) :
    (fs.map b.mbufVA).map b.frameAt=fs := by
  rw [List.map_map]
  exact (List.map_congr_left fun a ha => h.frameAt_mbufVA (hF a ha)).trans (List.map_id fs)

theorem handed (hF : ∀ a∈fs, a∈frameStarts 0 total (2^k) ∧ Mbuf.pool r (b.mbufAt a)=some p) :
    ∀ va∈fs.map b.mbufVA, b.frameAt va∈fs ∧ Mbuf.pool r (va-b.regionVA).toNat=some p ∧
      ∃ a∈frameStarts 0 total (2^k), va=b.mbufVA a := by
  intro va hva
  obtain ⟨a,ha,rfl⟩ := List.mem_map.mp hva
  obtain ⟨hstart,hst⟩ := hF a ha
  rw [h.frameAt_mbufVA hstart,h.mbufVA_sub hstart]
  exact ⟨ha,hst,a,hstart,rfl⟩

theorem frameOfVA_mbufVA (ha : a∈frameStarts 0 total (2^k)) : b.frameOfVA (b.mbufVA a)=some a := by
  have hle := h.frame_le ha
  have hm := h.mbufAt_le a
  have hlow : ¬ b.mbufVA a<b.regionVA := by
    rw [UInt64.lt_iff_toNat_lt,h.mbufVA_toNat ha]
    omega
  have hhigh : ¬ b.mbufVA a-b.regionVA ≥ b.regionLen := by
    rw [ge_iff_le,UInt64.le_iff_toNat_le,h.mbufVA_sub ha,h.regionLen]
    have hpos : 0<size := by decide
    omega
  rw [Fixed.frameOfVA,Fixed.offsetOfVA,if_neg hlow,if_neg hhigh,Option.map_some,← Fixed.frameAt,
    h.frameAt_mbufVA ha]

theorem known {vas : List UInt64} (hv : ∀ va∈vas, ∃ a∈frameStarts 0 total (2^k), va=b.mbufVA a) :
    vas.filterMap b.frameOfVA=vas.map b.frameAt ∧
      (vas.filter fun va => (b.offsetOfVA va).isNone) = [] := by
  induction vas with
  | nil => exact ⟨rfl,rfl⟩
  | cons va vas ih =>
    obtain ⟨a,ha,rfl⟩ := hv va List.mem_cons_self
    obtain ⟨hmap,hnone⟩ := ih fun v hmem => hv v (List.mem_cons_of_mem _ hmem)
    have hsome := h.frameOfVA_mbufVA ha
    refine ⟨?_,?_⟩
    · rw [List.filterMap_cons_some hsome,hmap,List.map_cons,h.frameAt_mbufVA ha]
    · have hoff : (b.offsetOfVA (b.mbufVA a)).isNone=false := by
        rw [Fixed.frameOfVA,Option.map_eq_some_iff] at hsome
        obtain ⟨off,hoff,-⟩ := hsome
        rw [hoff]
        rfl
      rw [List.filter_cons_of_neg (by rw [hoff]; exact Bool.false_ne_true),hnone]

theorem frame_aligned (ha : a∈frameStarts 0 total (2^k)) : a.toNat%2^k=0 := by
  obtain ⟨j,-,hj⟩ := h.frame_toNat ha
  rw [hj,Nat.mul_mod_left]

theorem dataStart_inside (ha : a∈frameStarts 0 total (2^k)) (len options : UInt32) :
    Pool.frameOf k ⟨a+b.dataStart,len,options⟩=a := by
  have hle := h.frame_le ha
  have hroom := h.room
  have hfits := h.fits
  refine frameOf_inside h.fits64 ha hroom ?_
  rw [UInt64.toNat_add,h.dataStart,Nat.mod_eq_of_lt (by omega)]

theorem frameOf_mem (hd : d.addr.toNat<total*2^k) : Pool.frameOf k d∈frameStarts 0 total (2^k) := by
  refine (mem_frameStarts h.fits64).mpr ⟨d.addr.toNat/2^k,?_,?_⟩
  · exact (Nat.div_lt_iff_lt_mul (Nat.two_pow_pos k)).mpr hd
  · rw [frameOf_toNat,Nat.zero_add]

theorem descOK_inside (hd : b.descOK d=true) : Pool.frameOf k d∈frameStarts 0 total (2^k) ∧
      d.addr.toNat+d.len.toNat≤(Pool.frameOf k d).toNat+2^k ∧ 0<d.len.toNat := by
  have hsmall := h.small
  obtain ⟨haddr,-,hpos,hlen⟩ := (Fixed.descOK_iff (by omega) h.mask d).mp hd
  have hdiv := Nat.div_add_mod' d.addr.toNat (2^k)
  refine ⟨h.frameOf_mem (h.regionLen ▸ haddr),?_,hpos⟩
  rw [frameOf_toNat]
  omega

theorem owns_iff (d : Desc) :
    b.owns d.addr=true ↔ Pool.frameOf k d∈frameStarts b.firstFrame b.frames (2^k) := by
  have hle : (b.firstFrame+b.frames)*2^k≤total*2^k := Nat.mul_le_mul_right _ h.within
  have hfits := h.fits
  have hpos := Nat.two_pow_pos k
  have hsplit : b.firstFrame*2^k+b.frames*2^k=(b.firstFrame+b.frames)*2^k :=
    (Nat.add_mul _ _ _).symm
  have hlo : (UInt64.ofNat b.firstFrame*UInt64.ofNat b.l.frameSize).toNat=b.firstFrame*2^k := by
    rw [h.frameSize,← UInt64.ofNat_mul,toNat_small64 _ (by omega)]
  have hhi : (UInt64.ofNat b.firstFrame*UInt64.ofNat b.l.frameSize+
      UInt64.ofNat b.frames*UInt64.ofNat b.l.frameSize).toNat=(b.firstFrame+b.frames)*2^k := by
    rw [UInt64.toNat_add,hlo,h.frameSize,← UInt64.ofNat_mul,
      toNat_small64 _ (by omega),hsplit,Nat.mod_eq_of_lt (by omega)]
  rw [Fixed.owns,Bool.and_eq_true,decide_eq_true_eq,decide_eq_true_eq,UInt64.le_iff_toNat_le,
    UInt64.lt_iff_toNat_lt,hlo,hhi,mem_frameStarts (by omega),frameOf_toNat,
    ← Nat.le_div_iff_mul_le hpos,← Nat.div_lt_iff_lt_mul hpos]
  constructor
  · intro ho
    exact ⟨d.addr.toNat/2^k-b.firstFrame,by omega,by rw [Nat.add_sub_cancel' ho.1]⟩
  · rintro ⟨j,hj,hdiv⟩
    have := Nat.eq_of_mul_eq_mul_right hpos hdiv
    omega

end Fixed.Shape

/-! What is written -/

structure Touches (k : Nat) (fs : Multiset UInt64) (r r' : Region) : Prop where
  len : r'.len=r.len
  same : ∀ j, (∀ a∈fs, j<a.toNat ∨ a.toNat+2^k≤j) → r'.mem j=r.mem j

namespace Touches
variable {k : Nat} {fs gs : Multiset UInt64} {r r' r'' : Region}

theorem refl (k : Nat) (fs : Multiset UInt64) (r : Region) : Touches k fs r r :=
  ⟨rfl,fun _ _ => rfl⟩

theorem trans (h : Touches k fs r r') (h' : Touches k gs r' r'') : Touches k (fs+gs) r r'' := by
  refine ⟨h'.len.trans h.len,fun j hj => ?_⟩
  rw [h'.same j fun a ha => hj a (mem_add.mpr (.inr ha)),
    h.same j fun a ha => hj a (mem_add.mpr (.inl ha))]

variable {total : Nat} {b : Fixed} (hb : b.Shape k total)
include hb

theorem mbuf (h : Region.Within (b.mbufAt a) (b.mbufAt a+size) r r') : Touches k {a} r r' := by
  have hhi := hb.mbufAt_le a
  have hlo : a.toNat≤b.mbufAt a := Nat.le_add_right _ _
  refine ⟨h.len,fun j hj => h.same j ?_⟩
  have := hj a (mem_singleton_self a)
  omega

theorem pool (h : Touches k fs r r') (hfs : ∀ a∈fs, a∈frameStarts 0 total (2^k))
    (ha : a∈frameStarts 0 total (2^k)) (hnot : a∉fs) :
    Mbuf.pool r' (b.mbufAt a)=Mbuf.pool r (b.mbufAt a) := by
  have hhi := hb.mbufAt_le a
  have hlo : a.toNat≤b.mbufAt a := Nat.le_add_right _ _
  have hget : r'.get (b.mbufAt a+offPool) 8=r.get (b.mbufAt a+offPool) 8 := by
    refine Region.get_congr h.len fun i hi => h.same _ fun a' ha' => ?_
    have hne : a≠a' := fun he => hnot (he ▸ ha')
    have hap := hb.frame_apart ha (hfs a' ha') hne
    rw [size] at hhi
    rw [offPool]
    omega
  rw [Mbuf.pool,Mbuf.pool,Region.uint64,Region.uint64,hget]

end Touches

section
variable {k total : Nat}

theorem Fixed.Shape.mbuf_fits {b : Fixed} (h : b.Shape k total) (hr : r.len=total*2^k)
    (ha : a∈frameStarts 0 total (2^k)) : b.mbufAt a+size≤r.len := by
  have hle := h.frame_le ha
  have hm := h.mbufAt_le a
  omega

theorem Tx.ask_stamped (t : Tx) {m : Nat} {r0 : Region} (hs : Stamped m p r0 r) (hm : m+size≤r0.len)
    (hd : d.addr.toNat+d.len.toNat≤r0.len) (o : Option Offload) :
    ∃ res, t.ask r m d o=some res ∧ ∀ r', res = .ok r' → Stamped m p r0 r' := by
  have hlen := hs.within.len
  rcases t.ask_spec (by rwa [hlen]) (by rwa [hlen]) o with ⟨w,r',-,hst,hask⟩ | ⟨e,hask,-⟩
  · refine ⟨_,hask,fun r'' hr => ?_⟩
    cases hr
    cases w with
    | none =>
      cases hst
      exact hs
    | some x =>
      apply hs.stores hm hst
      · simp [Tx.workStores,offOlFlags,offTxOffload,size]
      · simp [Tx.workStores,offOlFlags,offTxOffload,offPool]
  · exact ⟨_,hask,fun r' hr => by cases hr⟩

theorem Tx.build_spec {t : Tx} (h : t.toFixed.Shape k total) (ds : List (Desc × Option Offload))
    (i : Nat) (hr : r.len=total*2^k) (hnd : (bases k (ds.map Prod.fst)).Nodup) :
    ∃ r' batch n fs, t.build i ds r=some (r',batch) ∧ n≤ds.length ∧
      batch.mbufs=((ds.map Prod.fst).take n).map (fun d => t.mbufVA (frameOf k d)) ∧
      (∀ d∈(ds.map Prod.fst).take n, frameOf k d∈frameStarts 0 total (2^k) ∧
        Mbuf.pool r' (t.mbufAt (frameOf k d))=some t.poolVA) ∧
      fs≤bases k (ds.map Prod.fst) ∧ (∀ a∈fs, a∈frameStarts 0 total (2^k)) ∧ Touches k fs r r' := by
  induction ds generalizing i r with
  | nil => exact ⟨r,{},0,0,rfl,le_refl _,rfl,by simp,zero_le _,by simp,.refl k 0 r⟩
  | cons x ds ih =>
    obtain ⟨d,o⟩ := x
    have hcons : bases k (((d,o)::ds).map Prod.fst) = {frameOf k d}+bases k (ds.map Prod.fst) := rfl
    rw [hcons] at hnd ⊢
    rw [Tx.build]
    rcases hok : t.descOK d with _ | _
    · exact ⟨r,_,0,0,rfl,Nat.zero_le _,rfl,by simp,zero_le _,by simp,.refl k 0 r⟩
    obtain ⟨ha,hin,-⟩ := h.descOK_inside hok
    have hm := h.mbuf_fits hr ha
    have hle := h.frame_le ha
    obtain ⟨r1,h1,hs1⟩ := prepareTx_stamped hm t.poolVA
      (d.addr-frameOf k d-t.bufStart).toUInt16 d.len
    obtain ⟨res,hres,hask⟩ := t.ask_stamped hs1 hm (d := d) (by omega) o
    simp only [Bool.not_true,Bool.false_eq_true,if_false,h.frameOf_eq,h1,hres]
    have hone : ∀ a∈({frameOf k d} : Multiset UInt64), a∈frameStarts 0 total (2^k) :=
      fun a hmem => mem_singleton.mp hmem ▸ ha
    rcases res with e | r2
    · exact ⟨r1,_,0,{frameOf k d},rfl,Nat.zero_le _,rfl,by simp,le_add_right _ _,hone,
        .mbuf h hs1.within⟩
    have hs2 := hask r2 rfl
    have hnd' := nodup_add.mp hnd
    obtain ⟨r',batch,n,fs,hb,hn,hmb,hpool,hfs,hF,ht⟩ :=
      ih (i+1) (hs2.within.len.trans hr) hnd'.2.1
    have hnot : frameOf k d∉fs := fun hmem =>
      disjoint_left.mp hnd'.2.2 (mem_singleton_self _)
        (mem_of_le hfs hmem)
    refine ⟨r',_,n+1,{frameOf k d}+fs,by dsimp only; rw [hb],Nat.succ_le_succ hn,?_,?_,
      add_le_add (le_refl _) hfs,?_,(Touches.mbuf h hs2.within).trans ht⟩
    · simp [hmb]
    · intro e he
      rw [List.map_cons,List.take_succ_cons,List.mem_cons] at he
      cases he with
      | inl he =>
        subst he
        exact ⟨ha,(ht.pool h hF ha hnot).trans hs2.pool⟩
      | inr he => exact hpool e he
    · intro a hmem
      cases mem_add.mp hmem with
      | inl hmem => exact hone a hmem
      | inr hmem => exact hF a hmem

theorem Rx.reset_spec {q : Rx} (h : q.toFixed.Shape k total) (fs : List UInt64)
    (hr : r.len=total*2^k) (hF : ∀ a∈fs, a∈frameStarts 0 total (2^k)) (hnd : fs.Nodup) :
    ∃ r', q.reset fs r=some (r',fs.map q.mbufVA) ∧
      (∀ a∈fs, Mbuf.pool r' (q.mbufAt a)=some q.poolVA) ∧ Touches k ↑fs r r' := by
  induction fs generalizing r with
  | nil => exact ⟨r,rfl,by simp,.refl k 0 r⟩
  | cons a fs ih =>
    have ha := hF a List.mem_cons_self
    have hF' : ∀ b∈fs, b∈frameStarts 0 total (2^k) := fun b hb => hF b (List.mem_cons_of_mem a hb)
    rw [List.nodup_cons] at hnd
    obtain ⟨r1,h1,hs⟩ := resetRx_stamped (h.mbuf_fits hr ha) (UInt16.ofNat q.l.headroom) q.poolVA
    obtain ⟨r',hr',hpool,ht⟩ := ih (hs.within.len.trans hr) hF' hnd.2
    refine ⟨r',?_,?_,(Touches.mbuf h hs.within).trans ht⟩
    · rw [Rx.reset,h1]
      dsimp only
      rw [hr']
      rfl
    · intro b hb
      cases List.mem_cons.mp hb with
      | inl hb =>
        subst hb
        exact (ht.pool h hF' ha hnd.1).trans hs.pool
      | inr hb => exact hpool b hb

end

end Packetio.Dpdk

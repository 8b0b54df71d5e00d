import Packetio.Dpdk.ReceiveArea

/-! The mbufs that Transmit hands to the driver: what each one says, and what of the
packets and of the rest of the region is left alone. -/
namespace Packetio
open List

structure Slice.Same (p q : Slice) : Prop where
  len : p.len=q.len
  get : ∀ i, i<p.len → p.get i=q.get i

variable {p q : Slice}

theorem Slice.Same.symm (h : p.Same q) : q.Same p :=
  ⟨h.len.symm,fun i hi => (h.get i (h.len ▸ hi)).symm⟩

theorem Slice.Same.get? (h : p.Same q) (i : Nat) : p.get? i=q.get? i := by
  rw [Slice.get?,Slice.get?,← h.len]
  split
  case isTrue hi => rw [h.get i hi]
  case isFalse => rfl

namespace Dpdk
open Pool Dpdk.Mbuf
variable {a : UInt64} {batch : Tx.Batch} {d : Desc} {ds post pre : List (Desc × Option Offload)}
  {i : Nat} {o : Option Offload} {r r' : Region} {t' : Tx}

theorem Mbuf.skipTags_same (h : p.Same q) (n et off : Nat) :
    skipTags p n et off=skipTags q n et off := by
  induction n generalizing et off with
  | zero => rfl
  | succ n ih => simp only [skipTags,etherTypeAt,h.get?,h.len,ih]

theorem Mbuf.parse_same (h : p.Same q) : parse p=parse q := by
  simp [parse,parseIPv4,parseIPv6,etherTypeAt,Headers.whole,skipTags_same h,h.get?,h.len]

namespace Fixed.Shape
variable {k total : Nat} {b : Fixed} (h : b.Shape k total)
include h

theorem descOK_start (hd : b.descOK d=true) :
    (Pool.frameOf k d).toNat+b.bufStart.toNat≤d.addr.toNat := by
  have hsmall := h.small
  obtain ⟨-,hbuf,-⟩ := (Fixed.descOK_iff (by omega) h.mask d).mp hd
  have hdiv := Nat.div_add_mod' d.addr.toNat (2^k)
  rw [frameOf_toNat]
  omega

theorem packet_apart (hd : b.descOK d=true)
    (ha : a∈frameStarts 0 total (2^k)) {j : Nat} (hlo : d.addr.toNat≤j)
    (hhi : j<d.addr.toNat+d.len.toNat) : j<b.mbufAt a ∨ b.mbufAt a+size≤j := by
  obtain ⟨hd',hend,-⟩ := h.descOK_inside hd
  have hstart := h.descOK_start hd
  have hsize := h.mbufSize
  have hbuf := h.bufStart
  have hm := h.mbufAt_le a
  by_cases he : a=Pool.frameOf k d
  · rw [Fixed.mbufAt,he]
    omega
  have hap := h.frame_apart ha hd' he
  have hlow : a.toNat≤b.mbufAt a := Nat.le_add_right _ _
  omega

end Fixed.Shape

structure MbufsOnly (b : Fixed) (fs : List UInt64) (r r' : Region) : Prop where
  len : r'.len=r.len
  same : ∀ j, (∀ a∈fs, j<b.mbufAt a ∨ b.mbufAt a+size≤j) → r'.mem j=r.mem j

namespace MbufsOnly
variable {b : Fixed} {fs gs : List UInt64} {r r' r'' : Region}

theorem refl (b : Fixed) (fs : List UInt64) (r : Region) : MbufsOnly b fs r r :=
    ⟨rfl,fun _ _ => rfl⟩

theorem one (h : Region.Within (b.mbufAt a) (b.mbufAt a+size) r r') : MbufsOnly b [a] r r' :=
  ⟨h.len,fun j hj => h.same j (hj a mem_cons_self)⟩

theorem append (h : MbufsOnly b fs r r') (h' : MbufsOnly b gs r' r'') :
    MbufsOnly b (fs++gs) r r'' := by
  refine ⟨h'.len.trans h.len,fun j hj => ?_⟩
  rw [h'.same j fun a ha => hj a (mem_append_right fs ha),
    h.same j fun a ha => hj a (mem_append_left gs ha)]

theorem mono (h : MbufsOnly b fs r r') (hsub : fs ⊆ gs) : MbufsOnly b gs r r' :=
  ⟨h.len,fun j hj => h.same j fun a ha => hj a (hsub ha)⟩

variable {k total : Nat} (hb : b.Shape k total) (h : MbufsOnly b fs r r')
  (hfs : ∀ a∈fs, a∈frameStarts 0 total (2^k))
include hb h hfs

theorem packet (hd : b.descOK d=true) : (r'.frame d).Same (r.frame d) := by
  refine ⟨rfl,fun i hi => h.same _ fun a ha => ?_⟩
  exact hb.packet_apart hd (hfs a ha) (Nat.le_add_right _ i) (Nat.add_lt_add_left hi _)

theorem txRead (ha : a∈frameStarts 0 total (2^k)) (hnot : a∉fs) :
    Mbuf.txRead r' (b.mbufAt a)=Mbuf.txRead r (b.mbufAt a) := by
  refine txRead_congr h.len fun i hi => h.same _ fun a' ha' => ?_
  have hap := hb.frame_apart ha (hfs a' ha') fun he => hnot (he ▸ ha')
  have hm := hb.mbufAt_le a
  have hm' := hb.mbufAt_le a'
  rw [Fixed.mbufAt] at hm hm' ⊢
  rw [Fixed.mbufAt]
  omega

end MbufsOnly

namespace Tx

theorem Asked.same {t : Tx} (h : p.Same q)
    {w : Option (UInt64 × UInt64)} (hw : t.Asked p o w) : t.Asked q o w := by
  have hparse := parse_same h
  cases hw with
  | plain hc => exact .plain hc
  | unknown hc hp => exact .unknown hc (hparse ▸ hp)
  | checksums hc hp => exact .checksums hc (hparse ▸ hp)
  | ordinary ho => exact .ordinary ho
  | offload ho hp hcsum hseg => exact .offload ho (hparse ▸ hp) hcsum (h.len ▸ hseg)

/-- The mbuf that Transmit makes for `d`. Only the buffer, and the word of header lengths
when nothing is asked for, are what they were. -/
def sent (t : Tx) (d : Desc) (bufAddr stale : UInt64) (w : Option (UInt64 × UInt64)) :
    TxFields where
  bufAddr := bufAddr
  dataOff := (d.addr-t.frameOf d.addr-t.bufStart).toUInt16
  nbSegs := 1
  olFlags := w.elim 0 Prod.fst
  pktLen := d.len
  dataLen := d.len.toUInt16
  pool := t.poolVA
  next := 0
  txOffload := w.elim stale Prod.snd

def mbufOf (t : Tx) (d : Desc) : Nat := t.mbufAt (t.frameOf d.addr)

variable {k total : Nat} {t : Tx} (h : t.toFixed.Shape k total)
include h

theorem turn_spec (hr : r.len=total*2^k) (hok : t.descOK d=true) (o : Option Offload) :
    ∃ r1, prepareTx r (t.mbufOf d) t.poolVA (d.addr-t.frameOf d.addr-t.bufStart).toUInt16 d.len =
        some r1 ∧ Region.Within (t.mbufOf d) (t.mbufOf d+size) r r1 ∧
      ((∃ w r2 x, t.ask r1 (t.mbufOf d) d o=some (.ok r2) ∧ t.Asked (r.frame d) o w ∧
          Region.Within (t.mbufOf d) (t.mbufOf d+size) r r2 ∧ txRead r (t.mbufOf d)=some x ∧
          txRead r2 (t.mbufOf d)=some (t.sent d x.bufAddr x.txOffload w)) ∨
        ∃ e, t.ask r1 (t.mbufOf d) d o=some (.error e) ∧ ∀ w, ¬ t.Asked (r.frame d) o w) := by
  obtain ⟨ha,hend,-⟩ := h.descOK_inside hok
  have hframe := h.frameOf_eq d
  have hm : t.mbufOf d+size≤r.len := by
    rw [mbufOf,hframe]
    exact h.mbuf_fits hr ha
  have hle := h.frame_le ha
  obtain ⟨x,hx⟩ := txRead_some hm
  obtain ⟨r1,h1,hs1⟩ :=
    prepareTx_stamped hm t.poolVA (d.addr-t.frameOf d.addr-t.bufStart).toUInt16 d.len
  have hx1 := txRead_prepareTx hx h1
  have hlen := hs1.within.len
  -- the packet is not in the mbuf that was written
  have hsame : (r1.frame d).Same (r.frame d) := by
    have honly := MbufsOnly.one (b := t.toFixed) hs1.within
    refine honly.packet h (fun a ha' => ?_) hok
    rwa [mem_singleton.mp ha',hframe]
  refine ⟨r1,h1,hs1.within,?_⟩
  have hm1 : t.mbufOf d+size≤r1.len := by rwa [hlen]
  rcases t.ask_spec hm1 (d := d) (by omega) o with ⟨w,r2,hw,hst,hask⟩ | ⟨e,hask,hno⟩
  · obtain ⟨r2',hr2',hw2⟩ := workStores_within w hm1
    rw [hst] at hr2'
    cases hr2'
    refine .inl ⟨w,r2,x,hask,hw.same hsame,hs1.within.trans hw2,hx,?_⟩
    cases w with
    | none =>
      cases hst
      exact hx1
    | some y => exact txRead_work hx1 hst
  · exact .inr ⟨e,hask,fun w hw => hno w (hw.same hsame.symm)⟩

theorem build_cons (hr : r.len=total*2^k) (hb : t.build i ((d,o)::ds) r=some (r',batch)) :
    (t.descOK d=false ∧ r'=r ∧ batch = { refused := some (.desc i d) }) ∨
    (t.descOK d=true ∧ Region.Within (t.mbufOf d) (t.mbufOf d+size) r r' ∧
      (∀ w, ¬ t.Asked (r.frame d) o w) ∧ ∃ e, batch = { refused := some (.offload i e) }) ∨
    (t.descOK d=true ∧ ∃ w r2 x rest, t.Asked (r.frame d) o w ∧
      Region.Within (t.mbufOf d) (t.mbufOf d+size) r r2 ∧ txRead r (t.mbufOf d)=some x ∧
      txRead r2 (t.mbufOf d)=some (t.sent d x.bufAddr x.txOffload w) ∧
      t.build (i+1) ds r2=some (r',rest) ∧ batch.refused=rest.refused ∧
      batch.mbufs=t.mbufVA (t.frameOf d.addr)::rest.mbufs) := by
  rw [build] at hb
  rcases hok : t.descOK d with _ | _
  · simp only [hok,Bool.not_false,if_true] at hb
    cases hb
    exact .inl ⟨rfl,rfl,rfl⟩
  right
  obtain ⟨r1,h1,hw1,hcase⟩ := turn_spec h hr hok o
  rw [mbufOf] at h1
  simp only [hok,Bool.not_true,Bool.false_eq_true,if_false,h1] at hb
  rcases hcase with ⟨w,r2,x,hask,hw,hw2,hx,hsent⟩ | ⟨e,hask,hno⟩
  · right
    rw [mbufOf] at hask
    simp only [hask] at hb
    cases hrest : t.build (i+1) ds r2 with
    | none => simp [hrest] at hb
    | some y =>
      simp only [hrest] at hb
      cases hb
      exact ⟨rfl,w,r2,x,y.2,hw,hw2,hx,hsent,hrest,rfl,rfl⟩
  · left
    rw [mbufOf] at hask
    simp only [hask] at hb
    cases hb
    exact ⟨rfl,hw1,hno,e,rfl⟩

theorem frameOf_start (hok : t.descOK d=true) : t.frameOf d.addr∈frameStarts 0 total (2^k) := by
  rw [h.frameOf_eq]
  exact (h.descOK_inside hok).1

theorem build_total (ds : List (Desc × Option Offload)) (i : Nat)
    (hr : r.len=total*2^k) : ∃ r' batch, t.build i ds r=some (r',batch) := by
  induction ds generalizing i r with
  | nil => exact ⟨_,_,rfl⟩
  | cons x ds ih =>
    obtain ⟨d,o⟩ := x
    rw [build]
    rcases hok : t.descOK d with _ | _
    · exact ⟨_,_,rfl⟩
    obtain ⟨r1,h1,-,hcase⟩ := turn_spec h hr hok o
    rw [mbufOf] at h1
    simp only [Bool.not_true,Bool.false_eq_true,if_false,h1]
    rcases hcase with ⟨w,r2,x,hask,-,hin,-⟩ | ⟨e,hask,-⟩
    · rw [mbufOf] at hask
      obtain ⟨r',rest,hrest⟩ := ih (i+1) (hin.len.trans hr)
      simp only [hask,hrest]
      exact ⟨_,_,rfl⟩
    · rw [mbufOf] at hask
      simp only [hask]
      exact ⟨_,_,rfl⟩

def framesOf (t : Tx) (ds : List (Desc × Option Offload)) : List UInt64 :=
  (ds.filter fun x => t.descOK x.1).map fun x => t.frameOf x.1.addr

theorem framesOf_mem : ∀ a∈t.framesOf ds, a∈frameStarts 0 total (2^k) := by
  intro a ha
  obtain ⟨x,hx,rfl⟩ := mem_map.mp ha
  exact frameOf_start h (mem_filter.mp hx).2

omit h in
theorem framesOf_cons (hok : t.descOK d=true) (o : Option Offload)
    (ds : List (Desc × Option Offload)) :
    t.framesOf ((d,o)::ds) = [t.frameOf d.addr]++t.framesOf ds := by
  rw [framesOf,filter_cons_of_pos (by exact hok)]
  rfl

section
variable (hr : r.len=total*2^k)
include hr

theorem build_only (hb : t.build i ds r=some (r',batch)) :
    MbufsOnly t.toFixed (t.framesOf ds) r r' := by
  induction ds generalizing i r batch with
  | nil =>
    cases hb
    exact .refl _ _ _
  | cons x ds ih =>
    rcases build_cons h hr hb with ⟨-,rfl,-⟩ | ⟨hok,hw,-⟩ | ⟨hok,w,r2,y,rest,-,hw,-,-,hrest,-⟩
    · exact .refl _ _ _
    · rw [framesOf_cons hok]
      exact (MbufsOnly.one hw).mono (subset_append_left _ _)
    · rw [framesOf_cons hok]
      exact (MbufsOnly.one hw).append (ih (hw.len.trans hr) hrest)

theorem build_sent
    (hb : t.build i (pre++(d,o)::post) r=some (r',batch)) (hn : pre.length<batch.mbufs.length)
    (hlast : ∀ x∈post, t.frameOf x.1.addr≠t.frameOf d.addr) :
    t.descOK d=true ∧ batch.mbufs[pre.length]? = some (t.mbufVA (t.frameOf d.addr)) ∧
      ∃ w x stale, t.Asked (r.frame d) o w ∧ txRead r (t.mbufOf d)=some x ∧
        txRead r' (t.mbufOf d)=some (t.sent d x.bufAddr stale w) := by
  induction pre generalizing i r batch with
  | nil =>
    rcases build_cons h hr hb with ⟨-,-,rfl⟩ | ⟨-,-,-,e,rfl⟩ |
      ⟨hok,w,r2,x,rest,hw,hin,hx,hsent,hrest,-,hmb⟩
    · exact absurd hn (Nat.not_lt_zero _)
    · exact absurd hn (Nat.not_lt_zero _)
    refine ⟨hok,by rw [hmb]; rfl,w,x,x.txOffload,hw,hx,?_⟩
    have honly := build_only h (hin.len.trans hr) hrest
    have hnot : t.frameOf d.addr∉t.framesOf post := by
      intro hmem
      obtain ⟨y,hy,he⟩ := mem_map.mp hmem
      exact hlast y (mem_filter.mp hy).1 he
    rwa [mbufOf,honly.txRead h (framesOf_mem h) (frameOf_start h hok) hnot]
  | cons y pre ih =>
    obtain ⟨d',o'⟩ := y
    rcases build_cons h hr hb with
      ⟨-,-,rfl⟩ | ⟨-,-,-,e,rfl⟩ | ⟨hok,w',r2,x,rest,-,hin,hx,hx2,hrest,-,hmb⟩
    · exact absurd hn (Nat.not_lt_zero _)
    · exact absurd hn (Nat.not_lt_zero _)
    · rw [hmb] at hn ⊢
      obtain ⟨hokd,hva,w,x2,stale,hw,hread,hsent⟩ := ih (hin.len.trans hr) hrest
        (Nat.lt_of_succ_lt_succ hn)
      have honly := MbufsOnly.one (b := t.toFixed) hin
      have hone : ∀ a ∈ [t.frameOf d'.addr], a∈frameStarts 0 total (2^k) := by
        intro a ha
        rw [mem_singleton.mp ha]
        exact frameOf_start h hok
      have hw := hw.same (honly.packet h hone hokd)
      by_cases he : t.frameOf d'.addr=t.frameOf d.addr
      · -- the turn wrote to the same mbuf, but left the buffer
        rw [mbufOf,he,← mbufOf] at hx hx2
        rw [hx2] at hread
        cases hread
        exact ⟨hokd,hva,w,x,stale,hw,hx,hsent⟩
      · have hkeep := honly.txRead h hone (frameOf_start h hokd) fun hmem =>
          he (mem_singleton.mp hmem).symm
        rw [mbufOf,hkeep] at hread
        exact ⟨hokd,hva,w,x2,stale,hw,hread,hsent⟩

theorem build_length (hb : t.build i ds r=some (r',batch)) : batch.mbufs.length≤ds.length := by
  induction ds generalizing i r batch with
  | nil =>
    cases hb
    exact le_refl _
  | cons x ds ih =>
    rcases build_cons h hr hb with ⟨-,-,rfl⟩ | ⟨-,-,-,e,rfl⟩ | ⟨-,w,r2,y,rest,-,hin,-,-,hrest,-,hmb⟩
    · exact Nat.zero_le _
    · exact Nat.zero_le _
    · rw [hmb]
      exact Nat.succ_le_succ (ih (hin.len.trans hr) hrest)

theorem build_reached
    (hb : t.build i (pre++(d,o)::post) r=some (r',batch)) (hn : pre.length≤batch.mbufs.length)
    (hok : t.descOK d=true) : (pre.length<batch.mbufs.length ∧ ∃ w, t.Asked (r.frame d) o w) ∨
    (batch.mbufs.length=pre.length ∧ (∀ w, ¬ t.Asked (r.frame d) o w) ∧
      ∃ e, batch.refused=some (.offload (i+pre.length) e)) := by
  induction pre generalizing i r batch with
  | nil =>
    rcases build_cons h hr hb with ⟨hno,-⟩ | ⟨-,-,hno,e,rfl⟩ | ⟨-,w,r2,y,rest,hw,-,-,-,-,-,hmb⟩
    · rw [hok] at hno
      cases hno
    · exact .inr ⟨rfl,hno,e,rfl⟩
    · exact .inl ⟨by rw [hmb]; exact Nat.succ_pos _,w,hw⟩
  | cons y pre ih =>
    obtain ⟨d',o'⟩ := y
    rcases build_cons h hr hb with ⟨-,-,rfl⟩ | ⟨-,-,-,e,rfl⟩ |
      ⟨hok',w,r2,x,rest,-,hin,-,-,hrest,href,hmb⟩
    · exact absurd hn (Nat.not_succ_le_zero _)
    · exact absurd hn (Nat.not_succ_le_zero _)
    have hone : ∀ a ∈ [t.frameOf d'.addr], a∈frameStarts 0 total (2^k) := by
      intro a ha
      rw [mem_singleton.mp ha]
      exact frameOf_start h hok'
    have hsame := (MbufsOnly.one (b := t.toFixed) hin).packet h hone hok
    rw [hmb] at hn ⊢
    rcases ih (hin.len.trans hr) hrest (Nat.le_of_succ_le_succ hn) with ⟨hlt,w,hw⟩ | ⟨heq,hno,e,he⟩
    · exact .inl ⟨Nat.succ_lt_succ hlt,w,hw.same hsame⟩
    · refine .inr ⟨congrArg (·+1) heq,fun w hw => hno w (hw.same hsame.symm),e,?_⟩
      rw [href,he,length_cons,Nat.add_assoc,Nat.add_comm 1]

end

omit h in
theorem prepare_cases (hp : t.prepare r ds=some (t',r',batch)) :
    (r'=r ∧ batch.mbufs = [] ∧ (t.dead≠none ∨ min ds.length t.numFreeSlots=0)) ∨
      t.build 0 (ds.take (min (min ds.length t.numFreeSlots) t.depth)) r=some (r',batch) := by
  rw [prepare] at hp
  cases hdead : t.dead with
  | some e =>
    simp only [hdead] at hp
    cases hp
    exact .inl ⟨rfl,rfl,.inl (by simp)⟩
  | none =>
    simp only [hdead] at hp
    split at hp
    case isTrue hnil =>
      cases hp
      exact .inl ⟨rfl,rfl,.inr (by omega)⟩
    split at hp
    case isTrue hfull =>
      cases hp
      exact .inl ⟨rfl,rfl,.inr hfull⟩
    cases hb : t.build 0 (ds.take (min (min ds.length t.numFreeSlots) t.depth)) r with
    | none =>
      simp only [hb] at hp
      cases hp
    | some x =>
      simp only [hb] at hp
      cases hp
      exact .inr rfl

theorem prepare_only (hr : r.len=total*2^k) (hp : t.prepare r ds=some (t',r',batch)) :
    MbufsOnly t.toFixed (t.framesOf ds) r r' := by
  rcases prepare_cases hp with ⟨rfl,-⟩ | hb
  · exact .refl _ _ _
  · exact (build_only h hr hb).mono (((take_sublist _ ds).filter _).map _).subset

theorem prepare_total (hr : r.len=total*2^k) (ds : List (Desc × Option Offload)) :
    ∃ t' r' batch, t.prepare r ds=some (t',r',batch) := by
  obtain ⟨r',batch,hb⟩ := build_total h (ds.take (min (min ds.length t.numFreeSlots) t.depth)) 0 hr
  rw [prepare]
  cases t.dead with
  | some e => exact ⟨_,_,_,rfl⟩
  | none =>
    simp only [hb]
    split
    case isTrue => exact ⟨_,_,_,rfl⟩
    split
    case isTrue | isFalse => exact ⟨_,_,_,rfl⟩

theorem prepare_split (hr : r.len=total*2^k)
    (hp : t.prepare r (pre++(d,o)::post)=some (t',r',batch))
    (hn : pre.length<batch.mbufs.length ∨ (t.dead=none ∧ pre.length < min t.numFreeSlots t.depth)) :
    ∃ n, t.build 0 (pre++(d,o)::post.take n) r=some (r',batch) := by
  have hlong : pre.length<(pre++(d,o)::post).length := by
    rw [length_append,length_cons]
    omega
  rcases prepare_cases hp with ⟨-,hnil,hno⟩ | hb
  · rw [hnil] at hn
    rcases hn with hn | ⟨hopen,hn⟩
    · exact absurd hn (Nat.not_lt_zero _)
    · rcases hno with hdead | hfull
      · exact absurd hopen hdead
      · omega
  have hlen := build_length h hr hb
  rw [length_take] at hlen
  obtain ⟨n,hcut⟩ : ∃ n, min (min (pre++(d,o)::post).length t.numFreeSlots) t.depth =
      pre.length+(n+1) := by
    refine ⟨min (min (pre++(d,o)::post).length t.numFreeSlots) t.depth-(pre.length+1),?_⟩
    omega
  rw [hcut,take_length_add_append,take_succ_cons] at hb
  exact ⟨n,hb⟩

end Tx

/-! Queues as they are opened -/

theorem newTx_shape {checked : Bool} {region : Region} {c : Config} {t₀ t : Tx}
    (hnew : newTx checked region c = .ok t₀) (hva : c.regionVA.toNat+region.len≤2^64)
    (hq : t.toFixed=t₀.toFixed) : ∃ k, c.layout.frameSize=2^k ∧ region.len=region.len/2^k*2^k ∧
      t.toFixed.Shape k (region.len/2^k) ∧ t.l=c.layout ∧ t.regionVA=c.regionVA := by
  obtain ⟨b,hb,rfl⟩ := newTx_ok hnew
  obtain ⟨-,ring,-,hfields⟩ := initBase_ok hb
  obtain ⟨k,hk,hlen,hshape,-⟩ := initBase_shape hb hva
  rw [hq]
  refine ⟨k,hk,hlen,hshape,?_,?_⟩
  · rw [hfields]
  · rw [hfields]

def Mbuf.Layout.bufferOffset (l : Layout) (frame : Nat) : Nat := frame+l.objHeader+l.mbufSize

section
variable {k total : Nat} {b : Fixed} (h : b.Shape k total) (hk : 2^k≤65536) {d : Desc}
  (hd : b.descOK d=true)
include h hk hd

theorem Fixed.Shape.dataOff_toNat : (b.frameOf d.addr).toNat+b.bufStart.toNat+
      (d.addr-b.frameOf d.addr-b.bufStart).toUInt16.toNat=d.addr.toNat := by
  obtain ⟨-,hend,hpos⟩ := h.descOK_inside hd
  have hstart := h.descOK_start hd
  rw [← h.frameOf_eq] at hend hstart
  have hsub : (d.addr-b.frameOf d.addr-b.bufStart).toNat =
      d.addr.toNat-(b.frameOf d.addr).toNat-b.bufStart.toNat := by
    have hle : b.frameOf d.addr≤d.addr := by
      rw [UInt64.le_iff_toNat_le]
      omega
    have hfirst := UInt64.toNat_sub_of_le _ _ hle
    have hle' : b.bufStart≤d.addr-b.frameOf d.addr := by
      rw [UInt64.le_iff_toNat_le,hfirst]
      omega
    rw [UInt64.toNat_sub_of_le _ _ hle',hfirst]
  rw [UInt64.toNat_toUInt16,hsub]
  omega

theorem Fixed.Shape.data_addr :
    b.frameOf d.addr+b.bufStart+(d.addr-b.frameOf d.addr-b.bufStart).toUInt16.toUInt64=d.addr := by
  have hsum := h.dataOff_toNat hk hd
  have hlt := d.addr.toNat_lt
  rw [← UInt64.toNat_inj,UInt64.toNat_add,UInt64.toNat_add,UInt16.toNat_toUInt64,
    Nat.mod_eq_of_lt (a := (b.frameOf d.addr).toNat+_) (by omega),hsum,Nat.mod_eq_of_lt hlt]

theorem Fixed.Shape.len_toNat : d.len.toUInt16.toNat=d.len.toNat := by
  obtain ⟨-,hend,-⟩ := h.descOK_inside hd
  have hstart := h.descOK_start hd
  have hsize := h.mbufSize
  have hbuf := h.bufStart
  have hone : size=128 := rfl
  rw [UInt32.toNat_toUInt16]
  omega

end

/-- For a transmit queue in any state, over any memory and any batch: each mbuf that the
driver reads names the bytes of its descriptor and no others, asks for what is asked for
this packet, reads back as the descriptor, and nothing but mbufs was written. -/
theorem transmit_names (checked : Bool) (region r : Region) (c : Config) (t₀ t : Tx)
    (hnew : newTx checked region c = .ok t₀) (hva : c.regionVA.toNat+region.len ≤ 2^64)
    (hsize : c.layout.frameSize ≤ 65536) (hq : t.toFixed = t₀.toFixed) (hr : r.len = region.len)
    (ds : List (Desc × Option Offload)) :
    ∃ t' r' batch, t.prepare r ds = some (t',r',batch) ∧ MbufsOnly t.toFixed (t.framesOf ds) r r' ∧
    ∀ pre d o post, ds = pre++(d,o)::post → pre.length < batch.mbufs.length →
      (∀ x ∈ post, t.frameOf x.1.addr ≠ t.frameOf d.addr) →
    batch.mbufs[pre.length]? = some (t.mbufVA (t.frameOf d.addr)) ∧
    ∃ x f w, txRead r' (t.mbufOf d) = some x ∧ x.nbSegs = 1 ∧ x.next = 0 ∧
      bufAddr r (t.mbufOf d) = some x.bufAddr ∧
      (x.bufAddr = c.regionVA+UInt64.ofNat (c.layout.bufferOffset (t.frameOf d.addr).toNat) →
        x.bufAddr+x.dataOff.toUInt64 = c.regionVA+d.addr) ∧
      x.dataLen.toNat = d.len.toNat ∧ x.pktLen = d.len ∧
      t.Asked (r.frame d) o w ∧ x.olFlags = w.elim 0 Prod.fst ∧
      rxRead r' (t.mbufOf d) = some f ∧ f.nbSegs = 1 ∧
      (t.describe (t.frameOf d.addr) f).addr = d.addr ∧
      (t.describe (t.frameOf d.addr) f).len = d.len := by
  obtain ⟨k,hk,hlen,hshape,hl,hregion⟩ := newTx_shape hnew hva hq
  rw [hk] at hsize
  rw [hlen] at hr
  obtain ⟨t',r',batch,hp⟩ := Tx.prepare_total hshape hr ds
  have honly := Tx.prepare_only hshape hr hp
  refine ⟨t',r',batch,hp,honly,fun pre d o post hds hn hlast => ?_⟩
  rw [hds] at hp
  obtain ⟨n,hb⟩ := Tx.prepare_split hshape hr hp (.inl hn)
  obtain ⟨hok,hmb,w,x,stale,hw,hx,hsent⟩ := Tx.build_sent hshape hr hb hn fun y hy =>
    hlast y (mem_of_mem_take hy)
  have hdata := hshape.data_addr hsize hok
  have hm : t.mbufOf d+size≤r'.len := by
    rw [honly.len]
    exact hshape.mbuf_fits hr (Tx.frameOf_start hshape hok)
  have hbuffer : UInt64.ofNat (c.layout.bufferOffset (t.frameOf d.addr).toNat) =
      t.frameOf d.addr+t.bufStart := by
    rw [← UInt64.toNat_inj,UInt64.toNat_ofNat',UInt64.toNat_add,hshape.bufStart,hl,
      Layout.bufferOffset,Nat.add_assoc]
  refine ⟨hmb,_,_,w,hsent,rfl,rfl,(txRead_iff.mp hx).1,fun haddr =>
    ?_,hshape.len_toNat hsize hok,rfl,hw,
    rfl,rxRead_of_txRead hm hsent,rfl,hdata,?_⟩
  · change x.bufAddr=_ at haddr
    change x.bufAddr+_=_
    rw [haddr,hbuffer,UInt64.add_assoc]
    exact congrArg _ hdata
  · rw [← UInt32.toNat_inj]
    exact (UInt16.toNat_toUInt32 _).trans (hshape.len_toNat hsize hok)

theorem transmit_names_first :
    ∃ t' r' batch, pairTx.prepare smallRegion [(⟨0x140,64,0⟩,none)] = some (t',r',batch) ∧
      batch.mbufs = [0x10040] ∧
      ∃ x, txRead r' 0x40 = some x ∧ x.nbSegs = 1 ∧ x.next = 0 ∧ x.dataLen.toNat = 64 ∧
      x.pktLen = 64 := by
  obtain ⟨t',r',batch,hp,-,hall⟩ := transmit_names true smallRegion smallRegion pairTxConfig pairTx
    pairTx rfl (by decide) (by decide) rfl rfl [(⟨0x140,64,0⟩,none)]
  have hmb : batch.mbufs = [0x10040] := by
    have hmbufs : (pairTx.prepare smallRegion [(⟨0x140,64,0⟩,none)]).map (fun y => y.2.2.mbufs) =
        some [0x10040] := by decide
    rw [hp] at hmbufs
    exact Option.some.inj hmbufs
  obtain ⟨-,x,f,w,hx,hone,hnext,-,-,hlen,hpkt,-⟩ := hall [] ⟨0x140,64,0⟩ none [] rfl
    (by rw [hmb]; decide) (by simp)
  exact ⟨t',r',batch,hp,hmb,x,hx,hone,hnext,hlen,hpkt⟩

end Dpdk

end Packetio

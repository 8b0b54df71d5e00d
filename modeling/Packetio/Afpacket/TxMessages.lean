import Mathlib.Data.List.Infix
import Packetio.Afpacket.TxQueue
import Packetio.Afpacket.RingWalk

/-! What the messages of a transmit queue point at. The single-frame path trusts a wiring that
the other two paths replace; the flag says which of the two holds. -/
namespace Packetio.Afpacket
open List Option Function

def plain (v : Iovec) : Piece := match v.base with
  | some (.region a) => .region a v.len
  | some (.caller a) => .caller a v.len
  | _ => .null

def Iovec.Free (v : Iovec) : Prop := ∀ gen i, v.base≠some (.hdr gen i)

def packetMessage (gso : Bool) (o : Offload) (ps : List Piece) : List Piece :=
  if gso then .header o.marshal::ps else ps

section
variable {w w' : Wiring} {i j m pos : Nat} {o : Offload} {v : Iovec} {vs : List Iovec}

theorem piece_plain (h : v.Free) (w : Wiring) : w.piece v=plain v := by
  obtain ⟨base,len⟩ := v
  cases base with
  | none => rfl
  | some p =>
    cases p with
    | hdr gen i => exact absurd rfl (h gen i)
    | region _ | caller _ => rfl

theorem piece_hdr {gen : Nat} (h : w.hdrs.cells gen i=o.marshal) :
    w.piece ⟨some (.hdr gen i),offloadHdrLen⟩ = .header o.marshal := by
  rw [Wiring.piece]
  simp only [h]
  rfl

/-- Message `i` is wired for a single frame. -/
def Wiring.OneAt (w : Wiring) (i : Nat) : Prop :=
  if w.gso then
    w.msgs i=⟨.iovs2 (2*i),2⟩ ∧ w.iovs2 (2*i)=⟨some (.hdr w.hdrs.gen i),offloadHdrLen⟩
  else w.msgs i=⟨.iovs i,1⟩

structure Wiring.Ready (w : Wiring) : Prop where
  hdrs : w.gso=true → w.hdrs.len=txBatch
  one : w.msgsChained=false → ∀ i, i<txBatch → w.OneAt i

structure Wiring.Aimed (w : Wiring) (i : Nat) (o : Offload) (v : Iovec) : Prop where
  one : w.OneAt i
  hdr : w.gso=true → w.hdrs.cells w.hdrs.gen i=o.marshal ∧ w.iovs2 (2*i+1)=v
  frame : w.gso=false → w.iovs i=v

theorem Wiring.Aimed.message (h : w.Aimed i o v) (hv : v.Free) :
    w.message i=packetMessage w.gso o [plain v] := by
  have hone := h.one
  rw [Wiring.OneAt] at hone
  rw [Wiring.message,packetMessage]
  cases hg : w.gso with
  | true =>
    obtain ⟨hhdr,hfr⟩ := h.hdr hg
    rw [hg] at hone
    obtain ⟨hmsg,hiov⟩ := hone
    have hrange : range 2 = [0,1] := rfl
    simp [hmsg,hrange,Wiring.iovec,hiov,piece_hdr hhdr,hfr,piece_plain hv]
  | false =>
    rw [hg] at hone
    have hmsg : w.msgs i=⟨.iovs i,1⟩ := hone
    have hrange : range 1 = [0] := rfl
    simp only [hmsg,hrange,map_cons,map_nil,Wiring.iovec,add_zero,h.frame hg,piece_plain hv]
    rfl

theorem wireOne_spec (hh : w.gso=true → w.hdrs.len=txBatch) (hi : i<txBatch) :
    ∃ w', w.wireOne i=some w' ∧ w'.OneAt i ∧ (∀ j, w.OneAt j → w'.OneAt j) ∧
      w'.gso=w.gso ∧ w'.hdrs=w.hdrs := by
  rw [Wiring.wireOne]
  cases hg : w.gso with
  | true =>
    have hlen := hh hg
    rw [if_pos rfl,put_some hi,put_some (by omega)]
    simp only [bind_eq_bind,bind_some,if_pos (by omega : i<w.hdrs.len)]
    refine ⟨_,rfl,?_,fun j hj => ?_,rfl,rfl⟩
    · simp [Wiring.OneAt]
    · simp only [Wiring.OneAt,hg,if_true] at hj ⊢
      by_cases hij : j=i
      · subst hij
        simp
      · rwa [update_of_ne hij,update_of_ne (by omega)]
  | false =>
    rw [if_neg (by simp),put_some hi]
    refine ⟨_,rfl,?_,fun j hj => ?_,rfl,rfl⟩
    · simp [Wiring.OneAt]
    · simp only [Wiring.OneAt,hg] at hj ⊢
      by_cases hij : j=i
      · subst hij
        simp
      · simpa [update_of_ne hij] using hj

theorem wireFrom_spec {n : Nat} (hh : w.gso=true → w.hdrs.len=txBatch) (hn : i+n≤txBatch) :
    ∃ w', w.wireFrom i n=some w' ∧ (∀ j, i≤j → j < i+n → w'.OneAt j) ∧
      (∀ j, w.OneAt j → w'.OneAt j) ∧ w'.gso=w.gso ∧ w'.hdrs=w.hdrs := by
  induction n generalizing w i with
  | zero => exact ⟨w,rfl,fun j hj hlt => by omega,fun _ h => h,rfl,rfl⟩
  | succ n ih =>
    obtain ⟨w1,h1,hone,hkeep,hg,hhd⟩ := wireOne_spec hh (by omega : i<txBatch)
    obtain ⟨w2,h2,hall,hkeep2,hg2,hhd2⟩ :=
      ih (w := w1) (i := i+1) (by rw [hg,hhd]; exact hh) (by omega)
    refine ⟨w2,?_,fun j hj hlt => ?_,fun j hj => hkeep2 j (hkeep j hj),hg2.trans hg,hhd2.trans hhd⟩
    · rwa [Wiring.wireFrom,h1]
    · by_cases hij : j=i
      · rw [hij]
        exact hkeep2 i hone
      · exact hall j (by omega) (by omega)

theorem restored_spec (h : w.Ready) : ∃ w', w.restored=some w' ∧ w'.Ready ∧
    w'.msgsChained=false ∧ w'.gso=w.gso := by
  rw [Wiring.restored]
  rcases hc : w.msgsChained with _ | _
  · exact ⟨w,rfl,h,hc,rfl⟩
  obtain ⟨w1,h1,hall,_,hg,hhd⟩ := wireFrom_spec (i := 0) (n := txBatch) h.hdrs (by omega)
  rw [if_pos rfl,Wiring.wireOnePerPacket,h1]
  refine ⟨_,rfl,⟨?_,fun _ i hi => ?_⟩,rfl,hg⟩
  · rw [hg,hhd]
    exact h.hdrs
  · exact hall i (Nat.zero_le _) (by omega)

end

/-- The offload of packet or descriptor `i` of a call. -/
def offloadOf (offs : Option (List Offload)) (i : Nat) : Offload := (offs.getD []).getD i {}

def Covers (offs : Option (List Offload)) (n : Nat) : Prop := ∀ os, offs=some os → n≤os.length

theorem offloadAt_some (gso : Bool) {offs : Option (List Offload)} {i n : Nat} (h : Covers offs n)
    (hi : i<n) : ∃ o, offloadAt gso offs i=some o ∧
      ∀ ps, packetMessage gso o ps=packetMessage gso (offloadOf offs i) ps := by
  rcases gso with _ | _
  · exact ⟨{},by cases offs <;> rfl,fun ps => rfl⟩
  cases offs with
  | none => exact ⟨{},rfl,fun ps => rfl⟩
  | some os =>
    have hlt : i<os.length := lt_of_lt_of_le hi (h os rfl)
    refine ⟨os[i],getElem?_eq_getElem hlt,fun ps => ?_⟩
    rw [offloadOf,getD_some,getD_eq_getElem _ _ hlt]

def descPiece (d : Desc) : Piece := .region d.addr.toNat d.len.toNat

section
variable {w w' : Wiring} {r : FrameMemory} {i : Nat} {o : Offload} {d : Desc}

theorem regionIovec_some (h : d.addr.toNat<r.b.len) :
    regionIovec r d=some ⟨some (.region d.addr.toNat),d.len.toNat⟩ := if_pos h

theorem aim_spec (h : w.Ready) (hc : w.msgsChained=false) (hi : i<txBatch)
    (hd : d.addr.toNat<r.b.len) : ∃ w', w.aim r i d o=some w' ∧
      w'.Aimed i o ⟨some (.region d.addr.toNat),d.len.toNat⟩ ∧
      (∀ j o' v', j≠i → w.Aimed j o' v' → w'.Aimed j o' v') ∧
      w'.Ready ∧ w'.msgsChained=false ∧ w'.gso=w.gso := by
  have hone := h.one hc
  rw [Wiring.aim,regionIovec_some hd]
  cases hg : w.gso with
  | true =>
    have hlen := h.hdrs hg
    have hkept : ∀ j, j<txBatch → w.msgs j=⟨.iovs2 (2*j),2⟩ ∧
        w.iovs2 (2*j)=⟨some (.hdr w.hdrs.gen j),offloadHdrLen⟩ := by
      intro j hj
      have := hone j hj
      rwa [Wiring.OneAt,hg] at this
    simp only [bind_eq_bind,bind_some,if_true,Growing.set,Growing.assign,
      if_pos (by omega : i<w.hdrs.len),put_some (by omega : 2*i+1<2*txBatch)]
    refine ⟨_,rfl,⟨?_,fun _ => ?_,nofun⟩,fun j o' v' hj ha => ?_,
      ⟨fun _ => hlen,fun _ j hj => ?_⟩,hc,rfl⟩
    · simp only [Wiring.OneAt,if_true]
      exact ⟨(hkept i hi).1,by rw [update_of_ne (by omega)]; exact (hkept i hi).2⟩
    · simp
    · obtain ⟨hhdr,hfr⟩ := ha.hdr hg
      have hj1 := ha.one
      rw [Wiring.OneAt,hg] at hj1
      refine ⟨?_,fun _ => ⟨?_,?_⟩,nofun⟩
      · simp only [Wiring.OneAt,if_true]
        exact ⟨hj1.1,by rw [update_of_ne (by omega)]; exact hj1.2⟩
      · simp only [update_self]
        rwa [update_of_ne hj]
      · rw [← hfr]
        exact update_of_ne (by omega) _ _
    · simp only [Wiring.OneAt,if_true]
      exact ⟨(hkept j hj).1,by rw [update_of_ne (by omega)]; exact (hkept j hj).2⟩
  | false =>
    have hkept : ∀ j, j<txBatch → w.msgs j=⟨.iovs j,1⟩ := by
      intro j hj
      have := hone j hj
      rwa [Wiring.OneAt,hg] at this
    simp only [bind_eq_bind,bind_some,Bool.false_eq_true,if_false,put_some hi]
    refine ⟨_,rfl,⟨?_,nofun,fun _ => update_self _ _ _⟩,fun j o' v' hj ha => ?_,
      ⟨nofun,fun _ j hj => ?_⟩,hc,rfl⟩
    · exact hkept i hi
    · have hj1 := ha.one
      rw [Wiring.OneAt,hg] at hj1
      refine ⟨hj1,nofun,fun _ => ?_⟩
      rw [← ha.frame hg]
      exact update_of_ne hj _ _
    · exact hkept j hj

theorem aimAll_spec {offs : Option (List Offload)} {off : Nat} (ds : List Desc) (h : w.Ready)
    (hc : w.msgsChained=false) (hn : i+ds.length≤txBatch)
    (hd : ∀ d∈ds, d.addr.toNat<r.b.len) (hoffs : Covers offs (off+i+ds.length)) :
    ∃ w', aimAll r offs off i ds w=some w' ∧ w'.Ready ∧ w'.msgsChained=false ∧
      w'.gso=w.gso ∧ (∀ j o v, j < i → w.Aimed j o v → w'.Aimed j o v) ∧
      ∀ k d, ds[k]? = some d → w'.message (i+k) =
        packetMessage w.gso (offloadOf offs (off+i+k)) [descPiece d] := by
  induction ds generalizing w i with
  | nil => exact ⟨w,rfl,h,hc,rfl,fun _ _ _ _ ha => ha,nofun⟩
  | cons d ds ih =>
    rw [length_cons] at hn hoffs
    obtain ⟨o,ho,hmsg⟩ := offloadAt_some w.gso (i := off+i) hoffs (by omega)
    obtain ⟨w1,ha,haim,hkeep,hready,hc1,hg1⟩ := aim_spec (o := o) h hc (by omega : i<txBatch)
      (hd d mem_cons_self)
    have hcov : Covers offs (off+(i+1)+ds.length) := fun os hos => by have := hoffs os hos; omega
    obtain ⟨w2,h2,hready2,hc2,hg2,hkeep2,hmsgs⟩ := ih (w := w1) (i := i+1) hready hc1 (by omega)
      (fun d' hd' => hd d' (mem_cons_of_mem d hd')) hcov
    refine ⟨w2,?_,hready2,hc2,hg2.trans hg1,fun j o' v' hj haj => ?_,fun k d' hk => ?_⟩
    · simp only [aimAll,ho,ha,bind_eq_bind,bind_some]
      exact h2
    · exact hkeep2 j o' v' (by omega) (hkeep j o' v' (by omega) haj)
    · cases k with
      | zero =>
        rw [getElem?_cons_zero,some_inj] at hk
        have hfin := (hkeep2 i o _ (by omega) haim).message (nofun)
        rw [add_zero,hfin,hg2,hg1,hmsg,← hk]
        rfl
      | succ k =>
        have hmk := hmsgs k d' hk
        have hi1 : i+1+k=i+(k+1) := by omega
        have hi2 : off+(i+1)+k=off+i+(k+1) := by omega
        rwa [hi1,hi2,hg1] at hmk

end

def hdrIovs (gso : Bool) : Nat := if gso then 1 else 0

structure Wiring.Chained (w : Wiring) (m p : Nat) (o : Offload) (vs : List Iovec) : Prop where
  msg : w.msgs m=⟨.chain w.chainIovs.gen p,hdrIovs w.gso+vs.length⟩
  hdr : w.gso=true → w.chainIovs.cells w.chainIovs.gen p =
      ⟨some (.hdr w.hdrs.gen m),offloadHdrLen⟩ ∧ w.hdrs.cells w.hdrs.gen m=o.marshal
  iovecs : ∀ i v, vs[i]? = some v →
    w.chainIovs.cells w.chainIovs.gen (p+hdrIovs w.gso+i)=v

section
variable {w w' : Wiring} {m p pos : Nat} {o : Offload} {vs : List Iovec}

theorem Wiring.Chained.message (h : w.Chained m p o vs) (hv : ∀ v∈vs, v.Free) :
    w.message m=packetMessage w.gso o (vs.map plain) := by
  have hrest : (List.range vs.length).map (fun j => w.piece
      (w.chainIovs.cells w.chainIovs.gen (p+hdrIovs w.gso+j)))=vs.map plain := by
    refine ext_getElem (by simp) fun i hi hi' => ?_
    rw [length_map,length_range] at hi
    have hget := getElem?_eq_getElem hi
    rw [getElem_map,getElem_range,getElem_map,h.iovecs i _ hget,
      piece_plain (hv _ (getElem_mem hi))]
  rw [Wiring.message,packetMessage,h.msg]
  cases hg : w.gso with
  | true =>
    obtain ⟨hiov,hhdr⟩ := h.hdr hg
    have hone : hdrIovs true=1 := rfl
    rw [hg] at hrest
    simp only [hone,Nat.add_comm 1,range_succ_eq_map,map_cons,List.map_map,
      Wiring.iovec,Nat.add_zero,hiov,piece_hdr hhdr,if_true]
    rw [← hrest]
    refine congrArg _ (map_congr_left fun j _ => ?_)
    have hj : p+(j+1)=p+hdrIovs true+j := by rw [hone]; omega
    simp only [comp_apply,hj]
  | false =>
    have hzero : hdrIovs false=0 := rfl
    rw [hg] at hrest
    simp only [hzero,Nat.zero_add,Nat.add_zero,Wiring.iovec] at hrest ⊢
    exact hrest

theorem layIovecs_spec (w : Wiring) (pos : Nat) (vs : List Iovec)
    (h : pos+vs.length≤w.chainIovs.len) : ∃ cells,
    w.layIovecs pos vs=some { w with chainIovs := { w.chainIovs with cells } } ∧
      (∀ i v, vs[i]? = some v → cells w.chainIovs.gen (pos+i)=v) ∧
      ∀ gen j, gen≠w.chainIovs.gen ∨ j<pos → cells gen j=w.chainIovs.cells gen j := by
  induction vs generalizing w pos with
  | nil => exact ⟨w.chainIovs.cells,rfl,nofun,fun _ _ _ => rfl⟩
  | cons v vs ih =>
    rw [length_cons] at h
    have hset : w.chainIovs.set pos v=some (w.chainIovs.assign pos v) := if_pos (by omega)
    obtain ⟨cells,hlay,hnew,hold⟩ := ih { w with chainIovs := w.chainIovs.assign pos v }
      (pos+1) (by change pos+1+vs.length≤w.chainIovs.len; omega)
    refine ⟨cells,?_,fun i x hi => ?_,fun gen j hj => ?_⟩
    · rwa [Wiring.layIovecs,hset]
    · cases i with
      | zero =>
        rw [getElem?_cons_zero,some_inj] at hi
        rw [add_zero,← hi]
        refine (hold _ pos (.inr (by omega))).trans ?_
        simp [Growing.assign]
      | succ i =>
        have := hnew i x hi
        rwa [add_assoc,add_comm 1] at this
    · refine (hold gen j (hj.imp_right fun hlt => by omega)).trans ?_
      by_cases hgen : gen=w.chainIovs.gen
      · subst hgen
        have hjp : j≠pos := by
          rcases hj with hj | hj
          · exact absurd rfl hj
          · omega
        simp [Growing.assign,update_of_ne hjp]
      · simp [Growing.assign,update_of_ne hgen]

theorem layMessage_spec (m pos : Nat) (o : Offload) (vs : List Iovec)
    (hh : w.gso=true → w.hdrs.len=txBatch) (hm : m<txBatch)
    (hlen : pos+hdrIovs w.gso+vs.length≤w.chainIovs.len) : ∃ w',
      w.layMessage m pos o vs=some (w',pos+hdrIovs w.gso+vs.length) ∧ w'.Chained m pos o vs ∧
      (∀ j p' o' vs', j≠m → p'+hdrIovs w.gso+vs'.length≤pos → w.Chained j p' o' vs' →
        w'.Chained j p' o' vs') ∧
      w'.gso=w.gso ∧ w'.hdrs.len=w.hdrs.len ∧ w'.chainIovs.len=w.chainIovs.len ∧
      w'.msgsChained=true := by
  rw [Wiring.layMessage]
  cases hg : w.gso with
  | true =>
    have hone : hdrIovs true=1 := rfl
    have hhl := hh hg
    rw [hg,hone] at hlen
    obtain ⟨cells,hlay,hnew,hold⟩ := layIovecs_spec { w with
        gso := true
        hdrs := w.hdrs.assign m o.marshal
        chainIovs := w.chainIovs.assign pos ⟨some (.hdr w.hdrs.gen m),offloadHdrLen⟩ }
      (pos+1) vs hlen
    have hgen : (w.hdrs.assign m o.marshal).gen=w.hdrs.gen := rfl
    simp only [if_true,Growing.set,if_pos (by omega : m<w.hdrs.len),
      if_pos (by omega : pos<w.chainIovs.len),bind_eq_bind,bind_some,hgen,hlay,
      put_some hm]
    have hcount : pos+1+vs.length-pos=hdrIovs true+vs.length := by rw [hone]; omega
    refine ⟨_,rfl,⟨?_,fun _ => ⟨?_,?_⟩,fun i v hi => hnew i v hi⟩,fun j p' o' vs' hj hp hch => ?_,
      rfl,rfl,rfl,rfl⟩
    · simp [hcount]
    · refine (hold _ pos (.inr (by omega))).trans ?_
      simp [Growing.assign]
    · simp [Growing.assign]
    · obtain ⟨hiov,hhdr⟩ := hch.hdr hg
      have hbelow (x : Nat) (hx : x<pos) :
          cells w.chainIovs.gen x=w.chainIovs.cells w.chainIovs.gen x := by
        refine (hold _ x (.inr (by omega))).trans ?_
        simp only [Growing.assign,update_self]
        exact update_of_ne (by omega) _ _
      refine ⟨?_,fun _ => ⟨?_,?_⟩,fun i v hi => ?_⟩
      · have hmsg := hch.msg
        rw [hg] at hmsg
        exact (update_of_ne hj _ _).trans hmsg
      · exact (hbelow p' (by omega)).trans hiov
      · simp only [Growing.assign,update_self]
        exact (update_of_ne hj _ _).trans hhdr
      · have hilt := (List.getElem?_eq_some_iff.mp hi).1
        have hcell := hch.iovecs i v hi
        rw [hg,hone] at hcell
        exact (hbelow _ (by rw [hone]; omega)).trans hcell
  | false =>
    have hzero : hdrIovs false=0 := rfl
    obtain ⟨cells,hlay,hnew,hold⟩ := layIovecs_spec w pos vs (by omega)
    simp only [Bool.false_eq_true,if_false,bind_eq_bind,bind_some,hlay,put_some hm]
    have hcount : pos+vs.length-pos=hdrIovs w.gso+vs.length := by rw [hg,hzero]; omega
    refine ⟨_,rfl,⟨?_,fun hf => ?_,fun i v hi => ?_⟩,fun j p' o' vs' hj hp hch => ?_,hg,rfl,rfl,rfl⟩
    · simp [hcount]
    · rw [hg] at hf
      simp at hf
    · have hpos : pos+hdrIovs w.gso=pos := by rw [hg,hzero,add_zero]
      rw [hpos]
      exact hnew i v hi
    · refine ⟨(update_of_ne hj _ _).trans hch.msg,fun hf => ?_,fun i v hi => ?_⟩
      · rw [hg] at hf
        simp at hf
      · have hilt := (List.getElem?_eq_some_iff.mp hi).1
        exact (hold _ _ (.inr (by change p'+hdrIovs w.gso+i<pos; omega))).trans (hch.iovecs i v hi)

end

inductive Cut (pieces : Nat → Nat → Nat → Option (Offload × List Iovec)) :
    Nat → Nat → List Nat → List (Offload × List Iovec) → Prop
  | nil {m i : Nat} : Cut pieces m i [] []
  | cons {m i n : Nat} {lens : List Nat} {o : Offload} {vs : List Iovec}
      {es : List (Offload × List Iovec)} (h : pieces m i n=some (o,vs)) (hn : vs.length=n)
      (hs : Cut pieces (m+1) (i+n) lens es) : Cut pieces m i (n::lens) ((o,vs)::es)

section
variable {w : Wiring} {pieces : Nat → Nat → Nat → Option (Offload × List Iovec)}
  {m i pos : Nat} {lens : List Nat} {es : List (Offload × List Iovec)}

theorem Cut.length (h : Cut pieces m i lens es) : es.length=lens.length := by
  induction h with
  | nil => rfl
  | cons _ _ _ ih => rw [length_cons,length_cons,ih]

theorem layMessages_spec (w : Wiring) (pos : Nat) (hc : Cut pieces m i lens es)
    (hh : w.gso=true → w.hdrs.len=txBatch) (hm : m+lens.length≤txBatch)
    (hlen : pos+(lens.sum+lens.length*hdrIovs w.gso)≤w.chainIovs.len) : ∃ w',
      w.layMessages pieces lens m pos i=some w' ∧
      (∀ k e, es[k]? = some e → ∃ p, w'.Chained (m+k) p e.1 e.2) ∧
      (∀ j p o vs, j < m → p+hdrIovs w.gso+vs.length≤pos → w.Chained j p o vs →
      w'.Chained j p o vs) ∧
      w'.gso=w.gso ∧ (w.gso=true → w'.hdrs.len=txBatch) ∧ (lens ≠ [] → w'.msgsChained=true) := by
  induction hc generalizing w pos with
  | nil => exact ⟨w,rfl,nofun,fun _ _ _ _ _ _ h => h,rfl,hh,fun h => absurd rfl h⟩
  | @cons m i n lens o vs es h hn hs ih =>
    rw [length_cons] at hm
    rw [sum_cons,length_cons,Nat.succ_mul] at hlen
    obtain ⟨w1,h1,hchained,hkeep,hg1,hhd1,hcl1,hmc1⟩ :=
      layMessage_spec m pos o vs hh (by omega) (by omega)
    obtain ⟨w2,h2,hall,hkeep2,hg2,hhd2,hmc2⟩ := ih w1 (pos+hdrIovs w.gso+vs.length)
      (by rw [hg1,hhd1]; exact hh) (by omega) (by rw [hg1,hcl1]; omega)
    refine ⟨w2,?_,fun k e hk => ?_,fun j p o' vs' hj hp hch => ?_,hg2.trans hg1,?_,fun _ => ?_⟩
    · simp only [Wiring.layMessages,h,h1,bind_eq_bind,bind_some]
      exact h2
    · cases k with
      | zero =>
        rw [getElem?_cons_zero,some_inj] at hk
        rw [add_zero,← hk]
        exact ⟨pos,hkeep2 m pos o vs (by omega) (by rw [hg1]) hchained⟩
      | succ k =>
        have := hall k e hk
        rwa [add_assoc,add_comm 1] at this
    · exact hkeep2 j p o' vs' (by omega) (by rw [hg1]; omega) (hkeep j p o' vs' (by omega) hp hch)
    · rwa [hg1] at hhd2
    · cases lens with
      | nil =>
        rw [Wiring.layMessages,some_inj] at h2
        rwa [← h2]
      | cons n' lens => exact hmc2 (by simp)

theorem grow_gso (w : Wiring) (iovN packets : Nat) : (w.grow iovN packets).gso=w.gso := by
  rw [Wiring.grow]
  cases w.gso <;> rfl

theorem lay_batch {iovN : Nat} (h : w.Ready) (hc : Cut pieces 0 i lens es) (hne : lens ≠ [])
    (hn : lens.length≤txBatch) (hiov : lens.sum+lens.length*hdrIovs w.gso ≤ iovN)
    (hfree : ∀ e∈es, ∀ v∈e.2, v.Free) : ∃ w',
      (w.grow iovN lens.length).layMessages pieces lens 0 0 i=some w' ∧ w'.Ready ∧
      w'.gso=w.gso ∧ (List.range lens.length).map w'.message =
        es.map fun e => packetMessage w.gso e.1 (e.2.map plain) := by
  have hg := grow_gso w iovN lens.length
  have hcl : (w.grow iovN lens.length).chainIovs.len=iovN := by
    have : (w.chainIovs.resize iovN {}).len=iovN := by
      rw [Growing.resize]
      split
      case isTrue | isFalse => rfl
    rw [Wiring.grow]
    split
    case isTrue | isFalse => exact this
  have hhd : (w.grow iovN lens.length).gso=true → (w.grow iovN lens.length).hdrs.len=txBatch := by
    intro hgso
    rw [hg] at hgso
    have hlen := h.hdrs hgso
    have hkeep : w.hdrs.reserve lens.length zeroHdr=w.hdrs := if_neg (by omega)
    simp [Wiring.grow,hgso,hkeep,hlen]
  obtain ⟨w',hlay,hall,_,hg',hhd',hmc⟩ := layMessages_spec _ 0 hc hhd (by omega)
    (by rw [hg,hcl]; omega)
  rw [hg] at hg' hhd'
  refine ⟨w',hlay,⟨by rw [hg']; exact hhd',fun hf => ?_⟩,hg',?_⟩
  · rw [hmc hne] at hf
    simp at hf
  · refine ext_getElem (by simp [hc.length]) fun k hk hk' => ?_
    rw [length_map] at hk'
    obtain ⟨p,hch⟩ := hall k _ (getElem?_eq_getElem hk')
    rw [getElem_map,getElem_range,getElem_map]
    rw [zero_add] at hch
    rw [hch.message (hfree _ (getElem_mem hk')),hg']

end

inductive Offers (msgs : List (List Piece)) : Nat → List Sendmmsg → Nat → Prop
  | nil {p : Nat} : Offers msgs p [] p
  | cons {p p' : Nat} {e : Sendmmsg} {es : List Sendmmsg} (h : e.msgs <+: msgs.drop p)
      (hgot : e.got≤e.msgs.length) (hs : Offers msgs (p+e.got) es p') : Offers msgs p (e::es) p'

section
variable {msgs batch : List (List Piece)} {p p' p'' : Nat} {es es' : List Sendmmsg}

theorem Offers.append (h : Offers msgs p es p') (h' : Offers msgs p' es' p'') :
    Offers msgs p (es++es') p'' := by
  induction h with
  | nil => exact h'
  | cons hp hgot _ ih => exact .cons hp hgot (ih h')

theorem Offers.within {a a' : Nat} (h : Offers batch a es a') (hb : batch <+: msgs.drop p) :
    Offers msgs (p+a) es (p+a') := by
  induction h with
  | nil => exact .nil
  | @cons a a' e es hp hgot _ ih =>
    refine .cons ?_ hgot (by rw [add_assoc]; exact ih)
    rw [← drop_drop]
    exact hp.trans (List.IsPrefix.drop hb a)

end

structure TxQueue.Sent (q q' : TxQueue) : Prop where
  region : q'.region=q.region
  pool : q'.pool=q.pool
  wires : q'.wires=q.wires
  pending : q'.pending=q.pending
  closed : q'.closed=q.closed

section
variable {q : TxQueue} {sock : Sock} {n : Nat}

/-- The loop ends, since the kernel may not stall forever, and the kernel took a first part of the
messages. -/
theorem sendLoop_spec (fuel sent stall : Nat) (sock : Sock) (hs : sent≤n) (hst : stall < maxStall)
    (hfuel : maxStall*(n-sent)+(maxStall-stall)<fuel) :
    ∃ q' sock' sent' es, sendLoop n fuel sent stall q sock=some (q',sock',sent') ∧
      q.Sent q' ∧ sock'.kernel=sock.kernel ∧ sock'.log=sock.log++es ∧ sent'≤n ∧
      Offers ((List.range n).map q.wires.message) sent es sent' := by
  induction fuel generalizing sent stall sock with
  | zero => omega
  | succ fuel ih =>
    rw [maxStall] at hst hfuel
    rw [sendLoop]
    split
    case isFalse => exact ⟨q,sock,sent,[],rfl,⟨rfl,rfl,rfl,rfl,rfl⟩,rfl,(append_nil _).symm,hs,.nil⟩
    rename_i hlt
    obtain ⟨a,ha⟩ : ∃ a, a=sock.kernel.answer sock.log.length (n-sent) := ⟨_,rfl⟩
    have hle : a.errno=0 → a.got≤n-sent := fun h0 => by
      have := sock.kernel.le sock.log.length (n-sent)
      rw [← ha] at this
      exact this h0
    simp only [← ha]
    have hoff : ((range n).drop sent).map q.wires.message <+:
        ((range n).map q.wires.message).drop sent := by
      rw [map_drop]
    have hlen : (((range n).drop sent).map q.wires.message).length=n-sent := by
      rw [length_map,length_drop,length_range]
    by_cases hok : a.errno=0 ∧ 0<a.got
    · rw [if_pos hok,if_pos hok.1]
      have hgot := hle hok.1
      obtain ⟨q',sock',sent',es,hres,hq,hk,hlog,hn,hoffers⟩ := ih (sent+a.got) 0
        { sock with
          log := sock.log++[⟨((range n).drop sent).map q.wires.message,a.got⟩] }
        (by omega) (by decide) (by rw [maxStall]; omega)
      refine ⟨q',sock',sent',⟨_,a.got⟩::es,hres,hq,hk,?_,hn,.cons hoff ?_ hoffers⟩
      · rw [hlog,append_assoc]
        rfl
      · rwa [hlen]
    rw [if_neg hok]
    -- nothing was taken
    have hzero : (if a.errno=0 then a.got else 0)=0 := by
      split
      case isTrue h0 => omega
      case isFalse => rfl
    rw [hzero]
    have hone {es : List Sendmmsg} {sent' : Nat}
        (h : Offers ((range n).map q.wires.message) sent es sent') :
        Offers ((range n).map q.wires.message) sent
          (⟨((range n).drop sent).map q.wires.message,0⟩::es) sent' :=
      .cons hoff (Nat.zero_le _) h
    split
    case isTrue => exact ⟨_,_,sent,_,rfl,⟨rfl,rfl,rfl,rfl,rfl⟩,rfl,rfl,hs,hone .nil⟩
    split
    case isTrue => exact ⟨_,_,sent,_,rfl,⟨rfl,rfl,rfl,rfl,rfl⟩,rfl,rfl,hs,hone .nil⟩
    rename_i hgo
    rw [not_or,maxStall] at hgo
    obtain ⟨q',sock',sent',es,hres,hq,hk,hlog,hn,hoffers⟩ := ih sent
      (stall+1) { sock with
        log := sock.log++[⟨((range n).drop sent).map q.wires.message,0⟩] }
      hs (by rw [maxStall]; omega) (by rw [maxStall]; omega)
    refine ⟨q',sock',sent',_::es,hres,hq,hk,?_,hn,hone hoffers⟩
    rw [hlog,append_assoc]
    rfl

theorem sendAll_spec (n : Nat) (q : TxQueue) (sock : Sock) :
    ∃ q' sock' sent es, sendAll n q sock=some (q',sock',sent) ∧ q.Sent q' ∧
      sock'.kernel=sock.kernel ∧ sock'.log=sock.log++es ∧ sent≤n ∧
      Offers ((List.range n).map q.wires.message) 0 es sent :=
  sendLoop_spec _ 0 0 sock (Nat.zero_le n) (by decide) (by rw [maxStall]; omega)

end

end Packetio.Afpacket

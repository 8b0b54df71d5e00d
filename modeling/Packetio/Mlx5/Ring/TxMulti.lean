import Mathlib.Data.List.TakeWhile
import Packetio.Mlx5.Ring.TxTurn

/-! The multi-packet loop (postMulti) as turns: what is gathered, how many packets
share an entry, and when the loop ends. -/
namespace Packetio.Mlx5.Ring
open Lib List UInt32

variable {f : TxFixed} {ds descs : List Desc} {m : MPWSender} {d : Desc} {st : MultiState} {p : Put}
  {t t' : Tx}

/-- Gathering stops at the first bad descriptor, although those before `checked`
are not looked at again. -/
theorem gather_eq (hb : f.Built) (ds : List Desc) (i checked : Nat)
    (hi : i≤checked) (hc : ∀ d∈ds.take (checked-i), f.descOK d=true) :
    gather f i checked ds=some ⟨(ds.takeWhile f.descOK).map f.segment,
      max checked (i+(ds.takeWhile f.descOK).length),!ds.all f.descOK⟩ := by
  induction ds generalizing i checked with
  | nil => simp [gather,hi]
  | cons d ds ih =>
    cases hd : f.descOK d with
    | false =>
      have hci : checked ≤ i := by
        by_contra hlt
        have hmem : d∈(d::ds).take (checked-i) := by
          rw [show checked-i=(checked-i-1)+1 by omega,take_succ_cons]
          simp
        rw [hc d hmem] at hd
        cases hd
      simp only [gather,hci,hd,takeWhile_cons,all_cons]
      simp
      omega
    | true =>
      have hrest := ih (i+1) (if checked ≤ i then i+1 else checked) (by split_ifs <;> omega) (by
        intro d' hd'
        split_ifs at hd' with hle
        · simp at hd'
        · apply hc d'
          rw [show checked-i=(checked-(i+1))+1 by omega,take_succ_cons]
          exact mem_cons_of_mem _ hd')
      simp only [gather,hd,hb.slice_eq hd,hrest,takeWhile_cons,all_cons]
      simp [TxFixed.segment]
      split_ifs <;> omega

theorem fits_le (hb : f.Built) (hds : ∀ d∈ds, f.descOK d=true) : m.fits (ds.map f.region.frame) =
      if m.pointer then min m.maxPackets ds.length
      else fitsFrom m.maxLen 2 (ds.map f.region.frame) := by
  rw [MPWSender.fits]
  rcases m.pointer with _ | _
  · rfl
  rw [if_pos rfl,if_pos rfl,← map_take,leadingNonEmpty_of_pos,length_map,length_take]
  intro s hs
  obtain ⟨d,hd,rfl⟩ := mem_map.mp hs
  exact ((hb.descOK_iff d).mp (hds d (mem_of_mem_take hd))).1

def TxFixed.need (f : TxFixed) (m : MPWSender) (ds : List Desc) : UInt32 :=
  if ds.length<2 then 1
  else if m.pointer then blocksFor (UInt32.ofNat (2+ds.length))
  else mpwBlocks (ds.map f.region.frame)

def TxFixed.share (f : TxFixed) (m : MPWSender) (ds : List Desc) : List Desc :=
  ds.take (max 1 (m.fits (ds.map f.region.frame)))

def Tx.entry (t : Tx) (m : MPWSender) (ds : List Desc) : Put :=
  if 2≤ds.length then
    if m.pointer then m.putPointers t.sqBytes t.pi.toUInt16 (ds.map t.segment) false
    else m.put t.sqBytes t.pi.toUInt16 (ds.map t.region.frame) false
  else t.sender.put t.sqBytes t.pi.toUInt16 (t.region.frame (ds.headD default))
    (t.regionVA+(ds.headD default).addr) false

theorem share_length (hb : f.Built) (hne : ds ≠ []) (hds : ∀ d∈ds, f.descOK d=true) :
    (f.share m ds).length=max 1 (m.fits (ds.map f.region.frame)) := by
  have hlen : 1≤ds.length := length_pos_iff.mpr hne
  have hfit : m.fits (ds.map f.region.frame)≤ds.length := by
    rw [fits_le hb hds]
    split_ifs
    · omega
    · simpa using fitsFrom_le_length m.maxLen 2 (ds.map f.region.frame)
  rw [TxFixed.share,length_take]
  omega

section
variable {t : Tx} (hb : t.toTxFixed.Built) {m : MPWSender} (hm : t.mpw=some m)
include hb hm

theorem maxBBs_multi : t.maxBBs=1 := by
  rw [← UInt32.toNat_inj,hb.maxBBs,(hb.multi m hm).inlineLen]
  rfl

section
variable (hds : ∀ d'∈d::ds, t.descOK d'=true)
include hds

theorem entry_writes :
    Writes t (t.share m (d::ds)) (t.entry m (t.share m (d::ds))) ∧
      (t.entry m (t.share m (d::ds))).bbs=t.need m (t.share m (d::ds)) := by
  have hlen := share_length hb (m := m) (cons_ne_nil d ds) hds
  have hfit := fits_le hb (m := m) hds
  by_cases h2 : 2≤(t.share m (d::ds)).length
  · have hsh : t.share m (d::ds)=(d::ds).take (m.fits ((d::ds).map t.region.frame)) := by
      rw [TxFixed.share,max_eq_right (by omega)]
    rw [Tx.entry,TxFixed.need,if_pos h2,if_neg (not_lt.mpr h2)]
    cases hp : m.pointer with
    | true =>
      rw [hp,if_pos rfl] at hfit
      refine ⟨.pointers m _ hm hp h2 (by omega),?_⟩
      simp [MPWSender.putPointers]
    | false =>
      have hidem := fitsFrom_take m.maxLen 2 ((d::ds).map t.region.frame)
      simp only [hp,Bool.false_eq_true,if_false] at hfit
      rw [← hfit,← map_take,← hsh] at hidem
      exact ⟨.copied m _ hm hp h2 (by omega),rfl⟩
  · have hsh : t.share m (d::ds) = [d] := by
      rw [TxFixed.share,max_eq_left (by omega)]
      rfl
    rw [hsh]
    have hw : Writes t [d] (t.entry m [d]) := .single d false
    obtain ⟨-,hlo,-⟩ := hw.bbs hb
    have hle := single_bbs_le hb d t.sqBytes t.pi.toUInt16 (t.regionVA+d.addr) false
    refine ⟨hw,UInt32.toNat_inj.mp ?_⟩
    rw [maxBBs_multi hb hm] at hle
    change (t.entry m [d]).bbs.toNat≤1 at hle
    change _=1
    omega

theorem putMulti_eq (hfree : t.free≠0) :
    t.putMulti m t.free ((d::ds).map t.segment) d=some ((t.share m (d::ds)).length,
      if t.need m (t.share m (d::ds))≤t.free then t.entry m (t.share m (d::ds))
      else ⟨t.sqBytes,t.need m (t.share m (d::ds)),[]⟩) := by
  have hlen := share_length hb (m := m) (cons_ne_nil d ds) hds
  have hfst : ((d::ds).map t.segment).map Prod.fst=(d::ds).map t.region.frame := by
    simp [TxFixed.segment]
  have htake : ∀ k, (((d::ds).map t.segment).take k).map Prod.fst =
      ((d::ds).take k).map t.region.frame := by
    intro k
    rw [← map_take,map_map]
    rfl
  have hbbs := (entry_writes hb hm hds).2
  set k := m.fits ((d::ds).map t.region.frame) with hk
  rw [Tx.putMulti,hfst,← hk]
  by_cases h2 : 2≤k
  · have hkl : (t.share m (d::ds)).length=k := by omega
    have hsh : t.share m (d::ds)=(d::ds).take k := by
      rw [TxFixed.share,← hk,max_eq_right (by omega)]
    rw [TxFixed.need,Tx.entry,hkl,if_pos h2,if_neg (by omega : ¬ k<2)] at hbbs
    rw [TxFixed.need,Tx.entry,hkl,if_pos h2,if_neg (by omega : ¬ k<2)]
    cases hp : m.pointer with
    | true =>
      simp only [hp,if_true] at hbbs
      simp only [h2,and_self,if_true,← map_take,← hsh]
      by_cases hle : blocksFor (ofNat (2+k))≤t.free
      · rw [if_neg (UInt32.not_lt.mpr hle),if_pos hle,← hbbs]
      · rw [if_pos (UInt32.not_le.mp hle),if_neg hle]
    | false =>
      simp only [h2,and_false,Bool.false_eq_true,if_false,if_true,htake,← hsh]
      by_cases hle : mpwBlocks ((t.share m (d::ds)).map t.region.frame)≤t.free
      · rw [if_neg (UInt32.not_lt.mpr hle),if_pos hle]
        rfl
      · rw [if_pos (UInt32.not_le.mp hle),if_neg hle]
  · have hkl : (t.share m (d::ds)).length=1 := by omega
    have hsh : t.share m (d::ds) = [d] := by
      rw [TxFixed.share,← hk,max_eq_left (by omega)]
      rfl
    have hpos : 0<t.free.toNat := pos_of_ne_zero fun h0 => hfree (UInt32.toNat_inj.mp h0)
    have hneed : t.need m (t.share m (d::ds))≤t.free := by
      rwa [TxFixed.need,hkl,if_pos (by omega),le_iff_toNat_le]
    have hmax : ¬ t.maxBBs > t.free := by
      rw [maxBBs_multi hb hm]
      exact UInt32.not_lt.mpr (UInt32.le_iff_toNat_le.mpr hpos)
    rw [if_pos hneed,hsh]
    simp only [h2,false_and,if_false,hmax,hb.slice_eq (hds d (by simp))]
    rfl

theorem putMulti_spec (hfree : t.free≠0) :
    ∃ p, t.putMulti m t.free ((d::ds).map t.segment) d=some ((t.share m (d::ds)).length,p) ∧
      (t.need m (t.share m (d::ds))≤t.free →
        Writes t (t.share m (d::ds)) p ∧ p.bbs=t.need m (t.share m (d::ds)) ∧
          p.buf=(t.entry m (t.share m (d::ds))).buf) ∧ (¬ t.need m (t.share m (d::ds))≤t.free →
        p.bbs > t.free ∧ p.buf=t.sqBytes ∧ p.touched = []) := by
  refine ⟨_,putMulti_eq hb hm hds hfree,fun h => ?_,fun h => ?_⟩
  · rw [if_pos h]
    obtain ⟨hw,hn⟩ := entry_writes hb hm hds
    exact ⟨hw,hn,rfl⟩
  · rw [if_neg h]
    exact ⟨UInt32.not_le.mp h,rfl,rfl⟩

end

end

def Tx.gathered (t : Tx) (waiting : List Desc) : List Desc :=
  (waiting.take (t.gatherLimit waiting.length)).takeWhile t.descOK

def Tx.Stuck (t : Tx) (m : MPWSender) (waiting : List Desc) : Prop :=
  t.free=0 ∨ t.slotTail-t.slotHead=t.numSlots ∨ t.gathered waiting = [] ∨
    ¬ t.need m (t.share m (t.gathered waiting))≤t.free

def MultiState.Checked (st : MultiState) (descs : List Desc) : Prop :=
  st.posted ≤ st.checked ∧ ∀ d∈descs.take st.checked, st.tx.descOK d=true

theorem gathered_waiting (t : Tx) (waiting : List Desc) : t.gathered waiting <+: waiting :=
  ( takeWhile_prefix _).trans ( take_prefix _ _)

theorem checked_gathered (hc : st.Checked descs) : ∀ d∈descs.take (max st.checked
      (st.posted+(st.tx.gathered (descs.drop st.posted)).length)), st.tx.descOK d=true := by
  intro d hd
  by_cases hle : st.posted+(st.tx.gathered (descs.drop st.posted)).length ≤ st.checked
  · rw [max_eq_left hle] at hd
    exact hc.2 d hd
  rw [max_eq_right (by omega),take_add,mem_append] at hd
  cases hd with
  | inl hd => exact hc.2 d (take_subset_take_left _ hc.1 hd)
  | inr hd =>
    rw [← prefix_iff_eq_take.mp (gathered_waiting st.tx _)] at hd
    exact mem_takeWhile_imp hd

theorem gather_turn (hb : st.tx.toTxFixed.Built) (hc : st.Checked descs) :
    gather st.tx.toTxFixed st.posted st.checked
      ((descs.drop st.posted).take (st.tx.gatherLimit (descs.drop st.posted).length)) =
      some ⟨(st.tx.gathered (descs.drop st.posted)).map st.tx.segment,
        max st.checked (st.posted+(st.tx.gathered (descs.drop st.posted)).length),
        !((descs.drop st.posted).take
          (st.tx.gatherLimit (descs.drop st.posted).length)).all st.tx.descOK⟩ := by
  apply gather_eq hb _ _ _ hc.1
  intro d hd
  rw [take_take] at hd
  have hd' := take_subset_take_left _ (min_le_left _ _) hd
  rw [← drop_take] at hd'
  exact hc.2 d (mem_of_mem_drop hd')

def MultiState.chunk (st : MultiState) (m : MPWSender) (descs : List Desc) : List Desc :=
  st.tx.share m (st.tx.gathered (descs.drop st.posted))

structure Went (m : MPWSender) (descs : List Desc) (st st' : MultiState) : Prop where
  turn : ∃ p, Turn st.tx (st.chunk m descs) p st'.tx ∧ p.bbs=st.tx.need m (st.chunk m descs)
  buf : st'.tx.sqBytes=(st.tx.entry m (st.chunk m descs)).buf
  chunk : st.chunk m descs <+: descs.drop st.posted
  posted : st'.posted=st.posted+(st.chunk m descs).length
  bytes : st'.bytes=sumLens st.bytes (st.chunk m descs)
  lastIdx : st'.lastIdx=st.tx.pi.toUInt16
  anyPut : st'.anyPut=true
  room : st.tx.slotTail-st.tx.slotHead≠st.tx.numSlots
  gathered : st.tx.gathered (descs.drop st.posted) ≠ []
  bad : st'.bad = !((descs.drop st.posted).take
    (st.tx.gatherLimit (descs.drop st.posted).length)).all st.tx.descOK

structure Stopped (m : MPWSender) (descs : List Desc) (st st' : MultiState) : Prop where
  agree : st.tx.Agree st'.tx
  posted : st'.posted=st.posted
  bytes : st'.bytes=st.bytes
  lastIdx : st'.lastIdx=st.lastIdx
  anyPut : st'.anyPut=st.anyPut
  stuck : st.tx.Stuck m (descs.drop st.posted)

theorem Writes.of_agree (ha : t.Agree t') (h : Writes t' ds p) : Writes t ds p := by
  obtain ⟨_,_,_,rfl,-,-⟩ := ha
  cases h with
  | single d signal => exact .single d signal
  | pointers m ds hm hp h2 hk => exact .pointers m ds hm hp h2 hk
  | copied m ds hm hp h2 hk => exact .copied m ds hm hp h2 hk

theorem multiTurn_spec (hb : st.tx.toTxFixed.Built)
    (hm : st.tx.mpw=some m) (hc : st.Checked descs) :
    ∃ st' again, multiTurn m descs st=some (st',again) ∧ st'.Checked descs ∧
      (st'.bad=true → st.bad=true ∨ ∃ d∈descs, st.tx.descOK d=false) ∧
      if again then Went m descs st st' else Stopped m descs st st' := by
  by_cases hfull : st.tx.free=0 ∨ st.tx.slotTail-st.tx.slotHead=st.tx.numSlots
  · refine ⟨st,false,?_,hc,fun h => .inl h,.refl _,rfl,rfl,rfl,rfl,?_⟩
    · simp [multiTurn,if_pos hfull]
    · exact hfull.imp_right .inl
  have hg := gather_turn hb hc
  have hchk := checked_gathered hc
  have hpre := gathered_waiting st.tx (descs.drop st.posted)
  have hok : ∀ d∈st.tx.gathered (descs.drop st.posted), st.tx.descOK d=true :=
    fun d hd => mem_takeWhile_imp hd
  set bad := !((descs.drop st.posted).take
    (st.tx.gatherLimit (descs.drop st.posted).length)).all st.tx.descOK with hbad
  have hbad' : bad=true → st.bad=true ∨ ∃ d∈descs, st.tx.descOK d=false := by
    intro h
    simp only [hbad,Bool.not_eq_true',all_eq_false,Bool.not_eq_true] at h
    obtain ⟨d,hd,hdf⟩ := h
    exact .inr ⟨d,mem_of_mem_drop (mem_of_mem_take hd),hdf⟩
  -- the counters the turn goes on with
  obtain ⟨c,hcount,hcp,hcb⟩ : ∃ c, (if bad then st.tx.countBadDesc else st.tx) =
      { st.tx with c := c } ∧ c.packets=st.tx.c.packets ∧ c.bytes=st.tx.c.bytes := by
    cases bad with
    | true => exact ⟨_,rfl,rfl,rfl⟩
    | false => exact ⟨st.tx.c,rfl,rfl,rfl⟩
  have hagree : st.tx.Agree { st.tx with c := c } := ⟨c,_,_,rfl,hcp,hcb⟩
  rcases hgd : st.tx.gathered (descs.drop st.posted) with _ | ⟨d,ds⟩
  · refine ⟨{ st with tx := { st.tx with c := c }, checked := _, bad := bad },false,?_,
      ⟨?_,hchk⟩,hbad',hagree,rfl,rfl,rfl,rfl,.inr (.inr (.inl hgd))⟩
    · simp only [multiTurn,if_neg hfull,hg,hgd,hcount,map_nil]
    · exact hc.1.trans (le_max_left _ _)
  rw [hgd] at hok hpre
  obtain ⟨rest,hwait⟩ := hpre
  have hfree : st.tx.free≠0 := fun h0 => hfull (.inl h0)
  obtain ⟨p,hput,hput'⟩ := putMulti_spec (t := { st.tx with c := c }) hb hm hok hfree
  have hch : st.chunk m descs=st.tx.share m (d::ds) := by rw [MultiState.chunk,hgd]
  have hpre : st.tx.share m (d::ds) <+: d::ds++rest := ( take_prefix _ _).trans (prefix_append _ _)
  have htake := (prefix_iff_eq_take.mp hpre).symm
  have hunfold : multiTurn m descs st = let t : Tx := { st.tx with c := c }
      let st1 : MultiState := { st with
        tx := t
        checked := max st.checked (st.posted+(st.tx.gathered (descs.drop st.posted)).length)
        bad := bad }
      if p.bbs=0 ∨ p.bbs > st.tx.free then some ({ st1 with tx := t.write p },false)
      else some ({ st1 with
        tx := (t.write p).record (st.tx.share m (d::ds)) p.bbs
        bytes := sumLens st.bytes (st.tx.share m (d::ds))
        lastIdx := st.tx.pi.toUInt16
        posted := st.posted+(st.tx.share m (d::ds)).length
        anyPut := true },true) := by
    simp only [multiTurn,if_neg hfull,hg,hcount,hgd]
    rw [map_cons] at hput ⊢
    rw [cons_append] at htake
    rw [← hwait,cons_append]
    simp only [hput,htake]
    rfl
  by_cases hneed : st.tx.need m (st.tx.share m (d::ds)) ≤ st.tx.free
  · obtain ⟨hwr,hbbs,hbuf⟩ := hput'.1 hneed
    have hwr' := Writes.of_agree hagree hwr
    obtain ⟨-,hlo,-⟩ := hwr'.bbs hb
    have hgo : ¬ (p.bbs=0 ∨ p.bbs > st.tx.free) := by
      rintro (h0 | hgt)
      · rw [h0] at hlo
        exact absurd hlo (by decide)
      · rw [hbbs] at hgt
        exact UInt32.not_lt.mpr hneed hgt
    have hsl := share_length hb (m := m) (cons_ne_nil d ds) hok
    have hle : (st.tx.share m (d::ds)).length≤(d::ds).length := ( take_prefix _ _).length_le
    have hlim : (d::ds).length ≤ st.tx.numSlots.toNat-st.tx.inFlight := by
      rw [← hgd,Tx.gathered]
      refine ( takeWhile_prefix _).length_le.trans ?_
      rw [length_take,Tx.gatherLimit]
      omega
    rw [hunfold]
    simp only [if_neg hgo]
    refine ⟨_,true,rfl,⟨?_,hchk⟩,hbad',⟨p,?_,by rw [hch,hbbs]⟩,by rw [hch]; exact hbuf,?_,
      by rw [hch],by rw [hch],rfl,rfl,fun h => hfull (.inr h),
      by rw [hgd]; exact cons_ne_nil d ds,rfl⟩
    · rw [hgd]
      simp only
      omega
    · rw [hch]
      refine ⟨hwr',?_,?_,fun _ => by omega,⟨c,_,_,rfl,hcp,hcb⟩⟩
      · intro d' hd'
        exact hok d' (mem_of_mem_take hd')
      · rw [hbbs]
        exact le_iff_toNat_le.mp hneed
    · rwa [hch,← hwait]
  · obtain ⟨hgt,hbuf,htouch⟩ := hput'.2 hneed
    have hsame : Tx.write { st.tx with c := c } p = { st.tx with c := c } := by
      simp [Tx.write,hbuf,htouch]
    rw [hunfold]
    simp only [if_pos (Or.inr hgt : p.bbs=0 ∨ p.bbs > st.tx.free),hsame]
    refine ⟨_,false,rfl,⟨hc.1.trans (le_max_left _ _),hchk⟩,hbad',hagree,rfl,rfl,rfl,rfl,?_⟩
    exact .inr (.inr (.inr (by rw [hgd]; exact hneed)))

theorem Turn.inFlight_eq (h : Turn t ds p t') (hm : t.mpw≠none) :
    t'.inFlight=t.inFlight+ds.length := by
  have hroom := h.room hm
  have hlt := t.numSlots.toNat_lt
  have hled : t'.slotTail=t.slotTail+ofNat ds.length ∧ t'.slotHead=t.slotHead := by
    obtain ⟨_,_,_,rfl,-,-⟩ := h.next
    exact ⟨record_slotTail _ _ _,record_slotHead _ _ _⟩
  rw [Ledger.inFlight,hled.1,hled.2]
  rw [Ledger.inFlight] at hroom ⊢
  have hlen : (ofNat ds.length).toNat=ds.length := toNat_small _ (by omega)
  simp only [UInt32.toNat_sub,UInt32.toNat_add,hlen] at hroom ⊢
  have := t.slotTail.toNat_lt
  have := t.slotHead.toNat_lt
  omega

theorem Went.full {st' : MultiState}
    (hw : Went m descs st st') (hb : st.tx.toTxFixed.Built) (hm : st.tx.mpw=some m)
    (hp : m.pointer=true) :
    (st.chunk m descs).length=m.maxPackets ∨ descs.length ≤ st'.posted ∨ st'.bad=true ∨
      st'.tx.slotTail-st'.tx.slotHead=st'.tx.numSlots := by
  have hok : ∀ d∈st.tx.gathered (descs.drop st.posted), st.tx.descOK d=true :=
    fun d hd => mem_takeWhile_imp hd
  have hlen := share_length hb (m := m) hw.gathered hok
  have hpos := length_pos_iff.mpr hw.gathered
  obtain ⟨hmax,h2⟩ := (hb.multi m hm).pointer hp
  rw [fits_le hb hok,hp,if_pos rfl] at hlen
  have hch : (st.chunk m descs).length =
      max 1 (min m.maxPackets (st.tx.gathered (descs.drop st.posted)).length) := hlen
  cases hbad : st'.bad with
  | true => exact .inr (.inr (.inl rfl))
  | false =>
    have hall := hw.bad
    rw [hbad,eq_comm,Bool.not_eq_false',all_eq_true] at hall
    have hgath : (st.tx.gathered (descs.drop st.posted)).length =
        min (st.tx.gatherLimit (descs.drop st.posted).length) (descs.drop st.posted).length := by
      rw [Tx.gathered,takeWhile_eq_self_iff.mpr hall,length_take]
    rw [hgath,Tx.gatherLimit] at hch hpos
    obtain ⟨p,ht,-⟩ := hw.turn
    have hfl := ht.inFlight_eq (by rw [hm]; exact Option.some_ne_none m)
    have hpost := hw.posted
    have hdrop : (descs.drop st.posted).length=descs.length-st.posted := length_drop
    by_cases hslots : st.tx.inFlight+(st.chunk m descs).length=st.tx.numSlots.toNat
    · refine .inr (.inr (.inr (UInt32.toNat_inj.mp ?_)))
      rw [ht.fixed]
      exact hfl.trans hslots
    · omega

structure MultiRun (m : MPWSender) (descs : List Desc) (fuel : Nat) (st st' : MultiState)
    (es : List Entry) : Prop where
  turns : Turns st.tx es st'.tx
  frames : frames es <+: descs.drop st.posted
  posted : st'.posted=st.posted+packets es
  bytes : st'.bytes=sumLens st.bytes (Ring.frames es)
  anyPut : st'.anyPut=(st.anyPut || !es.isEmpty)
  idle : es = [] → st'.lastIdx=st.lastIdx
  lastIdx : ∀ es' e, es=es'++[e] → st'.lastIdx=(st'.tx.pi-UInt32.ofNat e.bbs).toUInt16
  bad : st'.bad=true → st.bad=true ∨ ∃ d∈descs, st.tx.descOK d=false
  finished : descs.length ≤ st.posted+fuel →
    descs.length ≤ st'.posted ∨ st'.bad=true ∨ st'.tx.Stuck m (descs.drop st'.posted)
  started : es ≠ [] → st.posted<descs.length ∧ st.bad=false ∧
    st.tx.slotTail-st.tx.slotHead≠st.tx.numSlots
  full : m.pointer=true → ∀ e∈es.dropLast, e.descs.length=m.maxPackets

theorem sumLens_append (b : UInt64) (ds ds' : List Desc) :
    sumLens b (ds++ds')=sumLens (sumLens b ds) ds' := foldl_append ..

theorem Tx.Stuck.of_agree {waiting : List Desc} (ha : t.Agree t')
    (h : t.Stuck m waiting) : t'.Stuck m waiting := by
  obtain ⟨_,_,_,rfl,-,-⟩ := ha
  exact h

theorem Turn.pi (h : Turn t ds p t') : t'.pi=t.pi+p.bbs := by
  obtain ⟨_,_,_,rfl,-,-⟩ := h.next
  exact record_pi ..

namespace MultiRun
variable {m : MPWSender} {descs : List Desc} {fuel : Nat} {st st1 st' : MultiState}
    {es : List Entry}

theorem refl (h : descs.length ≤ st.posted+fuel →
      descs.length ≤ st.posted ∨ st.bad=true ∨ st.tx.Stuck m (descs.drop st.posted)) :
    MultiRun m descs fuel st st [] where
  turns := .done (.refl _)
  frames := nil_prefix
  posted := rfl
  bytes := rfl
  anyPut := by simp
  idle _ := rfl
  lastIdx es' e h := by simp at h
  bad := .inl
  finished := h
  started h := absurd rfl h
  full _ e h := by cases h

theorem stop (hs : Stopped m descs st st')
    (hbad : st'.bad=true → st.bad=true ∨ ∃ d∈descs, st.tx.descOK d=false) :
    MultiRun m descs fuel st st' [] where
  turns := .done hs.agree
  frames := nil_prefix
  posted := by simp [hs.posted]
  bytes := hs.bytes
  anyPut := by simp [hs.anyPut]
  idle _ := hs.lastIdx
  lastIdx es' e h := by simp at h
  bad := hbad
  finished _ := .inr (.inr (by rw [hs.posted]; exact hs.stuck.of_agree hs.agree))
  started h := absurd rfl h
  full _ e h := by cases h

theorem go (hb : st.tx.toTxFixed.Built) (hm : st.tx.mpw=some m)
    (hgo : st.posted<descs.length ∧ st.bad=false) (hw : Went m descs st st1) {p : Put}
    (hp : Turn st.tx (st.chunk m descs) p st1.tx)
    (hbad : st1.bad=true → st.bad=true ∨ ∃ d∈descs, st.tx.descOK d=false)
    (hr : MultiRun m descs fuel st1 st' es) :
    MultiRun m descs (fuel+1) st st' (⟨p.bbs.toNat,st.chunk m descs⟩::es) where
  turns := .turn hp hr.turns
  frames := by
    obtain ⟨rest,hrest⟩ := hw.chunk
    have hf := hr.frames
    rw [hw.posted,← drop_drop,← hrest,drop_left] at hf
    rw [frames_cons,← hrest]
    exact (prefix_append_right_inj _).mpr hf
  posted := by
    rw [hr.posted,hw.posted,packets_cons]
    exact add_assoc ..
  bytes := by rw [hr.bytes,hw.bytes,frames_cons,sumLens_append]
  anyPut := by simp [hr.anyPut,hw.anyPut]
  idle h := by cases h
  lastIdx es' e h := by
    cases es' with
    | nil =>
      injection h with he hes
      have hts := hr.turns
      rw [hes] at hts
      cases hts with
      | done ha =>
        obtain ⟨_,_,_,hst,-,-⟩ := ha
        have hpi : st'.tx.pi=st.tx.pi+p.bbs := by rw [hst]; exact hp.pi
        rw [hr.idle hes,hw.lastIdx,hpi,← he,UInt32.ofNat_toNat,UInt32.add_sub_cancel]
    | cons e' es' =>
      injection h with he hes
      exact hr.lastIdx es' e hes
  bad h := by
    have hd := hr.bad h
    rw [hp.fixed] at hd
    exact hd.elim hbad .inr
  finished h := by
    have hlen := length_pos_iff.mpr (hp.writes.bbs hb).1
    have hpost := hw.posted
    exact hr.finished (by omega)
  started _ := ⟨hgo.1,hgo.2,hw.room⟩
  full hptr e he := by
    rcases es with _ | ⟨e',es⟩
    · cases he
    rw [dropLast_cons_cons] at he
    cases he with
    | tail _ he => exact hr.full hptr e he
    | head =>
      obtain ⟨h1,h2,h3⟩ := hr.started (cons_ne_nil e' es)
      refine (hw.full hb hm hptr).resolve_right ?_
      rintro (h | h | h)
      · omega
      · cases h2.symm.trans h
      · exact h3 h

end MultiRun

theorem multiLoop_run (fuel : Nat) (st : MultiState)
    (hb : st.tx.toTxFixed.Built) (hm : st.tx.mpw=some m) (hc : st.Checked descs) :
    ∃ st' es, multiLoop m descs fuel st=some st' ∧ MultiRun m descs fuel st st' es := by
  induction fuel generalizing st with
  | zero => exact ⟨st,[],rfl,.refl fun h => .inl h⟩
  | succ fuel ih =>
    by_cases hgo : st.posted<descs.length ∧ !st.bad
    · obtain ⟨st1,again,hturn,hc1,hbad,hout⟩ := multiTurn_spec hb hm hc
      rcases again with _ | _
      · exact ⟨st1,[],by rw [multiLoop,if_pos hgo,hturn],.stop hout hbad⟩
      obtain ⟨p,hp,-⟩ := hout.turn
      have hfix := hp.fixed
      obtain ⟨st',es,hloop,hrun⟩ := ih st1 (hfix ▸ hb) (by rw [hfix]; exact hm) hc1
      exact ⟨st',_,by rw [multiLoop,if_pos hgo,hturn]; exact hloop,
        .go hb hm (by simpa using hgo) hout hp hbad hrun⟩
    · refine ⟨st,[],by rw [multiLoop,if_neg hgo],.refl fun _ => ?_⟩
      by_cases hlt : st.posted<descs.length
      · exact .inr (.inl (by simpa [hlt] using hgo))
      · exact .inl (not_lt.mp hlt)

end Packetio.Mlx5.Ring

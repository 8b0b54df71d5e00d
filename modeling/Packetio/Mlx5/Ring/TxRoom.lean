import Packetio.Mlx5.Ring.TxRogue

/-! What FreeSlots promises. In multi-packet mode a batch is split greedily into
entries; Post takes all of it exactly when these entries need no more blocks than
are free. -/
namespace Packetio.Mlx5.Ring
open Lib List UInt32

def TxSys.Reachable (cfg : TxConfig) (s : TxSys) : Prop :=
  TxSys.Reach False anyBatch cfg s ∧ cfg.Fresh ∧ cfg.sqLen≤64*65536 ∨
    TxSys.Reach True anyBatch cfg s ∧ s.accepted.length<2^31

theorem TxSys.Reachable.inv {cfg : TxConfig} {s : TxSys} (hin : cfg.inlineLen≤960)
    (h : s.Reachable cfg) : ∃ done live, s.tx.Inv done live := by
  cases h with
  | inl h =>
    obtain ⟨k,done,live,xs,hc⟩ := h.1.conforms hin h.2.2 h.2.1
    exact ⟨done,live,hc.inv⟩
  | inr h =>
    obtain ⟨done,live,hc⟩ := h.1.accounts hin h.2
    exact ⟨done,live,hc.inv⟩

theorem Tx.Inv.inFlight_le {t : Tx} {done live : List Entry} (h : t.Inv done live) :
    t.inFlight≤t.numSlots.toNat := by
  rw [Ledger.inFlight,h.owns.inFlight_packets]
  exact h.owns.packets_le

def TxFixed.packBlocks (f : TxFixed) (m : MPWSender) : Nat → List Desc → Nat
  | 0, _ => 0
  | _, [] => 0
  | fuel+1, ds =>
    let c := f.share m (ds.take 58)
    (f.need m c).toNat+f.packBlocks m fuel (ds.drop c.length)

theorem Turn.free_eq {t t' : Tx} {ds : List Desc} {p : Put} (h : Turn t ds p t') :
    t'.free.toNat=t.free.toNat-p.bbs.toNat := by
  obtain ⟨_,_,_,rfl,-,-⟩ := h.next
  exact free_record t.toLedger ds p.bbs h.fits

section
variable {m : MPWSender} {descs : List Desc}

theorem gathered_all {t : Tx} {waiting : List Desc} (hok : ∀ d∈waiting, t.descOK d=true)
    (hslots : t.inFlight+waiting.length≤t.numSlots.toNat) : t.gathered waiting=waiting.take 58 := by
  have hlim : t.gatherLimit waiting.length=min 58 waiting.length := by
    rw [Tx.gatherLimit]
    omega
  rw [Tx.gathered,hlim,← take_eq_take_min]
  exact takeWhile_eq_self_iff.mpr fun d hd => hok d (mem_of_mem_take hd)

theorem need_pos {t : Tx} (hb : t.toTxFixed.Built) (hm : t.mpw=some m) {ds : List Desc}
    (hok : ∀ d∈ds, t.descOK d=true) (hne : ds ≠ []) : 1≤(t.need m (t.share m ds)).toNat := by
  cases ds with
  | nil => exact absurd rfl hne
  | cons d ds =>
    obtain ⟨hw,hn⟩ := entry_writes hb hm hok
    rw [← hn]
    exact (hw.bbs hb).2.1

theorem multiLoop_all (fuel : Nat) (st st' : MultiState) (hb : st.tx.toTxFixed.Built)
    (hm : st.tx.mpw=some m) (hc : st.Checked descs) (hbad : st.bad=false)
    (hok : ∀ d∈descs, st.tx.descOK d=true) (hle : st.posted≤descs.length)
    (hslots : st.tx.inFlight+(descs.drop st.posted).length ≤ st.tx.numSlots.toNat)
    (hfuel : (descs.drop st.posted).length≤fuel) (hloop : multiLoop m descs fuel st=some st') :
    st'.posted=descs.length ↔
    st.tx.packBlocks m fuel (descs.drop st.posted) ≤ st.tx.free.toNat := by
  induction fuel generalizing st with
  | zero =>
    cases hloop
    rw [length_drop] at hfuel
    simp only [TxFixed.packBlocks,zero_le,iff_true]
    omega
  | succ fuel ih =>
    by_cases hlt : st.posted<descs.length
    · obtain ⟨st1,again,hturn,hc1,hbad1,hout⟩ := multiTurn_spec hb hm hc
      rw [multiLoop,if_pos ⟨hlt,by rw [hbad]; rfl⟩,hturn] at hloop
      have hokw : ∀ d∈descs.drop st.posted, st.tx.descOK d=true :=
        fun d hd => hok d (mem_of_mem_drop hd)
      have hchunk : st.chunk m descs=st.tx.share m ((descs.drop st.posted).take 58) := by
        rw [MultiState.chunk,gathered_all hokw hslots]
      have hne : descs.drop st.posted ≠ [] := fun h0 => by
        have := congrArg length h0
        rw [length_drop,length_nil] at this
        omega
      obtain ⟨d,ws,hw⟩ := exists_cons_of_ne_nil hne
      have hpack : st.tx.packBlocks m (fuel+1) (descs.drop st.posted) =
          (st.tx.need m (st.chunk m descs)).toNat+
            st.tx.packBlocks m fuel ((descs.drop st.posted).drop (st.chunk m descs).length) := by
        rw [hchunk,hw]
        rfl
      have hneed := need_pos hb hm (fun e he => hokw e (mem_of_mem_take he))
        (by rw [hw]; simp : (descs.drop st.posted).take 58 ≠ [])
      rw [← hchunk] at hneed
      cases again with
      | false =>
        cases hloop
        refine ⟨fun he => ?_,fun hfit => ?_⟩
        · rw [hout.posted] at he
          omega
        · -- a loop that stops here lacks blocks, but every entry needs some
          have hpos := length_pos_iff.mpr hne
          rcases hout.stuck with h0 | hs
          · rw [h0] at hfit
            change _≤0 at hfit
            omega
          rcases hs with hfull | hs
          · rw [Ledger.inFlight,hfull] at hslots
            omega
          cases hs with
          | inl h0 =>
            rw [gathered_all hokw hslots,hw] at h0
            simp at h0
          | inr hno =>
            change ¬ st.tx.need m (st.chunk m descs)≤_ at hno
            rw [le_iff_toNat_le] at hno
            omega
      | true =>
        obtain ⟨p,hp,hpb⟩ := hout.turn
        have hfix := hp.fixed
        have hbad' : st1.bad=false := by
          by_contra hb'
          cases hbad1 (by simpa using hb') with
          | inl h => cases hbad.symm.trans h
          | inr h =>
            obtain ⟨d,hd,hf⟩ := h
            cases hf.symm.trans (hok d hd)
        have hclen := hout.chunk.length_le
        have hcpos := length_pos_iff.mpr (hp.writes.bbs hb).1
        have hfl := hp.inFlight_eq (by rw [hm]; simp)
        have hfits := hp.fits
        rw [length_drop] at hclen hslots hfuel
        have hiff := ih st1 (hfix ▸ hb) (by rw [hfix]; exact hm) hc1 hbad' (by rw [hfix]; exact hok)
          (by rw [hout.posted]; omega)
          (by rw [length_drop,hfix,hfl,hout.posted]; omega)
          (by rw [length_drop,hout.posted]; omega) hloop
        rw [hiff,hfix,hp.free_eq,hpack,drop_drop,← hout.posted]
        rw [hpb] at hfits ⊢
        omega
    · rw [multiLoop,if_neg fun h => hlt h.1] at hloop
      cases hloop
      have hnil := drop_eq_nil_of_le (not_lt.mp hlt)
      rw [hnil]
      simp only [TxFixed.packBlocks,zero_le,iff_true]
      omega

theorem post_whole {t : Tx} (hpos : 0<descs.length) (hlen : descs.length≤t.freeSlots) :
    t.failed=none ∧ t.post descs=match t.mpw with
      | some m => t.postMulti m descs
      | none => t.postSingle descs := by
  have hfree : t.freeSlots≠0 := by omega
  have hnf : t.failed=none := by
    by_contra hf
    have hf' := Option.isSome_iff_ne_none.mpr hf
    rw [Tx.freeSlots,if_pos hf'] at hfree
    exact hfree rfl
  refine ⟨hnf,?_⟩
  rw [Tx.post,take_of_length_le hlen]
  cases t.mpw with
  | none | some _ => simp [hnf,hfree,hpos.ne']

theorem post_all_iff {t : Tx} (hb : t.toTxFixed.Built) (hm : t.mpw=some m)
    (hfl : t.inFlight≤t.numSlots.toNat) (hok : ∀ d∈descs, t.descOK d=true)
    (hlen : descs.length≤t.freeSlots) : (∃ t', t.post descs=some (t',descs.length)) ↔
      t.packBlocks m descs.length descs≤t.free.toNat := by
  rcases hds : descs with _ | ⟨d,ds⟩
  · have hpost : t.post []=some (t,0) := by simp [Tx.post]
    simp only [length_nil,TxFixed.packBlocks,zero_le,iff_true]
    exact ⟨t,hpost⟩
  rw [← hds]
  have hpos : 0<descs.length := by simp [hds]
  obtain ⟨hnf,heq⟩ := post_whole hpos hlen
  have hslots : t.inFlight+descs.length≤t.numSlots.toNat := by
    have hle : descs.length≤(t.numSlots-(t.slotTail-t.slotHead)).toNat := by
      rw [Tx.freeSlots,hnf,hm] at hlen
      simp only [Option.isSome_none,Bool.false_eq_true,if_false] at hlen
      omega
    rw [Ledger.inFlight] at hfl ⊢
    rw [UInt32.toNat_sub_of_le _ _ (UInt32.le_iff_toNat_le.mpr hfl)] at hle
    omega
  have hc : MultiState.Checked { tx := t } descs := ⟨le_refl _,by simp⟩
  obtain ⟨st,es,hloop,hrun⟩ := multiLoop_run descs.length { tx := t } hb hm hc
  have hany : st.anyPut = !es.isEmpty := by simpa using hrun.anyPut
  have hn : st.posted=packets es := by simpa using hrun.posted
  have hiff := multiLoop_all descs.length { tx := t } st hb hm hc rfl hok (Nat.zero_le _)
    (by simpa using hslots) (by simp) hloop
  have hpost : ∃ t', t.post descs=some (t',st.posted) := by
    rw [heq,hm]
    simp only [Tx.postMulti,hloop]
    cases es with
    | nil =>
      simp only [hany,hn,isEmpty_nil,Bool.not_true,Bool.not_false,if_true,packets_nil]
      exact ⟨_,rfl⟩
    | cons e es =>
      simp only [hany,isEmpty_cons,Bool.not_false,Bool.not_true,Bool.false_eq_true,if_false]
      exact ⟨_,rfl⟩
  obtain ⟨t',hpost⟩ := hpost
  refine Iff.trans ⟨fun h => ?_,fun h => ?_⟩ hiff
  · obtain ⟨u,hu⟩ := h
    rw [hpost] at hu
    injection hu with hu
    injection hu
  · exact ⟨t',by rw [hpost,h]⟩

end

section
variable {f : TxFixed} (hb : f.Built) {m : MPWSender} (hm : f.mpw=some m) (hp : m.pointer=true)

theorem byBlocks_pointer {m : MPWSender} (hp : m.pointer=true) (free : UInt32) :
    byBlocks m free=58*(free.toNat/15)+(4*(free.toNat%15)-2) := by
  rw [byBlocks,if_pos hp]
  simp only [UInt32.toNat_div,UInt32.toNat_mod,UInt32.reduceToNat]
  split_ifs <;> omega

include hb hm hp

theorem pointer_chunk {ds : List Desc} (hok : ∀ d∈ds, f.descOK d=true) (hne : ds ≠ []) :
    (f.share m (ds.take 58)).length=min m.maxPackets ds.length ∧
      (f.need m (f.share m (ds.take 58))).toNat=(min m.maxPackets ds.length+5)/4 := by
  obtain ⟨hmax,h2⟩ := (hb.multi m hm).pointer hp
  have hok' : ∀ d∈ds.take 58, f.descOK d=true := fun d hd => hok d (mem_of_mem_take hd)
  have hne' : ds.take 58 ≠ [] := by simpa using hne
  have hlen := share_length hb (m := m) hne' hok'
  have hpos := length_pos_iff.mpr hne
  rw [fits_le hb hok',if_pos hp,length_take] at hlen
  have hl : (f.share m (ds.take 58)).length=min m.maxPackets ds.length := by omega
  refine ⟨hl,?_⟩
  rw [TxFixed.need,hl,if_pos hp]
  split_ifs with h1
  · change 1=_
    omega
  · have hnat : (ofNat (2+min m.maxPackets ds.length)).toNat=2+min m.maxPackets ds.length :=
      toNat_small _ (by omega)
    rw [toNat_blocksFor _ (by omega),hnat]
    omega

theorem pointer_pack (fuel : Nat) (ds : List Desc) (n : Nat) (hok : ∀ d∈ds, f.descOK d=true)
    (hn : n≤f.bbs.toNat) (hk : ds.length≤58*(n/15)+(4*(n%15)-2)) : f.packBlocks m fuel ds≤n := by
  induction fuel generalizing ds n with
  | zero => exact Nat.zero_le _
  | succ fuel ih =>
    rcases hds : ds with _ | ⟨d,ws⟩
    · exact Nat.zero_le _
    have hne : ds ≠ [] := by simp [hds]
    have hpos := length_pos_iff.mpr hne
    obtain ⟨hmax,h2⟩ := (hb.multi m hm).pointer hp
    obtain ⟨hlen,hneed⟩ := pointer_chunk hb hm hp hok hne
    have hpack : f.packBlocks m (fuel+1) ds=(f.need m (f.share m (ds.take 58))).toNat+
        f.packBlocks m fuel (ds.drop (f.share m (ds.take 58)).length) := by
      rw [hds]
      rfl
    rw [← hds,hpack,hneed,hlen]
    by_cases hone : ds.length ≤ m.maxPackets
    · -- one entry carries what is left
      rw [min_eq_right hone,drop_length]
      have hnil : f.packBlocks m fuel []=0 := by cases fuel <;> rfl
      omega
    -- a full entry: the queue is not smaller than one
    have hfull : m.maxPackets=58 ∧ 15≤n := by omega
    rw [hfull.1,min_eq_left (by omega)]
    have hrest := ih (ds.drop 58) (n-15) (fun d hd => hok d (mem_of_mem_drop hd)) (by omega)
      (by rw [length_drop]; omega)
    omega

end

/-- In ordinary and in pointer mode Post takes every good batch that is no longer
than FreeSlots. -/
theorem post_takes_all (cfg : TxConfig) (hin : cfg.inlineLen ≤ 960) (s : TxSys)
    (h : s.Reachable cfg) (hmode : ∀ m, s.tx.mpw = some m → m.pointer = true) (descs : List Desc)
    (hok : ∀ d ∈ descs, s.tx.InFrame d.addr.toNat d.len.toNat)
    (hlen : descs.length ≤ s.tx.freeSlots) : ∃ t, s.tx.post descs = some (t,descs.length) := by
  obtain ⟨done,live,hinv⟩ := h.inv hin
  have hb := hinv.built
  have hok' : ∀ d∈descs, s.tx.descOK d=true := fun d hd => (hb.descOK_iff d).mpr (hok d hd)
  cases hm : s.tx.mpw with
  | some m =>
    have hp := hmode m hm
    refine (post_all_iff hb hm hinv.inFlight_le hok' hlen).mpr
      (pointer_pack hb hm hp _ _ _ hok' ?_ ?_)
    · rw [Tx.free,hinv.owns.free]
      omega
    · rw [← byBlocks_pointer hp]
      rw [Tx.freeSlots,hm] at hlen
      split_ifs at hlen
      · omega
      · exact hlen.trans (min_le_left _ _)
  | none =>
    rcases hds : descs with _ | ⟨d,ds⟩
    · exact ⟨s.tx,by simp [Tx.post]⟩
    rw [← hds]
    obtain ⟨hnf,heq⟩ := post_whole (by simp [hds] : 0<descs.length) hlen
    obtain ⟨t,n,hpost,hn,-⟩ := postSingle_spec hb hm hnf hlen
    rw [takeWhile_eq_self_iff.mpr hok'] at hn
    rw [heq,hm]
    exact ⟨t,by rw [← hn]; exact hpost⟩

def tinyPointer : TxConfig := { tinyTx with multiPacket := true, multiPacketPointer := true }

def tinyCopied : TxConfig := { tinyTx with multiPacket := true, multiPacketMaxLen := 64 }

section
variable (cfg : TxConfig) (h : (newTx cfg).toOption.isSome=true)
include h

theorem TxConfig.reachable : ({ tx := cfg.tx h } : TxSys).Reachable cfg :=
  .inr ⟨⟨_,cfg.newTx_eq h,.refl⟩,Nat.two_pow_pos 31⟩

theorem TxConfig.inFrame
    (hin : cfg.inlineLen≤960) {ds : List Desc} (hok : ∀ d∈ds, (cfg.tx h).descOK d=true) :
    ∀ d∈ds, (cfg.tx h).InFrame d.addr.toNat d.len.toNat :=
  fun d hd => ((newTx_built (cfg.newTx_eq h) hin).descOK_iff d).mp (hok d hd)

end

def tinyDescs : List Desc := [⟨0,64,0⟩,⟨64,64,0⟩,⟨128,64,0⟩]

theorem post_takes_all_tiny : ∃ s : TxSys, s.Reachable tinyPointer ∧ s.tx.freeSlots = 14 ∧
      ∃ t, s.tx.post tinyDescs = some (t,tinyDescs.length) := by
  have hreach := tinyPointer.reachable (by decide)
  have hok := tinyPointer.inFrame (by decide) (by decide)
    (by decide : ∀ d∈tinyDescs, (tinyPointer.tx _).descOK d=true)
  have hmode : ∀ m, (tinyPointer.tx (by decide)).mpw=some m → m.pointer=true := by
    intro m hm
    injection hm with hm
    rw [← hm]
    decide
  exact ⟨_,hreach,by decide,post_takes_all tinyPointer (by decide) _ hreach hmode tinyDescs hok
    (by decide)⟩

/-- In multi-packet mode, copied or not, Post takes a good batch no longer than
FreeSlots if and only if the entries it is split into fit the free blocks. -/
theorem post_takes_all_iff (cfg : TxConfig) (hin : cfg.inlineLen ≤ 960) (s : TxSys)
    (h : s.Reachable cfg) (m : MPWSender) (hm : s.tx.mpw = some m) (descs : List Desc)
    (hok : ∀ d ∈ descs, s.tx.InFrame d.addr.toNat d.len.toNat)
    (hlen : descs.length ≤ s.tx.freeSlots) : (∃ t, s.tx.post descs = some (t,descs.length)) ↔
      s.tx.packBlocks m descs.length descs ≤ s.tx.free.toNat := by
  obtain ⟨done,live,hinv⟩ := h.inv hin
  have hb := hinv.built
  have hok' : ∀ d∈descs, s.tx.descOK d=true := fun d hd => (hb.descOK_iff d).mpr (hok d hd)
  exact post_all_iff hb hm hinv.inFlight_le hok' hlen

/-- FreeSlots offers room for three packets of 64 bytes on four free blocks; with
its header their entry needs five, and Post takes none of them. -/
theorem copied_takes_none :
    ∃ s : TxSys, s.Reachable tinyCopied ∧ (∃ m, s.tx.mpw = some m ∧ m.pointer = false) ∧
      (∀ d ∈ tinyDescs, s.tx.InFrame d.addr.toNat d.len.toNat) ∧
      tinyDescs.length ≤ s.tx.freeSlots ∧ (s.tx.post tinyDescs).map Prod.snd = some 0 := by
  have hok := tinyCopied.inFrame (by decide) (by decide)
    (by decide : ∀ d∈tinyDescs, (tinyCopied.tx _).descOK d=true)
  exact ⟨_,tinyCopied.reachable (by decide),⟨_,rfl,rfl⟩,hok,by decide,by decide⟩

theorem post_takes_two_iff :
    ∃ (s : TxSys) (m : MPWSender), s.Reachable tinyCopied ∧ s.tx.mpw = some m ∧ m.pointer = false ∧
      ((∃ t, s.tx.post (tinyDescs.take 2) = some (t,(tinyDescs.take 2).length)) ↔
        s.tx.packBlocks m (tinyDescs.take 2).length (tinyDescs.take 2) ≤ s.tx.free.toNat) := by
  have hreach := tinyCopied.reachable (by decide)
  have hok := tinyCopied.inFrame (by decide) (by decide)
    (by decide : ∀ d∈tinyDescs.take 2, (tinyCopied.tx _).descOK d=true)
  exact ⟨_,_,hreach,rfl,rfl,
    post_takes_all_iff tinyCopied (by decide) _ hreach _ rfl (tinyDescs.take 2) hok (by decide)⟩

end Packetio.Mlx5.Ring

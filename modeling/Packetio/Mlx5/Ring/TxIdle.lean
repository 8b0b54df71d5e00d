import Packetio.Mlx5.Ring.TxRoom

/-! Progress on an empty ring. In ordinary and in pointer mode the first good
descriptor of a batch is always taken; in copied mode the packets gathered for one
entry may need more blocks than the whole queue has, and then none is. -/
namespace Packetio.Mlx5.Ring
open List

section
variable {t : Tx} {done live : List Entry} {m : MPWSender} {descs : List Desc}

theorem Tx.Inv.idle (h : t.Inv done live) (h0 : t.inFlight=0) : t.free=t.bbs := by
  have hlive : live = [] := by
    rw [Ledger.inFlight,h.owns.inFlight_packets] at h0
    rcases live with _ | ⟨e,es⟩
    · rfl
    have hne := (h.owns.shape e (by rw [h.owns.entries]; simp)).2.2
    have hpos := length_pos_iff.mpr hne
    rw [packets_cons] at h0
    omega
  have hfree := h.owns.free
  rw [hlive,blocks_nil] at hfree
  exact UInt32.toNat_inj.mp hfree

theorem multiLoop_starts {st st' : MultiState} (hb : st.tx.toTxFixed.Built)
    (hm : st.tx.mpw=some m) (hc : st.Checked descs) (hlt : st.posted<descs.length)
    (hbad : st.bad=false) (fuel : Nat) (hloop : multiLoop m descs (fuel+1) st=some st') :
    st.posted<st'.posted ↔ ¬ st.tx.Stuck m (descs.drop st.posted) := by
  obtain ⟨st1,again,hturn,hc1,-,hout⟩ := multiTurn_spec hb hm hc
  rw [multiLoop,if_pos ⟨hlt,by rw [hbad]; rfl⟩,hturn] at hloop
  rcases again with _ | _
  · cases hloop
    rw [hout.posted]
    exact ⟨fun h => absurd h (lt_irrefl _),fun h => absurd hout.stuck h⟩
  obtain ⟨p,hp,hneed⟩ := hout.turn
  obtain ⟨hne,hlo,-⟩ := hp.writes.bbs hb
  have hfits := hp.fits
  have hfix := hp.fixed
  obtain ⟨st2,es,hrun,hr⟩ := multiLoop_run fuel st1 (hfix ▸ hb) (by rw [hfix]; exact hm) hc1
  have hst := Option.some.inj (hrun.symm.trans hloop)
  subst hst
  have hpos := length_pos_iff.mpr hne
  refine ⟨fun _ hs => ?_,fun _ => by rw [hr.posted,hout.posted]; omega⟩
  rcases hs with h0 | hfull | hg | hno
  · rw [h0] at hfits
    change _≤0 at hfits
    omega
  · exact hout.room hfull
  · exact hout.gathered hg
  · change ¬ (st.tx.need m (st.chunk m descs)).toNat≤_ at hno
    rw [← hneed] at hno
    exact hno hfits

theorem pointer_need (hb : t.toTxFixed.Built) (hm : t.mpw=some m) (hp : m.pointer=true)
    (ds : List Desc) : t.need m (t.share m (t.gathered ds))≤t.bbs := by
  have hpos := pos_of_pow hb.rings.bbs
  obtain ⟨hmax,-⟩ := (hb.multi m hm).pointer hp
  have hok : ∀ d∈t.gathered ds, t.descOK d=true := fun d hd => mem_takeWhile_imp hd
  have hlen : (t.gathered ds).length≤58 := by
    refine ( takeWhile_prefix _).length_le.trans ?_
    rw [length_take,Tx.gatherLimit]
    omega
  rw [UInt32.le_iff_toNat_le]
  by_cases hne : t.gathered ds = []
  · have hone : t.need m (t.share m [])=1 := by simp [TxFixed.need,TxFixed.share]
    rwa [hne,hone]
  obtain ⟨-,hneed⟩ := pointer_chunk hb hm hp hok hne
  rw [take_of_length_le hlen] at hneed
  omega

end

section
variable {t : Tx} (hb : t.toTxFixed.Built) (h0 : t.inFlight=0) (hfree : t.free=t.bbs)
  (hf : t.failed=none)
include hb h0 hfree hf

theorem idle_freeSlots (hmode : ∀ m, t.mpw=some m → m.pointer=true) : 0<t.freeSlots := by
  have hpos := pos_of_pow hb.rings.bbs
  have hslots := pos_of_pow hb.rings.numSlots
  rw [Tx.freeSlots,hf,hfree]
  rcases hm : t.mpw with _ | m
  · simp only [Option.isSome_none,Bool.false_eq_true,if_false,UInt32.toNat_div]
    refine Nat.div_pos hb.maxBBs_le ?_
    rw [hb.maxBBs]
    omega
  simp only [Option.isSome_none,Bool.false_eq_true,if_false]
  rw [Ledger.inFlight] at h0
  rw [byBlocks_pointer (hmode m hm),UInt32.toNat_sub,h0]
  have := t.numSlots.toNat_lt
  omega

theorem idle_multi {m : MPWSender} (hm : t.mpw=some m) {d : Desc} {ds : List Desc}
    (hd : t.descOK d=true) (hroom : 0<t.freeSlots) {t' : Tx} {n : Nat}
    (hp : t.post (d::ds)=some (t',n)) :
    0<n ↔ t.need m (t.share m (t.gathered ((d::ds).take t.freeSlots)))≤t.bbs := by
  obtain ⟨k,hk⟩ := Nat.exists_eq_add_one_of_ne_zero hroom.ne'
  have htake : (d::ds).take t.freeSlots=d::ds.take k := by rw [hk,take_succ_cons]
  have hpos := pos_of_pow hb.rings.bbs
  have hslots := pos_of_pow hb.rings.numSlots
  have hc : MultiState.Checked { tx := t } (d::ds.take k) := ⟨le_refl _,by simp⟩
  simp only [Tx.post,hf,hm,Option.isSome_none,Bool.false_eq_true,if_false,htake,
    length_cons,Nat.add_one_ne_zero,if_neg (by omega : ¬ (ds.length+1 > t.freeSlots ∧
      t.freeSlots=0))] at hp
  obtain ⟨st,es,hloop,hrun⟩ := multiLoop_run (d::ds.take k).length { tx := t } hb hm hc
  have hstart := multiLoop_starts (by exact hb) (by exact hm) hc (Nat.zero_lt_succ _) rfl _ hloop
  have hn : n=st.posted := by
    rw [Tx.postMulti,hloop] at hp
    simp only [hrun.anyPut,Bool.false_or,Bool.not_not] at hp
    split_ifs at hp with hes
    · cases hp
      rw [hrun.posted,isEmpty_iff.mp hes]
      rfl
    · cases hp
      rfl
  rw [htake,hn]
  refine hstart.trans ?_
  rw [drop_zero,Tx.Stuck]
  have hg : t.gathered (d::ds.take k) ≠ [] := by
    have hlim : 0<t.gatherLimit (d::ds.take k).length := by
      rw [Tx.gatherLimit,h0,length_cons]
      omega
    obtain ⟨j,hj⟩ := Nat.exists_eq_add_one_of_ne_zero hlim.ne'
    rw [Tx.gathered,hj,take_succ_cons,takeWhile_cons,hd,if_pos rfl]
    exact cons_ne_nil _ _
  have hnz : t.bbs≠0 := fun hz => by
    rw [hz] at hpos
    exact absurd hpos (by decide)
  have hns : ¬ t.slotTail-t.slotHead=t.numSlots := fun hz => by
    rw [Ledger.inFlight,hz] at h0
    omega
  simp [hfree,hnz,hns,hg]

end

/-- On a ring with nothing in flight Post takes at least one packet of a batch
whose first descriptor is good, if and only if, in copied mode, the queue has room
for the longest packet and for the entry that the leading packets would share. -/
theorem idle_post_iff (cfg : TxConfig) (hin : cfg.inlineLen ≤ 960) (s : TxSys)
    (h : s.Reachable cfg) (hidle : s.tx.inFlight = 0) (hf : s.tx.failed = none) (d : Desc)
    (ds : List Desc) (hd : s.tx.InFrame d.addr.toNat d.len.toNat) :
    (∃ t n, s.tx.post (d::ds) = some (t,n) ∧ 0 < n) ↔
      ∀ m, s.tx.mpw = some m → m.pointer = false → 0 < s.tx.freeSlots ∧
        s.tx.need m (s.tx.share m (s.tx.gathered ((d::ds).take s.tx.freeSlots))) ≤ s.tx.bbs := by
  obtain ⟨done,live,hinv⟩ := h.inv hin
  have hb := hinv.built
  have hfree := hinv.idle hidle
  have hok : s.tx.descOK d=true := (hb.descOK_iff d).mpr hd
  obtain ⟨t,n,hpost,-⟩ := post_spec hb (d::ds)
  have hex : (∃ t n, s.tx.post (d::ds)=some (t,n) ∧ 0<n) ↔ 0<n := by
    rw [hpost]
    simp
  rw [hex]
  rcases hm : s.tx.mpw with _ | m
  · have hroom := idle_freeSlots hb hidle hfree hf (by rw [hm]; simp)
    obtain ⟨k,hk⟩ := Nat.exists_eq_add_one_of_ne_zero hroom.ne'
    have hle : ((d::ds).take s.tx.freeSlots).length ≤ s.tx.freeSlots := by simp
    obtain ⟨t',n',hp',hn',-⟩ := postSingle_spec hb hm hf hle
    have hsame : s.tx.post (d::ds)=s.tx.postSingle ((d::ds).take s.tx.freeSlots) := by
      simp [Tx.post,hf,hm,hk]
    rw [hsame,hp'] at hpost
    cases hpost
    rw [hk,take_succ_cons,takeWhile_cons,hok,if_pos rfl,length_cons] at hn'
    simp [hn']
  by_cases hroom : 0<s.tx.freeSlots
  · rw [idle_multi hb hidle hfree hf hm hok hroom hpost]
    refine ⟨fun hle m' hm' _ => ?_,fun hall => ?_⟩
    · cases hm'
      exact ⟨hroom,hle⟩
    · cases hp : m.pointer with
      | true => exact pointer_need hb hm hp _
      | false => exact (hall m rfl hp).2
  have hn : n=0 := by
    simp only [Tx.post,hf,Option.isSome_none,Bool.false_eq_true,if_false,
      if_pos (by simp; omega : (d::ds).length > s.tx.freeSlots ∧ s.tx.freeSlots=0)] at hpost
    cases hpost
    rfl
  rw [hn]
  refine ⟨fun h => absurd h (lt_irrefl _),fun hall => ?_⟩
  cases hp : m.pointer with
  | true =>
    refine absurd (idle_freeSlots hb hidle hfree hf fun m' hm' => ?_) hroom
    rw [hm] at hm'
    cases hm'
    exact hp
  | false => exact absurd (hall m rfl hp).1 hroom

theorem idle_post_two :
    ∃ s : TxSys, s.Reachable tinyCopied ∧ s.tx.inFlight = 0 ∧ s.tx.failed = none ∧
      ∃ t n, s.tx.post (tinyDescs.take 2) = some (t,n) ∧ 0 < n := by
  have hreach := tinyCopied.reachable (by decide)
  have hok := tinyCopied.inFrame (by decide) (by decide)
    (by decide : ∀ d∈tinyDescs.take 1, (tinyCopied.tx _).descOK d=true)
  refine ⟨_,hreach,by decide,by decide,?_⟩
  refine (idle_post_iff tinyCopied (by decide) _ hreach (by decide) (by decide) ⟨0,64,0⟩ [⟨64,64,0⟩]
    (hok ⟨0,64,0⟩ (by decide))).mpr fun m hm _ => ?_
  cases hm
  decide

/-- Three packets of 64 bytes and an empty queue of four blocks: the entry they
share needs five, and none is ever taken. -/
theorem idle_post_three :
    ∃ s : TxSys, s.Reachable tinyCopied ∧ s.tx.inFlight = 0 ∧ s.tx.failed = none ∧
      (∀ d ∈ tinyDescs, s.tx.InFrame d.addr.toNat d.len.toNat) ∧
      (s.tx.post tinyDescs).map Prod.snd = some 0 := by
  have hok := tinyCopied.inFrame (by decide) (by decide)
    (by decide : ∀ d∈tinyDescs, (tinyCopied.tx _).descOK d=true)
  exact ⟨_,tinyCopied.reachable (by decide),by decide,by decide,hok,by decide⟩

end Packetio.Mlx5.Ring

import Packetio.Mlx5.Ring.TxMulti

/-! What a whole Post does: nothing at all, or a series of turns and a doorbell. -/
namespace Packetio.Mlx5.Ring
open List

theorem Turns.fixed {t t' : Tx} {es : List Entry} (h : Turns t es t') :
    t'.toTxFixed=t.toTxFixed := by
  induction h with
  | done ha =>
    obtain ⟨_,_,_,rfl,-,-⟩ := ha
    rfl
  | turn hp _ ih => exact ih.trans hp.fixed

theorem Turns.packets_pos {t t' : Tx} {es : List Entry} (hb : t.toTxFixed.Built)
    (h : Turns t es t') (hne : es ≠ []) : 0<packets es := by
  cases h with
  | done => exact absurd rfl hne
  | turn hp hs =>
    have := length_pos_iff.mpr (hp.writes.bbs hb).1
    rw [packets_cons]
    simp only
    omega

def Tx.mark (t : Tx) (es : List Entry) : Tx :=
  match t.mpw, es.getLast? with
  | some _, some e => t.setSignaled (t.pi-UInt32.ofNat e.bbs).toUInt16
  | _, _ => t

structure Posting (t : Tx) (descs : List Desc) (es : List Entry) (n : Nat) (t' : Tx) : Prop where
  turns : ∃ t₁, Turns t es t₁ ∧ t'=(t₁.mark es).ring n (sumLens 0 (frames es))
  nonempty : es ≠ []
  frames : frames es=descs.take n
  count : n=packets es
  offered : n≤t.freeSlots
  failed : t.failed=none
  full : ∀ m, t.mpw=some m → m.pointer=true → ∀ e∈es.dropLast, e.descs.length=m.maxPackets

section
variable {t : Tx} {descs : List Desc}

theorem single_room (hm : t.mpw=none) (hf : t.failed=none) (hle : descs.length≤t.freeSlots) :
    descs.length*t.maxBBs.toNat≤t.free.toNat := by
  rw [Tx.freeSlots,hf,hm] at hle
  simp only [Option.isSome_none,Bool.false_eq_true,if_false,UInt32.toNat_div] at hle
  exact (Nat.mul_le_mul_right _ hle).trans (Nat.div_mul_le_self _ _)

variable (hb : t.toTxFixed.Built)
include hb

theorem postSingle_spec (hm : t.mpw=none) (hf : t.failed=none) (hle : descs.length≤t.freeSlots) :
    ∃ t' n, t.postSingle descs=some (t',n) ∧ n=(descs.takeWhile t.descOK).length ∧
      (n=0 ∧ t.Agree t' ∨ ∃ es, Posting t descs es n t') := by
  have hroom := single_room hm hf hle
  obtain ⟨st,es,hloop,hts,hfr,hpost,hbytes⟩ :=
    postLoop_turns descs.length descs { tx := t } hb hm hroom
  have hn : st.posted=packets es := by simpa using hpost
  have hlen : (descs.takeWhile t.descOK).length=packets es := by rw [← hfr]; rfl
  rw [Tx.postSingle,hloop]
  by_cases h0 : st.posted=0
  · simp only [h0,if_true]
    refine ⟨_,0,rfl,by omega,.inl ⟨rfl,?_⟩⟩
    cases hts with
    | done ha => exact ha.trans ⟨_,_,_,rfl,rfl,rfl⟩
    | turn hp hs =>
      have := (Turns.turn hp hs).packets_pos hb (cons_ne_nil _ _)
      omega
  simp only [h0,if_false]
  refine ⟨_,_,rfl,by omega,.inr ⟨es,⟨st.tx,hts,?_⟩,?_,?_,hn,?_,hf,?_⟩⟩
  · have hmark : st.tx.mark es=st.tx := by rw [Tx.mark,hts.fixed,hm]
    rw [hmark,hbytes]
  · rintro rfl
    exact h0 hn
  · rw [hfr,hn,← hlen]
    exact prefix_iff_eq_take.mp ( takeWhile_prefix _)
  · rw [hn,← hlen]
    exact ( takeWhile_prefix _).length_le.trans hle
  · intro m hm'
    cases hm.symm.trans hm'

theorem postMulti_spec {m : MPWSender} (hm : t.mpw=some m) (hf : t.failed=none)
    (hle : descs.length≤t.freeSlots) : ∃ t' n, t.postMulti m descs=some (t',n) ∧
      (n=0 ∧ t.Agree t' ∨ ∃ es, Posting t descs es n t') := by
  have hc : MultiState.Checked { tx := t } descs := ⟨le_refl _,by simp⟩
  obtain ⟨st,es,hloop,hrun⟩ := multiLoop_run descs.length { tx := t } hb hm hc
  have hany : st.anyPut = !es.isEmpty := by simpa using hrun.anyPut
  have hn : st.posted=packets es := by simpa using hrun.posted
  have hpre : frames es <+: descs := by simpa using hrun.frames
  rw [Tx.postMulti,hloop]
  by_cases hes : es = []
  · subst hes
    simp only [hany,isEmpty_nil,Bool.not_true,Bool.not_false,if_true]
    refine ⟨_,0,rfl,.inl ⟨rfl,?_⟩⟩
    cases hrun.turns with
    | done ha => exact ha.trans ⟨_,_,_,rfl,rfl,rfl⟩
  have hemp : es.isEmpty=false := by simpa using hes
  simp only [hany,hemp,Bool.not_false,Bool.not_true,Bool.false_eq_true,if_false]
  refine ⟨_,_,rfl,.inr ⟨es,⟨st.tx,hrun.turns,?_⟩,hes,?_,hn,?_,hf,?_⟩⟩
  · obtain ⟨es',e,rfl⟩ := (eq_nil_or_concat' es).resolve_left hes
    have hmark : st.tx.mark (es'++[e])=st.tx.setSignaled st.lastIdx := by
      rw [Tx.mark,hrun.turns.fixed,hm,getLast?_concat,hrun.lastIdx es' e rfl]
    rw [hmark,hrun.bytes]
  · rw [hn]
    exact prefix_iff_eq_take.mp hpre
  · rw [hn]
    exact hpre.length_le.trans hle
  · intro m' hm' hptr
    rw [hm] at hm'
    injection hm' with hm'
    exact hm' ▸ hrun.full (hm' ▸ hptr)

theorem post_spec (descs : List Desc) : ∃ t' n, t.post descs=some (t',n) ∧
      (n=0 ∧ t.Agree t' ∨ ∃ es, Posting t descs es n t') := by
  simp only [Tx.post]
  split_ifs with hf hfull h0
  · exact ⟨t,0,rfl,.inl ⟨rfl,.refl t⟩⟩
  · exact ⟨_,0,rfl,.inl ⟨rfl,⟨_,_,_,rfl,rfl,rfl⟩⟩⟩
  · exact ⟨t,0,rfl,.inl ⟨rfl,.refl t⟩⟩
  · have hnf : t.failed=none := by simpa using hf
    have hle : (descs.take t.freeSlots).length≤t.freeSlots := by simp
    have hend : ∀ {o : Option (Tx × Nat)},
        (∃ t' n, o=some (t',n) ∧
          (n=0 ∧ t.Agree t' ∨ ∃ es, Posting t (descs.take t.freeSlots) es n t')) →
        ∃ t' n, o=some (t',n) ∧ (n=0 ∧ t.Agree t' ∨ ∃ es, Posting t descs es n t') := by
      rintro o ⟨t',n,heq,hout⟩
      refine ⟨t',n,heq,?_⟩
      cases hout with
      | inl hnone => exact .inl hnone
      | inr hsome =>
        obtain ⟨es,hp⟩ := hsome
        refine .inr ⟨es,hp.turns,hp.nonempty,?_,hp.count,hp.offered,hnf,hp.full⟩
        rw [hp.frames,take_take,min_eq_left hp.offered]
    cases hm : t.mpw with
    | none =>
      obtain ⟨t',n,heq,-,hout⟩ := postSingle_spec hb hm hnf hle
      exact hend ⟨t',n,heq,hout⟩
    | some m => exact hend (postMulti_spec hb hm hnf hle)

end

end Packetio.Mlx5.Ring

import Packetio.Mlx5.Ring.TxPost

/-! Ownership across Post and Complete. Post only adds entries behind the ones in
flight. Complete only moves the line between finished and in flight, to the end
of an entry that a completion it read was taken for. -/
namespace Packetio.Mlx5.Ring
open Lib

structure Tx.Inv (t : Tx) (done live : List Entry) : Prop where
  built : t.toTxFixed.Built
  owns : t.toLedger.Owns t.toTxFixed done live
  single : t.mpw=none → ∀ e∈t.entries, e.descs.length≤e.bbs

theorem packets_le_blocks {es : List Entry} (h : ∀ e∈es, e.descs.length≤e.bbs) :
    packets es≤blocks es := by
  induction es with
  | nil => simp
  | cons e es ih =>
    have h1 := h e (by simp)
    have h2 := ih fun e' he' => h e' (by simp [he'])
    rw [packets_cons,blocks_cons]
    omega

variable {descs : List Desc} {n : Nat}

section
variable {t t' : Tx} {done live es : List Entry} {ds : List Desc} {p : Put}

theorem Tx.Inv.of_agree (h : t.Inv done live) (ha : t.Agree t') : t'.Inv done live := by
  obtain ⟨_,_,_,rfl,-,-⟩ := ha
  exact ⟨h.built,h.owns,h.single⟩

theorem Turn.inv (ht : Turn t ds p t') (h : t.Inv done live) :
    t'.Inv done (live++[⟨p.bbs.toNat,ds⟩]) := by
  obtain ⟨hds,hlo,hhi⟩ := ht.writes.bbs h.built
  have hfits := ht.fits
  have hfree := h.owns.free
  have hone : t.mpw=none → ds.length=1 := by
    intro hm
    cases ht.writes with
    | single => rfl
    | pointers _ _ hm' | copied _ _ hm' => cases hm.symm.trans hm'
  have hroom : packets live+ds.length≤t.numSlots.toNat := by
    cases hm : t.mpw with
    | none =>
      have hpb : packets live≤blocks live := packets_le_blocks fun e he =>
        h.single hm e (by rw [h.owns.entries]; simp [he])
      have hlen := hone hm
      have hfr : t.free.toNat=t.bbs.toNat-blocks live := hfree
      rw [h.built.single hm]
      omega
    | some m =>
      have hr := ht.room (by simp [hm])
      rwa [Ledger.inFlight,h.owns.inFlight_packets] at hr
  refine Tx.Inv.of_agree (t := (t.write p).record ds p.bbs) ⟨h.built,?_,?_⟩ ht.next
  · exact h.owns.record h.built.rings hds hlo (by omega) hfits hroom
  · intro hm e he
    simp only [Tx.record,record_entries,List.mem_append,List.mem_singleton] at he
    rcases he with he | he
    · exact h.single hm e he
    rw [he]
    have := hone hm
    simp only
    omega

theorem Turns.inv (ht : Turns t es t') (h : t.Inv done live) : t'.Inv done (live++es) := by
  induction ht generalizing live with
  | done ha => simpa using h.of_agree ha
  | turn hp _ ih => simpa using ih (hp.inv h)

theorem ring_ledger (t : Tx) (n : Nat) (b : UInt64) : (t.ring n b).toLedger=t.toLedger := by
  simp only [Tx.ring,Tx.tick,Tx.publish]
  split_ifs <;> rfl

theorem ring_fixed (t : Tx) (n : Nat) (b : UInt64) : (t.ring n b).toTxFixed=t.toTxFixed := by
  simp only [Tx.ring,Tx.tick,Tx.publish]
  split_ifs <;> rfl

theorem mark_ledger (t : Tx) (es : List Entry) : (t.mark es).toLedger=t.toLedger := by
  rw [Tx.mark]
  split <;> rfl

theorem mark_fixed (t : Tx) (es : List Entry) : (t.mark es).toTxFixed=t.toTxFixed := by
  rw [Tx.mark]
  split <;> rfl

theorem Tx.Inv.congr (h : t.Inv done live) (hf : t'.toTxFixed=t.toTxFixed)
    (hl : t'.toLedger=t.toLedger) : t'.Inv done live := by
  refine ⟨hf ▸ h.built,by rw [hf,hl]; exact h.owns,?_⟩
  intro hm e he
  have hm' : t.mpw=none := by rw [← hf]; exact hm
  have he' : e∈t.entries := by rw [← hl]; exact he
  exact h.single hm' e he'

theorem Posting.inv (hp : Posting t descs es n t')
    (h : t.Inv done live) : t'.Inv done (live++es) := by
  obtain ⟨t1,hts,rfl⟩ := hp.turns
  refine (hts.inv h).congr ?_ ?_
  · rw [ring_fixed,mark_fixed]
  · rw [ring_ledger,mark_ledger]

theorem Turns.rest (h : Turns t es t') : t'.cq=t.cq ∧ t'.ci=t.ci ∧ t'.failed=t.failed := by
  induction h with
  | done ha =>
    obtain ⟨_,_,_,rfl,-,-⟩ := ha
    exact ⟨rfl,rfl,rfl⟩
  | turn hp _ ih =>
    obtain ⟨_,_,_,rfl,-,-⟩ := hp.next
    exact ih

theorem Posting.rest (hp : Posting t descs es n t') :
    t'.toTxFixed=t.toTxFixed ∧ t'.cq=t.cq ∧ t'.ci=t.ci ∧ t'.failed=t.failed := by
  obtain ⟨t1,hts,rfl⟩ := hp.turns
  have hmark : (t1.mark es).cq=t1.cq ∧ (t1.mark es).ci=t1.ci ∧ (t1.mark es).failed=t1.failed := by
    rw [Tx.mark]
    split <;> exact ⟨rfl,rfl,rfl⟩
  have hring : ∀ u : Tx, ∀ b, (u.ring n b).cq=u.cq ∧ (u.ring n b).ci=u.ci ∧
      (u.ring n b).failed=u.failed := by
    intro u b
    simp only [Tx.ring,Tx.tick,Tx.publish]
    split_ifs <;> exact ⟨rfl,rfl,rfl⟩
  refine ⟨?_,?_,?_,?_⟩
  · rw [ring_fixed,mark_fixed,hts.fixed]
  · rw [(hring _ _).1,hmark.1,hts.rest.1]
  · rw [(hring _ _).2.1,hmark.2.1,hts.rest.2.1]
  · rw [(hring _ _).2.2,hmark.2.2,hts.rest.2.2]

theorem post_cases (hb : t.toTxFixed.Built) (hp : t.post descs=some (t',n)) :
    n=0 ∧ t.Agree t' ∨ ∃ es, Posting t descs es n t' := by
  obtain ⟨u,k,hu,hout⟩ := post_spec hb descs
  rw [hp] at hu
  cases hu
  exact hout

theorem post_rest (hb : t.toTxFixed.Built) (hp : t.post descs=some (t',n)) :
    t'.toTxFixed=t.toTxFixed ∧ t'.cq=t.cq ∧ t'.ci=t.ci ∧ t'.failed=t.failed := by
  cases post_cases hb hp with
  | inl h0 =>
    obtain ⟨_,_,_,rfl,-,-⟩ := h0.2
    exact ⟨rfl,rfl,rfl,rfl⟩
  | inr hes =>
    obtain ⟨es,hpost⟩ := hes
    exact hpost.rest

theorem post_inv (h : t.Inv done live) (hp : t.post descs=some (t',n)) :
    ∃ es, t'.Inv done (live++es) ∧ frames es=descs.take n ∧
      t'.toTxFixed=t.toTxFixed ∧ t'.cq=t.cq ∧ t'.ci=t.ci := by
  obtain ⟨hf,hcq,hci,-⟩ := post_rest h.built hp
  cases post_cases h.built hp with
  | inl h0 =>
    obtain ⟨rfl,ha⟩ := h0
    exact ⟨[],by simpa using h.of_agree ha,rfl,hf,hcq,hci⟩
  | inr hes =>
    obtain ⟨es,hpost⟩ := hes
    exact ⟨es,hpost.inv h,hpost.frames,hf,hcq,hci⟩

end

inductive Round (t : Tx) (max : UInt32) (n : Nat) (st : CompleteState) : CompleteState → Prop
  | none (h : t.cq.owned st.ci (t.cq.header st.ci)=false) : Round t max n st st
  | format (ho : t.cq.owned st.ci (t.cq.header st.ci)=true)
    (h : format (t.cq.header st.ci)≠cqeFormatNoData) :
    Round t max n st { st with errors := st.errors+1 }
  | skip (e : UInt64) (f : Option ErrorInfo)
    (ho : t.cq.owned st.ci (t.cq.header st.ci)=true)
    (h : (opcode (t.cq.header st.ci)≠cqeReq ∧ opcode (t.cq.header st.ci)≠cqeReqErr) ∨
      t.toLedger.entryFor t.toTxFixed (t.cq.header st.ci) = .none) :
    Round t max n st (completeLoop t max n
      { st with ci := st.ci+1, completed := st.completed+1, errors := e, failed := f })
  | beyond (r : UInt32 × UInt32) (ho : t.cq.owned st.ci (t.cq.header st.ci)=true)
    (h : t.toLedger.entryFor t.toTxFixed (t.cq.header st.ci)=some r)
    (hany : st.haveAny=true) (hmax : r.1-t.slotHead > max) : Round t max n st st
  | last (r : UInt32 × UInt32) (e : UInt64) (f : Option ErrorInfo)
    (ho : t.cq.owned st.ci (t.cq.header st.ci)=true)
    (h : t.toLedger.entryFor t.toTxFixed (t.cq.header st.ci)=some r)
    (hmax : r.1-t.slotHead ≥ max) (hfit : ¬ (st.haveAny=true ∧ r.1-t.slotHead > max)) :
    Round t max n st ⟨st.ci+1,r.1,r.2,true,st.completed+1,e,f⟩
  | next (r : UInt32 × UInt32) (e : UInt64) (f : Option ErrorInfo)
    (ho : t.cq.owned st.ci (t.cq.header st.ci)=true)
    (h : t.toLedger.entryFor t.toTxFixed (t.cq.header st.ci)=some r)
    (hmax : ¬ r.1-t.slotHead ≥ max) :
    Round t max n st (completeLoop t max n ⟨st.ci+1,r.1,r.2,true,st.completed+1,e,f⟩)

theorem completeLoop_round (t : Tx) (max : UInt32) (n : Nat) (st : CompleteState) :
    Round t max n st (completeLoop t max (n+1) st) := by
  rw [completeLoop]
  rcases ho : t.cq.owned st.ci (t.cq.header st.ci) with _ | _
  · exact .none ho
  by_cases hf : format (t.cq.header st.ci)≠cqeFormatNoData
  · rw [if_pos hf]
    exact .format ho hf
  rw [if_neg hf]
  by_cases hop : opcode (t.cq.header st.ci)≠cqeReq ∧ opcode (t.cq.header st.ci)≠cqeReqErr
  · rw [if_pos hop]
    exact .skip _ _ ho (.inl hop)
  rw [if_neg hop]
  rcases he : t.toLedger.entryFor t.toTxFixed (t.cq.header st.ci) with _ | r
  · exact .skip _ _ ho (.inr he)
  by_cases hb : st.haveAny=true ∧ r.1-t.slotHead > max
  · simp only [hb,and_self,if_true]
    exact .beyond r ho he hb.1 hb.2
  simp only [if_neg hb]
  by_cases hm : r.1-t.slotHead ≥ max
  · rw [if_pos hm]
    exact .last r _ _ ho he hm hb
  · rw [if_neg hm]
    exact .next r _ _ ho he hm

def Tx.reading (t : Tx) (max : Int) : CompleteState :=
  completeLoop t (UInt32.ofInt max) t.cq.entries.toNat
    { ci := t.ci, errors := t.c.errors, failed := t.failed }

structure CompleteState.Named (t : Tx) (st : CompleteState) : Prop where
  named : st.haveAny=true → ∃ i<t.cq.entries.toNat,
    t.cq.owned (t.ci+UInt32.ofNat i) (t.cq.header (t.ci+UInt32.ofNat i))=true ∧
    t.toLedger.entryFor t.toTxFixed (t.cq.header (t.ci+UInt32.ofNat i)) =
      some (st.release,st.newHead)
  counted : st.haveAny=true → st.completed≠0

theorem completeLoop_named (t : Tx) (max : UInt32) (n i : Nat) (st : CompleteState)
    (hi : st.ci=t.ci+UInt32.ofNat i) (hc : st.completed=UInt64.ofNat i)
    (hn : i+n≤t.cq.entries.toNat) (h : st.Named t) : (completeLoop t max n st).Named t := by
  induction n generalizing i st with
  | zero => exact h
  | succ n ih =>
    have hlt := t.cq.entries.toNat_lt
    have hi' : st.ci+1=t.ci+UInt32.ofNat (i+1) := by
      rw [hi,UInt32.add_assoc,UInt32.ofNat_add]
      rfl
    have hc' : st.completed+1=UInt64.ofNat (i+1) := by
      rw [hc,UInt64.ofNat_add]
      rfl
    have h0 : st.completed+1≠0 := by
      rw [hc',ne_eq,← UInt64.toNat_inj,toNat_small64 _ (by omega)]
      exact Nat.succ_ne_zero i
    have hr := completeLoop_round t max n st
    generalize completeLoop t max (n+1) st=st' at hr
    cases hr with
    | none | beyond => exact h
    | format => exact ⟨h.named,h.counted⟩
    | skip e f => exact ih (i+1) _ hi' hc' (by omega) ⟨h.named,fun _ => h0⟩
    | last r e f ho he =>
      rw [hi] at ho he
      exact ⟨fun _ => ⟨i,by omega,ho,he⟩,fun _ => h0⟩
    | next r e f ho he =>
      refine ih (i+1) _ hi' hc' (by omega) ⟨fun _ => ⟨i,by omega,?_⟩,fun _ => h0⟩
      rw [hi] at ho he
      exact ⟨ho,he⟩

theorem reading_named (t : Tx) (max : Int) : (t.reading max).Named t := by
  refine completeLoop_named _ _ _ 0 _ ?_ rfl (by omega) ⟨nofun,nofun⟩
  simp

section
variable (t : Tx) {max : Int} (hmax : 0 < max) (out : List Desc)

theorem complete_rest :
    (t.complete max out).1.toTxFixed=t.toTxFixed ∧ (t.complete max out).1.cq=t.cq ∧
      (t.complete max out).1.sqBytes=t.sqBytes ∧ (t.complete max out).1.touched=t.touched ∧
      (t.complete max out).1.entries=t.entries ∧
      (t.complete max out).1.sinceSignal=t.sinceSignal := by
  simp only [Tx.complete,Tx.release,Tx.publish]
  split_ifs <;> exact ⟨rfl,rfl,rfl,rfl,rfl,rfl⟩

include hmax

theorem complete_ci : (t.complete max out).1.ci=(t.reading max).ci := by
  simp only [Tx.complete,if_neg (not_le.mpr hmax),Tx.reading,Tx.release,Tx.publish]
  split_ifs <;> rfl

theorem complete_idle (h : (t.reading max).haveAny=false) :
    (t.complete max out).1.toLedger=t.toLedger ∧ (t.complete max out).2=out := by
  rw [Tx.reading] at h
  simp only [Tx.complete,if_neg (not_le.mpr hmax),h,Bool.false_eq_true,if_false]
  split_ifs <;> exact ⟨rfl,rfl⟩

theorem complete_release (h : (t.reading max).haveAny=true) :
    (t.complete max out).1.toLedger = { t.toLedger with
      slotHead := (t.reading max).release, head := (t.reading max).newHead } ∧
    (t.complete max out).2=out++t.toLedger.slotRun t.toTxFixed
      ((t.reading max).release-t.slotHead).toNat t.slotHead := by
  have hc := (reading_named t max).counted h
  rw [Tx.reading] at h hc
  simp only [Tx.complete,if_neg (not_le.mpr hmax),h,if_neg hc,if_true,Tx.release,Tx.publish,
    Tx.reading]
  split_ifs <;> exact ⟨rfl,trivial⟩

variable {t} {done live : List Entry} (h : t.Inv done live)
include h

theorem complete_idle_inv (ha : (t.reading max).haveAny=false) :
    (t.complete max out).1.Inv done live ∧ (t.complete max out).2=out := by
  obtain ⟨hl,ho⟩ := complete_idle t hmax out ha
  exact ⟨h.congr (complete_rest t out).1 hl,ho⟩

theorem complete_release_inv {pre post : List Entry} {e : Entry} (hlive : live=pre++e::post)
    (ha : (t.reading max).haveAny=true)
    (hr : (t.reading max).release=UInt32.ofNat (packets (done++pre++[e])))
    (hh : (t.reading max).newHead=UInt32.ofNat (blocks (done++pre++[e]))) :
    (t.complete max out).1.Inv (done++(pre++[e])) post ∧
      (t.complete max out).2=out++frames (pre++[e]) := by
  obtain ⟨hl,ho⟩ := complete_release t hmax out ha
  have hfix : (t.complete max out).1.toTxFixed=t.toTxFixed := (complete_rest t out).1
  have hsplit : live=(pre++[e])++post := by simp [hlive]
  have howns := h.owns
  rw [hsplit] at howns
  have hple := howns.packets_le
  have hn := t.numSlots.toNat_lt
  have hcount : ((t.reading max).release-t.slotHead).toNat=packets (pre++[e]) := by
    rw [packets_append] at hple
    rw [hr,h.owns.slotHead,List.append_assoc,toNat_distance _ _ (by simp)
      (by rw [packets_append]; omega),packets_append]
    omega
  constructor
  · refine ⟨hfix ▸ h.built,?_,?_⟩
    · rw [hl,hfix,hr,hh,List.append_assoc]
      exact howns.release
    · intro hm e' he'
      rw [hfix] at hm
      rw [(complete_rest t out).2.2.2.2.1] at he'
      exact h.single hm e' he'
  · rw [ho,hcount,h.owns.slotRun h.built.rings _ (by rw [hsplit]; simp),hsplit,frames_append,
      packets,List.take_left]

end

end Packetio.Mlx5.Ring

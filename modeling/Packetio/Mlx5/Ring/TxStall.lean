import Packetio.Mlx5.Ring.TxSystem

/-! A completion that cannot be decoded. Complete counts an error and stops in
front of it, as the receive ring does, but unlike the receive ring it does not
mark the queue as failed. -/
namespace Packetio.Mlx5.Ring

def Tx.Undecodable (t : Tx) : Prop :=
  t.cq.owned t.ci (t.cq.header t.ci)=true ∧ format (t.cq.header t.ci)≠cqeFormatNoData

section
variable {t t' : Tx} (h : t.Undecodable)
include h

theorem Tx.Undecodable.of_header (hci : t'.ci=t.ci) (hlog : t'.cq.log2=t.cq.log2)
    (hhdr : t'.cq.header t.ci=t.cq.header t.ci) : t'.Undecodable := by
  obtain ⟨ho,hf⟩ := h
  rw [Tx.Undecodable,CQ.owned,CQ.expectedOwner,hci,hlog,hhdr]
  exact ⟨ho,hf⟩

theorem reading_undecodable (max : Int) :
    ∃ e, t.reading max = { ci := t.ci, errors := e, failed := t.failed } := by
  rw [Tx.reading]
  cases t.cq.entries.toNat with
  | zero => exact ⟨_,rfl⟩
  | succ n =>
    refine ⟨t.c.errors+1,?_⟩
    rw [completeLoop]
    simp [h.1,if_pos h.2]

theorem complete_undecodable (max : Int) (out : List Desc) :
    (t.complete max out).2=out ∧ (t.complete max out).1.failed=t.failed ∧
      (t.complete max out).1.ci=t.ci := by
  by_cases hmax : max≤0
  · rw [Tx.complete,if_pos hmax]
    exact ⟨rfl,rfl,rfl⟩
  obtain ⟨e,he⟩ := reading_undecodable h max
  rw [Tx.reading] at he
  simp [Tx.complete,if_neg hmax,he]

end

def TxSys.Unread (s s' : TxSys) : Prop :=
  TxSys.Step True anyBatch s s' ∧ s'.tx.cq.header s.tx.ci=s.tx.cq.header s.tx.ci

/-- A stalled queue: nothing returned since, and `failed` as it was. -/
structure TxSys.Stalled (s s' : TxSys) : Prop where
  built : s'.tx.toTxFixed.Built
  undecodable : s'.tx.Undecodable
  returned : s'.returned=s.returned
  failed : s'.tx.failed=s.tx.failed

theorem TxSys.Stalled.step {s s1 s2 : TxSys} (h : s.Stalled s1) (hs : s1.Unread s2) :
    s.Stalled s2 := by
  obtain ⟨hstep,hhdr⟩ := hs
  cases hstep with
  | post descs t n hd hp =>
    obtain ⟨hfix,hcq,hci,hfail⟩ := post_rest h.built hp
    exact ⟨hfix ▸ h.built,h.undecodable.of_header hci (by rw [hcq]) (by rw [hcq]),h.returned,
      hfail.trans h.failed⟩
  | complete max hmax =>
    obtain ⟨hout,hfail,hci⟩ := complete_undecodable h.undecodable max []
    obtain ⟨hfix,hcq,-⟩ := @complete_rest s1.tx max []
    refine ⟨hfix ▸ h.built,h.undecodable.of_header hci (by rw [hcq]) (by rw [hcq]),?_,
      hfail.trans h.failed⟩
    simp [hout,h.returned]
  | finish c hlt hc =>
    cases c with
    | none => exact { h with }
    | some x => exact { h with undecodable := h.undecodable.of_header rfl rfl hhdr }
  | scribble buf hr => exact { h with undecodable := h.undecodable.of_header rfl rfl hhdr }

/-- On every run, Complete in front of a completion it cannot decode leaves the
queue failed exactly if it was failed before, and as long as that completion
stands no frame is returned and the state of failure stays the same. -/
theorem undecodable_failed_iff (cfg : TxConfig) (hin : cfg.inlineLen ≤ 960) (s : TxSys)
    (h : TxSys.Reach True anyBatch cfg s) (hu : s.tx.Undecodable) :
    (∀ max out, (s.tx.complete max out).1.failed ≠ none ↔ s.tx.failed ≠ none) ∧
      ∀ s', Relation.ReflTransGen TxSys.Unread s s' →
        s'.returned = s.returned ∧ (s'.tx.failed ≠ none ↔ s.tx.failed ≠ none) := by
  have hbuilt := TxSys.Reach.built hin h
  constructor
  · intro max out
    rw [(complete_undecodable hu max out).2.1]
  · intro s' hrun
    have hst : s.Stalled s' := by
      induction hrun with
      | refl => exact ⟨hbuilt,hu,rfl,rfl⟩
      | tail _ hs ih => exact ih.step hs
    rw [hst.failed]
    exact ⟨hst.returned,Iff.rfl⟩

def compressedCQE : CQE := fun i => if i=63 then 0x04 else 0

def tinyStalled : TxSys :=
  { tinySent with tx :=
    { tinySent.tx with cq := { tinySent.tx.cq with buf := fun _ => compressedCQE } } }

theorem tinyStalled_reach : TxSys.Reach True anyBatch tinyTx tinyStalled := by
  obtain ⟨t,ht,hrun⟩ := tinySent_reach True
  exact ⟨t,ht,hrun.tail (.scribble tinySent (fun _ => compressedCQE) trivial)⟩

theorem tinyStalled_undecodable : tinyStalled.tx.Undecodable := by constructor <;> decide

theorem undecodable_failed_iff_tiny : tinyStalled.tx.Undecodable ∧
      ((tinyStalled.tx.complete 1 []).1.failed ≠ none ↔ tinyStalled.tx.failed ≠ none) :=
  ⟨tinyStalled_undecodable,(undecodable_failed_iff tinyTx (by decide) tinyStalled tinyStalled_reach
    tinyStalled_undecodable).1 1 []⟩

/-- A frame is in flight, the next completion cannot be decoded, and Complete
neither returns it nor reports a failure. -/
theorem undecodable_not_failed :
    ∃ s, TxSys.Reach True anyBatch tinyTx s ∧ s.tx.Undecodable ∧ s.tx.inFlight = 1 ∧
      (s.tx.complete 1 []).2 = [] ∧ (s.tx.complete 1 []).1.failed = none ∧
      (s.tx.complete 1 []).1.Undecodable :=
  ⟨tinyStalled,tinyStalled_reach,tinyStalled_undecodable,by decide,by decide,by decide,
    by constructor <;> decide⟩

end Packetio.Mlx5.Ring

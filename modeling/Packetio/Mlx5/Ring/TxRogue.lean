import Packetio.Mlx5.Ring.TxSystem

/-! The send ring against a NIC that writes arbitrary bytes over the completion
queue. Nothing is assumed of a completion; what protects the frames is the check
of entryFor, as long as the slot counter has not come round to an old record. -/
namespace Packetio.Mlx5.Ring

section
variable {t : Tx} {done live : List Entry} (h : t.Inv done live) (hfew : packets t.entries<2^31)
include h hfew

theorem complete_rogue {max : Int} (hmax : 0 < max) (out : List Desc) :
    ∃ pre post, live=pre++post ∧ (t.complete max out).1.Inv (done++pre) post ∧
      (t.complete max out).2=out++frames pre ∧
      (pre = [] ∨ ∃ pre' e, pre=pre'++[e] ∧ ∃ i<t.cq.entries.toNat,
        t.cq.owned (t.ci+UInt32.ofNat i) (t.cq.header (t.ci+UInt32.ofNat i))=true ∧
        wqeCounter (t.cq.header (t.ci+UInt32.ofNat i))=UInt16.ofNat (blocks (done++pre'))) := by
  rcases ha : (t.reading max).haveAny with _ | _
  · obtain ⟨hinv,hout⟩ := complete_idle_inv hmax out h ha
    exact ⟨[],live,rfl,by simpa using hinv,by simpa using hout,.inl rfl⟩
  obtain ⟨i,hi,hown,hfor⟩ := (reading_named t max).named ha
  obtain ⟨pre,e,post,hlive,hb,hc⟩ := h.owns.entryFor_some h.built.rings hfew hfor
  have hlv := h.owns.entryFor_live h.built.rings hlive hc hb
  rw [hfor] at hlv
  injection hlv with hlv
  injection hlv with hr hh
  obtain ⟨hinv,hout⟩ := complete_release_inv hmax out h hlive ha hr hh
  exact ⟨pre++[e],post,by simp [hlive],hinv,hout,.inr ⟨pre,e,rfl,i,hi,hown,hc⟩⟩

theorem entryFor_none {hdr : UInt32}
    (hn : ∀ pre e post, live=pre++e::post → wqeCounter hdr≠UInt16.ofNat (blocks (done++pre))) :
    t.toLedger.entryFor t.toTxFixed hdr=none := by
  cases hf : t.toLedger.entryFor t.toTxFixed hdr with
  | none => rfl
  | some r =>
    obtain ⟨pre,e,post,hlive,-,hc⟩ := h.owns.entryFor_some h.built.rings hfew hf
    exact absurd hc (hn pre e post hlive)

end

structure TxSys.Accounts (s : TxSys) (done live : List Entry) : Prop where
  inv : s.tx.Inv done live
  accepted : s.accepted=frames s.tx.entries
  returned : s.returned=frames done

variable {posts : Tx → List Desc → Prop} {rogue : Prop} {s : TxSys}

theorem TxSys.Accounts.step {s' : TxSys} {done live : List Entry} (h : s.Accounts done live)
    (hfew : s.accepted.length<2^31)
    (hs : TxSys.Step rogue posts s s') : ∃ done' live', s'.Accounts done' live' := by
  cases hs with
  | post descs t n hd hp =>
    obtain ⟨es,hinv,hfr,-⟩ := post_inv h.inv hp
    refine ⟨done,live++es,hinv,?_,h.returned⟩
    simp [hinv.owns.entries,h.accepted,h.inv.owns.entries,frames_append,hfr]
  | complete max hmax =>
    rw [h.accepted] at hfew
    obtain ⟨pre,post,-,hinv,hout,-⟩ := complete_rogue h.inv hfew hmax []
    refine ⟨done++pre,post,hinv,?_,?_⟩
    · rw [(complete_rest s.tx []).2.2.2.2.1]
      exact h.accepted
    · rw [hout,h.returned,List.nil_append,frames_append]
  | finish c hlt hc =>
    cases c with
    | none => exact ⟨done,live,h.inv,h.accepted,h.returned⟩
    | some x => exact ⟨done,live,h.inv.congr rfl rfl,h.accepted,h.returned⟩
  | scribble buf hr => exact ⟨done,live,h.inv.congr rfl rfl,h.accepted,h.returned⟩

theorem TxSys.Step.accepted_le {s' : TxSys}
    (hs : TxSys.Step rogue posts s s') : s.accepted.length ≤ s'.accepted.length := by
  cases hs with
  | post descs t n hd hp => simp
  | complete _ _ | scribble _ _ => exact le_refl _
  | finish c hlt hc => cases c <;> exact le_refl _

theorem TxSys.Reach.accounts {cfg : TxConfig} (hin : cfg.inlineLen≤960)
    (h : TxSys.Reach rogue posts cfg s)
    (hfew : s.accepted.length<2^31) : ∃ done live, s.Accounts done live := by
  obtain ⟨t,ht,hrun⟩ := h
  induction hrun with
  | refl =>
    have howns := newTx_owns ht
    refine ⟨[],[],⟨newTx_built ht hin,howns,?_⟩,?_,rfl⟩
    · intro _ e he
      rw [howns.entries] at he
      cases he
    · rw [howns.entries]
      rfl
  | tail _ hstep ih =>
    obtain ⟨done,live,ha⟩ := ih (hstep.accepted_le.trans_lt hfew)
    exact ha.step (hstep.accepted_le.trans_lt hfew) hstep

/-- Against arbitrary completion queue contents, Complete returns frames in flight
only, in order, up to the end of an entry that an owned completion named. -/
theorem complete_returns_in_flight (cfg : TxConfig) (hin : cfg.inlineLen ≤ 960) (s : TxSys)
    (h : TxSys.Reach True anyBatch cfg s) (hfew : s.accepted.length < 2^31)
    (buf : Nat → CQE) (max : Int) (hmax : 0 < max) :
    let t : Tx := { s.tx with cq := { s.tx.cq with buf := buf } }
    ∃ done live, s.tx.entries = done++live ∧ s.accepted = s.returned++frames live ∧
      (∃ pre post, live = pre++post ∧ (t.complete max []).2 = frames pre ∧
        (pre = [] ∨ ∃ pre' e, pre = pre'++[e] ∧ ∃ i < t.cq.entries.toNat,
          t.cq.owned (t.ci+UInt32.ofNat i) (t.cq.header (t.ci+UInt32.ofNat i)) = true ∧
          wqeCounter (t.cq.header (t.ci+UInt32.ofNat i)) =
            UInt16.ofNat (blocks (done++pre')))) ∧
      ∀ hdr, (∀ pre e post, live = pre++e::post →
        wqeCounter hdr ≠ UInt16.ofNat (blocks (done++pre))) →
        t.toLedger.entryFor t.toTxFixed hdr = none := by
  intro t
  obtain ⟨done,live,ha⟩ := h.accounts hin hfew
  have hinv : t.Inv done live := ha.inv.congr rfl rfl
  have hfew' : packets t.entries<2^31 := by
    rwa [ha.accepted] at hfew
  obtain ⟨pre,post,hlive,-,hout,hnamed⟩ := complete_rogue hinv hfew' hmax []
  refine ⟨done,live,ha.inv.owns.entries,?_,⟨pre,post,hlive,hout,hnamed⟩,fun hdr =>
    entryFor_none hinv hfew'⟩
  rw [ha.accepted,ha.returned,ha.inv.owns.entries,frames_append]

theorem complete_returns_in_flight_tiny :
    let t : Tx := { tinySent.tx with cq := { tinySent.tx.cq with buf := fun _ _ => 0 } }
    (t.complete 1 []).2 = [⟨0,64,0⟩] ∧ ∃ done live, tinySent.tx.entries = done++live ∧
      tinySent.accepted = tinySent.returned++frames live ∧
      ∃ pre post, live = pre++post ∧ (t.complete 1 []).2 = frames pre := by
  obtain ⟨done,live,hent,hacc,⟨pre,post,hlive,hout,-⟩,-⟩ := complete_returns_in_flight tinyTx
    (by decide) tinySent (tinySent_reach True) (by decide) (fun _ _ => 0) 1 (by decide)
  exact ⟨by decide,done,live,hent,hacc,pre,post,hlive,hout⟩

end Packetio.Mlx5.Ring

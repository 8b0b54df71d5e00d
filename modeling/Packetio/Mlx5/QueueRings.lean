import Packetio.Lib.Update
import Packetio.Mlx5.Queue
import Packetio.Mlx5.Ring.TxSystem
import Packetio.Mlx5.Ring.RxSystem

/-! What the queue operations do with frames: which frames a ring has in flight, and
what each call moves between them, the free list and the caller. -/
namespace Packetio.Mlx5
open Mlx5.Ring List

/-! The frames a ring has in flight -/

def Ring.Tx.window (t : Tx) : List Desc := t.toLedger.slotRun t.toTxFixed t.inFlight t.slotHead

def Ring.Rx.window (r : Rx) : List Desc :=
  (List.range r.outstanding).map fun i => r.posted ((r.ci+UInt32.ofNat i) &&& r.mask).toNat

structure TxNic where
  finished : Nat := 0
  written : Nat := 0

def Serviced (t : Tx) (nic : TxNic) : Prop :=
  ∃ k s done live xs, TxSys.Conforms k s done live xs ∧ s.tx=t ∧ s.finished=nic.finished ∧
    s.written=nic.written

theorem Ring.TxSys.Conforms.window_eq {k : Nat} {s : TxSys} {done live : List Entry}
    {xs : List CQE} (h : s.Conforms k done live xs) : s.tx.window=frames live := by
  have hn : s.tx.inFlight=packets live := Ledger.Owns.inFlight_packets h.inv.owns
  rw [Tx.window,Ledger.Owns.slotRun h.inv.built.rings h.inv.owns _ (le_of_eq hn),hn]
  exact take_length

theorem Ring.TxSys.Conforms.accepted_eq {k : Nat} {s : TxSys} {done live : List Entry}
    {xs : List CQE} (h : s.Conforms k done live xs) : s.accepted=s.returned++s.tx.window := by
  rw [h.window_eq,h.accepted,h.returned,h.inv.owns.entries,frames_append]

section
variable {t : Tx} {nic : TxNic} (h : Serviced t nic)
include h

theorem Serviced.post (descs : List Desc) : ∃ t' n, t.post descs=some (t',n) ∧ Serviced t' nic ∧
      t'.window=t.window++descs.take n := by
  obtain ⟨k,s,done,live,xs,hc,rfl,hfin,hwr⟩ := h
  obtain ⟨t',n,hp,-⟩ := post_spec hc.inv.built descs
  obtain ⟨es,hc'⟩ := hc.post hp
  refine ⟨t',n,hp,⟨k,_,_,_,_,hc',rfl,hfin,hwr⟩,?_⟩
  have h' := hc'.accepted_eq
  simp only [hc.accepted_eq,append_assoc] at h'
  exact (append_cancel_left h').symm

theorem Serviced.complete (max : Int) : Serviced (t.complete max []).1 nic ∧
      t.window=(t.complete max []).2++(t.complete max []).1.window := by
  by_cases hmax : 0 < max
  · obtain ⟨k,s,done,live,xs,hc,rfl,hfin,hwr⟩ := h
    obtain ⟨done',live',xs',hc'⟩ := hc.complete hmax
    refine ⟨⟨k,_,_,_,_,hc',rfl,hfin,hwr⟩,?_⟩
    have h' := hc'.accepted_eq
    simp only [hc.accepted_eq,append_assoc] at h'
    exact append_cancel_left h'
  · rw [Tx.complete,if_pos (by omega)]
    exact ⟨h,rfl⟩

theorem Serviced.publish : Serviced t.publish nic ∧ t.publish.window=t.window := by
  obtain ⟨k,s,done,live,xs,hc,rfl,hfin,hwr⟩ := h
  refine ⟨⟨k,{ s with tx := s.tx.publish },done,live,xs,?_,rfl,hfin,hwr⟩,rfl⟩
  exact { hc with inv := hc.inv.congr rfl rfl }

end

theorem complete_out (t : Tx) (max : Int) (out : List Desc) :
    t.complete max out=((t.complete max []).1,out++(t.complete max []).2) := by
  simp only [Tx.complete]
  split
  case isTrue => simp
  split
  case isTrue => simp
  split
  case isTrue | isFalse => simp

def TxNic.finish (nic : TxNic) (t : Tx) (c : Option CQE) : Tx × TxNic :=
  let s := ({ tx := t, finished := nic.finished, written := nic.written } : TxSys).finish c
  (s.tx,⟨s.finished,s.written⟩)

structure TxNic.Conforming (nic : TxNic) (t : Tx) (c : Option CQE) : Prop where
  posted : nic.finished<t.entries.length
  names : ∀ x∈c, Names t.entries nic.finished x ∧
    (owner (header x)).toNat=nic.written/t.cq.entries.toNat%2

theorem Serviced.finish {t : Tx} {nic : TxNic} (h : Serviced t nic) {c : Option CQE}
    (hc : nic.Conforming t c) :
    Serviced (nic.finish t c).1 (nic.finish t c).2 ∧ (nic.finish t c).1.window=t.window := by
  obtain ⟨k,s,done,live,xs,hs,rfl,hfin,hwr⟩ := h
  have hs' := hs.finish (hfin ▸ hc.posted) c (by rw [hfin,hwr]; exact hc.names)
  refine ⟨⟨k,_,_,_,_,hs',?_,?_,?_⟩,?_⟩
  · cases c with
    | none => rfl
    | some x => simp [TxNic.finish,TxSys.finish,hwr]
  · cases c with
    | none | some _ => simp [TxNic.finish,TxSys.finish,hfin]
  · cases c with
    | none | some _ => simp [TxNic.finish,TxSys.finish,hwr]
  · cases c with
    | none | some _ => rfl

theorem Serviced.init {cfg : TxConfig} {t : Tx} (hin : cfg.inlineLen≤960)
    (hsq : cfg.sqLen≤64*65536) (hfresh : cfg.Fresh) (h : newTx cfg = .ok t) :
    Serviced t {} ∧ t.window = [] := by
  obtain ⟨k,hc⟩ := TxSys.Conforms.init hin hsq hfresh h
  have hw := hc.accepted_eq
  exact ⟨⟨k,_,_,_,_,hc,rfl,rfl,rfl⟩,(append_eq_nil_iff.mp hw.symm).2⟩

theorem Ring.Rx.Owns.window {r : Rx} {done live : List Desc} (h : r.Owns done live) :
    r.window=live := by
  have hn : r.outstanding=live.length := h.outstanding
  refine ext_getElem (by rw [Rx.window,length_map,length_range,hn]) ?_
  intro i h1 h2
  have hne : r.entries.toNat≠0 := by
    have hle := h.le
    omega
  simp only [Rx.window,getElem_map,getElem_range]
  rw [h.ci,← UInt32.ofNat_add,h.built.slot hne]
  exact h.posted i h2

end Packetio.Mlx5

import Packetio.Lib.Latch
import Packetio.Mlx5.QueueFrames

/-! A transmit queue that has failed (txqueue.go). An error completion is latched in the
ring that met it; Alloc and Transmit look at the ring of the cursor, SendFunc at all of
them, and Complete and Reclaim at none. -/
namespace Packetio.Mlx5
open Lib Mlx5.Ring Pool Option

variable {info : ErrorInfo} {st : CompleteState} {descs : List Desc} {k n : Nat}

theorem consume_failed {t : Tx} (h : st.failed=some info) : (st.consume t).failed=some info := by
  simp [CompleteState.consume,h]

theorem completeLoop_failed (t : Tx) (max : UInt32) (n : Nat) (h : st.failed=some info) :
    (completeLoop t max n st).failed=some info := by
  induction n generalizing st with
  | zero => exact h
  | succ n ih =>
    rw [completeLoop]
    split
    case isTrue => exact h
    split
    case isTrue => exact h
    split
    case isTrue => exact ih h
    split
    case h_1 => exact ih (consume_failed h)
    split
    case isTrue => exact h
    split
    case isTrue => exact consume_failed h
    case isFalse => exact ih (consume_failed h)

theorem complete_failed (t : Tx) (max : Int) (out : List Desc)
    (h : t.failed=some info) : (t.complete max out).1.failed=some info := by
  have hloop : (completeLoop t (UInt32.ofInt max) t.cq.entries.toNat
    { ci := t.ci, errors := t.c.errors, failed := t.failed }).failed=some info :=
    completeLoop_failed t _ _ h
  simp only [Tx.complete,Tx.release,Tx.publish]
  split_ifs <;> first | exact h | exact hloop

def Ring.Tx.healed (t : Tx) : Tx := { t with failed := none }

theorem completeLoop_healed (t : Tx) (max : UInt32) (n : Nat) (st : CompleteState)
    (f : Option ErrorInfo) : ∃ g, completeLoop t.healed max n { st with failed := f } =
      { completeLoop t max n st with failed := g } := by
  induction n generalizing st f with
  | zero => exact ⟨f,rfl⟩
  | succ n ih =>
    have hnext : ∃ g, ({ st with failed := f } : CompleteState).consume t.healed =
        { st.consume t with failed := g } := ⟨_,rfl⟩
    obtain ⟨g,hg⟩ := hnext
    have hheader : t.healed.cq=t.cq := rfl
    have hledger : t.healed.toLedger=t.toLedger := rfl
    have hfixed : t.healed.toTxFixed=t.toTxFixed := rfl
    rw [completeLoop,completeLoop,hg]
    simp only [hheader,hledger,hfixed]
    split
    case isTrue => exact ⟨f,rfl⟩
    split
    case isTrue => exact ⟨f,rfl⟩
    split
    case isTrue =>
      exact ih { st with ci := st.ci+1, completed := st.completed+1, errors := st.errors+1 } f
    split
    case h_1 => exact ih { st.consume t with errors := (st.consume t).errors+1 } g
    rename_i target head _
    split
    case isTrue => exact ⟨f,rfl⟩
    split
    case isTrue => exact ⟨g,rfl⟩
    case isFalse =>
      exact ih { st.consume t with release := target, newHead := head, haveAny := true } g

theorem complete_healed (t : Tx) (max : Int) (out : List Desc) :
    (t.healed.complete max out).2=(t.complete max out).2 := by
  obtain ⟨g,hg⟩ := completeLoop_healed t (UInt32.ofInt max) t.cq.entries.toNat
    { ci := t.ci, errors := t.c.errors, failed := t.failed } none
  have hstart : completeLoop t.healed (UInt32.ofInt max) t.healed.cq.entries.toNat
    { ci := t.healed.ci, errors := t.healed.c.errors, failed := t.healed.failed }=_ := hg
  rw [Tx.complete,Tx.complete,hstart]
  split
  case isTrue => rfl
  simp only
  split
  case isTrue | isFalse => rfl

def TxQueue.healed (q : TxQueue) : TxQueue := { q with rings := q.rings.map Tx.healed }

theorem sweep_healed (max : Int) (rs : List Tx) (total : Nat) :
    (sweep max (rs.map Tx.healed) total).2=(sweep max rs total).2 := by
  induction rs generalizing total with
  | nil => rfl
  | cons r rs ih =>
    rw [List.map_cons,sweep,sweep]
    split
    case isTrue => rfl
    case isFalse => simp only [complete_healed,ih]

theorem reclaim_healed (q : TxQueue) (max : Int) (out : List Desc) :
    (q.reclaim max out).2=(q.healed.reclaim max out).2 := by
  rw [reclaim_eq,reclaim_eq]
  simp [TxQueue.healed,sweep_healed]

theorem queueComplete_healed (q : TxQueue) (max : Int) :
    (q.complete max).map Prod.snd=(q.healed.complete max).map Prod.snd := by
  have hpool : (q.reclaim max []).1.pool=(q.healed.reclaim max []).1.pool := by
    rfl
  rw [complete_eq_reclaim,complete_eq_reclaim,← reclaim_healed,TxQueue.free,TxQueue.free,hpool]
  cases pushBases (q.healed.reclaim max []).1.pool (q.reclaim max []).2 with
  | none | some _ => rfl

theorem sweep_latched (max : Int) (rs : List Tx) (total : Nat) :
    Latched (fun r => r.failed) rs (sweep max rs total).1 := by
  induction rs generalizing total with
  | nil => exact .nil
  | cons r rs ih =>
    rw [sweep]
    split
    case isTrue => exact .refl _
    case isFalse => exact .cons (fun info hinfo => complete_failed r _ _ hinfo) (ih _)

namespace TxQueue
variable {q q' : TxQueue}

theorem reclaim_latched (q : TxQueue) (max : Int) (out : List Desc) :
    Latched (fun r => r.failed) q.rings (q.reclaim max out).1.rings := by
  rw [reclaim_eq]
  exact sweep_latched max q.rings 0

theorem free_rings (h : q.free descs=some q') : q'.rings=q.rings := by
  rw [TxQueue.free] at h
  split at h
  case h_1 => cases h
  cases h
  rfl

theorem complete_latched {max : Int} (h : q.complete max=some (q',n)) :
    Latched (fun r => r.failed) q.rings q'.rings := by
  rw [complete_eq_reclaim] at h
  obtain ⟨q1,hfree,hq⟩ := map_eq_some_iff.mp h
  cases hq
  rw [free_rings hfree]
  exact q.reclaim_latched max []

theorem syncStalls_latched (q : TxQueue) : Latched (fun r => r.failed) q.rings q.syncStalls.rings :=
  Latched.map (f := fun r : Tx => r.failed) (g := Tx.publish) (fun _ _ he => he) q.rings

theorem alloc_latched {n : Int} (h : q.alloc n=some (q',descs)) :
    Latched (fun r => r.failed) q.rings q'.rings := by
  rw [TxQueue.alloc] at h
  split at h
  case isTrue =>
    cases h
    exact .refl _
  split at h
  case h_1 => cases h
  rename_i r hr
  split at h
  case h_1 =>
    cases h
    exact syncStalls_latched _
  split at h
  case h_1 =>
    cases h
    exact syncStalls_latched _
  split at h
  case h_1 => cases h
  cases h
  exact .refl _

theorem transmit_latched (h : q.transmit descs=some (q',n)) :
    Latched (fun r => r.failed) q.rings q'.rings := by
  rw [TxQueue.transmit] at h
  split at h
  case h_1 => cases h
  rename_i r hr
  split at h
  case h_1 => cases h
  rename_i r' m hpost
  cases h
  refine .set hr fun info hinfo => ?_
  rw [Tx.post,if_pos (by rw [hinfo]; rfl)] at hpost
  cases hpost
  exact hinfo

inductive Moves (k : Nat) (q : TxQueue) : TxQueue → Prop
  | call (c : TxCall) (e : Effect TxQueue) (h : c.run k q=some e) : Moves k q e.q
  | nic (j : Nat) (r : Tx) (buf : Nat → CQE) (h : q.rings[j]? = some r) :
    Moves k q { q with rings := q.rings.set j { r with cq.buf := buf } }

def Later (k : Nat) : TxQueue → TxQueue → Prop := Relation.ReflTransGen (Moves k)

theorem sendFunc_failed (h : q.failedInfo=some info) (count : Int)
    (build : Nat → Slice → Int) : q.sendFunc count build=some (q,.error (.queueFailed info)) := by
  rw [TxQueue.sendFunc,h]

theorem Moves.latched (hq : q.failedInfo≠none) (h : q.Moves k q') :
    Latched (fun r => r.failed) q.rings q'.rings := by
  cases h with
  | nic j r buf hr => exact .set hr fun info hinfo => hinfo
  | call c e he =>
    cases c with
    | alloc n =>
      obtain ⟨x,hx,rfl⟩ := map_eq_some_iff.mp he
      exact alloc_latched hx
    | transmit descs =>
      obtain ⟨x,hx,rfl⟩ := map_eq_some_iff.mp he
      exact transmit_latched hx
    | free descs =>
      obtain ⟨x,hx,rfl⟩ := map_eq_some_iff.mp he
      rw [free_rings hx]
      exact .refl _
    | complete max =>
      obtain ⟨x,hx,rfl⟩ := map_eq_some_iff.mp he
      exact complete_latched hx
    | reclaim max out =>
      cases he
      exact q.reclaim_latched max out
    | sendFunc count build =>
      obtain ⟨info,hinfo⟩ := ne_none_iff_exists'.mp hq
      obtain ⟨x,hx,rfl⟩ := map_eq_some_iff.mp he
      rw [sendFunc_failed hinfo] at hx
      cases hx
      exact .refl _

theorem Later.latched (hq : q.failedInfo≠none) (h : Later k q q') :
    Latched (fun r => r.failed) q.rings q'.rings := by
  induction h with
  | refl => exact .refl _
  | tail _ hmove ih => exact ih.trans (hmove.latched (ih.findSome hq))

section
variable {r : Tx} (hr : q.rings[q.next]? = some r)
include hr

theorem healed_ring (hf : r.failed=none) : q.healed.rings[q.healed.next]? = some r := by
  have hsame : r.healed=r := by rw [Tx.healed,← hf]
  have hmap : (q.rings.map Tx.healed)[q.next]? = some r.healed := by
    rw [List.getElem?_map,hr,map_some]
  exact hsame ▸ hmap

theorem alloc_eq (n : Int) : (q.alloc n).map Prod.snd =
    if r.failed.isSome then some [] else (q.healed.alloc n).map Prod.snd := by
  split
  case isTrue hf =>
    have hslots : r.freeSlots=0 := by rw [Tx.freeSlots,if_pos hf]
    rw [TxQueue.alloc,hr]
    split
    case isTrue => rfl
    rename_i hn
    have hclamp : clamp n r.freeSlots=none := by rw [hslots,clamp,if_pos (by omega),if_pos rfl]
    simp [hclamp]
  rename_i hf
  have hring := healed_ring hr (by simpa using hf)
  rw [TxQueue.alloc,TxQueue.alloc,hr,hring]
  split
  case isTrue => rfl
  simp only [TxQueue.healed]
  split
  case h_1 => rfl
  split
  case h_1 => rfl
  split
  case h_1 | h_2 => rfl

theorem transmit_eq (descs : List Desc) : (q.transmit descs).map Prod.snd =
    if r.failed.isSome then some 0 else (q.healed.transmit descs).map Prod.snd := by
  split
  case isTrue hf =>
    rw [TxQueue.transmit,hr]
    simp [Tx.post,if_pos hf]
  rename_i hf
  have hring := healed_ring hr (by simpa using hf)
  rw [TxQueue.transmit,TxQueue.transmit,hr,hring]
  simp only
  split
  case h_1 | h_2 => rfl

end

end TxQueue

def pairRings : TxQueue := { pairTx with rings := pairTx.rings++pairTx.rings }

def pairAlloced : TxQueue := ((pairRings.alloc 1).get (by decide)).1

def pairPosted : TxQueue := ((pairAlloced.transmit [⟨0,64,0⟩]).get (by decide)).1

theorem pairTxConfig_opens : (newTx pairTxConfig).toOption.isSome=true := by decide

def errorCQE : Nat → CQE := fun n i => if i=63 then if n=0 then 0xd0 else 0xf0 else 0

def pairErred : TxQueue := { pairPosted with
  rings := pairPosted.rings.set 0 { pairPosted.rings.headD (pairTxConfig.tx pairTxConfig_opens) with
    cq.buf := errorCQE } }

def pairFailed : TxQueue := ((pairErred.complete 1).get (by decide)).1

theorem pairFailed_later : TxQueue.Later 7 pairRings pairFailed := by
  have halloc : pairRings.Moves 7 pairAlloced :=
    .call (.alloc 1) { q := pairAlloced, gives := {0} } rfl
  have hpost : pairAlloced.Moves 7 pairPosted :=
    .call (.transmit [⟨0,64,0⟩]) { q := pairPosted, takes := {0} } rfl
  have herr : pairPosted.Moves 7 pairErred := .nic 0 _ errorCQE rfl
  have hcomplete : pairErred.Moves 7 pairFailed := .call (.complete 1) { q := pairFailed } rfl
  exact ((((Relation.ReflTransGen.single halloc).tail hpost).tail herr).tail hcomplete)

end Packetio.Mlx5

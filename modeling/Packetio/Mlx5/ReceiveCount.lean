import Packetio.Lib.Trace
import Packetio.Mlx5.Queue
import Packetio.Mlx5.Ring.RxRogue

/-! What the receive ring counts (rx.go): packets one by one, and a batch for each call that
consumed a completion, whatever came of it. -/
namespace Packetio.Mlx5
open Mlx5.Ring Pool UInt64

variable {max : Int} {st st' : ReceiveState} {descs : List Desc} {q q' : RxQueue}
  {x : Option (List Desc)}

namespace Ring

def Rx.ready (r : Rx) : Bool :=
  r.cq.owned r.cqci (r.cq.header r.cqci) && format (r.cq.header r.cqci) == cqeFormatNoData

/-- Among the completions from `cqci` on, where `ci` is the oldest buffer, there is a packet that
fits its buffer, before any completion that a call stops at. -/
def packetAhead (cq : CQ) (mask bufSize pi : UInt32) : Nat → UInt32 → UInt32 → Bool
  | 0, _, _ => false
  | n+1, cqci, ci =>
    let hdr := cq.header cqci
    cq.owned cqci hdr && format hdr == cqeFormatNoData &&
      -- these are skipped
      if (opcode hdr≠cqeRespSend ∧ opcode hdr≠cqeRespErr) ∨ pi=ci then
        packetAhead cq mask bufSize pi n (cqci+1) ci
      else (wqeCounter hdr).toUInt32 &&& mask == ci &&& mask &&
        (opcode hdr == cqeRespSend && decide (byteCount (cq.entry cqci)≤bufSize) ||
          packetAhead cq mask bufSize pi n (cqci+1) (ci+1))

def Rx.packetAhead (r : Rx) (n : Nat) : Bool :=
  Ring.packetAhead r.cq r.mask r.bufSize r.pi n r.cqci r.ci

structure ReceiveState.Adds (st : ReceiveState) (n g : Nat) (st' : ReceiveState) : Prop where
  batches : st'.rx.c.batches=st.rx.c.batches
  packets : st'.rx.c.packets=st.rx.c.packets
  read : st'.read=st.read+UInt64.ofNat n
  got : st'.got=st.got+g
  out : st'.out.length=st.out.length+g

theorem ReceiveState.Adds.refl (st : ReceiveState) : st.Adds 0 0 st :=
  ⟨rfl,rfl,(UInt64.add_zero _).symm,rfl,rfl⟩

theorem ReceiveState.Adds.trans {st1 st2 : ReceiveState} {n m g h : Nat} (ha : st.Adds n g st1)
    (hb : st1.Adds m h st2) : st.Adds (n+m) (g+h) st2 :=
  ⟨hb.batches.trans ha.batches,hb.packets.trans ha.packets,
    by rw [hb.read,ha.read,UInt64.ofNat_add,UInt64.add_assoc],
    by rw [hb.got,ha.got,add_assoc],by rw [hb.out,ha.out,add_assoc]⟩

def ReceiveState.Turned (st : ReceiveState) : ReceiveTurn → Prop
  | .stop st' => st.Adds st.rx.ready.toNat 0 st' ∧ ∀ n, st.rx.packetAhead (n+1)=false
  | .again st' => st.rx.ready=true ∧ ∃ g≤1, st.Adds 1 g st' ∧
      ∀ n, st.rx.packetAhead (n+1)=(decide (0<g) || st'.rx.packetAhead n)
  | .crash => True

theorem receiveTurn_turned (st : ReceiveState) : st.Turned (receiveTurn st) := by
  have hone (x : UInt64) : x+1=x+ofNat 1 := rfl
  have hahead (n : Nat) : st.rx.packetAhead (n+1)=(st.rx.ready && _) := rfl
  simp only [receiveTurn]
  split
  case isTrue hown =>
    have hown : st.rx.cq.owned st.rx.cqci (st.rx.cq.header st.rx.cqci)=false := by simpa using hown
    have hready : st.rx.ready=false := by rw [Rx.ready,hown,Bool.false_and]
    refine ⟨?_,fun n => by rw [hahead,hready,Bool.false_and]⟩
    rw [hready]
    exact .refl st
  rename_i hown
  have hown : st.rx.cq.owned st.rx.cqci (st.rx.cq.header st.rx.cqci)=true := by simpa using hown
  split
  case isTrue hfmt =>
    have hready : st.rx.ready=false := by
      rw [Rx.ready,hown,beq_eq_false_iff_ne.mpr hfmt,Bool.and_false]
    refine ⟨?_,fun n => by rw [hahead,hready,Bool.false_and]⟩
    rw [hready]
    exact ⟨rfl,rfl,(UInt64.add_zero _).symm,rfl,rfl⟩
  rename_i hfmt
  have hready : st.rx.ready=true := by
    rw [Rx.ready,hown,beq_iff_eq.mpr (not_not.mp hfmt),Bool.true_and]
  simp only [hready,Bool.true_and] at hahead
  split
  case isTrue hop =>
    refine ⟨hready,0,by simp,⟨rfl,rfl,hone _,rfl,rfl⟩,fun n => ?_⟩
    rw [hahead,if_pos (.inl hop)]
    rfl
  rename_i hop
  split
  case isTrue hnone =>
    refine ⟨hready,0,by simp,⟨rfl,rfl,hone _,rfl,rfl⟩,fun n => ?_⟩
    rw [hahead,if_pos (.inr hnone)]
    rfl
  rename_i hsome
  simp only [if_neg (not_or.mpr ⟨hop,hsome⟩)] at hahead
  split
  case isTrue hcount =>
    refine ⟨?_,fun n => ?_⟩
    · rw [hready]
      exact ⟨rfl,rfl,hone _,rfl,rfl⟩
    · rw [hahead,beq_eq_false_iff_ne.mpr hcount,Bool.false_and]
  rename_i hcount
  simp only [beq_iff_eq.mpr (not_not.mp hcount),Bool.true_and] at hahead
  split
  case isTrue => trivial
  refine ⟨hready,?_⟩
  have hprev : st.rx.cqci+1-1=st.rx.cqci := UInt32.add_sub_cancel _ _
  simp only [hprev,ReceiveState.settle]
  split
  case isTrue herr =>
    refine ⟨0,by simp,⟨rfl,rfl,hone _,rfl,rfl⟩,fun n => ?_⟩
    have hsend : (opcode (st.rx.cq.header st.rx.cqci) == cqeRespSend)=false := by
      rw [CQ.header,herr]
      rfl
    rw [hahead,hsend]
    rfl
  rename_i herr
  split
  case isTrue hlong =>
    refine ⟨0,by simp,⟨rfl,rfl,hone _,rfl,rfl⟩,fun n => ?_⟩
    rw [hahead,decide_eq_false (UInt32.not_le.mpr hlong),Bool.and_false]
    rfl
  rename_i hfits
  refine ⟨1,le_refl 1,⟨rfl,rfl,hone _,rfl,by simp⟩,fun n => ?_⟩
  have hsend : opcode (st.rx.cq.header st.rx.cqci)=cqeRespSend :=
    not_not.mp fun hne => hop ⟨hne,herr⟩
  rw [hahead,beq_iff_eq.mpr hsend,decide_eq_true (UInt32.not_lt.mp hfits)]
  rfl

theorem receiveLoop_adds {turns : Nat}
    (h : receiveLoop max turns st = .ok st') (hmax : (st.got : Int) < max) :
    ∃ n g, st.Adds n g st' ∧ g≤n ∧ n≤turns ∧ (0<n ↔ st.rx.ready=true) ∧
      (0<g ↔ st.rx.packetAhead turns=true) := by
  induction turns generalizing st with
  | zero => cases h
  | succ turns ih =>
    rw [receiveLoop,if_neg (not_not.mpr hmax)] at h
    have hturned := receiveTurn_turned st
    cases hturn : receiveTurn st with
    | stop st1 =>
      rw [hturn] at h hturned
      cases h
      refine ⟨_,0,hturned.1,Nat.zero_le _,?_,?_,by simp [hturned.2]⟩
      · cases st.rx.ready with
        | false => exact Nat.zero_le _
        | true => exact Nat.succ_le_succ (Nat.zero_le _)
      · cases st.rx.ready with
        | false | true => simp
    | crash =>
      rw [hturn] at h
      cases h
    | again st1 =>
      rw [hturn] at h hturned
      replace h : receiveLoop max turns st1 = .ok st' := h
      obtain ⟨hready,g1,hg1,hadds1,hahead⟩ := hturned
      have hready' : ∀ n, (0<1+n ↔ st.rx.ready=true) := fun n => iff_of_true (by omega) hready
      have hgot := hadds1.got
      by_cases hmore : (st1.got : Int) < max
      · obtain ⟨n,g,hadds,hg,hn,-,hpacket⟩ := ih h hmore
        refine ⟨1+n,g1+g,hadds1.trans hadds,by omega,by omega,hready' n,?_⟩
        rw [hahead,Bool.or_eq_true,decide_eq_true_eq,← hpacket]
        omega
      have hend : st'=st1 := by
        cases turns with
        | zero => cases h
        | succ turns =>
          rw [receiveLoop,if_pos hmore] at h
          cases h
          rfl
      subst hend
      refine ⟨1,g1,hadds1,hg1,by omega,hready' 0,?_⟩
      rw [hahead,Bool.or_eq_true,decide_eq_true_eq]
      exact iff_of_true (by omega) (.inl (by omega))

end Ring

def Ring.Rx.begin (r : Rx) (ts : Option (List UInt64)) : ReceiveState :=
  { rx := { r with failed := [] }, out := [], ts }

def RxQueue.Fruitful (q : RxQueue) (max : Int) : Prop :=
  0 < max → q.ring.dead=none → q.ring.ready=true →
    q.ring.packetAhead (q.ring.cq.entries.toNat+1)=true

theorem finish_counts {n g : Nat} (h : st.Adds n g st') (hread : st.read=0)
    (hgot : st.got=0) (hle : g≤n) (hn : n<2^64) :
    st'.finish.c.packets=st.rx.c.packets+UInt64.ofNat g ∧
      st'.finish.c.batches=st.rx.c.batches+UInt64.ofNat (if 0<n then 1 else 0) := by
  have hzero : st'.read=0 ↔ n=0 := by
    rw [h.read,hread,UInt64.zero_add,← UInt64.toNat_inj,UInt64.toNat_ofNat_of_lt' hn]
    rfl
  rw [ReceiveState.finish]
  split
  case isTrue hz =>
    have hn : n=0 := hzero.mp hz
    have hg : g=0 := by omega
    subst hn hg
    split
    case isTrue | isFalse =>
      exact ⟨h.packets.trans (UInt64.add_zero _).symm,h.batches.trans (UInt64.add_zero _).symm⟩
  rename_i hz
  have hpos : 0<n := pos_of_ne_zero (mt hzero.mpr hz)
  rw [if_pos hpos]
  have hg : st'.got=g := by rw [h.got,hgot,zero_add]
  refine ⟨?_,?_⟩
  · change st'.rx.c.packets+ofNat st'.got=_
    rw [h.packets,hg]
  · change st'.rx.c.batches+1=_
    rw [h.batches]
    rfl

theorem take_counts {ts ts' : Option (List UInt64)} (h : q.take max ts=some (q',descs,ts')) :
    q'.ring.c.packets=q.ring.c.packets+UInt64.ofNat descs.length ∧
      (q'.ring.c.batches=q.ring.c.batches+UInt64.ofNat (!descs.isEmpty).toNat ↔
      q.Fruitful max) := by
  rw [RxQueue.take] at h
  cases hr : q.ring.receive (q.ring.cq.entries.toNat+1) max [] ts with
  | crash | hang =>
    rw [hr] at h
    cases h
  | ok x =>
    obtain ⟨r,out,ts1⟩ := x
    rw [hr] at h
    rcases hp : pushBases q.pool r.failed with _ | p
    · simp [hp] at h
    simp only [hp,Option.some_inj,Prod.mk.injEq] at h
    obtain ⟨rfl,rfl,rfl⟩ := h
    rw [Rx.receive] at hr
    split at hr
    case isTrue hoff =>
      cases hr
      refine ⟨(UInt64.add_zero _).symm,iff_of_true (UInt64.add_zero _).symm fun hmax hdead => ?_⟩
      simp [hdead] at hoff
      omega
    rename_i hon
    obtain ⟨st,hloop,rfl,rfl⟩ : ∃ st, receiveLoop max (q.ring.cq.entries.toNat+1)
        (q.ring.begin ts) = .ok st ∧ st.finish=r ∧ st.out=out := by
      rw [Rx.begin]
      split at hr
      case h_1 st hl =>
        cases hr
        exact ⟨st,hl,rfl,rfl⟩
      case h_2 | h_3 => cases hr
    have hmax : 0 < max := by omega
    have hdead : q.ring.dead=none := by simpa using fun h => hon (.inr h)
    obtain ⟨n,g,hadds,hle,hn,hready,hpacket⟩ := receiveLoop_adds hloop hmax
    have hent := q.ring.cq.entries.toNat_lt
    obtain ⟨hpackets,hbatches⟩ := finish_counts hadds rfl rfl hle (by omega)
    have hlen : st.out.length=g := hadds.out.trans (zero_add g)
    refine ⟨by rw [hlen]; exact hpackets,?_⟩
    have hgave : (!st.out.isEmpty).toNat=if 0<g then 1 else 0 := by
      cases hout : st.out with
      | nil | cons _ _ => simp [← hlen,hout]
    have hfruit : q.Fruitful max ↔ (0<n → 0<g) := by
      rw [hready,hpacket]
      exact ⟨fun h => h hmax hdead,fun h _ _ => h⟩
    change st.finish.c.batches=_ ↔ _
    rw [hbatches,hgave,hfruit]
    change q.ring.c.batches+_=_ ↔ _
    rw [UInt64.add_right_inj]
    split
    case isTrue hpos =>
      split
      case isTrue hg => exact iff_of_true rfl fun _ => hg
      case isFalse hg => exact iff_of_false (by decide) fun h => hg (h hpos)
    case isFalse hz =>
      rw [if_neg (by omega)]
      exact iff_of_true rfl fun h => absurd h hz

theorem fill_counts (r : Rx) (descs : List Desc) :
    (r.fill descs).1.c.batches=r.c.batches ∧ (r.fill descs).1.c.packets=r.c.packets := by
  have hone : ∀ (ds : List Desc) (r : Rx), (ds.foldl Rx.fillOne r).c=r.c := by
    intro ds
    induction ds with
    | nil => exact fun _ => rfl
    | cons d ds ih => exact fun r => ih (r.fillOne d)
  have htick (r : Rx) : r.tick.c.batches=r.c.batches ∧ r.tick.c.packets=r.c.packets := by
    simp only [Rx.tick,Rx.sync]
    split
    · exact ⟨rfl,rfl⟩
    · exact ⟨rfl,rfl⟩
  simp only [Rx.fill]
  split
  case isTrue => exact ⟨rfl,rfl⟩
  have hc := hone (descs.take (min descs.length r.freeSlots)) r
  have hbatches := congrArg RxCounters.batches hc
  have hpackets := congrArg RxCounters.packets hc
  exact ⟨(htick _).1.trans hbatches,(htick _).2.trans hpackets⟩

theorem newRxQueue_counts {checked : Bool} {first frames size : Nat} {cfg : RxConfig}
    {clock : Clock.Info} (h : newRxQueue checked first frames size cfg clock = .ok q) :
    q.ring.c = {} := by
  rw [newRxQueue] at h
  split at h
  case h_1 => cases h
  rename_i r hr
  cases h
  obtain ⟨-,-,-,-,-,-,_,_,_,hr⟩ := newRx_ok hr
  rw [hr]

inductive RxQueue.Step (P : RxQueue → Int → Prop) :
    RxQueue → RxQueue → Option (List Desc) → Prop
  | receive {q q' : RxQueue} {max : Int} {descs : List Desc} (hp : P q max)
      (h : q.receive max=some (q',descs)) : Step P q q' (some descs)
  | receiveTimestamps {q q' : RxQueue} {max : Int} {descs : List Desc} {ns : List UInt64}
      (hp : q.clock≠none → P q max)
      (h : q.receiveTimestamps max=some (q',descs,ns)) : Step P q q' (some descs)
  | fill {q q' : RxQueue} {n : Int} {posted : Nat} (h : q.fill n=some (q',posted)) :
    Step P q q' none
  | recycle {q q' : RxQueue} {descs : List Desc} (h : q.recycle descs=some q') : Step P q q' none
  | device (q : RxQueue) (buf : Nat → CQE) : Step P q { q with ring := q.ring.over buf } none

theorem receive_counts (h : q.receive max=some (q',descs)) :
    q'.ring.c.packets=q.ring.c.packets+UInt64.ofNat descs.length ∧
      (q'.ring.c.batches=q.ring.c.batches+UInt64.ofNat (!descs.isEmpty).toNat ↔
        q.Fruitful max) := by
  rw [RxQueue.receive] at h
  split at h
  case h_1 => cases h
  rename_i htake
  cases h
  exact take_counts htake

theorem receiveTimestamps_counts {ns : List UInt64}
    (h : q.receiveTimestamps max=some (q',descs,ns)) :
    q'.ring.c.packets=q.ring.c.packets+UInt64.ofNat descs.length ∧
      (q'.ring.c.batches=q.ring.c.batches+UInt64.ofNat (!descs.isEmpty).toNat ↔
        (q.clock≠none → q.Fruitful max)) := by
  rw [RxQueue.receiveTimestamps] at h
  split at h
  case h_1 hclock =>
    cases h
    exact ⟨(UInt64.add_zero _).symm,
      iff_of_true (UInt64.add_zero _).symm fun hsome => absurd hclock hsome⟩
  rename_i clock hclock
  have hsome : q.clock≠none := by
    rw [hclock]
    exact Option.some_ne_none clock
  split at h
  case h_1 => cases h
  rename_i htake
  cases h
  obtain ⟨hpackets,hbatches⟩ := take_counts htake
  exact ⟨hpackets,hbatches.trans ⟨fun h _ => h,fun h => h hsome⟩⟩

theorem RxQueue.Step.quiet {P : RxQueue → Int → Prop} {q q' : RxQueue}
    (h : RxQueue.Step P q q' none) :
    q'.ring.c.packets=q.ring.c.packets ∧ q'.ring.c.batches=q.ring.c.batches := by
  cases h with
  | fill h =>
    rw [RxQueue.fill] at h
    split at h
    case isTrue =>
      cases h
      exact ⟨rfl,rfl⟩
    split at h
    case h_1 =>
      cases h
      exact ⟨rfl,rfl⟩
    split at h
    case isTrue =>
      cases h
      exact ⟨rfl,rfl⟩
    split at h
    case h_1 => cases h
    dsimp only at h
    split at h
    case h_1 => cases h
    cases h
    exact ⟨(fill_counts q.ring _).2,(fill_counts q.ring _).1⟩
  | recycle h =>
    rw [RxQueue.recycle] at h
    split at h
    case h_1 => cases h
    cases h
    exact ⟨rfl,rfl⟩
  | device buf => exact ⟨rfl,rfl⟩

theorem RxQueue.Step.packets {P : RxQueue → Int → Prop} (h : RxQueue.Step P q q' x) :
    q'.ring.c.packets=q.ring.c.packets+UInt64.ofNat (x.toList.map List.length).sum := by
  rcases x with _ | descs
  · exact h.quiet.1.trans (UInt64.add_zero _).symm
  simp only [Option.toList_some,List.map_cons,List.map_nil,List.sum_singleton]
  cases h with
  | receive _ h => exact (receive_counts h).1
  | receiveTimestamps _ h => exact (receiveTimestamps_counts h).1

theorem RxQueue.Step.batches (h : RxQueue.Step RxQueue.Fruitful q q' x) : q'.ring.c.batches =
      q.ring.c.batches+UInt64.ofNat (x.toList.map fun descs => (!descs.isEmpty).toNat).sum := by
  rcases x with _ | descs
  · exact h.quiet.2.trans (UInt64.add_zero _).symm
  simp only [Option.toList_some,List.map_cons,List.map_nil,List.sum_singleton]
  cases h with
  | receive hp h => exact (receive_counts h).2.mpr hp
  | receiveTimestamps hp h => exact (receiveTimestamps_counts h).2.mpr hp

end Packetio.Mlx5

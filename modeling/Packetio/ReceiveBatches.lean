import Packetio.Afpacket.RxProgress
import Packetio.Dpdk.RxQueueRuns
import Packetio.Mlx5.QueueFrames
import Packetio.Mlx5.ReceiveCount

/-! What the receive queues of three backends count as packets and as batches (stats.go), over
whole runs. -/
namespace Packetio
open Lib Option UInt64

namespace Dpdk.Rx
variable {q q' : Rx} {b : Region} {acc acc' : Delivery}

inductive Step : Rx → Rx → Option (List Desc) → Prop
  | receive {q q' : Rx} {b : Region} {max got : Int} {out : List UInt64} {descs : List Desc}
      (h : q.receive b max got out=some (q',descs)) : Step q q' (some descs)
  | fill {q q' : Rx} {b b' : Region} {n posted : Int} (h : q.fill b n=some (q',b',posted)) :
      Step q q' none
  | recycle {q q' : Rx} {descs : List Desc} (h : q.recycle descs=some q') : Step q q' none
  | drainReturned {q q' : Rx} {n : Nat} (h : q.drainReturned=some (q',n)) : Step q q' none
  | driver (q : Rx) (supply returned : Ring) : Step q { q with supply, returned } none

def SameCounts (q q' : Rx) : Prop :=
  q'.stats.packets=q.stats.packets ∧ q'.stats.batches=q.stats.batches

theorem deliver_counts {va : UInt64} (h : q.deliver b acc va=some (q',acc')) : q.SameCounts q' := by
  cases deliver_turn h with
  | foreign | passed => exact ⟨rfl,rfl⟩
  | refused _ _ _ hq hst =>
    obtain ⟨p,-,rfl⟩ := refuse_some hq
    exact hst

theorem delivers_counts {vas : List UInt64}
    (h : vas.foldlM (fun x va => x.1.deliver b x.2 va) (q,acc)=some (q',acc')) :
    q.SameCounts q' := by
  induction vas generalizing q acc with
  | nil =>
    cases h
    exact ⟨rfl,rfl⟩
  | cons va vas ih =>
    obtain ⟨⟨q1,acc1⟩,h1,h⟩ := bind_eq_some_iff.mp h
    obtain ⟨hp1,hb1⟩ := deliver_counts h1
    obtain ⟨hp,hb⟩ := ih h
    exact ⟨hp.trans hp1,hb.trans hb1⟩

theorem receive_counts {max got : Int} {out : List UInt64} {descs : List Desc}
    (h : q.receive b max got out=some (q',descs)) :
    q'.stats.packets=q.stats.packets+UInt64.ofNat descs.length ∧
      q'.stats.batches=q.stats.batches+UInt64.ofNat (!descs.isEmpty).toNat := by
  have hnone (c : UInt64) : c=c+UInt64.ofNat 0 := (UInt64.add_zero c).symm
  rcases receive_some h with h | ⟨q1,acc,-,-,hloop,rfl,rfl⟩
  · obtain ⟨-,rfl,rfl⟩ := h
    exact ⟨hnone _,hnone _⟩
  obtain ⟨hp,hb⟩ := delivers_counts hloop
  rw [← hp,← hb]
  cases hd : acc.descs with
  | nil => exact ⟨hnone _,hnone _⟩
  | cons d ds => exact ⟨rfl,rfl⟩

theorem Step.quiet (h : Step q q' none) : q.SameCounts q' := by
  cases h with
  | fill h =>
    cases fill_some h with
    | inl h =>
      obtain ⟨st,rfl,hp,hb⟩ := h
      exact ⟨hp,hb⟩
    | inr h =>
      obtain ⟨_,_,_,_,_,_,_,_,-,-,rfl⟩ := h
      exact ⟨rfl,rfl⟩
  | recycle h =>
    obtain ⟨p,-,rfl⟩ := recycle_some h
    exact ⟨rfl,rfl⟩
  | drainReturned h =>
    cases drainReturned_some h with
    | inl h =>
      subst h
      exact ⟨rfl,rfl⟩
    | inr h =>
      obtain ⟨_,_,_,_,_,_,-,rfl⟩ := h
      exact ⟨rfl,rfl⟩
  | driver supply returned => exact ⟨rfl,rfl⟩

theorem Step.counts {x : Option (List Desc)} (h : Step q q' x) :
    q'.stats.packets=q.stats.packets+UInt64.ofNat (x.toList.map List.length).sum ∧
      q'.stats.batches =
        q.stats.batches+UInt64.ofNat (x.toList.map fun descs => (!descs.isEmpty).toNat).sum := by
  cases x with
  | none =>
    obtain ⟨hp,hb⟩ := h.quiet
    exact ⟨hp.trans (UInt64.add_zero _).symm,hb.trans (UInt64.add_zero _).symm⟩
  | some descs =>
    cases h with
    | receive h => exact receive_counts h

theorem newRx_counts {checked : Bool} {c : Config} (h : newRx checked b c = .ok q) :
    q.stats = {} := by
  rw [newRx] at h
  split at h
  case h_1 => cases h
  split at h
  case h_1 => cases h
  cases h
  rfl

end Dpdk.Rx

/-! The stash of Poll and NumReceived -/

namespace Dpdk

def Rx.brings (q : Rx) (a : Answer) : Bool :=
  !((q.burst pollBatch a.got a.out).filterMap (q.delivered a.region)).isEmpty

inductive Stashing where
  | put
  | drawn
  deriving DecidableEq

section
variable (spare : Nat → Nat → Nat)

/-- A packet comes of these answers of the driver, asked for in turn. -/
def RxQueue.finds (x : RxQueue) : List Answer → Bool
  | [] => false
  | a::more => x.q.brings a || match x.pollOnce spare a with
    | none => false
    | some (x,_) => x.finds more

/-- What a call will do to the stash. -/
def Served.stashing (s : Served) : RxEvent → Option Stashing
  | .poll a more =>
    if s.x.closed=false ∧ s.x.stash.len=0 ∧ s.x.finds spare (a::more)=true then some .put else none
  | .numReceived a => if s.x.closed=false ∧ s.x.q.brings a=true then some .put else none
  | .receive max _ =>
    if s.x.closed=false ∧ 0 < max ∧ 0<s.x.stash.len then some .drawn else none
  | _ => none

def Served.Step (s s' : Served) (x : Option Stashing) : Prop :=
  ∃ ev, s.Allows ev ∧ s.step spare ev=some s' ∧ x=s.stashing spare ev

end

namespace RxQueue
variable {k total n : Nat} {spare : Nat → Nat → Nat} {x x' x'' : RxQueue} {a : Answer} {max : Int}
  {v : View} {res : Except String Nat}

structure Counts (x x' : RxQueue) (n : Nat) : Prop where
  packets : ∃ ds, x'.bursts=x.bursts++ds ∧
    x'.q.stats.packets=x.q.stats.packets+UInt64.ofNat ds.length
  batches : x'.q.stats.batches=x.q.stats.batches+UInt64.ofNat n

theorem Counts.same (hbursts : x'.bursts=x.bursts) (h : x.q.SameCounts x'.q) : x.Counts x' 0 :=
  ⟨⟨[],hbursts.trans (List.append_nil _).symm,h.1.trans (UInt64.add_zero _).symm⟩,
    h.2.trans (UInt64.add_zero _).symm⟩

theorem Counts.trans {m : Nat} (h : x.Counts x' n) (h' : x'.Counts x'' m) : x.Counts x'' (n+m) := by
  obtain ⟨ds,hbursts,hp⟩ := h.packets
  obtain ⟨ds',hbursts',hp'⟩ := h'.packets
  refine ⟨⟨ds++ds',by rw [hbursts',hbursts,List.append_assoc],?_⟩,?_⟩
  · rw [hp',hp,List.length_append,ofNat_add,UInt64.add_assoc]
  · rw [h'.batches,h.batches,ofNat_add,UInt64.add_assoc]

theorem Counts.refl (x : RxQueue) : x.Counts x 0 := .same rfl ⟨rfl,rfl⟩

theorem read_some (m : Arrays Desc) (v : View) : (!(m.read v).isEmpty)=decide (0<v.len) := by
  rw [← Arrays.read_length m v]
  cases m.read v with
  | nil => rfl
  | cons d ds => simp

section
variable (h : x.Sound k total)
include h

theorem Sound.take_counts (ht : x.take spare max a=some (x',v)) :
    x.Counts x' (decide (0<v.len)).toNat := by
  obtain ⟨htakes,-,hq⟩ := h.take ht
  obtain ⟨hp,hb⟩ := Rx.receive_counts hq
  rw [read_some] at hb
  exact ⟨⟨_,htakes.bursts,hp⟩,hb⟩

theorem Sound.take_brings (ht : x.take spare pollBatch a=some (x',v)) :
    x.q.brings a=decide (0<v.len) := by
  obtain ⟨-,-,hq⟩ := h.take ht
  rw [← read_some x'.mem v,(Rx.receive_descs hq).2,Rx.brings,List.isEmpty_map]

theorem Sound.pollOnce_counts (hopen : x.closed=false) {closed : Bool}
    (hp : x.pollOnce spare a=some (x',n,closed)) :
    x.Counts x' (x.q.brings a).toNat ∧ x'.closed=false ∧ closed=false ∧ n=x'.stash.len ∧
      (0<n ↔ x.q.brings a=true ∨ 0<x.stash.len) := by
  rw [RxQueue.pollOnce,hopen,if_neg Bool.false_ne_true] at hp
  rcases ht : x.take spare pollBatch a with _ | ⟨x1,got⟩
  · simp [ht] at hp
  obtain ⟨htakes,-,-⟩ := h.take ht
  obtain ⟨hpackets,hbatches⟩ := h.take_counts ht
  have hbrings := h.take_brings ht
  rw [← hbrings] at hbatches
  simp only [ht] at hp
  split at hp
  case isTrue hgot =>
    have hread := (Arrays.append_spec spare htakes.sound.stash (x1.mem.read got)).read
    have hlen := congrArg List.length hread
    rw [List.length_append,Arrays.read_length,Arrays.read_length,Arrays.read_length] at hlen
    cases hp
    refine ⟨⟨hpackets,hbatches⟩,htakes.closed.trans hopen,rfl,rfl,?_⟩
    rw [hbrings,decide_eq_true hgot,hlen]
    exact iff_of_true (Nat.add_pos_right _ hgot) (.inl rfl)
  case isFalse hgot =>
    cases hp
    refine ⟨⟨hpackets,hbatches⟩,htakes.closed.trans hopen,rfl,rfl,?_⟩
    rw [hbrings,decide_eq_false hgot,htakes.stash]
    simp

/-- A look stops at the first answer that brings packets. -/
theorem Sound.look_counts (hopen : x.closed=false) (hempty : x.stash.len=0) {as : List Answer}
    (hl : x.look spare as=some (x',res)) : x.Counts x' (x.finds spare as).toNat := by
  induction as generalizing x with
  | nil =>
    cases hl
    exact .refl _
  | cons a as ih =>
    rw [RxQueue.look] at hl
    rw [RxQueue.finds]
    rcases hp : x.pollOnce spare a with _ | ⟨x1,n,closed⟩
    · simp [hp] at hl
    obtain ⟨hcounts,hopen1,rfl,rfl,hpos⟩ := h.pollOnce_counts hopen hp
    simp only [hp] at hl ⊢
    cases hb : x.q.brings a with
    | true =>
      rw [if_pos (hpos.mpr (.inl hb))] at hl
      cases hl
      rwa [hb] at hcounts
    | false =>
      have hempty1 : x1.stash.len=0 := by
        rw [hb,hempty] at hpos
        simpa using hpos
      rw [if_neg (by omega)] at hl
      have hboth := hcounts.trans (ih (h.pollOnce hp).sound hopen1 hempty1 hl)
      rwa [hb,Bool.toNat_false,Nat.zero_add] at hboth

theorem Sound.poll_counts {more : List Answer}
    (hp : x.poll spare a more=some (x',res)) : x.Counts x'
      (decide (x.closed=false ∧ x.stash.len=0 ∧ x.finds spare (a::more)=true)).toNat := by
  rw [RxQueue.poll] at hp
  split at hp
  case isTrue hclosed =>
    cases hp
    rw [hclosed]
    exact .refl _
  rename_i hopen
  have hopen : x.closed=false := by simpa using hopen
  split at hp
  case isTrue hsome =>
    cases hp
    rw [decide_eq_false (by omega)]
    exact .refl _
  case isFalse hempty =>
    have hempty : x.stash.len=0 := by omega
    simpa [hopen,hempty] using h.look_counts hopen hempty hp

theorem Sound.numReceived_counts (hp : x.numReceived spare a=some (x',n)) :
    x.Counts x' (decide (x.closed=false ∧ x.q.brings a=true)).toNat := by
  rw [RxQueue.numReceived] at hp
  split at hp
  case isTrue hclosed =>
    cases hp
    rw [hclosed]
    exact .refl _
  rename_i hopen
  have hopen : x.closed=false := by simpa using hopen
  cases hy : x.pollOnce spare a with
  | none => simp [hy] at hp
  | some y =>
    simp only [hy] at hp
    cases hp
    simpa [hopen] using (h.pollOnce_counts hopen hy).1

/-- A call that draws on the stash returns packets that are counted already. -/
theorem Sound.receive_counts (hr : x.receive spare max a=some (x',v)) :
    ∃ n, x.Counts x' n ∧ n+(decide (x.closed=false ∧ 0 < max ∧ 0<x.stash.len)).toNat =
      (decide (0<v.len)).toNat := by
  rw [RxQueue.receive] at hr
  split at hr
  case isTrue hno =>
    cases hr
    refine ⟨0,.refl _,?_⟩
    rw [decide_eq_false (by grind)]
    rfl
  rename_i hyes
  have hyes : x.closed=false ∧ 0 < max := by grind
  split at hr
  case isTrue hsome =>
    rw [decide_eq_true ⟨hyes.1,hyes.2,hsome⟩]
    refine ⟨0,?_⟩
    split at hr
    case isTrue =>
      cases hr
      exact ⟨.same rfl ⟨rfl,rfl⟩,by rw [decide_eq_true hsome,Nat.zero_add]⟩
    cases hr
    have hpos : 0<(x.stash.upTo max.toNat).len := Int.pos_iff_toNat_pos.mp hyes.2
    exact ⟨.same rfl ⟨rfl,rfl⟩,by rw [decide_eq_true hpos,Nat.zero_add]⟩
  case isFalse hempty =>
    rw [decide_eq_false (by omega)]
    exact ⟨_,h.take_counts hr,rfl⟩

end

end RxQueue

namespace Served
variable {k total : Nat} {spare : Nat → Nat → Nat} {s s' : Served} {ev : RxEvent}

/-- The calls of Receive that returned a descriptor. -/
def gave (s : Served) : Nat := s.given.countP fun v => decide (0<v.len)

theorem count_ite (p : Prop) [Decidable p] (a b : Stashing) :
    (if p then some a else none).toList.count b=(decide (p ∧ a=b)).toNat := by
  by_cases hp : p
  · by_cases hab : a=b
    · simp [hp,hab]
    · simp [hp,hab]
  · simp [hp]

/-- A batch is counted when its packets come from the driver, a call when it returns any. -/
theorem step_counts (h : s.x.Sound k total) (hs : s.step spare ev=some s') :
    ∃ n, s.x.Counts s'.x n ∧ n+(s.stashing spare ev).toList.count .drawn+s.gave =
      s'.gave+(s.stashing spare ev).toList.count .put := by
  cases ev with
  | poll a more =>
    obtain ⟨⟨x,res⟩,hp,rfl⟩ := map_eq_some_iff.mp hs
    refine ⟨_,h.poll_counts hp,?_⟩
    simp only [stashing,count_ite,gave]
    simp [Nat.add_comm]
  | numReceived a =>
    obtain ⟨⟨x,n⟩,hp,rfl⟩ := map_eq_some_iff.mp hs
    refine ⟨_,h.numReceived_counts hp,?_⟩
    simp only [stashing,count_ite,gave]
    simp [Nat.add_comm]
  | receive max a =>
    obtain ⟨⟨x,v⟩,hr,rfl⟩ := map_eq_some_iff.mp hs
    obtain ⟨n,hcounts,hn⟩ := h.receive_counts hr
    refine ⟨n,hcounts,?_⟩
    have hgave : gave ⟨x,v::s.given,s.returned++x.mem.read v⟩=s.gave+(decide (0<v.len)).toNat := by
      rw [gave,gave,List.countP_cons]
      by_cases hv : 0<v.len
      · simp [hv]
      · simp [hv]
    rw [hgave,← hn]
    simp [stashing,count_ite,Nat.add_comm]
  | fill r n =>
    obtain ⟨⟨x,r',m⟩,hf,rfl⟩ := map_eq_some_iff.mp hs
    refine ⟨0,?_,Nat.zero_add _⟩
    rcases RxQueue.fill_some hf with hf | ⟨q1,n1,q2,hd,hq,rfl⟩
    · subst hf
      exact .refl _
    have hdrain := (Rx.Step.drainReturned hd).quiet
    have hfill := (Rx.Step.fill hq).quiet
    exact .same rfl ⟨hfill.1.trans hdrain.1,hfill.2.trans hdrain.2⟩
  | recycle descs =>
    obtain ⟨x,hr,rfl⟩ := map_eq_some_iff.mp hs
    obtain ⟨q,hq,rfl⟩ := RxQueue.recycle_some hr
    exact ⟨0,.same rfl (Rx.Step.recycle hq).quiet,Nat.zero_add _⟩
  | write v i d =>
    cases hs
    exact ⟨0,.same rfl ⟨rfl,rfl⟩,Nat.zero_add _⟩
  | close =>
    cases hs
    exact ⟨0,.same rfl ⟨rfl,rfl⟩,Nat.zero_add _⟩

theorem trace_counts {q : Rx} {log : List Stashing} (hq : q.stats = {}) (hready : q.Ready k total)
    (h : Trace (Step spare) ⟨newRxQueue q,[],[]⟩ s log) : s.Kept k total ∧
      s.x.q.stats.packets=UInt64.ofNat s.x.bursts.length ∧ ∃ n,
        s.x.q.stats.batches=UInt64.ofNat n ∧ n+log.count .drawn=s.gave+log.count .put := by
  induction h with
  | start =>
    exact ⟨newRxQueue_kept hready,congrArg RxStats.packets hq,0,congrArg RxStats.batches hq,rfl⟩
  | step _ hs ih =>
    obtain ⟨ev,ha,hs,rfl⟩ := hs
    obtain ⟨hkept,hp,n,hb,hn⟩ := ih
    obtain ⟨m,⟨⟨ds,hbursts,hp'⟩,hb'⟩,hm⟩ := step_counts hkept.sound hs
    refine ⟨hkept.step ha hs,?_,n+m,?_,?_⟩
    · rw [hp',hp,hbursts,List.length_append,ofNat_add]
    · rw [hb',hb,ofNat_add]
    · rw [List.count_append,List.count_append]
      omega

end Served
end Dpdk

namespace Afpacket.RxQueue
variable {q q' : RxQueue} {max : Int} {wantTimestamps : Bool} {descs : List Desc}
  {offs : List Offload} {s : Reading (Option Taking)}

inductive Step : RxQueue → RxQueue → Option (List Desc) → Prop
  | receive {q q' : RxQueue} {max : Int} {wantTimestamps : Bool} {descs : List Desc}
      {offs : List Offload} (h : q.receive max wantTimestamps=some (q',descs,offs)) :
      Step q q' (some descs)
  | recycle {q q' : RxQueue} {descs : List Desc} (h : q.recycle descs=some q') : Step q q' none
  | kernel (q : RxQueue) (mem : Nat → UInt8) : Step q { q with ring := { q.ring with mem } } none
  | close (q : RxQueue) : Step q { q with closed := true } none

theorem walk_packets (hm : q.ring.Mapped) {n : Nat} (h : q.walk n wantTimestamps=some s) :
    s.ring.Mapped ∧ s.ring.packets=q.ring.packets+UInt64.ofNat s.out := by
  obtain ⟨s1,j,hread,-,hhanded,hpackets⟩ := read_rule
    (packets_rule (q.batch n wantTimestamps) (takeFrame q.region) q.ring.packets) hm
    (some { pool := q.pool }) q.output rfl
  rw [walk,hread] at h
  cases h
  have hmapped := hhanded.mapped hm
  exact ⟨⟨hmapped.hdr,hmapped.size,hmapped.block⟩,congrArg (·+UInt64.ofNat s1.out) hpackets⟩

theorem settle_counts {t : Taking} (h : q.settle s t=some (q',descs)) :
    q'.ring=s.ring ∧ descs.length=s.out ∧
    q'.batches=q.batches+UInt64.ofNat (!descs.isEmpty).toNat := by
  rw [settle] at h
  obtain ⟨hout,h⟩ := passed h (by simp)
  obtain ⟨pool,-,h⟩ := bind_eq_some_iff.mp h
  cases h
  have hlen : ((t.descs.take s.out).mapIdx (s.o.desc s.ring.chain)).length=s.out := by
    rw [List.length_mapIdx,List.length_take,Nat.min_eq_left (Nat.le_of_not_lt hout)]
  refine ⟨rfl,hlen,?_⟩
  generalize (t.descs.take s.out).mapIdx (s.o.desc s.ring.chain)=descs at hlen
  cases descs with
  | nil =>
    rw [← hlen]
    exact (UInt64.add_zero _).symm
  | cons d ds =>
    rw [← hlen,if_pos (by simp)]
    rfl

theorem finish_counts (h : q.finish descs=some q') : q'.ring=q.ring ∧ q'.batches=q.batches := by
  rw [finish] at h
  split at h
  case isTrue =>
    cases h
    exact ⟨rfl,rfl⟩
  obtain ⟨x,-,h⟩ := bind_eq_some_iff.mp h
  cases h
  exact ⟨rfl,rfl⟩

theorem receive_counts (hm : q.ring.Mapped)
    (h : q.receive max wantTimestamps=some (q',descs,offs)) :
    q'.ring.Mapped ∧ q'.ring.packets=q.ring.packets+UInt64.ofNat descs.length ∧
      q'.batches=q.batches+UInt64.ofNat (!descs.isEmpty).toNat := by
  rw [receive] at h
  split at h
  case isTrue =>
    cases h
    exact ⟨hm,(UInt64.add_zero _).symm,(UInt64.add_zero _).symm⟩
  obtain ⟨s,hwalk,h⟩ := bind_eq_some_iff.mp h
  obtain ⟨t,-,h⟩ := bind_eq_some_iff.mp h
  obtain ⟨⟨q1,ds⟩,hsettle,h⟩ := bind_eq_some_iff.mp h
  obtain ⟨q2,hfinish,h⟩ := bind_eq_some_iff.mp h
  cases h
  obtain ⟨hmapped,hpackets⟩ := walk_packets (q := q.prepare max.toNat wantTimestamps) hm hwalk
  obtain ⟨hring,hlen,hbatches⟩ := settle_counts hsettle
  obtain ⟨hring2,hbatches2⟩ := finish_counts hfinish
  rw [hring2,hring,hlen,hbatches2]
  exact ⟨hmapped,hpackets,hbatches⟩

theorem Step.counts {x : Option (List Desc)} (hm : q.ring.Mapped) (h : Step q q' x) :
    q'.ring.Mapped ∧ q'.ring.packets=q.ring.packets+UInt64.ofNat (x.toList.map List.length).sum ∧
      q'.batches=q.batches+UInt64.ofNat (x.toList.map fun descs => (!descs.isEmpty).toNat).sum := by
  have hsame (c : UInt64) : c=c+UInt64.ofNat 0 := (UInt64.add_zero c).symm
  cases h with
  | receive h => exact receive_counts hm h
  | recycle h =>
    obtain ⟨pool,-,h⟩ := bind_eq_some_iff.mp h
    cases h
    exact ⟨hm,hsame _,hsame _⟩
  | kernel mem => exact ⟨⟨hm.hdr,hm.size,hm.block⟩,hsame _,hsame _⟩
  | close => exact ⟨hm,hsame _,hsame _⟩

end Afpacket.RxQueue

/-- Packets are what the calls returned, and batches the calls that returned any: on afpacket
and in the queue below dpdk's in every run, on mlx5 for packets in every run, and for batches in
each run whose calls are all fruitful. An mlx5 call that is not counts a batch without a packet.
A dpdk queue counts what it puts in its stash, so its packets are right while the stash is empty,
and its batches while as many calls have drawn on the stash as have put into it. -/
theorem receive_batches_iff (q q' : Mlx5.RxQueue) (max : Int) (descs : List Desc)
    (ns : List UInt64) : ((q.receive max = some (q',descs) →
        (q'.ring.c.batches = q.ring.c.batches+UInt64.ofNat (!descs.isEmpty).toNat ↔
          q.Fruitful max)) ∧ (q.receiveTimestamps max = some (q',descs,ns) →
        (q'.ring.c.batches = q.ring.c.batches+UInt64.ofNat (!descs.isEmpty).toNat ↔
          (q.clock ≠ none → q.Fruitful max))) ∧ ∀ checked first frames size cfg clock q₀ q rets,
        Mlx5.newRxQueue checked first frames size cfg clock = .ok q₀ →
        (Trace (Mlx5.RxQueue.Step fun _ _ => True) q₀ q rets →
          q.ring.c.packets = UInt64.ofNat (rets.map List.length).sum) ∧
        (Trace (Mlx5.RxQueue.Step Mlx5.RxQueue.Fruitful) q₀ q rets →
          q.ring.c.batches = UInt64.ofNat (rets.countP fun descs => !descs.isEmpty))) ∧
    (∀ checked region c q₀, Dpdk.newRx checked region c = .ok q₀ →
      (∀ q rets, Trace Dpdk.Rx.Step q₀ q rets →
        q.stats.packets = UInt64.ofNat (rets.map List.length).sum ∧
          q.stats.batches = UInt64.ofNat (rets.countP fun descs => !descs.isEmpty)) ∧
      (c.regionVA.toNat+region.len ≤ 2^64 → ∀ spare s log,
        Trace (Dpdk.Served.Step spare) ⟨Dpdk.newRxQueue q₀,[],[]⟩ s log →
        (s.x.q.stats.packets = UInt64.ofNat s.returned.length ↔ UInt64.ofNat s.x.stash.len = 0) ∧
          (s.x.q.stats.batches = UInt64.ofNat s.gave ↔
            UInt64.ofNat (log.count .drawn) = UInt64.ofNat (log.count .put)))) ∧
    (∀ checked r mem vnet chain first frames q rets, Trace Afpacket.RxQueue.Step
        (Afpacket.newRxQueue checked r (Afpacket.setupRing mem vnet chain) first frames) q rets →
      q.ring.packets = UInt64.ofNat (rets.map List.length).sum ∧
        q.batches = UInt64.ofNat (rets.countP fun descs => !descs.isEmpty)) ∧
        ∀ rets : List (List Desc),
      rets.countP (fun descs => !descs.isEmpty) ≤ (rets.map List.length).sum := by
  have hadd := ofNat_add
  refine ⟨⟨fun h => (Mlx5.receive_counts h).2,fun h => (Mlx5.receiveTimestamps_counts h).2,
    fun checked first frames size cfg clock q₀ q rets hnew => ?_⟩,
    fun checked region c q₀ hnew => ⟨fun q rets htrace => ?_,fun hva spare s log htrace => ?_⟩,
    fun checked r mem vnet chain first frames q rets htrace => ?_,countP_le_sum ?_⟩
  · have hzero := Mlx5.newRxQueue_counts hnew
    constructor
    · intro htrace
      exact (htrace.tally (fun _ => True) ofNat (fun q => q.ring.c.packets) List.length hadd
        (fun _ _ _ _ hs => ⟨trivial,hs.packets⟩) trivial (by rw [hzero]; rfl)).2
    · intro htrace
      rw [← sum_indicator]
      exact (htrace.tally (fun _ => True) ofNat (fun q => q.ring.c.batches) _ hadd
        (fun _ _ _ _ hs => ⟨trivial,hs.batches⟩) trivial (by rw [hzero]; rfl)).2
  · have hzero := Dpdk.Rx.newRx_counts hnew
    rw [← sum_indicator]
    constructor
    · exact (htrace.tally (fun _ => True) ofNat (fun q => q.stats.packets) List.length hadd
        (fun _ _ _ _ hs => ⟨trivial,hs.counts.1⟩) trivial (by rw [hzero]; rfl)).2
    · exact (htrace.tally (fun _ => True) ofNat (fun q => q.stats.batches) _ hadd
        (fun _ _ _ _ hs => ⟨trivial,hs.counts.2⟩) trivial (by rw [hzero]; rfl)).2
  · obtain ⟨k,total,-,hready⟩ := Dpdk.newRx_ready hva hnew
    obtain ⟨hkept,hp,n,hb,hn⟩ := Dpdk.Served.trace_counts (Dpdk.Rx.newRx_counts hnew) hready htrace
    have hsum := congrArg UInt64.ofNat hn
    rw [ofNat_add,ofNat_add,← hb] at hsum
    have hlen := congrArg (fun l => UInt64.ofNat (List.length l)) hkept.all
    rw [List.length_append,Arrays.read_length,ofNat_add,← hp] at hlen
    constructor
    · rw [← hlen,UInt64.add_eq_left]
    · constructor
      · intro hgave
        rw [hgave] at hsum
        exact (UInt64.add_right_inj _).mp hsum
      · intro hstash
        rw [hstash] at hsum
        exact (UInt64.add_left_inj _).mp hsum
  · have hmapped := Afpacket.setupRing_mapped mem vnet chain
    have hpackets : (Afpacket.setupRing mem vnet chain).packets=0 := by
      cases vnet with
      | false | true => rfl
    rw [← sum_indicator]
    constructor
    · exact (htrace.tally (fun q => q.ring.Mapped) ofNat (fun q => q.ring.packets) List.length
        hadd (fun _ _ _ hm hs => ⟨(hs.counts hm).1,(hs.counts hm).2.1⟩) hmapped hpackets).2
    · exact (htrace.tally (fun q => q.ring.Mapped) ofNat (fun q => q.batches) _
        hadd (fun _ _ _ hm hs => ⟨(hs.counts hm).1,(hs.counts hm).2.2⟩) hmapped rfl).2
  · intro descs hgave
    cases descs with
    | nil => cases hgave
    | cons d ds => exact Nat.succ_pos _

def answeredCQE (op : UInt8) : Mlx5.CQE := fun i => if i=63 then op else if i=47 then 60 else 0

/-- One posted buffer, and a completion of 60 bytes for it. -/
def answeredQueue (op : UInt8) : Option Mlx5.RxQueue :=
  (Mlx5.pairRx.fill 1).map fun x => { x.1 with ring := x.1.ring.over fun _ => answeredCQE op }

/-- One packet on each backend. The dpdk queue found two with Poll and has returned one. -/
theorem receive_batches_one : (∃ q q' d, answeredQueue 0x20 = some q ∧
      q.receive 1 = some (q',[d]) ∧ q.Fruitful 1 ∧ q'.ring.c.batches = q.ring.c.batches+1) ∧
    (Dpdk.receivedOne.x.q.stats.packets ≠ UInt64.ofNat Dpdk.receivedOne.returned.length ∧
      Dpdk.receivedOne.x.q.stats.batches = UInt64.ofNat Dpdk.receivedOne.gave) ∧
    ∃ q d offs, (Afpacket.crowdedQueue 64).receive 2 false = some (q,[d],offs) ∧
      q.ring.packets = 1 ∧ q.batches = 1 := by
  refine ⟨?_,?_,?_⟩
  · have hone : ((answeredQueue 0x20).bind fun q => q.receive 1).map (fun x => x.2.length)=some 1 ∧
        (answeredQueue 0x20).map (fun q => q.ring.packetAhead (q.ring.cq.entries.toNat+1)) =
          some true := by decide
    obtain ⟨⟨q',descs⟩,hq,hlen⟩ := map_eq_some_iff.mp hone.1
    obtain ⟨q,hfilled,hq⟩ := bind_eq_some_iff.mp hq
    obtain ⟨d,rfl⟩ := List.length_eq_one_iff.mp hlen
    rw [hfilled,map_some,some_inj] at hone
    have hfruit : q.Fruitful 1 := fun _ _ _ => hone.2
    exact ⟨q,q',d,hfilled,hq,hfruit,((receive_batches_iff q q' 1 [d] []).1.1 hq).mpr hfruit⟩
  · have hall := (receive_batches_iff Mlx5.pairRx Mlx5.pairRx 0 [] []).2.1 true Dpdk.smallRegion
      Dpdk.pairRxConfig Dpdk.pairRx rfl
    have hpoll : Dpdk.Served.Step (fun _ _ => 0) ⟨Dpdk.newRxQueue Dpdk.pairRx,[],[]⟩
        Dpdk.polledOnce (some .put) := ⟨.poll Dpdk.twice [],trivial,rfl,rfl⟩
    have hdraw : Dpdk.Served.Step (fun _ _ => 0) Dpdk.polledOnce Dpdk.receivedOne (some .drawn) :=
      ⟨.receive 1 Dpdk.twice,trivial,rfl,rfl⟩
    have htrace := (Trace.start.step hpoll).step hdraw
    obtain ⟨hp,hb⟩ := hall.2 (by decide) _ _ _ htrace
    exact ⟨fun h => absurd (hp.mp h) (by decide),hb.mpr rfl⟩
  · have hone : ((Afpacket.crowdedQueue 64).receive 2 false).map (fun x => x.2.1.length) =
      some 1 := rfl
    obtain ⟨⟨q,descs,offs⟩,hq,hlen⟩ := map_eq_some_iff.mp hone
    obtain ⟨d,rfl⟩ := List.length_eq_one_iff.mp hlen
    have htrace := Trace.step (x := some [d]) .start (Afpacket.RxQueue.Step.receive hq)
    exact ⟨q,d,offs,hq,(receive_batches_iff Mlx5.pairRx Mlx5.pairRx 0 [] []).2.2.1 _ _ _ _ _ _ _ _ _
      htrace⟩

/-- The completion says that the packet failed. Its buffer goes back to the pool. -/
theorem receive_batch_of_errors : ∃ q rets,
    Mlx5.newRxQueue true 2 2 128 Mlx5.Ring.tinyRx ⟨0,0,0⟩ = .ok Mlx5.pairRx ∧
    Trace (Mlx5.RxQueue.Step fun _ _ => True) Mlx5.pairRx q rets ∧ rets = [[]] ∧
    q.ring.c.batches = 1 ∧ q.ring.c.packets = 0 := by
  have hend : ((answeredQueue 0xe0).bind fun q => q.receive 1).map
      (fun x => (x.1.ring.c.batches,x.1.ring.c.packets,x.2))=some (1,0,[]) := by decide
  obtain ⟨⟨q,descs⟩,hq,hcounts⟩ := map_eq_some_iff.mp hend
  obtain ⟨q2,hq2,hreceive⟩ := bind_eq_some_iff.mp hq
  obtain ⟨⟨q1,posted⟩,hfill,rfl⟩ := map_eq_some_iff.mp hq2
  simp only [Prod.mk.injEq] at hcounts
  refine ⟨q,[[]],?_,?_,rfl,hcounts.1,hcounts.2.1⟩
  · rfl
  · rw [hcounts.2.2] at hreceive
    exact .step (x := some []) (.step (x := none) (.step (x := none) .start (.fill hfill))
      (.device q1 fun _ => answeredCQE 0xe0)) (.receive trivial hreceive)

end Packetio

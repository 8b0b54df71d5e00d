import Packetio.Lib.Shares
import Packetio.Mlx5.QueueCalls
import Packetio.Mlx5.Ring.RxReturn

/-! The queues of one device and a caller that moves frames between them: under the
contract of the calls, and with conforming NICs on the send queues, no frame is lost
and none is in two places. -/
namespace Packetio.Mlx5
open Lib Mlx5.Ring Pool Multiset

inductive TxCall where
  | alloc (n : Int)
  | transmit (descs : List Desc)
  | free (descs : List Desc)
  | complete (max : Int)
  | reclaim (max : Int) (out : List Desc)
  | sendFunc (count : Int) (build : Nat → Slice → Int)

inductive RxCall where
  | fill (n : Int)
  | receive (max : Int)
  | receiveTimestamps (max : Int)
  | recycle (descs : List Desc)

structure Effect (Q : Type) where
  q : Q
  gives : Multiset UInt64 := 0
  takes : Multiset UInt64 := 0

def TxCall.run (k : Nat) (q : TxQueue) : TxCall → Option (Effect TxQueue)
  | .alloc n => (q.alloc n).map fun x => { q := x.1, gives := bases k x.2 }
  | .transmit descs =>
    (q.transmit descs).map fun x => { q := x.1, takes := bases k (descs.take x.2) }
  | .free descs => (q.free descs).map fun q => { q := q, takes := bases k descs }
  | .complete max => (q.complete max).map fun x => { q := x.1 }
  | .reclaim max out => some
      { q := (q.reclaim max out).1, gives := bases k ((q.reclaim max out).2.drop out.length) }
  | .sendFunc count build => (q.sendFunc count build).map fun x => { q := x.1 }

def TxCall.Allowed (k : Nat) (q : TxQueue) (held : Multiset UInt64) : TxCall → Prop
  | .alloc _ => True
  | .transmit descs => bases k descs≤held
  | .free descs => bases k descs≤held ∧ ∀ d∈descs, q.pool.owns d.addr=true
  | .complete max => ∀ d∈(q.reclaim max []).2, q.pool.owns d.addr=true
  | .reclaim _ _ => True
  | .sendFunc count _ => q.failedInfo=none →
      ∀ d∈(q.reclaim (addInt count q.numInFlight) []).2, q.pool.owns d.addr=true

def RxCall.run (k : Nat) (q : RxQueue) : RxCall → Option (Effect RxQueue)
  | .fill n => (q.fill n).map fun x => { q := x.1 }
  | .receive max => (q.receive max).map fun x => { q := x.1, gives := bases k x.2 }
  | .receiveTimestamps max =>
    (q.receiveTimestamps max).map fun x => { q := x.1, gives := bases k x.2.1 }
  | .recycle descs => (q.recycle descs).map fun q => { q := q, takes := bases k descs }

def RxCall.Allowed (k : Nat) (q : RxQueue) (held : Multiset UInt64) : RxCall → Prop
  | .recycle descs => bases k descs≤held ∧ ∀ d∈descs, q.pool.owns d.addr=true
  | _ => True

variable {nics : List TxNic} {q : RxQueue} {gives takes : Multiset UInt64} {i : Nat}

section
variable {first size k : Nat} {held : Multiset UInt64}

theorem TxQueue.Sound.run {q : TxQueue} (h : q.Sound first size k nics)
    (hnd : (q.holdings k+held).Nodup) (c : TxCall) (hc : c.Allowed k q held) :
    ∃ e, c.run k q=some e ∧ e.q.Sound first size k nics ∧ e.takes≤held ∧
      e.q.holdings k+e.gives=q.holdings k+e.takes := by
  have hnd' := (nodup_add.mp hnd).1
  cases c with
  | alloc n =>
    obtain ⟨q',descs,ha,hall⟩ := h.alloc n
    refine ⟨⟨q',bases k descs,0⟩,by rw [TxCall.run,ha]; rfl,hall.sound,zero_le _,?_⟩
    rw [TxQueue.holdings,TxQueue.holdings,hall.free,hall.windows,add_right_comm,add_zero]
  | transmit descs =>
    obtain ⟨q',n,ht,hs,hpool,hwin⟩ := h.transmit descs
    refine ⟨⟨q',0,bases k (descs.take n)⟩,by rw [TxCall.run,ht]; rfl,hs,
      (bases_take_le k n descs).trans hc,?_⟩
    rw [TxQueue.holdings,TxQueue.holdings,hpool,hwin,add_zero,add_assoc]
  | free descs =>
    obtain ⟨hmem,hfree⟩ := h.pool.own_back hnd hc
    obtain ⟨p,hf,hs,hp⟩ := h.free hmem hfree
    refine ⟨⟨_,0,bases k descs⟩,by rw [TxCall.run,hf]; rfl,hs,hc.1,?_⟩
    rw [TxQueue.holdings,TxQueue.holdings,hp,add_zero]
    exact add_right_comm _ _ _
  | complete max =>
    obtain ⟨q',n,hq,hs,hh⟩ := h.complete hc hnd'
    exact ⟨⟨q',0,0⟩,by rw [TxCall.run,hq]; rfl,hs,zero_le _,by rw [hh]⟩
  | reclaim max out =>
    obtain ⟨hs,hpool,hwin⟩ := h.reclaim max
    have hout : (q.reclaim max out).1=(q.reclaim max []).1 ∧
        (q.reclaim max out).2.drop out.length=(q.reclaim max []).2 := by
      rw [reclaim_eq,reclaim_eq]
      exact ⟨rfl,by rw [List.drop_left,List.nil_append]⟩
    refine ⟨_,rfl,hout.1 ▸ hs,zero_le _,?_⟩
    simp only [hout]
    rw [TxQueue.holdings,TxQueue.holdings,hpool,hwin,add_zero,add_assoc,add_comm (bases k _)]
  | sendFunc count build =>
    obtain ⟨q',res,hq,hs,hh,-⟩ := h.sendFunc build hc hnd'
    exact ⟨⟨q',0,0⟩,by rw [TxCall.run,hq]; rfl,hs,zero_le _,by rw [hh]⟩

theorem RxQueue.Sound.run (h : q.Sound first size k)
    (hnd : (q.holdings k+held).Nodup) (c : RxCall) (hc : c.Allowed k q held) :
    ∃ e, c.run k q=some e ∧ e.q.Sound first size k ∧ e.takes≤held ∧
      e.q.holdings k+e.gives=q.holdings k+e.takes := by
  have hnd' := (nodup_add.mp hnd).1
  cases c with
  | fill n =>
    obtain ⟨q',posted,hq,hs,hh⟩ := h.fill n
    exact ⟨⟨q',0,0⟩,by rw [RxCall.run,hq]; rfl,hs,zero_le _,by rw [hh]⟩
  | receive max =>
    obtain ⟨q',out,hq,hs,hh⟩ := h.receive max hnd'
    exact ⟨⟨q',bases k out,0⟩,by rw [RxCall.run,hq]; rfl,hs,zero_le _,
      by rw [hh,add_zero]⟩
  | receiveTimestamps max =>
    obtain ⟨q',out,ts,hq,hs,hh⟩ := h.receiveTimestamps max hnd'
    exact ⟨⟨q',bases k out,0⟩,by rw [RxCall.run,hq]; rfl,hs,zero_le _,
      by rw [hh,add_zero]⟩
  | recycle descs =>
    obtain ⟨hmem,hfree⟩ := h.pool.own_back hnd hc
    obtain ⟨p,hf,hs,hp⟩ := h.recycle hmem hfree
    refine ⟨⟨_,0,bases k descs⟩,by rw [RxCall.run,hf]; rfl,hs,hc.1,?_⟩
    rw [RxQueue.holdings,RxQueue.holdings,hp,add_zero]
    exact add_right_comm _ _ _

end

structure QueueSys where
  txs : List (TxQueue × List TxNic)
  rxs : List RxQueue
  held : Multiset UInt64 := 0

inductive Event where
  | tx (i : Nat) (c : TxCall)
  | rx (i : Nat) (c : RxCall)
  | finish (i j : Nat) (c : Option CQE)
  | write (i : Nat) (buf : Nat → CQE)

namespace QueueSys
variable (k : Nat)

def step (s : QueueSys) : Event → Option QueueSys
  | .tx i c => match s.txs[i]? with
    | none => none
    | some (q,nics) => match c.run k q with
      | none => none
      | some e => some { s with
          txs := s.txs.set i (e.q,nics), held := s.held-e.takes+e.gives }
  | .rx i c => match s.rxs[i]? with
    | none => none
    | some q => match c.run k q with
      | none => none
      | some e => some { s with rxs := s.rxs.set i e.q, held := s.held-e.takes+e.gives }
  | .finish i j c => match s.txs[i]? with
    | none => none
    | some (q,nics) => match q.rings[j]?, nics[j]? with
      | some r, some nic =>
        let q := { q with rings := q.rings.set j (nic.finish r c).1 }
        some { s with txs := s.txs.set i (q,nics.set j (nic.finish r c).2) }
      | _, _ => none
  | .write i buf => match s.rxs[i]? with
    | none => none
    | some q => some { s with rxs := s.rxs.set i { q with ring.cq.buf := buf } }

def Allows (s : QueueSys) : Event → Prop
  | .tx i c => ∃ q nics, s.txs[i]? = some (q,nics) ∧ c.Allowed k q s.held
  | .rx i c => ∃ q, s.rxs[i]? = some q ∧ c.Allowed k q s.held
  | .finish i j c => ∃ q nics r nic, s.txs[i]? = some (q,nics) ∧ q.rings[j]? = some r ∧
      nics[j]? = some nic ∧ nic.Conforming r c
  | .write i _ => i<s.rxs.length

def Run : QueueSys → QueueSys → Prop :=
  Relation.ReflTransGen fun s s' => ∃ ev, s.Allows k ev ∧ s.step k ev=some s'

def pools (s : QueueSys) : List (Multiset UInt64) :=
  (s.txs.map fun x => (x.1.pool.free : Multiset UInt64))++
    s.rxs.map fun q => (q.pool.free : Multiset UInt64)

def windows (s : QueueSys) : Multiset UInt64 :=
  (s.txs.map fun x => ringWindows k x.1.rings).sum+(s.rxs.map fun q => bases k q.ring.window).sum

def everywhere (s : QueueSys) : Multiset UInt64 := s.pools.sum+s.windows k+s.held

theorem everywhere_eq (s : QueueSys) : s.everywhere k =
    (s.txs.map fun x => x.1.holdings k).sum+(s.rxs.map fun q => q.holdings k).sum+s.held := by
  have htx : (s.txs.map fun x => x.1.holdings k).sum =
      (s.txs.map fun x => (x.1.pool.free : Multiset UInt64)).sum+
        (s.txs.map fun x => ringWindows k x.1.rings).sum := List.sum_map_add
  have hrx : (s.rxs.map fun q => q.holdings k).sum =
      (s.rxs.map fun q => (q.pool.free : Multiset UInt64)).sum+
        (s.rxs.map fun q => bases k q.ring.window).sum := List.sum_map_add
  rw [htx,hrx,everywhere,pools,windows,List.sum_append,add_add_add_comm]

variable {k}

def TxMade (k : Nat) (x x₀ : TxQueue × List TxNic) : Prop :=
  ∃ first size, x.1.Sound first size k x.2 ∧
    (x₀.1.pool.free : Multiset UInt64) = ↑(frameStarts first size (2^k))

def RxMade (k : Nat) (q q₀ : RxQueue) : Prop :=
  ∃ first size, q.Sound first size k ∧
    (q₀.pool.free : Multiset UInt64) = ↑(frameStarts first size (2^k))

structure Sound (k : Nat) (s s₀ : QueueSys) : Prop where
  txs : List.Forall₂ (TxMade k) s.txs s₀.txs
  rxs : List.Forall₂ (RxMade k) s.rxs s₀.rxs
  all : s.everywhere k=s₀.pools.sum
  nodup : s₀.pools.sum.Nodup

section
variable {s₀ s : QueueSys} (h : s.Sound k s₀)
include h

theorem Sound.setTx {x x' x₀ : TxQueue × List TxNic} (hi : s.txs[i]? = some x)
    (hx0 : s₀.txs[i]? = some x₀) (hmade : TxMade k x' x₀)
    (hle : takes ≤ s.held) (hmove : x'.1.holdings k+gives=x.1.holdings k+takes) :
    ({ s with txs := s.txs.set i x', held := s.held-takes+gives } : QueueSys).Sound k s₀ := by
  refine ⟨forall₂_set_left h.txs hx0 hmade,h.rxs,?_,h.nodup⟩
  rw [← h.all,everywhere_eq,everywhere_eq]
  have htrade := sum_map_set_trade (fun x : TxQueue × List TxNic => x.1.holdings k) hi hmove
    ((s.rxs.map fun q => q.holdings k).sum+(s.held-takes))
  simpa only [add_assoc,Multiset.sub_add_cancel hle] using htrade

theorem Sound.setRx {q' q₀ : RxQueue} (hi : s.rxs[i]? = some q)
    (hq0 : s₀.rxs[i]? = some q₀) (hmade : RxMade k q' q₀)
    (hle : takes ≤ s.held) (hmove : q'.holdings k+gives=q.holdings k+takes) :
    ({ s with rxs := s.rxs.set i q', held := s.held-takes+gives } : QueueSys).Sound k s₀ := by
  refine ⟨h.txs,forall₂_set_left h.rxs hq0 hmade,?_,h.nodup⟩
  rw [← h.all,everywhere_eq,everywhere_eq]
  have htrade := sum_map_set_trade (fun q : RxQueue => q.holdings k) hi hmove (s.held-takes)
  rw [Multiset.sub_add_cancel hle] at htrade
  simp only [add_assoc,htrade]

theorem Sound.nodup_tx {q : TxQueue} (hq : (q,nics)∈s.txs) : (q.holdings k+s.held).Nodup := by
  have hle : q.holdings k≤(s.txs.map fun x => x.1.holdings k).sum :=
    List.le_sum_of_mem (List.mem_map.mpr ⟨_,hq,rfl⟩)
  refine nodup_of_le ?_ (h.all ▸ h.nodup : (s.everywhere k).Nodup)
  rw [everywhere_eq]
  exact add_le_add (hle.trans (le_add_right _ _)) (le_refl _)

theorem Sound.nodup_rx (hq : q∈s.rxs) : (q.holdings k+s.held).Nodup := by
  have hle : q.holdings k≤(s.rxs.map fun q => q.holdings k).sum :=
    List.le_sum_of_mem (List.mem_map.mpr ⟨_,hq,rfl⟩)
  refine nodup_of_le ?_ (h.all ▸ h.nodup : (s.everywhere k).Nodup)
  rw [everywhere_eq]
  exact add_le_add (hle.trans (le_add_left _ _)) (le_refl _)

theorem Sound.step {ev : Event} (ha : s.Allows k ev) :
    ∃ s', s.step k ev=some s' ∧ s'.Sound k s₀ := by
  cases ev with
  | tx i c =>
    obtain ⟨q,nics,hi,hc⟩ := ha
    obtain ⟨x₀,hx0,first,size,hq,hfree⟩ := forall₂_get h.txs hi
    obtain ⟨e,he,hs,hle,hmove⟩ := hq.run (h.nodup_tx (List.mem_of_getElem? hi)) c hc
    refine ⟨{ s with txs := s.txs.set i (e.q,nics), held := s.held-e.takes+e.gives },?_,
      h.setTx hi hx0 ⟨first,size,hs,hfree⟩ hle hmove⟩
    simp [QueueSys.step,hi,he]
  | rx i c =>
    obtain ⟨q,hi,hc⟩ := ha
    obtain ⟨q₀,hq0,first,size,hq,hfree⟩ := forall₂_get h.rxs hi
    obtain ⟨e,he,hs,hle,hmove⟩ := hq.run (h.nodup_rx (List.mem_of_getElem? hi)) c hc
    refine ⟨{ s with rxs := s.rxs.set i e.q, held := s.held-e.takes+e.gives },?_,
      h.setRx hi hq0 ⟨first,size,hs,hfree⟩ hle hmove⟩
    simp [QueueSys.step,hi,he]
  | finish i j c =>
    obtain ⟨q,nics,r,nic,hi,hr,hn,hc⟩ := ha
    obtain ⟨x₀,hx0,first,size,hq,hfree⟩ := forall₂_get h.txs hi
    obtain ⟨nic',hn',hserv⟩ := forall₂_get hq.rings hr
    rw [hn,Option.some_inj] at hn'
    obtain ⟨hserv',hwin⟩ := (hn' ▸ hserv).finish hc
    let q' : TxQueue := { q with rings := q.rings.set j (nic.finish r c).1 }
    have hmade : TxMade k (q',nics.set j (nic.finish r c).2) x₀ :=
      ⟨first,size,
        { hq with next := by simpa [q'] using hq.next, rings := forall₂_set hq.rings hserv' },hfree⟩
    have hmove : q'.holdings k+0=q.holdings k+0 := by
      have hsum := sum_map_set (b := (nic.finish r c).1) (fun r : Tx => bases k r.window) hr
      rw [hwin] at hsum
      rw [TxQueue.holdings,TxQueue.holdings,ringWindows,add_right_cancel hsum,ringWindows]
    have hset := h.setTx hi hx0 hmade (zero_le s.held) hmove
    rw [Multiset.sub_zero,add_zero] at hset
    exact ⟨_,by simp only [QueueSys.step,hi,hr,hn]; rfl,hset⟩
  | write i buf =>
    have hi := List.getElem?_eq_getElem ha
    obtain ⟨q₀,hq0,first,size,hq,hfree⟩ := forall₂_get h.rxs hi
    let q' : RxQueue := { s.rxs[i] with ring.cq.buf := buf }
    have hmade : RxMade k q' q₀ := by
      obtain ⟨done,live,ho⟩ := hq.ring
      obtain ⟨j,hj⟩ := hq.sized
      exact ⟨first,size,
        { hq with ring := ⟨done,live,ho.congr rfl rfl rfl rfl⟩, sized := ⟨j,hj.over buf⟩ },hfree⟩
    have hset := h.setRx hi hq0 hmade (zero_le s.held) (rfl : q'.holdings k+0=_)
    rw [Multiset.sub_zero,add_zero] at hset
    exact ⟨_,by simp only [QueueSys.step,hi]; rfl,hset⟩

theorem Sound.run {s' : QueueSys} (hrun : QueueSys.Run k s s') : s'.Sound k s₀ := by
  induction hrun with
  | refl => exact h
  | tail _ hstep ih =>
    obtain ⟨ev,ha,hs⟩ := hstep
    obtain ⟨s'',hs'',hsound⟩ := ih.step ha
    rw [hs,Option.some_inj] at hs''
    exact hs'' ▸ hsound

theorem Sound.count_eq_one {m n : Multiset UInt64} (hm : s.pools[i]? = some m)
    (hn : s₀.pools[i]? = some n) {a : UInt64} (ha : a∈n) : (m+s.windows k+s.held).count a=1 := by
  have hle : List.Forall₂ (· ≤ ·) s.pools s₀.pools := by
    refine List.rel_append ?_ ?_
    · rw [List.forall₂_map_left_iff,List.forall₂_map_right_iff]
      refine h.txs.imp fun x x₀ hx => ?_
      obtain ⟨first,size,hq,hfree⟩ := hx
      exact hfree ▸ hq.pool.free_le
    · rw [List.forall₂_map_left_iff,List.forall₂_map_right_iff]
      refine h.rxs.imp fun q q₀ hx => ?_
      obtain ⟨first,size,hq,hfree⟩ := hx
      exact hfree ▸ hq.pool.free_le
  have hall : (s.everywhere k).count a=1 := by
    rw [h.all]
    exact count_eq_one_of_mem h.nodup
      (mem_of_le (List.le_sum_of_mem (List.mem_of_getElem? hn)) ha)
  rw [everywhere,count_add,count_add,count_sum_of_share hle h.nodup hm hn ha] at hall
  rw [count_add,count_add,hall]

end

def TxOpened (k : Nat) (x : TxQueue × List TxNic) : Prop :=
  ∃ checked region first size cfgs, newTxQueue checked region first size (2^k) cfgs = .ok x.1 ∧
    x.2=List.replicate cfgs.length {} ∧ cfgs ≠ [] ∧ (first+size)*2^k≤region.b.len ∧
    region.frameMask.toNat=2^k-1 ∧
    ∀ cfg∈cfgs, cfg.inlineLen≤960 ∧ cfg.sqLen≤64*65536 ∧ cfg.Fresh

def RxOpened (k : Nat) (q : RxQueue) : Prop :=
  ∃ checked first size cfg clock, newRxQueue checked first size (2^k) cfg clock = .ok q ∧
    (first+size)*2^k≤cfg.region.len ∧ rxHeadroom<2^k ∧ cfg.cqLen<2^32

structure Opened (k : Nat) (s : QueueSys) : Prop where
  small : k<63
  txs : ∀ x∈s.txs, TxOpened k x
  rxs : ∀ q∈s.rxs, RxOpened k q
  nodup : s.pools.sum.Nodup
  held : s.held=0

theorem mapM_serviced {cfgs : List TxConfig} {rings : List Tx} (h : cfgs.mapM newTx = .ok rings)
    (hcfg : ∀ cfg∈cfgs, cfg.inlineLen≤960 ∧ cfg.sqLen≤64*65536 ∧ cfg.Fresh) :
    List.Forall₂ Serviced rings (List.replicate cfgs.length {}) ∧ ringWindows k rings=0 := by
  induction cfgs generalizing rings with
  | nil =>
    cases h
    exact ⟨.nil,rfl⟩
  | cons cfg cfgs ih =>
    rw [List.mapM_cons] at h
    rcases hnew : newTx cfg with e | t
    · simp [hnew,Bind.bind,Except.bind] at h
    rcases hrest : cfgs.mapM newTx with e | ts
    · simp [hnew,hrest,Bind.bind,Except.bind] at h
    simp [hnew,hrest,Bind.bind,Except.bind,pure,Except.pure] at h
    subst h
    obtain ⟨hin,hsq,hfresh⟩ := hcfg cfg List.mem_cons_self
    obtain ⟨hserv,hwin⟩ := Serviced.init hin hsq hfresh hnew
    obtain ⟨hservs,hwins⟩ := ih hrest fun c hc => hcfg c (List.mem_cons_of_mem _ hc)
    exact ⟨.cons hserv hservs,by rw [ringWindows_cons,hwin,hwins,bases_nil,add_zero]⟩

theorem TxOpened.sound {x : TxQueue × List TxNic} (hk : k<63) (h : TxOpened k x) :
    TxMade k x x ∧ ringWindows k x.1.rings=0 := by
  obtain ⟨q,nics⟩ := x
  obtain ⟨checked,region,first,size,cfgs,hnew,rfl,hne,hfit,hmask,hcfg⟩ := h
  have hlen := region.b.len_lt
  rw [newTxQueue] at hnew
  split at hnew
  case h_1 => cases hnew
  rename_i rings hrings
  injection hnew with hnew
  obtain ⟨hserv,hwin⟩ := mapM_serviced (k := k) hrings hcfg
  have hpos : 0<rings.length := by
    rw [hserv.length_eq,List.length_replicate]
    exact List.length_pos_of_ne_nil hne
  change _=q at hnew
  subst hnew
  refine ⟨⟨first,size,⟨newFrames_inv checked hk (by omega),rfl,hpos,hserv,hmask,hk⟩,?_⟩,hwin⟩
  simp only [newFrames_free]
  exact coe_eq_coe.mpr (List.reverse_perm _)

theorem RxOpened.sound (hk : k<63) (h : RxOpened k q) : RxMade k q q ∧ q.ring.window = [] := by
  obtain ⟨checked,first,size,cfg,clock,hnew,hfit,hhead,hcq⟩ := h
  have hlen := cfg.region.len_lt
  rw [newRxQueue] at hnew
  split at hnew
  case h_1 => cases hnew
  rename_i r hr
  injection hnew with hnew
  have ho := newRx_owns hr
  have hwin := ho.window
  obtain ⟨-,-,-,-,hsized,-,_,_,_,hrx⟩ := newRx_ok hr
  have hreg : r.region=cfg.region := by rw [hrx]
  rw [← hnew]
  refine ⟨⟨first,size,
    ⟨newFrames_inv checked hk (by omega),rfl,⟨_,_,ho⟩,newCQ_sized hsized hcq,?_,?_,
    hhead⟩,?_⟩,hwin⟩
  · simp [hwin]
  · rwa [hreg]
  · simp only [newFrames_free]
    exact coe_eq_coe.mpr (List.reverse_perm _)

theorem Opened.sound {s : QueueSys} (h : s.Opened k) : s.Sound k s := by
  refine ⟨List.forall₂_same.mpr fun x hx => ((h.txs x hx).sound h.small).1,
    List.forall₂_same.mpr fun q hq => ((h.rxs q hq).sound h.small).1,?_,h.nodup⟩
  have htx : (s.txs.map fun x => ringWindows k x.1.rings).sum=0 := by
    refine List.sum_eq_zero fun m hm => ?_
    obtain ⟨x,hx,rfl⟩ := List.mem_map.mp hm
    exact ((h.txs x hx).sound h.small).2
  have hrx : (s.rxs.map fun q => bases k q.ring.window).sum=0 := by
    refine List.sum_eq_zero fun m hm => ?_
    obtain ⟨q,hq,rfl⟩ := List.mem_map.mp hm
    rw [((h.rxs q hq).sound h.small).2,bases_nil]
  rw [everywhere,windows,htx,hrx,h.held,add_zero,add_zero,add_zero]

end QueueSys

/-- In every run of a device with any number of queues and rings: a frame a queue was
opened with is on its free list, in one ring's window or with the caller, and in one
place only; no push was refused; every allowed call returns; and a SendFunc that meets
a bad length leaves the rings, and the frames on the list, as its Complete left them. -/
theorem queue_frames_conserved (k : Nat) (s₀ s : QueueSys) (h₀ : s₀.Opened k)
    (h : QueueSys.Run k s₀ s) :
    (∀ (i : Nat) m n, s.pools[i]? = some m → s₀.pools[i]? = some n → ∀ a ∈ n,
      (m+s.windows k+s.held).count a = 1) ∧
    (∀ x ∈ s.txs, x.1.pool.rejected = 0) ∧ (∀ q ∈ s.rxs, q.pool.rejected = 0) ∧
    (∀ ev, s.Allows k ev → ∃ s', s.step k ev = some s') ∧
    ∀ x ∈ s.txs, ∀ count build q' n len, (TxCall.sendFunc count build).Allowed k x.1 s.held →
      x.1.sendFunc count build = some (q',.error (.badLength n len)) →
      ∃ q₁ total, x.1.complete (addInt count x.1.numInFlight) = some (q₁,total) ∧
        q'.rings = q₁.rings ∧ q'.next = q₁.next ∧ q'.pool.free.Perm q₁.pool.free := by
  have hs := h₀.sound.run h
  refine ⟨fun i m n hm hn a ha => hs.count_eq_one hm hn ha,fun x hx => ?_,fun q hq => ?_,
    fun ev hev => ?_,fun x hx count build q' n len hc hsend => ?_⟩
  · obtain ⟨i,hi⟩ := List.mem_iff_getElem?.mp hx
    obtain ⟨_,-,_,_,hq,-⟩ := forall₂_get hs.txs hi
    exact hq.clean
  · obtain ⟨i,hi⟩ := List.mem_iff_getElem?.mp hq
    obtain ⟨_,-,_,_,hq,-⟩ := forall₂_get hs.rxs hi
    exact hq.clean
  · obtain ⟨s',hs',-⟩ := hs.step hev
    exact ⟨s',hs'⟩
  · obtain ⟨i,hi⟩ := List.mem_iff_getElem?.mp hx
    obtain ⟨_,-,_,_,hq,-⟩ := forall₂_get hs.txs hi
    have hnd := (nodup_add.mp (hs.nodup_tx hx)).1
    obtain ⟨q'',res,hq'',-,-,hbad⟩ := hq.sendFunc build hc hnd
    rw [hsend] at hq''
    injection hq'' with hq''
    injection hq'' with hq hres
    exact hq ▸ hbad n len hres.symm

def pairTxConfig : TxConfig := { tinyTx with frameSize := 128, frameSize_lt := by decide }

def pairTx : TxQueue where
  region := ⟨tinyTx.region,127⟩
  rings := [pairTxConfig.tx (by decide)]
  pool := newFrames true 0 2 128

def pairRx : RxQueue where
  ring := tinyRx.rx tinyRx_opens
  pool := newFrames true 2 2 128
  clock := none

def pairSys : QueueSys := { txs := [(pairTx,[{}])], rxs := [pairRx] }

def pairTaken : QueueSys := (pairSys.step 7 (.tx 0 (.alloc 1))).get (by decide)

theorem pairSys_opened : pairSys.Opened 7 := by
  refine ⟨by decide,fun x hx => ?_,fun q hq => ?_,by decide,rfl⟩
  · rw [List.mem_singleton.mp hx]
    refine ⟨true,⟨tinyTx.region,127⟩,0,2,[pairTxConfig],?_,rfl,by decide,by decide,
      by decide,?_⟩
    · rw [newTxQueue,List.mapM_cons,TxConfig.newTx_eq _ (by decide)]
      rfl
    · intro cfg hcfg
      rw [List.mem_singleton.mp hcfg]
      exact ⟨by decide,by decide,tinyTx_fresh.cqLen,tinyTx_fresh.invalid⟩
  · rw [List.mem_singleton.mp hq]
    refine ⟨true,2,2,tinyRx,⟨0,0,0⟩,?_,by decide,by decide,by decide⟩
    have hr : newRx { tinyRx with bufferSize := UInt32.ofNat (2^7-rxHeadroom) } =
        .ok (tinyRx.rx tinyRx_opens) := tinyRx.newRx_eq tinyRx_opens
    rw [newRxQueue,hr]
    rfl

def pairSent : QueueSys := (pairTaken.step 7 (.tx 0 (.transmit [⟨0,64,0⟩]))).get (by decide)

def pairDone : QueueSys := (pairSent.step 7 (.finish 0 0 (some fun _ => 0))).get (by decide)

theorem pairDone_run : QueueSys.Run 7 pairSys pairDone := by
  have htake : QueueSys.Run 7 pairSys pairTaken :=
    .single ⟨.tx 0 (.alloc 1),⟨pairTx,[{}],rfl,trivial⟩,(Option.some_get _).symm⟩
  have hheld : bases 7 [⟨0,64,0⟩]≤pairTaken.held := by decide
  have hsend : QueueSys.Run 7 pairSys pairSent :=
    htake.tail ⟨.tx 0 (.transmit [⟨0,64,0⟩]),⟨_,_,rfl,hheld⟩,(Option.some_get _).symm⟩
  have hnames : ∀ x∈(some fun _ => 0 : Option CQE), Names [⟨1,[⟨0,64,0⟩]⟩] 0 x ∧
      (owner (header x)).toNat=0/4%2 := by
    intro x hx
    cases hx
    exact ⟨⟨by decide,by decide,by decide,by decide⟩,by decide⟩
  exact hsend.tail ⟨.finish 0 0 (some fun _ => 0),⟨_,_,_,_,rfl,rfl,rfl,by decide,hnames⟩,
    (Option.some_get _).symm⟩

def pairReady : TxQueue × List TxNic := pairDone.txs.head (by decide)

def pairCompleted : QueueSys := (pairDone.step 7 (.tx 0 (.complete 1))).get (by decide)

def pairFilled : QueueSys := (pairCompleted.step 7 (.rx 0 (.fill 1))).get (by decide)

def pairArrived : QueueSys := (pairFilled.step 7 (.write 0 fun _ => tinyCQE)).get (by decide)

def pairReceived : QueueSys := (pairArrived.step 7 (.rx 0 (.receive 1))).get (by decide)

def pairRecycled : QueueSys := (pairReceived.step 7 (.rx 0 (.recycle [⟨256,0,0⟩]))).get (by decide)

/-- A frame is sent and completed, another one filled, received and given back. -/
theorem queue_frames_conserved_pair : QueueSys.Run 7 pairSys pairRecycled ∧
    pairReceived.held = {256} ∧ pairRecycled.held = 0 ∧ ∀ a ∈ pairTx.pool.free,
      ((pairRecycled.pools.headD 0)+pairRecycled.windows 7+pairRecycled.held).count a = 1 := by
  have hsent : ∀ d∈(pairReady.1.reclaim 1 []).2, pairReady.1.pool.owns d.addr=true := by decide
  have hback : bases 7 [⟨256,0,0⟩]≤pairReceived.held ∧ ∀ d ∈ [(⟨256,0,0⟩ : Desc)],
      (pairReceived.rxs.head (by decide)).pool.owns d.addr=true := by decide
  have hrun : QueueSys.Run 7 pairSys pairRecycled :=
    ((((pairDone_run.tail ⟨.tx 0 (.complete 1),⟨_,_,rfl,hsent⟩,(Option.some_get _).symm⟩).tail
      ⟨.rx 0 (.fill 1),⟨_,rfl,trivial⟩,(Option.some_get _).symm⟩).tail
      ⟨.write 0 fun _ => tinyCQE,Nat.one_pos,(Option.some_get _).symm⟩).tail
      ⟨.rx 0 (.receive 1),⟨_,rfl,trivial⟩,(Option.some_get _).symm⟩).tail
      ⟨.rx 0 (.recycle [⟨256,0,0⟩]),⟨_,rfl,hback⟩,(Option.some_get _).symm⟩
  refine ⟨hrun,by decide,by decide,fun a ha => ?_⟩
  exact (queue_frames_conserved 7 pairSys pairRecycled pairSys_opened hrun).1 0 _ _ rfl rfl a ha

end Packetio.Mlx5

import Packetio.Afpacket.RxProgress
import Packetio.Lib.Exchange

/-! The queues of one device and a caller that moves frames between them: under the contract
of the calls no frame is lost and none is in two places, whatever the kernel does. -/
namespace Packetio.Afpacket
open Lib Pool Multiset Option

inductive TxCall where
  | alloc (n : Int)
  | transmit (descs : List Desc) (offs : Option (List Offload))
  | free (descs : List Desc)
  | complete (max : Int)
  | reclaim (max : Int) (out : List Desc)
  | sendFunc (count : Int) (build : Nat → Slice → Int)
  | close

inductive RxCall where
  | receive (max : Int)
  | receiveOffload (max : Int)
  | receiveTimestamps (max : Int)
  | recycle (descs : List Desc)
  | close

inductive Event where
  | tx (c : TxCall)
  | rx (c : RxCall)
  | kernel (mem : Nat → UInt8)

def TxCall.run (k : Nat) (q : TxQueue) (sock : Sock) : TxCall → Option (Trade Queue UInt64)
  | .alloc n => (q.alloc n).map fun x => { party := .tx x.1 sock, gives := bases k x.2 }
  | .transmit descs offs => ((TxSend.frames descs offs).on q sock).map fun x =>
      { party := .tx x.1 x.2.1, takes := bases k (descs.take x.2.2.1) }
  | .free descs => (q.free descs).map fun q => { party := .tx q sock, takes := bases k descs }
  | .complete max => (q.complete max).map fun x => { party := .tx x.1 sock }
  | .reclaim max out =>
    let x := q.reclaim max out
    some { party := .tx x.1 sock, gives := bases k (x.2.drop out.length) }
  | .sendFunc count build => (q.sendFunc sock count build).map fun x => { party := .tx x.1 x.2.1 }
  | .close => some { party := .tx { q with closed := true } sock }

def RxCall.run (k : Nat) (q : RxQueue) : RxCall → Option (Trade Queue UInt64)
  | .receive max => (q.receive max false).map fun x => { party := .rx x.1, gives := bases k x.2.1 }
  | .receiveOffload max =>
    (q.receiveOffload max).map fun x => { party := .rx x.1, gives := bases k x.2.1 }
  | .receiveTimestamps max =>
    (q.receiveTimestamps max).map fun x => { party := .rx x.1, gives := bases k x.2.1 }
  | .recycle descs => (q.recycle descs).map fun q => { party := .rx q, takes := bases k descs }
  | .close => some { party := .rx { q with closed := true } }

def Event.run (k : Nat) : Queue → Event → Option (Trade Queue UInt64)
  | .tx q sock, .tx c => c.run k q sock
  | .rx q, .rx c => c.run k q
  | .rx q, .kernel mem => some { party := .rx { q with ring := { q.ring with mem } } }
  | _, _ => none

def TxCall.Allowed (k : Nat) (q : TxQueue) (held : Multiset UInt64) : TxCall → Prop
  | .transmit descs _ => bases k descs≤held
  | .free descs => bases k descs≤held ∧ ∀ d∈descs, q.pool.owns d.addr=true
  | .complete max => ∀ d∈(q.reclaim max []).2, q.pool.owns d.addr=true
  | .sendFunc count _ => q.closed=false →
      ∀ d∈(q.reclaim (addInt count q.numInFlight) []).2, q.pool.owns d.addr=true
  | _ => True

def RxCall.Allowed (k : Nat) (q : RxQueue) (held : Multiset UInt64) : RxCall → Prop
  | .recycle descs => bases k descs≤held ∧ ∀ d∈descs, q.pool.owns d.addr=true
  | _ => True

def Event.Allowed (k : Nat) (held : Multiset UInt64) : Queue → Event → Prop
  | .tx q _, .tx c => c.Allowed k q held
  | .rx q, .rx c => c.Allowed k q held
  | .rx _, .kernel _ => True
  | _, _ => False

namespace Queue

def pool : Queue → Pool.Frames
  | .tx q _ => q.pool
  | .rx q => q.pool

def home (q : Queue) : Multiset UInt64 := ↑q.pool.free

def away (k : Nat) : Queue → Multiset UInt64
  | .tx q _ => bases k q.pending
  | .rx _ => 0

def Sound (first count k : Nat) : Queue → Prop
  | .tx q _ => q.Sound first count k
  | .rx q => q.Sound first count k

/-- The queue was opened with the frames of `share`. -/
def Fits (k : Nat) (q : Queue) (share : Multiset UInt64) : Prop :=
  ∃ first count, q.Sound first count k ∧ share = ↑(frameStarts first count (2^k))

theorem Sound.inv {first count k : Nat} {q : Queue} (h : q.Sound first count k) :
    q.pool.Inv first count k ∧ q.pool.rejected=0 := by
  cases q with
  | tx q sock => exact ⟨TxQueue.Sound.pool h,TxQueue.Sound.clean h⟩
  | rx q => exact ⟨RxQueue.Sound.pool h,RxQueue.Sound.clean h⟩

theorem Fits.home_le {k : Nat} {q : Queue} {share : Multiset UInt64} (h : q.Fits k share) :
    q.home ≤ share := by
  obtain ⟨first,count,hs,rfl⟩ := h
  exact hs.inv.1.free_le

end Queue

def May (k : Nat) (q : Queue) (held : Multiset UInt64) (t : Trade Queue UInt64) : Prop :=
  ∃ ev : Event, ev.Allowed k held q ∧ ev.run k q=some t

structure Moves (first count k : Nat) (q : Queue) (held : Multiset UInt64)
    (t : Trade Queue UInt64) :
    Prop where
  sound : t.party.Sound first count k
  le : t.takes≤held
  all : t.party.home+t.party.away k+t.gives=q.home+q.away k+t.takes

section
variable {first count k : Nat} {held : Multiset UInt64}

theorem TxQueue.Sound.run {q : TxQueue} (h : q.Sound first count k) (sock : Sock)
    (hnd : (q.holdings k+held).Nodup) (c : TxCall) (hc : c.Allowed k q held) :
    ∃ t, c.run k q sock=some t ∧ Moves first count k (.tx q sock) held t := by
  have hnd' := (nodup_add.mp hnd).1
  cases c with
  | alloc n =>
    obtain ⟨q',descs,ha,hs,hfree,hpend,-⟩ := h.alloc n
    refine ⟨⟨.tx q' sock,bases k descs,0⟩,by rw [TxCall.run,ha]; rfl,hs,zero_le _,?_⟩
    change (q'.pool.free : Multiset UInt64)+bases k q'.pending+_ = ↑q.pool.free+bases k q.pending+0
    rw [hpend,add_right_comm,hfree,add_zero]
  | transmit descs offs =>
    obtain ⟨q',sock',n,err,ht,hs,hpool,hpend⟩ := h.transmit sock descs offs
    refine ⟨⟨.tx q' sock',0,bases k (descs.take n)⟩,by rw [TxCall.run,ht]; rfl,hs,
      (bases_take_le k n descs).trans hc,?_⟩
    change (q'.pool.free : Multiset UInt64)+bases k q'.pending+0 = ↑q.pool.free+bases k q.pending+_
    rw [hpool,hpend,add_zero,add_assoc]
  | free descs =>
    obtain ⟨hmem,hfree⟩ := h.pool.own_back hnd hc
    obtain ⟨p,hf,hs,hp⟩ := h.free hmem hfree
    refine ⟨⟨.tx { q with pool := p } sock,0,bases k descs⟩,by rw [TxCall.run,hf]; rfl,hs,hc.1,?_⟩
    change (p.free : Multiset UInt64)+bases k q.pending+0 = ↑q.pool.free+bases k q.pending+_
    rw [hp,add_zero,add_right_comm]
  | complete max =>
    obtain ⟨q',n,hq,hs,hh⟩ := h.complete hc hnd'
    exact ⟨⟨.tx q' sock,0,0⟩,by rw [TxCall.run,hq]; rfl,hs,zero_le _,congrArg (·+0) hh⟩
  | reclaim max out =>
    obtain ⟨hs,hpool,hsplit⟩ := h.reclaim max
    have hout : (q.reclaim max out).1=(q.reclaim max []).1 ∧
        (q.reclaim max out).2.drop out.length=(q.reclaim max []).2 := by
      rw [TxQueue.reclaim,TxQueue.reclaim]
      split
      case isTrue => exact ⟨rfl,List.drop_length⟩
      case isFalse => exact ⟨rfl,List.drop_left⟩
    refine ⟨_,rfl,?_,zero_le _,?_⟩
    · rwa [hout.1]
    · rw [hout.1,hout.2]
      change ((q.reclaim max []).1.pool.free : Multiset UInt64)+bases k
        (q.reclaim max []).1.pending+_ =
        ↑q.pool.free+bases k q.pending+0
      rw [hpool,add_assoc,hsplit,add_zero]
  | sendFunc n build =>
    obtain ⟨q',sock',res,hq,hs,hh⟩ := h.sendFunc sock build hc hnd'
    exact ⟨⟨.tx q' sock',0,0⟩,by rw [TxCall.run,hq]; rfl,hs,zero_le _,congrArg (·+0) hh⟩
  | close =>
    exact ⟨_,rfl,{ h with },zero_le _,rfl⟩

theorem RxQueue.Sound.run {q : RxQueue} (h : q.Sound first count k)
    (hnd : ((q.pool.free : Multiset UInt64)+0+held).Nodup) (c : RxCall) (hc : c.Allowed k q held) :
    ∃ t, c.run k q=some t ∧ Moves first count k (.rx q) held t := by
  have hreceive (max : Int) (want : Bool) : ∃ q' descs offs,
      q.receive max want=some (q',descs,offs) ∧
        Moves first count k (.rx q) held { party := .rx q', gives := bases k descs } := by
    obtain ⟨q',descs,offs,hq,hs,hfree,-⟩ := h.receive max want
    refine ⟨q',descs,offs,hq,hs,zero_le _,?_⟩
    change (q'.pool.free : Multiset UInt64)+0+_ = ↑q.pool.free+0+0
    rw [add_zero,hfree,add_zero,add_zero]
  cases c with
  | receive max =>
    obtain ⟨q',descs,offs,hq,hm⟩ := hreceive max false
    exact ⟨_,by rw [RxCall.run,hq]; rfl,hm⟩
  | receiveOffload max =>
    obtain ⟨q',descs,offs,hq,hm⟩ := hreceive max false
    exact ⟨_,by rw [RxCall.run,RxQueue.receiveOffload,hq]; rfl,hm⟩
  | receiveTimestamps max =>
    obtain ⟨q',descs,offs,hq,hm⟩ := hreceive max true
    exact ⟨_,by rw [RxCall.run,RxQueue.receiveTimestamps,hq]; rfl,hm⟩
  | recycle descs =>
    obtain ⟨hmem,hfree⟩ := h.pool.own_back hnd hc
    obtain ⟨p,hpush,hinv,hrej,hp⟩ := pushBases_spec h.pool descs hmem hfree
    refine ⟨⟨.rx { q with pool := p },0,bases k descs⟩,
      by rw [RxCall.run,RxQueue.recycle,hpush]; rfl,
      { h with pool := hinv, clean := hrej.trans h.clean },hc.1,?_⟩
    change (p.free : Multiset UInt64)+0+0 = ↑q.pool.free+0+_
    rw [hp,add_zero,add_zero,add_zero]
  | close =>
    exact ⟨_,rfl,{ h with },zero_le _,rfl⟩

theorem Queue.Sound.run {q : Queue} (h : q.Sound first count k)
    (hnd : (q.home+q.away k+held).Nodup) {ev : Event} (hev : ev.Allowed k held q) :
    ∃ t, ev.run k q=some t ∧ Moves first count k q held t := by
  cases q with
  | tx q sock =>
    cases ev with
    | tx c => exact TxQueue.Sound.run h sock hnd c hev
    | rx _ | kernel _ => cases hev
  | rx q =>
    cases ev with
    | tx c => cases hev
    | rx c => exact RxQueue.Sound.run h hnd c hev
    | kernel mem =>
      have hs := h
      exact ⟨_,rfl,{ hs with ring := ⟨hs.ring.hdr,hs.ring.size,hs.ring.block⟩ },zero_le _,rfl⟩

end

/-! Opening -/

section
variable {checked gso : Bool} {k base count per n i : Nat} {r : FrameMemory} {qs : List Queue}
  {kernels : Nat → Kernel}

structure Dealt (k base count : Nat) (qs : List Queue) : Prop where
  fits : ∀ q∈qs, q.Fits k q.home
  idle : ∀ q∈qs, q.away k=0
  all : (qs.map Queue.home).sum = ↑(frameStarts base count (2^k))

theorem Dealt.cons {q : Queue} (hs : q.Sound base per k)
    (hfree : q.pool.free=(frameStarts base per (2^k)).reverse) (hidle : q.away k=0)
    (h : Dealt k (base+per) count qs) : Dealt k base (per+count) (q::qs) := by
  have hhome : q.home = ↑(frameStarts base per (2^k)) := by
    rw [Queue.home,hfree]
    exact coe_eq_coe.mpr (List.reverse_perm _)
  refine ⟨fun q' hq' => ?_,fun q' hq' => ?_,?_⟩
  · cases List.mem_cons.mp hq' with
    | inl he => exact he ▸ ⟨base,per,hs,hhome⟩
    | inr hm => exact h.fits q' hm
  · cases List.mem_cons.mp hq' with
    | inl he => exact he ▸ hidle
    | inr hm => exact h.idle q' hm
  · rw [List.map_cons,List.sum_cons,h.all,hhome,coe_add,frameStarts_append]

section
variable (hr : r.Made k) (hk : frameHeadroom<2^k)
include hr hk

theorem newTxQueue_sound {first : Nat} {q : TxQueue} (hfit : (first+count)*2^k<2^64)
    (h : newTxQueue checked r first count gso=some q) : q.Sound first count k ∧
      q.pool.free=(frameStarts first count (2^k)).reverse ∧ q.pending = [] := by
  obtain ⟨q',hq',hidle,-⟩ := newTxQueue_some checked hr first count gso
  rw [h,some_inj] at hq'
  subst hq'
  obtain ⟨wires,-,h⟩ := bind_eq_some_iff.mp h
  rw [some_inj,hr.size] at h
  subst h
  exact ⟨⟨hr,hk,newFrames_inv checked hr.small hfit,rfl,hidle.ready,hidle.pending⟩,
    newFrames_free checked first count (2^k),rfl⟩

theorem openTx_dealt {rest : List Queue}
    (hfit : (base+(n*per+count))*2^k<2^64) (h : openTx checked r gso kernels per n i base=some qs)
    (hrest : Dealt k (base+n*per) count rest) : Dealt k base (n*per+count) (qs++rest) := by
  induction n generalizing i base qs with
  | zero =>
    cases h
    rw [zero_mul,zero_add]
    rwa [zero_mul,add_zero] at hrest
  | succ n ih =>
    have hsum : (n+1)*per+count=per+(n*per+count) := by rw [Nat.succ_mul]; omega
    rw [hsum] at hfit ⊢
    obtain ⟨q,hq,h⟩ := bind_eq_some_iff.mp h
    obtain ⟨qs',hqs',h⟩ := bind_eq_some_iff.mp h
    cases h
    have hle : (base+per)*2^k≤(base+(per+(n*per+count)))*2^k := Nat.mul_le_mul_right _ (by omega)
    obtain ⟨hs,hfree,hpend⟩ := newTxQueue_sound hr hk (by omega) hq
    refine .cons hs hfree ?_ (ih (by rwa [add_assoc]) hqs' ?_)
    · change bases k q.pending=0
      rw [hpend,bases_nil]
    · have hbase : base+(n+1)*per=base+per+n*per := by rw [Nat.succ_mul]; omega
      rwa [← hbase]

theorem openRx_dealt {rings : Nat → Ring} (hshort : 2^k≤2^32)
    (hfit : (base+n*per)*2^k≤r.b.len) (hring : ∀ i, (rings i).Mapped) :
    Dealt k base (n*per) (openRx checked r rings per n i base) := by
  induction n generalizing i base with
  | zero => exact ⟨by simp [openRx],by simp [openRx],by rw [zero_mul]; rfl⟩
  | succ n ih =>
    have hsum : (n+1)*per=per+n*per := by rw [Nat.succ_mul,add_comm]
    rw [hsum] at hfit ⊢
    have hle : (base+per)*2^k≤(base+(per+n*per))*2^k := Nat.mul_le_mul_right _ (by omega)
    obtain ⟨hsound,hfree⟩ := RxQueue.newRxQueue_sound checked hr hk hshort
      (by omega : (base+per)*2^k≤r.b.len) (hring i)
    exact .cons hsound hfree rfl (ih (by rwa [add_assoc]))

end

theorem openQueues_balanced {c : Config} (hc : c.Fits k r)
    {mems : Nat → Nat → UInt8} (h : openQueues checked c r kernels mems=some qs) :
    ({ parties := qs } : Exchange Queue UInt64).Balanced Queue.home (Queue.away k) (Queue.Fits k)
      (qs.map Queue.home) := by
  obtain ⟨txs,htxs,h⟩ := bind_eq_some_iff.mp h
  rw [some_inj] at h
  have hlen := hc.len
  have hsmall := hc.small
  have hshares := Nat.mul_le_mul_right (2^k) hc.shares
  rw [add_mul c.txQueues.toNat] at hshares
  generalize (c.frames/(c.txQueues+c.rxQueues)).toNat=per at htxs h hshares
  have hdealt : Dealt k 0 (c.txQueues.toNat*per+c.rxQueues.toNat*per) qs := by
    have hfit : (0+(c.txQueues.toNat*per+c.rxQueues.toNat*per))*2^k<2^64 := by
      rw [zero_add]
      omega
    rw [← h]
    refine openTx_dealt hc.region hc.headroom hfit htxs ?_
    rw [zero_add]
    exact openRx_dealt hc.region hc.headroom hc.short (by omega) fun i => setupRing_mapped _ _ _
  refine ⟨List.forall₂_map_right_iff.mpr (List.forall₂_same.mpr hdealt.fits),?_,?_⟩
  · rw [add_zero]
    refine congrArg List.sum (List.map_congr_left fun q hq => ?_)
    rw [hdealt.idle q hq,add_zero]
  · rw [hdealt.all]
    refine coe_nodup.mpr (nodup_frameStarts ?_)
    rw [zero_add]
    omega

end

/-- In every run of a device with any number of queues, whatever the kernel does: a frame that a
queue was opened with is on its free list, on a pending list or with the caller, and in one place
only; no push was refused; every allowed call returns; and a received descriptor starts one headroom
into a frame that was on the free list, ends in that frame, and has the length of its slot. -/
theorem device_frames_conserved (checked : Bool) (c : Config) (k : Nat) (hk : c.frameSize = 2^k)
    (hv : c.validate = none) (hfit : c.frames*c.frameSize < 2^63) {r : FrameMemory}
    (hr : newRegion c.frames c.frameSize true = .ok r) (kernels : Nat → Kernel)
    (mems : Nat → Nat → UInt8) {qs : List Queue}
    (ho : openQueues checked c r kernels mems = some qs)
    {x : Exchange Queue UInt64} (h : Exchange.Run (May k) { parties := qs } x) :
    (∀ (i : Nat) q q₀, x.parties[i]? = some q → qs[i]? = some q₀ → ∀ a ∈ q₀.home,
      (q.home+(x.parties.map (Queue.away k)).sum+x.held).count a = 1) ∧
    (∀ q ∈ x.parties, q.pool.rejected = 0) ∧
    (∀ q ∈ x.parties, ∀ ev : Event, ev.Allowed k x.held q → ∃ t, ev.run k q = some t) ∧
    ∀ q : RxQueue, .rx q ∈ x.parties → ∀ max want, ∃ q' descs offs,
      q.receive max want = some (q',descs,offs) ∧ (descs = [] ∨ ∃ s,
        (q.prepare max.toNat want).walk max.toNat want = some s ∧ q.Received k s descs) := by
  have hb : x.Balanced Queue.home (Queue.away k) (Queue.Fits k) (qs.map Queue.home) := by
    refine (openQueues_balanced (Config.fits hv hk hfit hr) ho).run ?_ h
    rintro q n held t ⟨first,count,hs,hn⟩ hnd ⟨ev,hev,ht⟩
    obtain ⟨t',ht',hmoves⟩ := hs.run hnd hev
    rw [ht,some_inj] at ht'
    subst ht'
    exact ⟨⟨first,count,hmoves.sound,hn⟩,hmoves.le,hmoves.all⟩
  have hsound {q : Queue} (hq : q∈x.parties) : ∃ first count, q.Sound first count k := by
    obtain ⟨i,hi⟩ := List.mem_iff_getElem?.mp hq
    obtain ⟨_,-,first,count,hs,-⟩ := forall₂_get hb.parties hi
    exact ⟨first,count,hs⟩
  refine ⟨fun i q q₀ hi hi0 a ha => ?_,fun q hq => ?_,fun q hq ev hev => ?_,fun q hq max want => ?_⟩
  · exact hb.count_eq_one (fun _ _ hfits => hfits.home_le) hi
      (by rw [List.getElem?_map,hi0,map_some]) ha
  · obtain ⟨first,count,hs⟩ := hsound hq
    exact hs.inv.2
  · obtain ⟨first,count,hs⟩ := hsound hq
    obtain ⟨t,ht,-⟩ := hs.run (hb.nodup_party hq) hev
    exact ⟨t,ht⟩
  · obtain ⟨first,count,hs⟩ := hsound hq
    obtain ⟨q',descs,offs,hres,-,-,hgot⟩ := RxQueue.Sound.receive hs max want
    exact ⟨q',descs,offs,hres,hgot.imp And.right fun ⟨s,hw,hd,_⟩ => ⟨s,hw,hd⟩⟩

instance (k : Nat) (q : TxQueue) (held : Multiset UInt64) (c : TxCall) :
    Decidable (c.Allowed k q held) := by
  cases c <;> unfold TxCall.Allowed <;> infer_instance

instance (k : Nat) (q : RxQueue) (held : Multiset UInt64) (c : RxCall) :
    Decidable (c.Allowed k q held) := by
  cases c <;> unfold RxCall.Allowed <;> infer_instance

instance (k : Nat) (held : Multiset UInt64) (q : Queue) (ev : Event) :
    Decidable (ev.Allowed k held q) := by
  cases q <;> cases ev <;> simp only [Event.Allowed] <;> infer_instance

/-- One event of queue `i`, if it is allowed. -/
def play (k : Nat) (x : Exchange Queue UInt64) (e : Nat × Event) :
    Option (Exchange Queue UInt64) := do
  let q ← x.parties[e.1]?
  let t ← e.2.run k q
  if e.2.Allowed k x.held q then some (x.after e.1 t) else none

theorem play_run {k : Nat} (evs : List (Nat × Event)) {x y : Exchange Queue UInt64}
    (h : evs.foldlM (play k) x=some y) : x.Run (May k) y := by
  induction evs generalizing x with
  | nil =>
    cases h
    exact .refl
  | cons e evs ih =>
    obtain ⟨z,hz,h⟩ := bind_eq_some_iff.mp h
    obtain ⟨q,hq,hz⟩ := bind_eq_some_iff.mp hz
    obtain ⟨t,ht,hz⟩ := bind_eq_some_iff.mp hz
    split at hz
    case isFalse => cases hz
    rename_i hok
    cases hz
    exact .head (.trade hq ⟨e.2,hok,ht⟩) (ih h)

def smallConfig : Config := { frames := 64, frameSize := 128 }

/-- A frame is allocated, sent and completed, and one is received and recycled. -/
def smallEvents : List (Nat × Event) :=
  [(0,.tx (.alloc 1)),(0,.tx (.transmit [⟨64,60,0⟩] none)),(0,.tx (.complete 1)),
    (1,.kernel (lonePacket 64)),(1,.rx (.receive 1)),(1,.rx (.recycle [⟨4160,64,0⟩]))]

theorem device_frames_conserved_small : ∃ qs x,
    openQueues true smallConfig crowdedMemory (fun _ => taker) (fun _ _ => 0) = some qs ∧
    smallEvents.foldlM (play 7) { parties := qs } = some x ∧ x.held = 0 ∧
    ∀ (i : Nat) q q₀, x.parties[i]? = some q → qs[i]? = some q₀ → ∀ a ∈ q₀.home,
      (q.home+(x.parties.map (Queue.away 7)).sum+x.held).count a = 1 := by
  have hend : ((openQueues true smallConfig crowdedMemory (fun _ => taker) (fun _ _ => 0)).bind
      fun qs => smallEvents.foldlM (play 7) { parties := qs }).map (·.held) =
        some 0 := by decide +kernel
  obtain ⟨x,hx,hheld⟩ := map_eq_some_iff.mp hend
  obtain ⟨qs,ho,hplay⟩ := bind_eq_some_iff.mp hx
  exact ⟨qs,x,ho,hplay,hheld,(device_frames_conserved true smallConfig 7 (by decide) (by decide)
    (by decide) rfl (fun _ => taker) (fun _ _ => 0) ho (play_run _ hplay)).1⟩

end Packetio.Afpacket

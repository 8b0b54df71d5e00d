import Packetio.Mlx5.QueueRings

/-! What each call on a queue does: it returns, keeps the free list and the rings in
order, and only moves frames between the free list, the rings and the caller. -/
namespace Packetio.Mlx5
open Lib Mlx5.Ring Pool List Nat

def ringWindows (k : Nat) (rs : List Tx) : Multiset UInt64 := (rs.map fun r => bases k r.window).sum

@[simp] theorem ringWindows_cons (k : Nat) (r : Tx) (rs : List Tx) :
    ringWindows k (r::rs) = bases k r.window+ringWindows k rs := by
  rw [ringWindows,map_cons,sum_cons,ringWindows]

def TxQueue.holdings (k : Nat) (q : TxQueue) : Multiset UInt64 := ↑q.pool.free+ringWindows k q.rings

structure TxQueue.Sound (first size k : Nat) (nics : List TxNic) (q : TxQueue) : Prop where
  pool : q.pool.Inv first size k
  clean : q.pool.rejected=0
  next : q.next<q.rings.length
  rings : List.Forall₂ Serviced q.rings nics
  mask : q.region.frameMask.toNat=2^k-1
  small : k<63

/-! Complete and Reclaim run over the rings in the same way -/

/-- The rings after the loop and the frames it met, when `total` are there already. -/
def sweep (max : Int) : List Tx → Nat → List Tx × List Desc
  | [], _ => ([],[])
  | r::rs, total =>
    if (total : Int) ≥ max then (r::rs,[])
    else
      let res := r.complete (max-total) []
      let rest := sweep max rs (total+res.2.length)
      (res.1::rest.1,res.2++rest.2)

theorem pushBases_append (p : Frames) (ds es : List Desc) :
    pushBases p (ds++es)=(pushBases p ds).bind fun p => pushBases p es := by
  induction ds generalizing p with
  | nil => rfl
  | cons d ds ih =>
    rw [cons_append,pushBases,pushBases]
    cases p.push (p.baseOf d.addr) with
    | none => rfl
    | some p' => exact ih p'

theorem completeRings_eq (max : Int) (rs : List Tx) (p : Frames) (total : Nat) :
    completeRings max rs p total=(pushBases p (sweep max rs total).2).map fun p' =>
      ((sweep max rs total).1,p',total+(sweep max rs total).2.length) := by
  induction rs generalizing p total with
  | nil => rfl
  | cons r rs ih =>
    rw [completeRings,sweep]
    split
    case isTrue => rfl
    simp only [pushBases_append]
    rcases pushBases p (r.complete (max-total) []).2 with _ | p1
    · rfl
    simp only [ih,Option.bind_some]
    cases pushBases p1 (sweep max rs (total+(r.complete (max-total) []).2.length)).2 with
    | none => rfl
    | some p2 => simp [add_assoc]

theorem reclaimRings_eq (max : Int) (before : Nat) (rs : List Tx) (out : List Desc)
    (hle : before≤out.length) : reclaimRings max before rs out =
      ((sweep max rs (out.length-before)).1,out++(sweep max rs (out.length-before)).2) := by
  induction rs generalizing out with
  | nil => simp [reclaimRings,sweep]
  | cons r rs ih =>
    have hcast : ((out.length-before : Nat) : Int)=(out.length : Int)-before := by omega
    rw [reclaimRings,sweep,hcast]
    split
    case isTrue => simp
    have hlen : (out++(r.complete (max-((out.length : Int)-before)) []).2).length-before =
        out.length-before+(r.complete (max-((out.length : Int)-before)) []).2.length := by
      rw [length_append]
      omega
    simp only [complete_out r _ out]
    rw [ih _ (by rw [length_append]; omega),hlen]
    simp

theorem sweep_spec (k : Nat) (max : Int) {rs : List Tx} {nics : List TxNic}
    (h : List.Forall₂ Serviced rs nics) (total : Nat) :
    List.Forall₂ Serviced (sweep max rs total).1 nics ∧
      ringWindows k rs=bases k (sweep max rs total).2+ringWindows k (sweep max rs total).1 := by
  induction h generalizing total with
  | nil => exact ⟨.nil,rfl⟩
  | cons hr hrs ih =>
    rw [sweep]
    split
    case isTrue => exact ⟨.cons hr hrs,by simp⟩
    obtain ⟨hserv,hwin⟩ := hr.complete (max-total)
    obtain ⟨hrest,hwins⟩ := ih (total+_)
    refine ⟨.cons hserv hrest,?_⟩
    rw [ringWindows_cons,hwin,hwins]
    simp only [bases_append,ringWindows_cons]
    rw [add_add_add_comm]

/-! The calls of a transmit queue -/

section
variable {first size k : Nat} {nics : List TxNic} {q : TxQueue}

theorem reclaim_eq (q : TxQueue) (max : Int) (out : List Desc) : q.reclaim max out =
      ({ q with rings := (sweep max q.rings 0).1 },out++(sweep max q.rings 0).2) := by
  rw [TxQueue.reclaim,reclaimRings_eq max _ q.rings _ (le_refl _),Nat.sub_self]

theorem complete_eq_reclaim (q : TxQueue) (max : Int) :
    q.complete max=((q.reclaim max []).1.free (q.reclaim max []).2).map
      fun q' => (q',(q.reclaim max []).2.length) := by
  rw [TxQueue.complete,completeRings_eq,reclaim_eq,nil_append,TxQueue.free]
  cases pushBases q.pool (sweep max q.rings 0).2 with
  | none => rfl
  | some p => simp

structure Allocated (first size k : Nat) (nics : List TxNic) (q q' : TxQueue) (descs : List Desc) :
    Prop where
  sound : q'.Sound first size k nics
  windows : ringWindows k q'.rings=ringWindows k q.rings
  free : (q.pool.free : Multiset UInt64)=(q'.pool.free : Multiset UInt64)+bases k descs
  own : ∀ d∈descs, frameOf k d∈frameStarts first size (2^k)
  same : descs ≠ [] → q'.rings=q.rings ∧ q'.next=q.next

theorem Allocated.none {q' : TxQueue} (hs : q'.Sound first size k nics) (hp : q'.pool=q.pool)
    (hw : ringWindows k q'.rings=ringWindows k q.rings) : Allocated first size k nics q q' [] :=
  ⟨hs,hw,by simp [hp],by simp,by simp⟩

namespace TxQueue.Sound
variable (h : q.Sound first size k nics)
include h

theorem reclaim (max : Int) :
    (q.reclaim max []).1.Sound first size k nics ∧ (q.reclaim max []).1.pool=q.pool ∧
      ringWindows k q.rings =
        bases k (q.reclaim max []).2+ringWindows k (q.reclaim max []).1.rings := by
  obtain ⟨hserv,hwin⟩ := sweep_spec k max h.rings 0
  have hlen : (sweep max q.rings 0).1.length=q.rings.length := by
    rw [hserv.length_eq,h.rings.length_eq]
  rw [reclaim_eq,nil_append]
  exact ⟨{ h with next := hlen ▸ h.next, rings := hserv },rfl,hwin⟩

theorem free {ds : List Desc} (hown : ∀ d∈ds, frameOf k d∈frameStarts first size (2^k))
    (hnd : ((q.pool.free : Multiset UInt64)+bases k ds).Nodup) :
    ∃ p, q.free ds=some { q with pool := p } ∧
      ({ q with pool := p } : TxQueue).Sound first size k nics ∧
      (p.free : Multiset UInt64)=(q.pool.free : Multiset UInt64)+bases k ds := by
  obtain ⟨p,hp,hinv,hrej,hfree⟩ := pushBases_spec h.pool ds hown hnd
  refine ⟨p,by rw [TxQueue.free,hp],{ h with pool := hinv, clean := hrej.trans h.clean },hfree⟩

theorem syncStalls (st : Stalls) :
    ({ q with stalls := st } : TxQueue).syncStalls.Sound first size k nics ∧
      ringWindows k ({ q with stalls := st } : TxQueue).syncStalls.rings=ringWindows k q.rings := by
  have hserv : List.Forall₂ Serviced (q.rings.map Tx.publish) nics :=
    forall₂_map_left_iff.mpr (h.rings.imp fun _ _ hr => hr.publish.1)
  refine ⟨{ h with next := ?_, rings := hserv },?_⟩
  · simpa [TxQueue.syncStalls] using h.next
  · rw [ringWindows,TxQueue.syncStalls,map_map]
    rfl

theorem alloc (n : Int) :
    ∃ q' descs, q.alloc n=some (q',descs) ∧ Allocated first size k nics q q' descs := by
  have hnext := h.next
  rw [TxQueue.alloc]
  split
  case isTrue => exact ⟨_,_,rfl,.none h rfl rfl⟩
  rw [getElem?_eq_getElem hnext]
  simp only
  rcases clamp n (q.rings[q.next]).freeSlots with _ | n1
  · exact ⟨_,_,rfl,.none (h.syncStalls _).1 rfl (h.syncStalls _).2⟩
  simp only
  rcases clamp n1 q.pool.len with _ | n2
  · exact ⟨_,_,rfl,.none (h.syncStalls _).1 rfl (h.syncStalls _).2⟩
  obtain ⟨p,taken,hpop,hinv,hfree,-,hrej,-⟩ := h.pool.pop n2 []
  have hmem : ∀ a∈taken, a∈frameStarts first size (2^k) := fun a ha =>
    h.pool.own a (hfree ▸ mem_append_right _ ha)
  -- a descriptor of Alloc starts where its frame starts
  have hbase : ∀ a∈taken, frameOf k ⟨a,0,0⟩=a := fun a ha =>
    frameOf_inside h.pool.shape.fits (hmem a ha) (Nat.two_pow_pos k) (add_zero _).symm
  have hmap : (taken.map fun addr => (⟨addr,0,0⟩ : Desc)).map (frameOf k)=taken := by
    rw [map_map]
    exact (map_congr_left fun a ha => hbase a ha).trans (map_id taken)
  simp only [hpop,nil_append]
  refine ⟨_,_,rfl,{ h with pool := hinv, clean := hrej.trans h.clean },rfl,?_,?_,
    fun _ => ⟨rfl,rfl⟩⟩
  · rw [bases,hmap,hfree,Multiset.coe_add]
  · intro d hd
    obtain ⟨a,ha,rfl⟩ := mem_map.mp hd
    rw [hbase a ha]
    exact hmem a ha

theorem transmit (descs : List Desc) :
    ∃ q' n, q.transmit descs=some (q',n) ∧ q'.Sound first size k nics ∧ q'.pool=q.pool ∧
      ringWindows k q'.rings=ringWindows k q.rings+bases k (descs.take n) := by
  have hget := getElem?_eq_getElem h.next
  obtain ⟨nic,hnic,hserv⟩ := forall₂_get h.rings hget
  obtain ⟨t,n,hp,hserv',hwin⟩ := hserv.post descs
  rw [TxQueue.transmit,hget]
  simp only [hp]
  refine ⟨_,_,rfl,{ h with next := ?_, rings := forall₂_set_left h.rings hnic hserv' },rfl,?_⟩
  · simp only [length_set]
    have hnext := h.next
    split <;> omega
  · have hsum := sum_map_set (b := t) (fun r : Tx => bases k r.window) hget
    rw [hwin,bases_append,← add_assoc,add_right_comm] at hsum
    exact add_right_cancel hsum

theorem complete {max : Int} (hown : ∀ d∈(q.reclaim max []).2, q.pool.owns d.addr=true)
    (hnd : (q.holdings k).Nodup) : ∃ q' n, q.complete max=some (q',n) ∧ q'.Sound first size k nics ∧
      q'.holdings k=q.holdings k := by
  obtain ⟨hs,hpool,hwin⟩ := h.reclaim max
  rw [TxQueue.holdings,hwin,← add_assoc] at hnd ⊢
  obtain ⟨p,hfree,hs',hp⟩ := hs.free
    (fun d hd => frameOf_mem h.pool.shape.fits h.pool.shape (hown d hd))
    (hpool ▸ (Multiset.nodup_add.mp hnd).1)
  refine ⟨_,(q.reclaim max []).2.length,?_,hs',?_⟩
  · rw [complete_eq_reclaim,hfree]
    rfl
  · rw [TxQueue.holdings,hp,hpool]

end TxQueue.Sound

/-! SendFunc -/

theorem writable_some {r : FrameMemory} (hmask : r.frameMask.toNat=2^k-1) (hk : k<63)
    (d : Desc) : ∃ s, r.writable d=some s := by
  refine r.b.writableTo_some d fun hin => ?_
  have hlen := r.b.len_lt
  have hpow : 2^k<2^63 := Nat.pow_lt_pow_right (by decide) hk
  have hpos := Nat.two_pow_pos k
  have hle : d.addr.toNat/2^k*2^k≤d.addr.toNat := Nat.div_mul_le_self _ _
  have hlt : d.addr.toNat<d.addr.toNat/2^k*2^k+2^k := Nat.lt_div_mul_add hpos
  -- the end of the frame is past its start, and does not wrap
  rw [and_not_mask hmask,← frameOf,UInt64.toNat_add,UInt64.toNat_add,frameOf_toNat,hmask]
  change _≤((_+_)%2^64+1)%2^64
  omega

namespace TxQueue.Sound
variable (h : q.Sound first size k nics)
include h

theorem sendBuilt {descs built : List Desc}
    (hown : ∀ d∈descs, frameOf k d∈frameStarts first size (2^k))
    (hnd : ((q.pool.free : Multiset UInt64)+bases k descs).Nodup)
    (hb : built.map Desc.addr=(descs.take built.length).map Desc.addr) :
    ∃ q' n, q.sendBuilt descs built=some (q',n) ∧ q'.Sound first size k nics ∧
      q'.holdings k=q.holdings k+bases k descs := by
  have hsplit : bases k descs=bases k (descs.drop built.length)+bases k built := by
    rw [bases_congr k hb,bases_split]
  have hsent : ∀ n, bases k built=bases k (built.take n)+bases k (built.drop n) := fun n => by
    rw [add_comm,bases_split]
  have hmem :=
    own_of_bases_le hown (hsplit ▸ Multiset.le_add_left _ _ : bases k built≤bases k descs)
  rw [hsplit,← add_assoc] at hnd
  obtain ⟨p1,hf1,hs1,hp1⟩ := h.free (fun d hd => hown d (mem_of_mem_drop hd))
    (Multiset.nodup_add.mp hnd).1
  obtain ⟨q2,n,ht,hs2,hpool,hwin⟩ := hs1.transmit built
  rw [hsent n,add_comm (bases k (built.take n)),← add_assoc] at hnd
  obtain ⟨p3,hf3,hs3,hp3⟩ := hs2.free (fun d hd => hmem d (mem_of_mem_drop hd))
    (by rw [hpool,hp1]; exact (Multiset.nodup_add.mp hnd).1)
  refine ⟨_,n,?_,hs3,?_⟩
  · rw [TxQueue.sendBuilt,hf1]
    simp only [ht,hf3]
  · rw [TxQueue.holdings,TxQueue.holdings,hp3,hpool,hp1,hwin,hsplit,hsent n]
    simp only [add_assoc,add_left_comm,add_comm]

theorem sendFunc {count : Int} (build : Nat → Slice → Int) (hown : q.failedInfo=none →
      ∀ d∈(q.reclaim (addInt count q.numInFlight) []).2, q.pool.owns d.addr=true)
    (hnd : (q.holdings k).Nodup) :
    ∃ q' res, q.sendFunc count build=some (q',res) ∧ q'.Sound first size k nics ∧
      q'.holdings k=q.holdings k ∧ ∀ n len, res = .error (.badLength n len) →
        ∃ q1 total, q.complete (addInt count q.numInFlight)=some (q1,total) ∧
          q'.rings=q1.rings ∧ q'.next=q1.next ∧ q'.pool.free.Perm q1.pool.free := by
  rw [TxQueue.sendFunc]
  cases hfailed : q.failedInfo with
  | some info => exact ⟨q,_,rfl,h,rfl,nofun⟩
  | none =>
    obtain ⟨q1,total,hc,hs1,hh1⟩ := h.complete (hown hfailed) hnd
    obtain ⟨q2,descs,ha,hall⟩ := hs1.alloc count
    have hh2 : q2.holdings k+bases k descs=q.holdings k := by
      rw [← hh1,TxQueue.holdings,TxQueue.holdings,hall.free,hall.windows,add_right_comm]
    simp only [hc,ha]
    rcases descs with _ | ⟨d,ds⟩
    · exact ⟨q2,_,rfl,hall.sound,by simpa using hh2,nofun⟩
    have hnd2 : ((q2.pool.free : Multiset UInt64)+bases k (d::ds)).Nodup := by
      rw [← hall.free]
      exact Multiset.coe_nodup.mpr hs1.pool.nodup
    obtain ⟨res,hb,hbuilt⟩ := buildBatch_spec SendError.badLength
      (writable_some hall.sound.mask hall.sound.small) build 0 (d::ds)
    simp only [hb]
    cases res with
    | error e =>
      obtain ⟨p,hf,hs,hp⟩ := hall.sound.free hall.own hnd2
      simp only [hf]
      refine ⟨_,_,rfl,hs,?_,fun n len _ => ⟨q1,total,rfl,?_,?_,?_⟩⟩
      · rw [← hh2,TxQueue.holdings,TxQueue.holdings,hp,add_right_comm]
      · exact (hall.same (by simp)).1
      · exact (hall.same (by simp)).2
      · exact Multiset.coe_eq_coe.mp (hp.trans hall.free.symm)
    | ok built =>
      obtain ⟨q3,n,hsend,hs,hh⟩ := hall.sound.sendBuilt hall.own hnd2 (hbuilt built rfl)
      simp only [hsend]
      exact ⟨q3,_,rfl,hs,hh.trans hh2,nofun⟩

end TxQueue.Sound

end

/-! The calls of a receive queue -/

def RxQueue.holdings (k : Nat) (q : RxQueue) : Multiset UInt64 := ↑q.pool.free+bases k q.ring.window

structure RxQueue.Sound (first size k : Nat) (q : RxQueue) : Prop where
  pool : q.pool.Inv first size k
  clean : q.pool.rejected=0
  ring : ∃ done live, q.ring.Owns done live
  sized : ∃ j, q.ring.cq.Sized j
  own : ∀ d∈q.ring.window, frameOf k d∈frameStarts first size (2^k)
  covers : (first+size)*2^k≤q.ring.region.len
  headroom : rxHeadroom<2^k

theorem Ring.Shared.bases {size : UInt32} {taken out failed : List Desc}
    (h : Shared size taken out failed) (k : Nat) : bases k taken=bases k out+bases k failed := by
  have hcons : ∀ (d : Desc) ds, Pool.bases k (d::ds) = {frameOf k d}+Pool.bases k ds :=
    fun _ _ => rfl
  induction h with
  | nil => rfl
  | out d d' haddr hlen h ih =>
    have hd : frameOf k d'=frameOf k d := by rw [frameOf,frameOf,haddr]
    rw [hcons,hcons,ih,hd,add_assoc]
  | failed d h ih => rw [hcons,hcons,ih,add_left_comm]

namespace RxQueue.Sound
variable {first size k : Nat} {q : RxQueue} (h : q.Sound first size k)
include h

theorem inside {d : Desc} (hd : frameOf k d∈frameStarts first size (2^k)) :
    d.addr.toNat<q.ring.region.len := by
  obtain ⟨j,hj,hf⟩ := (mem_frameStarts h.pool.shape.fits).mp hd
  rw [frameOf_toNat] at hf
  have hlt : d.addr.toNat<d.addr.toNat/2^k*2^k+2^k := Nat.lt_div_mul_add (Nat.two_pow_pos k)
  have hle : (first+j)*2^k+2^k≤(first+size)*2^k := by
    rw [← succ_mul]
    exact mul_le_mul_right _ (by omega)
  have hcov := h.covers
  omega

theorem recycle {ds : List Desc} (hown : ∀ d∈ds, frameOf k d∈frameStarts first size (2^k))
    (hnd : ((q.pool.free : Multiset UInt64)+bases k ds).Nodup) :
    ∃ p, q.recycle ds=some { q with pool := p } ∧
      ({ q with pool := p } : RxQueue).Sound first size k ∧
      (p.free : Multiset UInt64)=(q.pool.free : Multiset UInt64)+bases k ds := by
  obtain ⟨p,hp,hinv,hrej,hfree⟩ := pushBases_spec h.pool ds hown hnd
  exact ⟨p,by rw [RxQueue.recycle,hp],
    { h with pool := hinv, clean := hrej.trans h.clean },hfree⟩

theorem buffers {taken : List UInt64} (hmem : ∀ a∈taken, a∈frameStarts first size (2^k)) :
    (taken.map fun addr => (⟨addr+UInt64.ofNat rxHeadroom,0,0⟩ : Desc)).map (frameOf k)=taken := by
  rw [map_map]
  refine (map_congr_left fun a ha => ?_).trans (map_id taken)
  refine frameOf_inside h.pool.shape.fits (hmem a ha) h.headroom ?_
  obtain ⟨j,hj,hf⟩ := (mem_frameStarts h.pool.shape.fits).mp (hmem a ha)
  have hle : (first+j)*2^k+2^k≤(first+size)*2^k := by
    rw [← succ_mul]
    exact mul_le_mul_right _ (by omega)
  have hfit := h.pool.shape.fits
  have hhead := h.headroom
  rw [UInt64.toNat_add,UInt64.toNat_ofNat_of_lt' (by decide)]
  omega

theorem fill (n : Int) : ∃ q' posted, q.fill n=some (q',posted) ∧ q'.Sound first size k ∧
      q'.holdings k=q.holdings k := by
  rw [RxQueue.fill]
  split
  case isTrue => exact ⟨_,_,rfl,h,rfl⟩
  rcases clamp (min n q.ring.freeSlots) q.pool.len with _ | n1
  · exact ⟨_,_,rfl,{ h with },rfl⟩
  simp only
  split
  case isTrue => exact ⟨_,_,rfl,h,rfl⟩
  obtain ⟨p,taken,hpop,hinv,hfree,-,hrej,-⟩ := h.pool.pop n1 []
  have hmem : ∀ a∈taken, a∈frameStarts first size (2^k) := fun a ha =>
    h.pool.own a (hfree ▸ mem_append_right _ ha)
  have hbuf := h.buffers hmem
  simp only [hpop,nil_append]
  generalize hfill : (taken.map fun addr => (⟨addr+UInt64.ofNat rxHeadroom,0,0⟩ : Desc)) =
    ds at hbuf ⊢
  have hown : ∀ d∈ds, frameOf k d∈frameStarts first size (2^k) := fun d hd =>
    hmem _ (hbuf ▸ mem_map_of_mem hd)
  obtain ⟨done,live,ho⟩ := h.ring
  have hfilled := ho.fill ds
  have hwin : (q.ring.fill ds).1.window=q.ring.window++ds.take (q.ring.fill ds).2 := by
    rw [hfilled.owns.window,ho.window]
  have hsplit : (q.pool.free : Multiset UInt64)=(p.free : Multiset UInt64)+
      bases k (ds.drop (q.ring.fill ds).2)+bases k (ds.take (q.ring.fill ds).2) := by
    rw [add_assoc,add_comm (bases k (ds.drop _)),← bases_append,take_append_drop,bases,
      hbuf,hfree,Multiset.coe_add]
  have hnd := (Multiset.nodup_add.mp (hsplit ▸ Multiset.coe_nodup.mpr h.pool.nodup)).1
  obtain ⟨p',hp',hinv',hrej',hfree'⟩ := pushBases_spec hinv _
    (fun d hd => hown d (mem_of_mem_drop hd)) hnd
  simp only [hp']
  refine ⟨_,_,rfl,⟨hinv',hrej'.trans (hrej.trans h.clean),⟨_,_,hfilled.owns⟩,?_,?_,?_,
    h.headroom⟩,?_⟩
  · rw [hfilled.cq]
    exact h.sized
  · intro d hd
    rw [hwin] at hd
    rcases mem_append.mp hd with hd | hd
    · exact h.own d hd
    · exact hown d (mem_of_mem_take hd)
  · rw [hfilled.fixed]
    exact h.covers
  · rw [RxQueue.holdings,RxQueue.holdings,hfree',hwin,bases_append,hsplit,add_left_comm,add_comm]

theorem take (max : Int) (ts : Option (List UInt64)) (hnd : (q.holdings k).Nodup) :
    ∃ q' out ts', q.take max ts=some (q',out,ts') ∧ q'.Sound first size k ∧
      q.holdings k=q'.holdings k+bases k out := by
  obtain ⟨done,live,ho⟩ := h.ring
  obtain ⟨j,hj⟩ := h.sized
  have hcq : q.ring.cqci=UInt32.ofNat q.ring.cqci.toNat := UInt32.ofNat_toNat.symm
  have hwin := ho.window
  have hin : ∀ d∈live, d.addr.toNat<q.ring.region.len := fun d hd => h.inside (h.own d (hwin ▸ hd))
  have hturns : 2^j<q.ring.cq.entries.toNat+1 := by
    rw [hj.entries]
    omega
  obtain ⟨r,ts',haul,hr,hserved,hpre,hshared⟩ : ∃ r ts' haul,
      q.ring.receive (q.ring.cq.entries.toNat+1) max [] ts = .ok (r,haul.out,ts') ∧
      q.ring.Served done live q.ring.cqci.toNat haul r ∧ haul.taken <+: live ∧
      Shared q.ring.bufSize haul.taken haul.out haul.failed := by
    by_cases hno : max≤0 ∨ q.ring.dead.isSome=true
    · obtain ⟨r,hr,hserved⟩ := ho.receive_nothing hcq (q.ring.cq.entries.toNat+1) hno [] ts
      exact ⟨r,ts,{},hr,hserved, nil_prefix,.nil⟩
    · obtain ⟨r,ts',haul,hr,hserved,hs⟩ := ho.receive hcq hj hin hturns hno [] ts
      exact ⟨r,ts',haul,hr,hserved,hs.shared.1,hs.shared.2⟩
  obtain ⟨rest,hrest⟩ := hpre
  have hlive : live=haul.taken++live.drop haul.taken.length := by rw [← hrest,drop_left]
  have hown : ∀ d∈live, frameOf k d∈frameStarts first size (2^k) := fun d hd => h.own d (hwin ▸ hd)
  have hfailed : ∀ d∈haul.failed, frameOf k d∈frameStarts first size (2^k) := by
    intro d hd
    have hmem : frameOf k d∈bases k haul.taken := by
      rw [hshared.bases k]
      exact Multiset.mem_add.mpr (.inr (Multiset.mem_coe.mpr (mem_map_of_mem hd)))
    obtain ⟨e,he,hed⟩ := mem_map.mp (Multiset.mem_coe.mp hmem)
    exact hed ▸ hown e (hlive ▸ mem_append_left _ he)
  have hsplit : q.holdings k=(q.pool.free : Multiset UInt64)+bases k haul.failed+
      (bases k (live.drop haul.taken.length)+bases k haul.out) := by
    rw [RxQueue.holdings,hwin,hlive,bases_append,hshared.bases k,drop_left]
    simp only [add_assoc,add_left_comm,add_comm]
  obtain ⟨p,hp,hinv,hrej,hfree⟩ := pushBases_spec h.pool haul.failed hfailed
    (Multiset.nodup_add.mp (hsplit ▸ hnd)).1
  have hwin' := hserved.owns.window
  refine ⟨{ q with ring := r, pool := p },haul.out,ts',?_,
    ⟨hinv,hrej.trans h.clean,⟨_,_,hserved.owns⟩,?_,?_,?_,h.headroom⟩,?_⟩
  · rw [RxQueue.take,hr]
    simp [hserved.failed,hp]
  · exact ⟨j,hserved.cq ▸ hj⟩
  · intro d hd
    rw [hwin'] at hd
    exact hown d (mem_of_mem_drop hd)
  · rw [hserved.fixed]
    exact h.covers
  · rw [hsplit,RxQueue.holdings,hfree,hwin',← add_assoc]

theorem receive (max : Int) (hnd : (q.holdings k).Nodup) :
    ∃ q' out, q.receive max=some (q',out) ∧ q'.Sound first size k ∧
      q.holdings k=q'.holdings k+bases k out := by
  obtain ⟨q',out,ts',ht,hs,hh⟩ := h.take max none hnd
  exact ⟨q',out,by rw [RxQueue.receive,ht],hs,hh⟩

theorem receiveTimestamps (max : Int) (hnd : (q.holdings k).Nodup) :
    ∃ q' out ts, q.receiveTimestamps max=some (q',out,ts) ∧ q'.Sound first size k ∧
      q.holdings k=q'.holdings k+bases k out := by
  rw [RxQueue.receiveTimestamps]
  cases q.clock with
  | none => exact ⟨q,[],[],rfl,h,by simp⟩
  | some clock =>
    obtain ⟨q',out,ts',ht,hs,hh⟩ := h.take max (some []) hnd
    simp only [ht]
    exact ⟨_,_,_,rfl,{ hs with },hh⟩

end RxQueue.Sound

end Packetio.Mlx5

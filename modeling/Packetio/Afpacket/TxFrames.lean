import Packetio.Afpacket.TxCalls

/-! Where the frames of a transmit queue go (txqueue.go): Alloc takes them off the free list,
what was sent waits on the pending list, and Complete, Reclaim and Free take them from there. -/
namespace Packetio.Afpacket
open Pool List Option Multiset

namespace TxQueue
variable (q : TxQueue)

def alloc (n : Int) : Option (TxQueue × List Desc) :=
  if q.closed then some (q,[])
  else do
    let (pool,addrs) ← q.pool.pop (min n q.numFreeSlots) []
    some ({ q with pool },addrs.map fun a => ⟨a+UInt64.ofNat frameHeadroom,0,0⟩)

def free (descs : List Desc) : Option TxQueue := do
  let pool ← pushBases q.pool descs
  some { q with pool }

def numInFlight : Int := q.pending.length

def drop (n : Nat) : TxQueue := { q with pending := q.pending.drop n }

def complete (max : Int) : Option (TxQueue × Int) :=
  let n := min max q.pending.length
  if n≤0 then some (q,0)
  else do
    let q ← q.free (q.pending.take n.toNat)
    some (q.drop n.toNat,n)

def reclaim (max : Int) (out : List Desc) : TxQueue × List Desc :=
  let n := min max q.pending.length
  if n≤0 then (q,out) else (q.drop n.toNat,out++q.pending.take n.toNat)

def sendBuilt (sock : Sock) (descs built : List Desc) : Option (TxQueue × Sock × Nat) := do
  let q ← q.free (descs.drop built.length)
  let (q,sock,sent,_) ← q.transmit sock built none
  let q ← q.free (built.drop sent)
  some (q,sock,sent)

def sendFunc (sock : Sock) (count : Int) (build : Nat → Slice → Int) :
    Option (TxQueue × Sock × Except TxError Nat) :=
  if q.closed then some (q,sock,.error .closed)
  else do
    let (q,_) ← q.complete (addInt count q.numInFlight)
    let (q,descs) ← q.alloc count
    if descs.isEmpty then some (q,sock,.ok 0)
    else
      -- outside of the region the frame is nil, with no bytes
      let writable d := (q.region.writable d).map fun w => w.getD ⟨q.region.b.mem,0,0⟩
      let badLength (l : Int) (len : Nat) := TxError.badLength s!"{l} bytes into a {len}-byte frame"
      match ← buildBatch badLength writable build 0 descs with
      | .error e =>
        let q ← q.free descs
        some (q,sock,.error e)
      | .ok built =>
        let (q,sock,sent) ← q.sendBuilt sock descs built
        some (q,sock,.ok sent)

def holdings (k : Nat) : Multiset UInt64 := ↑q.pool.free+bases k q.pending

end TxQueue

namespace TxQueue
variable {first count k : Nat} {q : TxQueue}

theorem complete_eq_reclaim (q : TxQueue) (max : Int) :
    q.complete max=(pushBases q.pool (q.reclaim max []).2).map fun pool =>
      ({ (q.reclaim max []).1 with pool },((q.reclaim max []).2.length : Int)) := by
  rw [TxQueue.complete,TxQueue.reclaim]
  split
  case isTrue => rfl
  rename_i hpos
  have hlen : ((q.pending.take (min max q.pending.length).toNat).length : Int) =
      min max q.pending.length := by
    rw [length_take]
    omega
  simp only [TxQueue.free,nil_append,hlen]
  cases pushBases q.pool (q.pending.take (min max q.pending.length).toNat) with
  | none | some _ => rfl

structure Sound (first count k : Nat) (q : TxQueue) : Prop where
  region : q.region.Made k
  headroom : frameHeadroom<2^k
  pool : q.pool.Inv first count k
  clean : q.pool.rejected=0
  ready : q.wires.Ready
  pending : q.pending.length ≤ maxPending

namespace Sound
variable (h : q.Sound first count k)
include h

theorem alloc (n : Int) : ∃ q' descs, q.alloc n=some (q',descs) ∧ q'.Sound first count k ∧
    (q'.pool.free : Multiset UInt64)+bases k descs=q.pool.free ∧ q'.pending=q.pending ∧
    ∀ d∈descs, frameOf k d∈frameStarts first count (2^k) := by
  rw [TxQueue.alloc]
  split
  case isTrue => exact ⟨q,[],rfl,h,by rw [bases_nil,add_zero],rfl,by simp⟩
  obtain ⟨pool,taken,hpop,hinv,hfree,-,hrej,-⟩ := h.pool.pop (min n q.numFreeSlots) []
  have hmem : ∀ a∈taken, a∈frameStarts first count (2^k) := fun a ha =>
    h.pool.own a (hfree ▸ mem_append_right _ ha)
  have hbase : ∀ a∈taken, frameOf k ⟨a+UInt64.ofNat frameHeadroom,0,0⟩=a := fun a ha =>
    (frameOf_headroom h.pool.shape.fits (hmem a ha) h.headroom 0 0).2
  have hmap : (taken.map fun a => (⟨a+UInt64.ofNat frameHeadroom,0,0⟩ : Desc)).map (frameOf k) =
      taken := by
    rw [List.map_map]
    exact (map_congr_left hbase).trans (map_id taken)
  rw [hpop]
  refine ⟨_,_,rfl,{ h with pool := hinv, clean := hrej.trans h.clean },?_,rfl,?_⟩
  · rw [bases,nil_append,hmap,hfree,coe_add]
  · intro d hd
    obtain ⟨a,ha,rfl⟩ := mem_map.mp hd
    exact (hbase a ha).symm ▸ hmem a ha

theorem free {descs : List Desc} (hown : ∀ d∈descs, frameOf k d∈frameStarts first count (2^k))
    (hnd : ((q.pool.free : Multiset UInt64)+bases k descs).Nodup) :
    ∃ p, q.free descs=some { q with pool := p } ∧
    ({ q with pool := p } : TxQueue).Sound first count k ∧
      (p.free : Multiset UInt64)=(q.pool.free : Multiset UInt64)+bases k descs := by
  obtain ⟨p,hpush,hinv,hrej,hfree⟩ := pushBases_spec h.pool descs hown hnd
  refine ⟨p,?_,{ h with pool := hinv, clean := hrej.trans h.clean },hfree⟩
  rw [TxQueue.free,hpush]
  rfl

theorem reclaim (max : Int) : (q.reclaim max []).1.Sound first count k ∧
    (q.reclaim max []).1.pool=q.pool ∧
    bases k (q.reclaim max []).1.pending+bases k (q.reclaim max []).2=bases k q.pending := by
  rw [TxQueue.reclaim]
  split
  case isTrue => exact ⟨h,rfl,by rw [bases_nil,add_zero]⟩
  refine ⟨{ h with pending := ?_ },rfl,bases_split k _ q.pending⟩
  change (q.pending.drop _).length≤_
  have := h.pending
  rw [length_drop]
  omega

theorem complete {max : Int} (hown : ∀ d∈(q.reclaim max []).2, q.pool.owns d.addr=true)
    (hnd : (q.holdings k).Nodup) : ∃ q' n, q.complete max=some (q',n) ∧ q'.Sound first count k ∧
      q'.holdings k=q.holdings k := by
  obtain ⟨hs,hpool,hsplit⟩ := h.reclaim max
  have hmem : ∀ d∈(q.reclaim max []).2, frameOf k d∈frameStarts first count (2^k) := fun d hd =>
    frameOf_mem h.pool.shape.fits h.pool.shape (hown d hd)
  rw [TxQueue.holdings,← hsplit,add_comm (bases k _),← add_assoc] at hnd
  obtain ⟨p,hpush,hinv,hrej,hp⟩ := pushBases_spec h.pool _ hmem (nodup_add.mp hnd).1
  refine ⟨{ (q.reclaim max []).1 with pool := p },_,by rw [complete_eq_reclaim,hpush]; rfl,
    { hs with pool := hinv, clean := hrej.trans h.clean },?_⟩
  rw [TxQueue.holdings,TxQueue.holdings,hp,← hsplit,add_assoc,add_comm (bases k _)]

theorem transmit (sock : Sock) (descs : List Desc) (offs : Option (List Offload)) :
    ∃ q' sock' n err, (TxSend.frames descs offs).on q sock=some (q',sock',n,err) ∧
      q'.Sound first count k ∧ q'.pool=q.pool ∧
      bases k q'.pending=bases k q.pending+bases k (descs.take n) := by
  obtain ⟨q',sock',m,n,err,hres,hn,hidle,htakes⟩ :=
    TxSend.frames_takes ⟨⟨k,h.region⟩,h.ready,h.pending⟩ sock descs offs
  refine ⟨q',sock',n,err,hres,⟨htakes.region ▸ h.region,h.headroom,htakes.pool ▸ h.pool,
    htakes.pool ▸ h.clean,hidle.ready,hidle.pending⟩,htakes.pool,?_⟩
  rw [htakes.pending,packets_take,packets_flat,bases_append,hn,chains_taken]

theorem sendBuilt (sock : Sock) {descs built : List Desc}
    (hown : ∀ d∈descs, frameOf k d∈frameStarts first count (2^k))
    (hnd : ((q.pool.free : Multiset UInt64)+bases k descs).Nodup)
    (hb : built.map Desc.addr=(descs.take built.length).map Desc.addr) :
    ∃ q' sock' n, q.sendBuilt sock descs built=some (q',sock',n) ∧ q'.Sound first count k ∧
      q'.holdings k=q.holdings k+bases k descs := by
  have hsplit : bases k descs=bases k (descs.drop built.length)+bases k built := by
    rw [bases_congr k hb,bases_split]
  have hmem := own_of_bases_le hown (hsplit ▸ le_add_left _ _ : bases k built≤bases k descs)
  rw [hsplit,← add_assoc] at hnd
  obtain ⟨p1,hf1,hs1,hp1⟩ := h.free (fun d hd => hown d (mem_of_mem_drop hd))
    (nodup_add.mp hnd).1
  obtain ⟨q2,sock2,n,err,ht,hs2,hpool,hpend⟩ := hs1.transmit sock built none
  rw [← bases_split k n built,← add_assoc] at hnd
  obtain ⟨p3,hf3,hs3,hp3⟩ := hs2.free (fun d hd => hmem d (mem_of_mem_drop hd))
    (by rw [hpool,hp1]; exact (nodup_add.mp hnd).1)
  refine ⟨_,sock2,n,?_,hs3,?_⟩
  · rw [TxSend.frames,TxSend.on] at ht
    simp only [TxQueue.sendBuilt,hf1,ht,hf3,bind_eq_bind,bind_some]
  · rw [TxQueue.holdings,TxQueue.holdings,hp3,hpool,hp1,hpend,hsplit,← bases_split k n built]
    simp only [add_assoc,add_left_comm,add_comm]

theorem sendFunc (sock : Sock) {n : Int} (build : Nat → Slice → Int) (hown : q.closed=false →
      ∀ d∈(q.reclaim (addInt n q.numInFlight) []).2, q.pool.owns d.addr=true)
    (hnd : (q.holdings k).Nodup) :
    ∃ q' sock' res, q.sendFunc sock n build=some (q',sock',res) ∧ q'.Sound first count k ∧
      q'.holdings k=q.holdings k := by
  rw [TxQueue.sendFunc]
  split
  case isTrue => exact ⟨q,sock,_,rfl,h,rfl⟩
  rename_i hclosed
  obtain ⟨q1,total,hc,hs1,hh1⟩ := h.complete (hown (by simpa using hclosed)) hnd
  obtain ⟨q2,descs,ha,hs2,hfree,hpend,hmem⟩ := hs1.alloc n
  have hh2 : q2.holdings k+bases k descs=q.holdings k := by
    rw [← hh1,TxQueue.holdings,TxQueue.holdings,← hfree,hpend,add_right_comm]
  have hnd2 : ((q2.pool.free : Multiset UInt64)+bases k descs).Nodup := by
    rw [hfree]
    exact coe_nodup.mpr hs1.pool.nodup
  simp only [hc,ha,bind_eq_bind,bind_some]
  split
  case isTrue hnone =>
    rw [isEmpty_iff.mp hnone,bases_nil,add_zero] at hh2
    exact ⟨q2,sock,_,rfl,hs2,hh2⟩
  have hw (d : Desc) : ∃ s, (q2.region.writable d).map
      (fun w => w.getD ⟨q2.region.b.mem,0,0⟩)=some s := by
    obtain ⟨w,hw,-⟩ := writable_spec hs2.region d
    exact ⟨_,by rw [hw]; rfl⟩
  obtain ⟨res,hb,hbuilt⟩ := buildBatch_spec
    (fun l len => TxError.badLength s!"{l} bytes into a {len}-byte frame") hw build 0 descs
  simp only [hb,bind_some]
  cases res with
  | error e =>
    obtain ⟨p,hf,hs,hp⟩ := hs2.free hmem hnd2
    simp only [hf,bind_some]
    refine ⟨_,sock,_,rfl,hs,?_⟩
    rw [← hh2,TxQueue.holdings,TxQueue.holdings,hp,add_right_comm]
  | ok built =>
    obtain ⟨q3,sock3,sent,hsend,hs,hh⟩ := hs2.sendBuilt sock hmem hnd2 (hbuilt built rfl)
    simp only [hsend,bind_some]
    exact ⟨q3,sock3,_,rfl,hs,hh.trans hh2⟩

end Sound

end TxQueue

end Packetio.Afpacket

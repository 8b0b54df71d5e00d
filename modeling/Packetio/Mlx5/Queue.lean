import Packetio.Mlx5.Clock
import Packetio.Mlx5.Ring.Rx
import Packetio.PoolFrames

/-! The queues of a ConnectX device (txqueue.go, rxqueue.go): a transmit queue deals
batches round-robin to its rings and draws on one free list, a receive queue has one
ring and one free list. A result of `none` is a run-time panic. Both are open, and
placed on their processor. -/
namespace Packetio.Mlx5
open Mlx5.Ring Pool

structure FrameMemory where
  b : Region
  frameMask : UInt64

def FrameMemory.writable (r : FrameMemory) (d : Desc) : Option Slice :=
  r.b.writableTo d ((d.addr &&& ~~~r.frameMask)+r.frameMask+1)

structure Stalls where
  ringFull : UInt64 := 0
  poolEmpty : UInt64 := 0
  deriving DecidableEq, Repr

structure TxQueue where
  region : FrameMemory
  rings : List Tx
  next : Nat := 0
  pool : Frames
  stalls : Stalls := {}
  stats : Stalls := {}

def newTxQueue (checked : Bool) (region : FrameMemory) (firstFrame frames frameSize : Nat)
    (cfgs : List TxConfig) : Except String TxQueue :=
  match cfgs.mapM newTx with
  | .error e => .error e
  | .ok rings => .ok
      { region := region, rings := rings, pool := newFrames checked firstFrame frames frameSize }

def TxQueue.syncStalls (q : TxQueue) : TxQueue :=
  { q with stats := q.stalls, rings := q.rings.map Tx.publish }

def TxQueue.alloc (q : TxQueue) (n : Int) : Option (TxQueue × List Desc) :=
  if n≤0 then some (q,[])
  else match q.rings[q.next]? with
    | none => none
    | some r => match clamp n r.freeSlots with
      | none => some (({ q with stalls.ringFull := q.stalls.ringFull+1 } : TxQueue).syncStalls,[])
      | some n => match clamp n q.pool.len with
        | none =>
          some (({ q with stalls.poolEmpty := q.stalls.poolEmpty+1 } : TxQueue).syncStalls,[])
        | some n => match q.pool.pop n [] with
          | none => none
          | some (p,addrs) => some ({ q with pool := p },addrs.map fun addr => ⟨addr,0,0⟩)

def TxQueue.transmit (q : TxQueue) (descs : List Desc) : Option (TxQueue × Nat) :=
  match q.rings[q.next]? with
  | none => none
  | some r => match r.post descs with
    | none => none
    | some (r,n) => some ({ q with
        rings := q.rings.set q.next r
        next := if q.next+1=q.rings.length then 0 else q.next+1 },n)

def completeRings (max : Int) : List Tx → Frames → Nat → Option (List Tx × Frames × Nat)
  | [], p, total => some ([],p,total)
  | r::rs, p, total =>
    if (total : Int) ≥ max then some (r::rs,p,total)
    else
      let res := r.complete (max-total) []
      match pushBases p res.2 with
      | none => none
      | some p => match completeRings max rs p (total+res.2.length) with
        | none => none
        | some (rs,p,total) => some (res.1::rs,p,total)

def TxQueue.complete (q : TxQueue) (max : Int) : Option (TxQueue × Nat) :=
  match completeRings max q.rings q.pool 0 with
  | none => none
  | some (rings,p,total) => some ({ q with rings := rings, pool := p },total)

def reclaimRings (max : Int) (before : Nat) : List Tx → List Desc → List Tx × List Desc
  | [], out => ([],out)
  | r::rs, out =>
    if (out.length : Int)-before ≥ max then (r::rs,out)
    else
      let res := r.complete (max-(out.length-before)) out
      let rest := reclaimRings max before rs res.2
      (res.1::rest.1,rest.2)

def TxQueue.reclaim (q : TxQueue) (max : Int) (out : List Desc) : TxQueue × List Desc :=
  let res := reclaimRings max out.length q.rings out
  ({ q with rings := res.1 },res.2)

def TxQueue.free (q : TxQueue) (descs : List Desc) : Option TxQueue :=
  match pushBases q.pool descs with
  | none => none
  | some p => some { q with pool := p }

def TxQueue.numCompleted (q : TxQueue) : Nat := (q.rings.map fun r => r.completable).sum

def TxQueue.numInFlight (q : TxQueue) : Nat := (q.rings.map fun r => r.inFlight).sum

def TxQueue.failedInfo (q : TxQueue) : Option ErrorInfo := q.rings.findSome? (·.failed)

inductive SendError where
  | queueFailed (info : ErrorInfo)
  | badLength (n : Int) (frame : Nat)

def TxQueue.sendBuilt (q : TxQueue) (descs built : List Desc) : Option (TxQueue × Nat) :=
  match q.free (descs.drop built.length) with
  | none => none
  | some q => match q.transmit built with
    | none => none
    | some (q,sent) => match q.free (built.drop sent) with
      | none => none
      | some q => some (q,sent)

def TxQueue.sendFunc (q : TxQueue) (count : Int) (build : Nat → Slice → Int) :
    Option (TxQueue × Except SendError Nat) :=
  match q.failedInfo with
  | some info => some (q,.error (.queueFailed info))
  | none => match q.complete (addInt count q.numInFlight) with
    | none => none
    | some (q,_) => match q.alloc count with
      | none => none
      | some (q,[]) => some (q,.ok 0)
      | some (q,descs) => match buildBatch SendError.badLength q.region.writable build 0 descs with
        | none => none
        | some (.error e) => match q.free descs with
          | none => none
          | some q => some (q,.error e)
        | some (.ok built) => match q.sendBuilt descs built with
          | none => none
          | some (q,sent) => some (q,.ok sent)

structure RxQueue where
  ring : Rx
  pool : Frames
  clock : Option Clock.Counter
  poolEmpty : UInt64 := 0

def rxHeadroom : Nat := 64

def newRxQueue (checked : Bool) (firstFrame frames frameSize : Nat) (cfg : RxConfig)
    (clock : Clock.Info) : Except String RxQueue :=
  match newRx { cfg with bufferSize := UInt32.ofNat (frameSize-rxHeadroom) } with
  | .error e => .error e
  | .ok r => .ok
      { ring := r, pool := newFrames checked firstFrame frames frameSize
        clock := if clock.ok then some { info := clock } else none }

def RxQueue.fill (q : RxQueue) (n : Int) : Option (RxQueue × Nat) :=
  if n≤0 then some (q,0)
  else match clamp (min n q.ring.freeSlots) q.pool.len with
    | none => some ({ q with poolEmpty := q.poolEmpty+1 },0)
    | some n =>
      if n=0 then some (q,0)
      else match q.pool.pop n [] with
        | none => none
        | some (p,addrs) =>
          let fill := addrs.map fun addr => ⟨addr+UInt64.ofNat rxHeadroom,0,0⟩
          let posted := (q.ring.fill fill).2
          -- anything the queue would not take goes straight back
          match pushBases p (fill.drop posted) with
          | none => none
          | some p => some ({ q with ring := (q.ring.fill fill).1, pool := p },posted)

def RxQueue.take (q : RxQueue) (max : Int) (ts : Option (List UInt64)) :
    Option (RxQueue × List Desc × Option (List UInt64)) :=
  match q.ring.receive (q.ring.cq.entries.toNat+1) max [] ts with
  | .ok (r,out,ts) => match pushBases q.pool r.failed with
    | none => none
    | some p => some ({ q with ring := r, pool := p },out,ts)
  | .crash => none
  | .hang => none

def RxQueue.receive (q : RxQueue) (max : Int) : Option (RxQueue × List Desc) :=
  match q.take max none with
  | none => none
  | some (q,out,_) => some (q,out)

def RxQueue.receiveTimestamps (q : RxQueue) (max : Int) :
    Option (RxQueue × List Desc × List UInt64) :=
  match q.clock with
  | none => some (q,[],[])
  | some clock => match q.take max (some []) with
    | none => none
    | some (q,out,ts) =>
      let res := clock.nsAll (ts.getD [])
      some ({ q with clock := some res.1 },out,res.2)

def RxQueue.recycle (q : RxQueue) (descs : List Desc) : Option RxQueue :=
  match pushBases q.pool descs with
  | none => none
  | some p => some { q with pool := p }

end Packetio.Mlx5

import Packetio.Dpdk.PortFrames

/-! One transmit queue over several rings (queues.go): Transmit deals each batch to one
ring and goes on to the next, Complete goes round all of them, and Free looks for the
ring that a frame is of. -/
namespace Packetio.Dpdk

structure TxQueue where
  port : Port
  next : Nat := 0
  txChecksums : Bool := false

structure BadLength where
  n : Int
  frame : Nat

namespace TxQueue
variable (k : Nat)

def ring (q : TxQueue) (i : Nat) : Option Tx :=
  match q.port.sides[i]? with
  | some ⟨.tx t,_⟩ => some t
  | _ => none

/-- A call of ring `i`. -/
def on (q : TxQueue) (i : Nat) (c : TxCall) : Option (TxQueue × Effect) :=
  match q.port.call k i (.tx c) with
  | none => none
  | some (p,e) => some ({ q with port := p },e)

def advance (q : TxQueue) : TxQueue :=
  { q with next := if q.next+1=q.port.sides.length then 0 else q.next+1 }

def alloc (q : TxQueue) (n : Int) : Option (TxQueue × List Desc) :=
  match q.on k q.next (.alloc n) with
  | none => none
  | some (q,e) => some (q,e.descs)

/-- `sent` is what the driver takes, as in a call of the ring. -/
def transmit (q : TxQueue) (descs : List Desc) (sent : Nat) : Option (TxQueue × Nat) :=
  match q.on k q.next (.transmit descs none sent) with
  | none => none
  | some (q,e) => some (q.advance,e.count)

def transmitOffload (q : TxQueue) (descs : List Desc) (offs : List Offload) (sent : Nat) :
    Option (TxQueue × Nat) :=
  if !q.txChecksums then some (q,0)
  else match q.on k q.next (.transmit descs (some offs) sent) with
    | none => none
    | some (q,e) => some (q.advance,e.count)

/-- The loop of Complete, over rings and with `total` so far. What the driver does when
it is asked inside of it is the same before. -/
def completeRings (max : Int) : List Nat → TxQueue → Nat → Option (TxQueue × Nat)
  | [], q, total => some (q,total)
  | i::is, q, total =>
    if (total : Int) ≥ max then some (q,total)
    else match q.on k i (.complete (max-total)) with
      | none => none
      | some (q,e) => completeRings max is q (total+e.count)

def complete (q : TxQueue) (max : Int) : Option (TxQueue × Nat) :=
  completeRings k max (List.range q.port.sides.length) q 0

def reclaimRings (max : Int) : List Nat → TxQueue → List Desc → Option (TxQueue × List Desc)
  | [], q, got => some (q,got)
  | i::is, q, got =>
    if (got.length : Int) ≥ max then some (q,got)
    else match q.on k i (.reclaim (max-got.length) []) with
      | none => none
      | some (q,e) => reclaimRings max is q (got++e.descs)

def reclaim (q : TxQueue) (max : Int) (out : List Desc) : Option (TxQueue × List Desc) :=
  match reclaimRings k max (List.range q.port.sides.length) q [] with
  | none => none
  | some (q,got) => some (q,out++got)

def owner (q : TxQueue) (addr : UInt64) : Nat :=
  (q.port.sides.findIdx? fun x => x.q.base.owns addr).getD 0

def free : List Desc → TxQueue → Option TxQueue
  | [], q => some q
  | d::ds, q => match q.on k (q.owner d.addr) (.free [d]) with
    | none => none
    | some (q,_) => free ds q

def writable (l : Mbuf.Layout) (r : Region) (d : Desc) : Option Slice :=
  r.writableTo d ((d.addr &&& ~~~UInt64.ofNat (l.frameSize-1))+UInt64.ofNat l.frameSize)

/-- Transmit on ring `i` what was built, and put back what was not sent. -/
def sendBuilt (q : TxQueue) (i : Nat) (descs built : List Desc) (sent : Nat) :
    Option (TxQueue × Nat) :=
  match q.on k i (.free (descs.drop built.length)) with
  | none => none
  | some (q,_) => match q.on k i (.transmit built none sent) with
    | none => none
    | some (q,e) => match q.on k i (.free (built.drop e.count)) with
      | none => none
      | some (q,_) => some (q,e.count)

def sendRing (q : TxQueue) (i : Nat) (t : Tx) (count : Int) (build : Nat → Slice → Int)
    (sent : Nat) :
    Option (TxQueue × Except BadLength Nat) :=
  match q.on k i (.complete (addInt count t.numInFlight)) with
  | none => none
  | some (q,_) => match q.on k i (.alloc count) with
    | none => none
    | some (q,e) =>
      if e.descs.length=0 then some (q,.ok 0)
      else match buildBatch BadLength.mk (writable t.l q.port.region) build 0 e.descs with
        | none => none
        | some (.error bad) => match q.on k i (.free e.descs) with
          | none => none
          | some (q,_) => some (q,.error bad)
        | some (.ok built) => match q.sendBuilt k i e.descs built sent with
          | none => none
          | some (q,sent) => some (q,.ok sent)

def sendFunc (q : TxQueue) (count : Int) (build : Nat → Slice → Int) (sent : Nat) :
    Option (TxQueue × Except BadLength Nat) :=
  match q.ring q.next with
  | none => none
  | some t => q.advance.sendRing k q.next t count build sent

def numFreeFrames (q : TxQueue) : Nat := (q.port.sides.map fun x => x.q.base.pool.len).sum

def numInFlight (q : TxQueue) : Int := (q.port.sides.map fun x => x.q.count).sum

end TxQueue

end Packetio.Dpdk

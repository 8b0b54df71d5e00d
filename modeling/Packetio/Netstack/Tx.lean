import Packetio.Netstack.Gso

/-! Sending (tx.go): a batch of packets, built straight into the device's frames. The device
answers each attempt in its own way; time and memory are part of the answer. `none` is a
run-time panic. -/
namespace Packetio.Netstack
open Lib

/-! One packet in one frame -/

/-- The views copied one after the other behind `n` bytes of the frame, `off` bytes of them
skipped. -/
def copyViews : List (List UInt8) → Nat → Nat → List UInt8 → List UInt8 × Nat
  | [], _, n, frame => (frame,n)
  | v::vs, off, n, frame =>
    if v.length≤off then copyViews vs (off-v.length) n frame
    else
      let s := (v.drop off).take (frame.length-n)
      copyViews vs 0 (n+s.length) (patch frame n s)

def copyPacket (frame : List UInt8) (p : PacketBuffer) : Option (List UInt8 × Nat) := do
  let (frame,n) := copyViews p.views p.headerOffset 0 frame
  if n < minFrameLen then
    let frame ← put frame n (List.replicate (minFrameLen-n) 0)
    some (frame,minFrameLen)
  else some (frame,n)

def buildWhole (linkLen : Nat) (frame : List UInt8) (p : PacketBuffer) :
    Option (List UInt8 × Nat) := do
  let (frame,length) ← copyPacket frame p
  let frame ← if needsChecksum p then finishTCPChecksum frame linkLen else some frame
  some (frame,length)

/-! The builder -/

structure Counters where
  tx : Nat := 0
  txDropped : Nat := 0
  txWaited : Nat := 0
  gsoPackets : Nat := 0
  gsoFrames : Nat := 0
  deriving DecidableEq, Repr

structure Copier where
  pkts : List PacketBuffer
  segs : List Nat
  /-- The packet being emitted. -/
  p : Nat
  /-- The frame being built. -/
  frame : Nat
  s : Segmenter
  /-- `s` is at work on packet `p`. -/
  gso : Bool
  deriving DecidableEq, Repr

/-- `s` made ready for the packet, where it is not yet. -/
def Copier.start (linkLen : Nat) (c : Copier) (k : Counters) (pkt : PacketBuffer) (seg : Nat) :
    Option (Copier × Counters) := do
  if c.gso then some (c,k)
  else
    let s ← c.s.init pkt linkLen
    some ({ c with s, gso := true },
      { k with gsoPackets := k.gsoPackets+1, gsoFrames := k.gsoFrames+seg })

def Copier.build (linkLen : Nat) (c : Copier) (k : Counters) (i : Nat) (frame : List UInt8) :
    Option (Copier × Counters × List UInt8 × Nat) := do
  if i≠c.frame then some (c,k,frame,0)
  else
    let c := { c with frame := c.frame+1 }
    let pkt ← c.pkts[c.p]?
    let seg ← c.segs[c.p]?
    if seg=1 then
      let (frame,length) ← buildWhole linkLen frame pkt
      some ({ c with p := c.p+1 },k,frame,length)
    else
      let (c,k) ← c.start linkLen k pkt seg
      let (s,frame,length) ← c.s.next frame
      if s.done then some ({ c with s, gso := false, p := c.p+1 },k,frame,length)
      else some ({ c with s },k,frame,length)

structure Built where
  memory : List UInt8
  bytes : List UInt8
  deriving DecidableEq, Repr

def Copier.buildAll (linkLen : Nat) :
    List (List UInt8) → Nat → Copier → Counters → Option (Copier × Counters × List Built)
  | [], _, c, k => some (c,k,[])
  | memory::mems, i, c, k => do
    let (c,k,frame,length) ← c.build linkLen k i memory
    let (c,k,built) ← buildAll linkLen mems (i+1) c k
    some (c,k,⟨memory,frame.take length⟩::built)

/-! The queue -/

structure Endpoint where
  linkLen : Nat
  directTx : Bool
  txClosed : Bool
  deriving DecidableEq, Repr

structure TxQueue where
  builder : Copier
  counters : Counters
  deriving DecidableEq, Repr

structure Attempt where
  /-- The queue has failed. -/
  err : Bool
  /-- The free slots or the free frames, whichever is less, once completions are taken. -/
  budget : Int
  /-- The frames that SendFunc has built, up to the count it is given. -/
  frames : List (List UInt8)
  /-- How many of these it reports as sent. -/
  taken : Nat
  sendErr : Bool
  /-- The time to wait is over after this attempt. -/
  late : Bool
  deriving DecidableEq, Repr

def TxQueue.transmit (e : Endpoint) (q : TxQueue) (a : Attempt) (pkts : List PacketBuffer) :
    Option (TxQueue × Nat × Bool × List Built) := do
  if a.err then some (q,0,true,[])
  else if a.budget≤0 then some (q,0,false,[])
  else
    let budget := a.budget.toNat
    let segs := (pkts.map segments).take budget
    let (admitted,frames) := admitPackets segs budget
    if admitted=0 then some (q,0,false,[])
    else
      let segs := segs.take admitted
      let c := { q.builder with pkts := pkts.take admitted, segs, p := 0, gso := false, frame := 0 }
      let (c,k,built) ← c.buildAll e.linkLen (a.frames.take frames) 0 q.counters
      let n := min a.taken built.length
      let q := ⟨{ c with pkts := [], segs := [] },{ k with tx := k.tx+n }⟩
      if a.sendErr then some (q,0,true,built.take n)
      else
        -- a packet that went out in part counts as sent
        let (sent,whole) := admitPackets segs n
        some (q,if whole<n then sent+1 else sent,false,built.take n)

structure Outcome where
  queue : TxQueue
  sent : Nat
  closed : Bool
  /-- All frames reported sent during the call. -/
  wire : List Built
  deriving DecidableEq, Repr

def TxQueue.drop (q : TxQueue) (n : Nat) : TxQueue :=
  { q with counters := { q.counters with txDropped := q.counters.txDropped+n } }

def TxQueue.wait (q : TxQueue) : TxQueue :=
  { q with counters := { q.counters with txWaited := q.counters.txWaited+1 } }

section
variable (e : Endpoint) (device : Nat → Attempt) (pkts : List PacketBuffer)

/-- The loop, from attempt `t` on. It has no bound of its own: it ends when time is up. -/
def TxQueue.writeLoop : Nat → Nat → TxQueue → Nat → Bool → List Built → Option Outcome
  | 0, _, _, _, _, _ => none
  | fuel+1, t, q, sent, waiting, wire => do
    if pkts.length ≤ sent then some ⟨q.drop (pkts.length-sent),sent,false,wire⟩
    else
      let (q,n,err,frames) ← q.transmit e (device t) (pkts.drop sent)
      let sent := sent+n
      let wire := wire++frames
      if err then some ⟨q.drop (pkts.length-sent),sent,true,wire⟩
      else if 0<n then writeLoop fuel (t+1) q sent waiting wire
      else if e.directTx then some ⟨q.drop (pkts.length-sent),sent,false,wire⟩
      else if !waiting then writeLoop fuel (t+1) q.wait sent true wire
      else if (device t).late then some ⟨q.drop (pkts.length-sent),sent,false,wire⟩
      else writeLoop fuel (t+1) q sent waiting wire

def TxQueue.writePackets (fuel : Nat) (q : TxQueue) : Option Outcome :=
  if pkts.length=0 then some ⟨q,0,false,[]⟩
  else if e.txClosed then some ⟨q,0,true,[]⟩
  else q.writeLoop e device pkts fuel 0 0 false []

end

end Packetio.Netstack

import Packetio.Afpacket.Ring
import Packetio.PoolFrames

/-! The transmit queue of a packet socket (txqueue.go): packets go to the kernel in batches of
messages, each of them a list of pointers, and wait on a pending list until the caller asks for
the frames. A result of `none` is a run-time panic, or a loop that does not end. -/
namespace Packetio.Afpacket
open Pool

def txBatch : Nat := 256
def maxChainBufs : Nat := 1023
def chainIovBudget : Nat := 2048
def maxPending : Nat := 4096
def frameHeadroom : Nat := 64

structure FrameMemory where
  b : Region
  frameSize : Nat
  frameMask : UInt64

theorem region_len_lt {n : Int} (h : n<2^63) : n.toNat<2^63 := by omega

/-- New memory, where the kernel has `n` bytes to map. -/
def newRegion (frames frameSize : Int) (mapped : Bool) : Except String FrameMemory :=
  let n := Int.bmod (frames*frameSize) (2^64)
  if frames≤0 ∨ frameSize≤0 then
    .error s!"afpacket: a region of {frames} frames of {frameSize} bytes"
  else if frameSize.toNat &&& (frameSize.toNat-1)≠0 then
    .error s!"afpacket: frame size {frameSize} is not a power of two"
  else if h : mapped ∧ 0<n ∧ n<2^63 then
    .ok ⟨⟨fun _ => 0,n.toNat,region_len_lt h.2.2⟩,frameSize.toNat,UInt64.ofNat (frameSize.toNat-1)⟩
  else .error s!"afpacket: mapping {n} bytes of frame memory"

def FrameMemory.writable (r : FrameMemory) (d : Desc) : Option (Option Slice) :=
  if d.addr.toNat ≥ r.b.len then some none
  else
    let stop := (d.addr &&& ~~~r.frameMask)+r.frameMask+1
    (r.b.slice d.addr (if stop.toNat > r.b.len then UInt64.ofNat r.b.len else stop)).map some

inductive Ptr
  | hdr (gen i : Nat)
  | region (addr : Nat)
  | caller (addr : Nat)
  deriving DecidableEq

structure Iovec where
  base : Option Ptr := none
  len : Nat := 0
  deriving DecidableEq

inductive IovPtr
  | null
  | iovs (i : Nat)
  | iovs2 (i : Nat)
  | chain (gen i : Nat)
  deriving DecidableEq

structure Msghdr where
  iov : IovPtr := .null
  iovlen : Nat := 0
  deriving DecidableEq

structure Growing (α : Type) where
  gen : Nat := 0
  len : Nat := 0
  cap : Nat := 0
  cells : Nat → Nat → α

section
variable {α : Type} (g : Growing α)

def Growing.make (n : Nat) (zero : α) : Growing α :=
  { gen := g.gen+1, len := n, cap := n, cells := Function.update g.cells (g.gen+1) fun _ => zero }

/-- `if cap(g) < n { g = make(n) }; g = g[:n]` -/
def Growing.resize (n : Nat) (zero : α) : Growing α :=
  if g.cap<n then g.make n zero else { g with len := n }

/-- `if len(g) < n { g = make(n) }` -/
def Growing.reserve (n : Nat) (zero : α) : Growing α := if g.len<n then g.make n zero else g

def Growing.assign (i : Nat) (v : α) : Growing α :=
  { g with cells := Function.update g.cells g.gen (Function.update (g.cells g.gen) i v) }

/-- `g[i] = v` -/
def Growing.set (i : Nat) (v : α) : Option (Growing α) :=
  if i<g.len then some (g.assign i v) else none

end

structure Wiring where
  gso : Bool
  msgs : Nat → Msghdr := fun _ => {}
  iovs : Nat → Iovec := fun _ => {}
  iovs2 : Nat → Iovec := fun _ => {}
  hdrs : Growing (List UInt8)
  chainIovs : Growing Iovec := { cells := fun _ _ => {} }
  msgsChained : Bool := false

def zeroHdr : List UInt8 := List.replicate offloadHdrLen 0

/-- One turn of the loop of `wireOnePerPacket`. -/
def Wiring.wireOne (w : Wiring) (i : Nat) : Option Wiring :=
  if w.gso then do
    let msgs ← put txBatch w.msgs i ⟨.iovs2 (2*i),2⟩
    if i<w.hdrs.len then
      let iovs2 ← put (2*txBatch) w.iovs2 (2*i) ⟨some (.hdr w.hdrs.gen i),offloadHdrLen⟩
      some { w with msgs, iovs2 }
    else none
  else do
    some { w with msgs := ← put txBatch w.msgs i ⟨.iovs i,1⟩ }

def Wiring.wireFrom (w : Wiring) : Nat → Nat → Option Wiring
  | _, 0 => some w
  | i, n+1 => do (← w.wireOne i).wireFrom (i+1) n

def Wiring.wireOnePerPacket (w : Wiring) : Option Wiring := do
  some { ← w.wireFrom 0 txBatch with msgsChained := false }

def Wiring.restored (w : Wiring) : Option Wiring :=
  if w.msgsChained then w.wireOnePerPacket else some w

def regionIovec (r : FrameMemory) (d : Desc) : Option Iovec :=
  if d.addr.toNat<r.b.len then some ⟨some (.region d.addr.toNat),d.len.toNat⟩ else none

/-- Message `i` gets its frame, and its header where there is one. -/
def Wiring.aim (w : Wiring) (r : FrameMemory) (i : Nat) (d : Desc) (o : Offload) :
    Option Wiring := do
  let iovec ← regionIovec r d
  if w.gso then
    let hdrs ← w.hdrs.set i o.marshal
    some { w with hdrs, iovs2 := ← put (2*txBatch) w.iovs2 (2*i+1) iovec }
  else some { w with iovs := ← put txBatch w.iovs i iovec }

/-- The iovecs of one message, in `chainIovs` from entry `pos` on. -/
def Wiring.layIovecs (w : Wiring) (pos : Nat) : List Iovec → Option Wiring
  | [] => some w
  | v::vs => do
    let chainIovs ← w.chainIovs.set pos v
    { w with chainIovs }.layIovecs (pos+1) vs

/-- Message `m` with its header and its pieces, and the entry behind them. -/
def Wiring.layMessage (w : Wiring) (m pos : Nat) (o : Offload) (vs : List Iovec) :
    Option (Wiring × Nat) :=
  if w.gso then do
    let hdrs ← w.hdrs.set m o.marshal
    let chainIovs ← w.chainIovs.set pos ⟨some (.hdr hdrs.gen m),offloadHdrLen⟩
    let w ← { w with hdrs, chainIovs }.layIovecs (pos+1) vs
    let stop := pos+1+vs.length
    let msgs ← put txBatch w.msgs m ⟨.chain w.chainIovs.gen pos,stop-pos⟩
    some ({ w with msgs, msgsChained := true },stop)
  else do
    let w ← w.layIovecs pos vs
    let stop := pos+vs.length
    let msgs ← put txBatch w.msgs m ⟨.chain w.chainIovs.gen pos,stop-pos⟩
    some ({ w with msgs, msgsChained := true },stop)

/-- The second pass over a batch: packet `m` of it has `n` pieces from piece `i` on. -/
def Wiring.layMessages (pieces : Nat → Nat → Nat → Option (Offload × List Iovec)) :
    List Nat → Nat → Nat → Nat → Wiring → Option Wiring
  | [], _, _, _, w => some w
  | n::lens, m, pos, i, w => do
    let (o,vs) ← pieces m i n
    let (w,pos) ← w.layMessage m pos o vs
    layMessages pieces lens (m+1) pos (i+n) w

/-- The scratch of a batch of `lens.length` packets and `iovN` iovecs, grown before anything
points into it. -/
def Wiring.grow (w : Wiring) (iovN packets : Nat) : Wiring :=
  let w := { w with chainIovs := w.chainIovs.resize iovN {} }
  if w.gso then { w with hdrs := w.hdrs.reserve packets zeroHdr } else w

inductive Piece
  | header (bytes : List UInt8)
  | region (addr len : Nat)
  | caller (addr len : Nat)
  | null
  deriving DecidableEq

def Wiring.piece (w : Wiring) (v : Iovec) : Piece := match v.base with
  | none => .null
  | some (.hdr gen i) => .header ((w.hdrs.cells gen i).take v.len)
  | some (.region a) => .region a v.len
  | some (.caller a) => .caller a v.len

def Wiring.iovec (w : Wiring) (p : IovPtr) (j : Nat) : Iovec := match p with
  | .null => {}
  | .iovs i => w.iovs (i+j)
  | .iovs2 i => w.iovs2 (i+j)
  | .chain gen i => w.chainIovs.cells gen (i+j)

def Wiring.message (w : Wiring) (m : Nat) : List Piece :=
  (List.range (w.msgs m).iovlen).map fun j => w.piece (w.iovec (w.msgs m).iov j)

structure Answer where
  got : Nat
  errno : Nat

structure Kernel where
  answer : Nat → Nat → Answer
  le : ∀ k n, (answer k n).errno=0 → (answer k n).got≤n

structure Sendmmsg where
  msgs : List (List Piece)
  got : Nat

structure Sock where
  kernel : Kernel
  log : List Sendmmsg := []

def eIntr : Nat := 4
def eAgain : Nat := 11
def eNoBufs : Nat := 105

inductive TxError
  | closed
  | unsupported (text : String)
  | badLength (text : String)
  deriving DecidableEq

structure TxQueue where
  region : FrameMemory
  pool : Pool.Frames
  wires : Wiring
  pending : List Desc := []
  sent : UInt64 := 0
  bytes : UInt64 := 0
  batches : UInt64 := 0
  drops : UInt64 := 0
  ringFull : UInt64 := 0
  rejected : UInt64 := 0
  errno : Nat := 0
  closed : Bool := false

def newTxQueue (checked : Bool) (r : FrameMemory) (firstFrame frames : Nat) (gso : Bool) :
    Option TxQueue := do
  let hdrs : Growing (List UInt8) :=
    if gso then { len := txBatch, cap := txBatch, cells := fun _ _ => zeroHdr }
    else { cells := fun _ _ => zeroHdr }
  let wires ← Wiring.wireOnePerPacket { gso, hdrs }
  some { region := r, pool := newFrames checked firstFrame frames r.frameSize, wires }

def TxQueue.numFreeSlots (q : TxQueue) : Int := (maxPending : Int)-q.pending.length

def checkOffload (o : Offload) (n : UInt32) : Option String :=
  let start := o.csumStart.toUInt32
  let off := o.csumOff.toUInt32
  let hdrLen := o.hdrLen
  if o.flags &&& offloadNeedsCsum≠0 ∧ (start > n ∨ off > n-start ∨ off+2 > n-start) then
    some s!"checksum field at {start}+{off} does not fit {n} bytes"
  else if o.segmented then
    if o.gsoSize=0 then some "segmented but the segment size is zero"
    else if hdrLen.toUInt32 > n then some s!"header length {hdrLen} is past the {n}-byte frame"
    else none
  else none

def outside (w : Option Slice) (d : Desc) : Bool := match w with
  | none => true
  | some w => d.len=0 || d.len.toNat > w.len

def outsideText (i : Nat) (d : Desc) : String :=
  let len := d.len
  let addr := d.addr
  s!"descriptor {i} names {len} bytes at offset {addr}, which is not inside one frame"

/-- How many descriptors of a batch can be sent, and why not the next. -/
def checkBatch (r : FrameMemory) (offs : Option (List Offload)) (off : Nat) :
    Nat → List Desc → Option (Nat × Option TxError)
  | i, [] => some (i,none)
  | i, d::ds => do
    let w ← r.writable d
    if outside w d then some (i,some (.badLength (outsideText (off+i) d)))
    else match offs with
      | none => checkBatch r offs off (i+1) ds
      | some os => do
        let o ← os[off+i]?
        match checkOffload o d.len with
        | some text =>
          let pos := off+i
          some (i,some (.badLength s!"descriptor {pos}: {text}"))
        | none => checkBatch r offs off (i+1) ds

def offloadAt (gso : Bool) (offs : Option (List Offload)) (i : Nat) : Option Offload :=
  match gso, offs with
  | true, some os => os[i]?
  | _, _ => some {}

def aimAll (r : FrameMemory) (offs : Option (List Offload)) (off : Nat) :
    Nat → List Desc → Wiring → Option Wiring
  | _, [], w => some w
  | i, d::ds, w => do
    let o ← offloadAt w.gso offs (off+i)
    aimAll r offs off (i+1) ds (← w.aim r i d o)

def maxStall : Nat := 16

/-- The loop of `sendAll`. -/
def sendLoop (n : Nat) : Nat → Nat → Nat → TxQueue → Sock → Option (TxQueue × Sock × Nat)
  | 0, _, _, _, _ => none
  | fuel+1, sent, stall, q, sock =>
    if sent<n then
      let a := sock.kernel.answer sock.log.length (n-sent)
      let offered := ((List.range n).drop sent).map q.wires.message
      let sock := { sock with log := sock.log++[⟨offered,if a.errno=0 then a.got else 0⟩] }
      if a.errno=0 ∧ 0<a.got then sendLoop n fuel (sent+a.got) 0 q sock
      else if a.errno=eAgain ∨ a.errno=eNoBufs then
        some ({ q with ringFull := q.ringFull+1 },sock,sent)
      else
        let stall := stall+1
        if a.errno≠0 ∧ a.errno≠eIntr ∨ stall ≥ maxStall then
          let errno := if a.errno≠0 then a.errno else q.errno
          some ({ q with drops := q.drops+UInt64.ofNat (n-sent), errno },sock,sent)
        else sendLoop n fuel sent stall q sock
    else some (q,sock,sent)

def sendAll (n : Nat) (q : TxQueue) (sock : Sock) : Option (TxQueue × Sock × Nat) :=
  sendLoop n (maxStall*(n+1)+1) 0 0 q sock

def TxQueue.took (q : TxQueue) (ds : List Desc) : TxQueue :=
  { q with
    batches := q.batches+1, bytes := q.bytes+UInt64.ofNat (ds.map fun d => d.len.toNat).sum,
    sent := q.sent+UInt64.ofNat ds.length, pending := q.pending++ds }

def TxQueue.refuse (q : TxQueue) (refused : Option TxError) : TxQueue :=
  if refused.isSome then { q with rejected := q.rejected+1 } else q

/-- The loop of `transmit` over batches of single frames. -/
def transmitLoop (descs : List Desc) (offs : Option (List Offload)) :
    Nat → Nat → Nat → TxQueue → Sock → Option (TxQueue × Sock × Nat × Option TxError)
  | 0, _, _, _, _ => none
  | fuel+1, off, total, q, sock =>
    if off<descs.length then do
      let batch := (descs.drop off).take txBatch
      let (n,refused) ← checkBatch q.region offs off 0 batch
      if 0<n then
        let wires ← aimAll q.region offs off 0 (batch.take n) q.wires
        let (q,sock,sent) ← sendAll n { q with wires } sock
        let q := q.took (batch.take sent)
        if sent<n ∨ refused.isSome then some (q.refuse refused,sock,total+sent,refused)
        else transmitLoop descs offs fuel (off+txBatch) (total+sent) q sock
      else if refused.isSome then some (q.refuse refused,sock,total,refused)
      else transmitLoop descs offs fuel (off+txBatch) total q sock
    else some (q,sock,total,none)

/-- How many descriptors the first packet has; `n` were looked at. -/
def chainLen : Nat → List Desc → Except String Nat
  | n, [] => .error ("the last descriptor still says the packet continues, "++
      s!"so {n} buffers do not make a whole packet")
  | n, d::ds =>
    if !d.continued then
      let bufs := n+1
      if bufs > maxChainBufs then
        .error s!"a packet of {bufs} buffers is more than the {maxChainBufs} one message carries"
      else .ok bufs
    else chainLen (n+1) ds

/-- The length of a packet whose descriptors all lie in frames; `i` is the first one's number. -/
def chainBytes (r : FrameMemory) : Nat → List Desc → UInt32 → Option (Except TxError UInt32)
  | _, [], length => some (.ok length)
  | i, d::ds, length => do
    let w ← r.writable d
    if outside w d then some (.error (.badLength (outsideText i d)))
    else chainBytes r (i+1) ds (length+d.len)

def strayOffload (os : List Offload) (pos base : Nat) : Nat → Nat → Option (Option TxError)
  | _, 0 => some none
  | i, n+1 => do
    let o ← os[pos+i]?
    if o ≠ {} then
      let d := base+pos+i
      some (some (.badLength (s!"descriptor {d} continues a packet, so its offload "++
        "metadata belongs to the packet's first descriptor and must be zero here")))
    else strayOffload os pos base (i+1) n

def checkChain (r : FrameMemory) (chain : List Desc) (offs : Option (List Offload))
    (pos base : Nat) :
    Option (Option TxError) :=
  match chainBytes r (base+pos) chain 0 with
  | none => none
  | some (.error e) => some (some e)
  | some (.ok length) => match offs with
    | none => some none
    | some os => match strayOffload os pos base 1 (chain.length-1) with
      | none => none
      | some (some e) => some (some e)
      | some none => do
        let o ← os[pos]?
        let d := base+pos
        some ((checkOffload o length).map fun text => .badLength s!"descriptor {d}: {text}")

/-- The packets of a batch, by how many pieces each has; the iovecs and the pieces of all of
them; why it is not more. -/
structure Plan where
  lens : List Nat := []
  iovN : Nat := 0
  count : Nat := 0
  refused : Option TxError := none

/-- The first pass over a batch of chains, with room for `left` more packets. -/
def planChains (r : FrameMemory) (gso : Bool) (rest : List Desc) (offs : Option (List Offload))
    (room : Int) (total : Nat) : Nat → Plan → Option Plan
  | 0, p => some p
  | left+1, p =>
    if p.count<rest.length then
      match chainLen 0 (rest.drop p.count) with
      | .error text =>
        let d := total+p.count
        some { p with refused := some (.badLength s!"descriptor {d}: {text}") }
      | .ok n =>
        let need := if gso then n+1 else n
        if p.iovN+need > chainIovBudget ∨ ((p.count+n : Nat) : Int) > room-total then some p
        else match checkChain r ((rest.drop p.count).take n) offs p.count total with
          | none => none
          | some (some e) => some { p with refused := some e }
          | some none => planChains r gso rest offs room total left
              { p with lens := p.lens++[n], iovN := p.iovN+need, count := p.count+n }
    else some p

/-- The header and the pieces of the packet of `n` descriptors from `i` on. -/
def chainPieces (r : FrameMemory) (gso : Bool) (rest : List Desc) (offs : Option (List Offload))
    (_ i n : Nat) : Option (Offload × List Iovec) := do
  let o ← offloadAt gso offs i
  if i+n≤rest.length then some (o,← ((rest.drop i).take n).mapM (regionIovec r)) else none

def transmitChained (descs : List Desc) (offs : Option (List Offload)) (room : Int) :
    Nat → Nat → TxQueue → Sock → Option (TxQueue × Sock × Nat × Option TxError)
  | 0, _, _, _ => none
  | fuel+1, total, q, sock =>
    if total<descs.length then do
      let rest := descs.drop total
      let offs' := offs.map (List.drop total)
      let p ← planChains q.region q.wires.gso rest offs' room total txBatch {}
      if p.lens.length=0 then
        if p.refused.isSome then some (q.refuse p.refused,sock,total,p.refused)
        else some ({ q with ringFull := q.ringFull+1 },sock,total,none)
      else
        let w := q.wires.grow p.iovN p.lens.length
        let wires ← w.layMessages (chainPieces q.region w.gso rest offs') p.lens 0 0 0
        let (q,sock,msgs) ← sendAll p.lens.length { q with wires } sock
        let sent := (p.lens.take msgs).sum
        let q := q.took (rest.take sent)
        if msgs<p.lens.length ∨ p.refused.isSome then
          some (q.refuse p.refused,sock,total+sent,p.refused)
        else transmitChained descs offs room fuel (total+sent) q sock
    else some (q,sock,total,none)

def TxQueue.transmit (q : TxQueue) (sock : Sock) (descs : List Desc)
    (offs : Option (List Offload)) :
    Option (TxQueue × Sock × Nat × Option TxError) :=
  if q.closed then some (q,sock,0,some .closed)
  else if descs.length=0 then some (q,sock,0,none)
  else
    let room := q.numFreeSlots
    if room=0 then some ({ q with ringFull := q.ringFull+1 },sock,0,none)
    else if descs.any Desc.continued then
      transmitChained descs offs room (descs.length+1) 0 q sock
    else if room<0 then none
    else do
      let descs := descs.take room.toNat
      let offs := offs.map (List.take room.toNat)
      let wires ← q.wires.restored
      transmitLoop descs offs (descs.length+1) 0 0 { q with wires } sock

def TxQueue.transmitOffload (q : TxQueue) (sock : Sock) (descs : List Desc) (offs : List Offload) :
    Option (TxQueue × Sock × Nat × Option TxError) :=
  if !q.wires.gso then some (q,sock,0,some (.unsupported
    ("TransmitOffload needs WithGSO; without PACKET_VNET_HDR "++
      "the kernel would put the virtio header on the wire as packet data")))
  else if offs.length≠descs.length then
    let n := descs.length
    let k := offs.length
    some (q,sock,0,some (.badLength s!"{n} descriptors but {k} offloads"))
  else q.transmit sock descs (some offs)

structure Seg where
  addr : Nat
  len : Nat
  deriving DecidableEq

/-- What is wrong with packet `p`, of these slices. -/
def checkGather (offs : Option (List Offload)) (p : Nat) (segs : List Seg) :
    Option (Option TxError) :=
  if segs.any fun s => s.len=0 then
    some (some (.badLength s!"packet {p} has an empty segment"))
  else match offs with
    | none => some none
    | some os => do
      let o ← os[p]?
      let length := (segs.map fun s => UInt32.ofNat s.len).foldl (·+·) 0
      some ((checkOffload o length).map fun text => .badLength s!"packet {p}: {text}")

/-- The first pass over a batch of packets of the caller's, from packet `sent` and slice `base`
on. -/
def planGather (gso : Bool) (segs : List Seg) (counts : List Int) (offs : Option (List Offload))
    (sent base : Nat) : Nat → Plan → Option Plan
  | 0, p => some p
  | left+1, p =>
    let k := sent+p.lens.length
    match counts[k]? with
    | none => some p
    | some n =>
      if n≤0 ∨ addInt ((base+p.count : Nat) : Int) n > segs.length then
        let left := (segs.length : Int)-base-p.count
        some { p with
          refused := some (.badLength s!"packet {k} claims {n} segments and {left} are left") }
      else if n > maxChainBufs then
        let text := s!"packet {k} has {n} segments and {maxChainBufs} is the most "++
          "one message carries"
        some { p with refused := some (.badLength text) }
      else
        let n := n.toNat
        match checkGather offs k ((segs.drop (base+p.count)).take n) with
        | none => none
        | some (some e) => some { p with refused := some e }
        | some none =>
          let need := if gso then n+1 else n
          if p.iovN+need > chainIovBudget then some p
          else planGather gso segs counts offs sent base left
            { p with lens := p.lens++[n], iovN := p.iovN+need, count := p.count+n }

def segIovec (s : Seg) : Option Iovec :=
  if 0<s.len then some ⟨some (.caller s.addr),s.len⟩ else none

def gatherPieces (gso : Bool) (segs : List Seg) (offs : Option (List Offload)) (sent m i n : Nat) :
    Option (Offload × List Iovec) := do
  let o ← offloadAt gso offs (sent+m)
  if i+n ≤ segs.length then some (o,← ((segs.drop i).take n).mapM segIovec) else none

def TxQueue.gathered (q : TxQueue) (segs : List Seg) : TxQueue :=
  { q with
    batches := q.batches+1, bytes := q.bytes+UInt64.ofNat (segs.map fun s => s.len).sum,
    sent := q.sent+UInt64.ofNat segs.length }

def gatherLoop (segs : List Seg) (counts : List Int) (offs : Option (List Offload)) :
    Nat → Nat → Nat → TxQueue → Sock → Option (TxQueue × Sock × Nat × Option TxError)
  | 0, _, _, _, _ => none
  | fuel+1, sent, base, q, sock =>
    if sent<counts.length then do
      let p ← planGather q.wires.gso segs counts offs sent base txBatch {}
      if p.lens.length=0 then some (q.refuse p.refused,sock,sent,p.refused)
      else
        let w := q.wires.grow p.iovN p.lens.length
        let wires ← w.layMessages (gatherPieces w.gso segs offs sent) p.lens 0 0 base
        let (q,sock,got) ← sendAll p.lens.length { q with wires } sock
        let bufs := (p.lens.take got).sum
        let q := q.gathered ((segs.drop base).take bufs)
        if got<p.lens.length ∨ p.refused.isSome then
          some (q.refuse p.refused,sock,sent+got,p.refused)
        else gatherLoop segs counts offs fuel (sent+got) (base+bufs) q sock
    else some (q,sock,sent,none)

def TxQueue.transmitGather (q : TxQueue) (sock : Sock) (segs : List Seg) (counts : List Int)
    (offs : Option (List Offload)) : Option (TxQueue × Sock × Nat × Option TxError) :=
  if q.closed then some (q,sock,0,some .closed)
  else if counts.length=0 then some (q,sock,0,none)
  else match offs with
    | none => gatherLoop segs counts none (counts.length+1) 0 0 q sock
    | some os =>
      if os.length≠counts.length then
        let n := counts.length
        let k := os.length
        some (q,sock,0,some (.badLength s!"{n} packets and {k} offload descriptors"))
      else if !q.wires.gso then some (q,sock,0,some (.unsupported
        ("TransmitGather with offload metadata needs WithGSO; "++
          "without PACKET_VNET_HDR the kernel would put the virtio header on the wire "++
          "as packet data")))
      else gatherLoop segs counts (some os) (counts.length+1) 0 0 q sock

end Packetio.Afpacket

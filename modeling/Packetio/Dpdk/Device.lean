import Packetio.Dpdk.PortFrames
import Packetio.Sizes

/-! Opening a device (options.go, device.go): how many frames its region has, which of
them each queue gets, and how long the rings of a queue's mempool are. A result of
`none` is a run-time panic or a loop that does not end. -/
namespace Packetio.Dpdk
open Pool Dpdk.Mbuf

def maxQueues : Int := 64
def ringsPerCopiedQueue : Int := 4
def maxFrames : Int := 2^21
def maxFrameSize : Int := 2^16
def maxEthernetHeader : Int := 22
def headroom : Nat := 128

structure Options where
  txQueues : Int := 1
  rxQueues : Int := 0
  txDepth : Int := 1024
  rxDepth : Int := 1024
  frames : Int := 4096
  frameSize : Int := 2048
  mtu : Int := 1500
  checksums : Bool := false
  tso : Bool := false
  framesSet : Bool := false
  ringsPerQueue : Int := 0

namespace Options

def validate (c : Options) : Except String Unit :=
  if c.txQueues<0 ∨ c.rxQueues<0 then
    .error s!"dpdk: {c.txQueues} transmit and {c.rxQueues} receive queues"
  else if c.txQueues=0 ∧ c.rxQueues=0 then .error "dpdk: no queues asked for"
  else if c.ringsPerQueue<0 ∨ c.ringsPerQueue > 16 then
    .error (s!"dpdk: {c.ringsPerQueue} rings behind each transmit queue; between 1 and 16, or 0 "++
      "to let the device choose")
  else if c.txQueues > maxQueues ∨ c.rxQueues > maxQueues then
    .error (s!"dpdk: {c.txQueues} transmit and {c.rxQueues} receive queues, and {maxQueues} each "++
      "way is the most this backend opens")
  else if c.txDepth≤0 ∨ !isPow2 c.txDepth then
    .error s!"dpdk: a transmit queue of {c.txDepth}, which must be a power of two"
  else if c.rxDepth≤0 ∨ !isPow2 c.rxDepth then
    .error s!"dpdk: a receive queue of {c.rxDepth}, which must be a power of two"
  else if c.frameSize > maxFrameSize then
    .error (s!"dpdk: a frame size of {c.frameSize}, and {maxFrameSize} is the largest a frame "++
      "may be")
  else if c.frameSize<512 ∨ !isPow2 c.frameSize then
    .error (s!"dpdk: a frame size of {c.frameSize}, which must be a power of two of at least "++
      "512")
  else if c.frames≤0 then .error s!"dpdk: {c.frames} frames"
  else if c.frames > maxFrames then
    let mib := Int.shiftRight (mulInt c.frames c.frameSize) 20
    let most := Int.shiftRight (mulInt maxFrames c.frameSize) 20
    .error (s!"dpdk: {c.frames} frames of {c.frameSize} bytes is {mib} MiB, and {most} MiB is "++
      "the most this backend reserves")
  else if c.mtu≤0 then .error s!"dpdk: an MTU of {c.mtu}"
  else .ok ()

def rings (c : Options) (mellanox : Bool) : Int :=
  if c.ringsPerQueue=0 then
    if c.rxQueues=0 ∧ c.txQueues ≥ 2 ∧ mellanox then ringsPerCopiedQueue else 1
  else c.ringsPerQueue

end Options

structure Plan where
  rings : Nat
  frames : Nat
  deriving DecidableEq, Repr

namespace Options

/-- The frames of the region, where the queues need `need`. -/
def size (c : Options) (rings need : Int) : Option (Except String Nat) :=
  if c.framesSet then
    if c.frames<need then
      some (.error
        (s!"dpdk: {c.frames} frames is not enough for {c.txQueues*rings} transmit rings "++
        s!"of {c.txDepth} and {c.rxQueues} receive queues of {c.rxDepth}; at least {need} are "++
        "needed"))
    else some (.ok c.frames.toNat)
  else if c.frames < mulInt 2 need then (nextPow2 (mulInt 2 need)).map Except.ok
  else some (.ok c.frames.toNat)

def plan (c : Options) (mellanox : Bool) : Option (Except String Plan) :=
  match c.validate with
  | .error e => some (.error e)
  | .ok () =>
    let rings := c.rings mellanox
    if c.txQueues*rings > maxQueues then
      some (.error (s!"dpdk: {c.txQueues} transmit queues of {rings} rings each is "++
        s!"{c.txQueues*rings} send queues, and {maxQueues} is the most this backend opens"))
    else
      let need := addInt (mulInt (c.txQueues*rings) c.txDepth) (mulInt c.rxQueues c.rxDepth)
      match c.size rings need with
      | none => none
      | some (.error e) => some (.error e)
      | some (.ok frames) =>
        if (frames : Int) > maxFrames then
          some (.error (s!"dpdk: {c.txQueues} transmit queues of {c.txDepth} and {c.rxQueues} "++
            s!"receive queues of {c.rxDepth} need {mulInt 2 need} frames, more than this backend "++
            "reserves"))
        else some (.ok ⟨rings.toNat,frames⟩)

def txRings (c : Options) (p : Plan) : Nat := c.txQueues.toNat*p.rings

def queues (c : Options) (p : Plan) : Nat := c.txRings p+c.rxQueues.toNat

end Options

/-- The turns of `take`: for each of `n` queues where its frames start and how many there
are. The first `leftover` of them get one more. -/
def deal (perQueue : Nat) : (n leftover first : Nat) → List (Nat × Nat)
  | 0, _, _ => []
  | n+1, leftover, first =>
    let count := if leftover > 0 then perQueue+1 else perQueue
    (first,count)::deal perQueue n (leftover-1) (first+count)

def Options.shares (c : Options) (p : Plan) : List (Nat × Nat) :=
  deal (p.frames/max (c.queues p) 1) (c.queues p) (p.frames%max (c.queues p) 1) 0

structure Host where
  driver : String := ""
  mellanox : Bool := false
  maxTxQueues : Int := maxQueues
  maxRxQueues : Int := maxQueues
  offersChecksum : Bool := false
  offersTSO : Bool := false
  objHeader : Nat := 64
  checked : Bool := true
  reserve : Nat → Except String (Region × UInt64)
  poolVA : Nat → UInt64

def newMempool (h : Host) (region : Region) (regionVA : UInt64)
    (first frames frameSize size : Nat) :
    Option (Except String (Ring × Ring × Nat)) :=
  if region.len≤first*frameSize then none
  else match newRingOver (fun _ => 0) size (some 0) (some 0) with
    | .error e => some (.error e)
    | .ok ring =>
      let objects := (frameStarts first frames frameSize).map fun a =>
        regionVA+a+UInt64.ofNat h.objHeader
      let filled := ring.enqueue objects
      match newRingOver filled.1.buf size (some 0) (some 0) with
      | .error e => some (.error e)
      | .ok returned => some (.ok (ring,returned,filled.2))

def ringSize (frames : Nat) : Option Nat := nextPow2 frames

namespace Options
variable (c : Options) (h : Host) (region : Region) (regionVA : UInt64)

def layout : Layout :=
  { frameSize := c.frameSize.toNat, objHeader := h.objHeader, mbufSize := Mbuf.size, headroom }

def newQueue (first frames : Nat) (make : Ring → Ring → Except String Queue) :
    Option (Except String (Side × Nat)) :=
  match ringSize frames with
  | none => none
  | some size => match newMempool h region regionVA first frames c.frameSize.toNat size with
    | none => none
    | some (.error e) => some (.error e)
    | some (.ok (supply,returned,drops)) => match make supply returned with
      | .error e => some (.error e)
      | .ok q => some (.ok (⟨q,0⟩,drops))

/-- The part of the configuration of queue `i` that both kinds share. -/
def config (i first frames depth : Nat) (returned : Ring) : Config :=
  { layout := c.layout h, regionVA := regionVA, poolVA := h.poolVA i, firstFrame := first,
    frames := frames, depth := depth, returned := some returned }

def newTxRing (i first frames : Nat) : Option (Except String (Side × Nat)) :=
  c.newQueue h region regionVA first frames fun _ returned =>
    (newTx h.checked region { c.config h regionVA i first frames c.txDepth.toNat returned with
      checksums := (c.checksums || c.tso) && h.offersChecksum
      tso := c.tso && h.offersTSO }).map Queue.tx

def newRxQueue (i first frames : Nat) : Option (Except String (Side × Nat)) :=
  c.newQueue h region regionVA first frames fun supply returned =>
    (newRx h.checked region { c.config h regionVA i first frames c.rxDepth.toNat returned with
      supply := some supply }).map Queue.rx

/-- The loops of Open over the queues; `i` is the number of the next one. -/
def openQueues (p : Plan) : Nat → List (Nat × Nat) → Option (Except String (List Side × Nat))
  | _, [] => some (.ok ([],0))
  | i, (first,frames)::shares =>
    match if i<c.txRings p then c.newTxRing h region regionVA i first frames
      else c.newRxQueue h region regionVA i first frames with
    | none => none
    | some (.error e) => some (.error (if i<c.txRings p then
        s!"dpdk: transmit queue {i/p.rings}: {e}" else
          s!"dpdk: receive queue {i-c.txRings p}: {e}"))
    | some (.ok (x,n)) => match openQueues p (i+1) shares with
      | none => none
      | some (.error e) => some (.error e)
      | some (.ok (xs,m)) => some (.ok (x::xs,n+m))

def openPort : Option (Except String Port) :=
  match c.plan h.mellanox with
  | none => none
  | some (.error e) => some (.error e)
  | some (.ok p) =>
    let maxPacket : Int := c.frameSize-(c.layout h).dataStart
    let want := addInt c.mtu maxEthernetHeader
    if (c.txRings p : Int) > h.maxTxQueues ∨ c.rxQueues > h.maxRxQueues then
      some (.error
        (s!"dpdk: {h.driver} allows {h.maxRxQueues} receive and {h.maxTxQueues} transmit "++
        s!"queues, and {c.rxQueues} and {c.txRings p} were asked for"))
    else match (c.layout h).validate with
      | .error e => some (.error e)
      | .ok () =>
        if want > maxPacket then
          some (.error
            (s!"dpdk: an MTU of {c.mtu} needs {want} bytes and a {c.frameSize}-byte frame "++
            s!"leaves only {maxPacket} after the mbuf and headroom; raise WithFrameSize"))
        else match h.reserve (p.frames*c.frameSize.toNat) with
          | .error e => some (.error e)
          | .ok (region,regionVA) =>
            if c.tso && !h.offersTSO then
              some (.error
                "dpdk: packetio: unsupported: this device does not offer TCP segmentation")
            else match c.openQueues h region regionVA p 0 (c.shares p) with
              | none => none
              | some (.error e) => some (.error e)
              | some (.ok (sides,drops)) =>
                some (.ok { region, regionVA, sides, drops })

end Options

end Packetio.Dpdk

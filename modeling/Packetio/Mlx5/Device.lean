import Packetio.Match
import Packetio.Mlx5.Queue
import Packetio.Sizes

/-! Opening a ConnectX device (options.go, device.go), up to the frames that each queue is
given: how many frames the region has, how many rings are behind a transmit queue, and which
frames are whose. A result of `none` is a loop that does not end or a panic. -/
namespace Packetio.Mlx5

def maxQueues : Int := 64
def ringsPerCopiedQueue : Int := 4
def maxFrames : Int := 2^21

structure Options where
  txQueues : Int := 1
  txDepth : Int := 1024
  rxQueues : Int := 0
  rxDepth : Int := 1024
  steering : SteeringFilter := {}
  frameSize : Int := 2048
  frames : Int := 4096
  inlineLen : Int := -1
  inlineSet : Bool := false
  ethHdrLen : Int := 0
  signalEvery : Int := 0
  multiPacket : Bool := false
  mpwSet : Bool := false
  mpwMaxLen : Int := 192
  ringsPerQueue : Int := 0
  framesSet : Bool := false

inductive OpenError where
  | text (s : String)
  | filter (e : FilterError)
  | receivesNothing (f : SteeringFilter)

def maxInline : Int := (maxDS*octoword).toNat

namespace Options
variable (c : Options)

def validateSizes : Except String Unit :=
  if c.txQueues<0 ∨ c.rxQueues<0 then
    .error s!"mlx5: {c.txQueues} transmit and {c.rxQueues} receive queues"
  else if c.txQueues=0 ∧ c.rxQueues=0 then .error "mlx5: no queues asked for"
  else if c.txQueues > maxQueues ∨ c.rxQueues > maxQueues then
    .error (s!"mlx5: {c.txQueues} transmit and {c.rxQueues} receive queues, and {maxQueues} each "++
      "way is the most this backend opens; more queues than cores has only ever cost throughput")
  else if c.txDepth≤0 ∨ !isPow2 c.txDepth then
    .error s!"mlx5: a transmit queue of {c.txDepth}, which must be a power of two"
  else if c.rxDepth≤0 ∨ !isPow2 c.rxDepth then
    .error s!"mlx5: a receive queue of {c.rxDepth}, which must be a power of two"
  else if c.frameSize<64 ∨ !isPow2 c.frameSize then
    .error (s!"mlx5: a frame size of {c.frameSize}, which must be a power of two of at least "++
      "64")
  else if c.rxQueues > 0 ∧ c.frameSize≤rxHeadroom then
    .error (s!"mlx5: {c.frameSize}-byte frames leave no room for a packet behind the "++
      s!"{rxHeadroom}-byte receive headroom; use at least {rxHeadroom*2}")
  else if c.frames≤0 then .error s!"mlx5: {c.frames} frames"
  else if c.frames > maxFrames then
    let mib := Int.shiftRight (mulInt c.frames c.frameSize) 20
    let most := Int.shiftRight (mulInt maxFrames c.frameSize) 20
    .error (s!"mlx5: {c.frames} frames of {c.frameSize} bytes is {mib} MiB of pinned memory, and "++
      s!"{most} MiB is the most this backend registers; ask for fewer frames or smaller ones")
  else if c.inlineSet ∧ (c.inlineLen<0 ∨ c.inlineLen > maxInline) then
    .error s!"mlx5: an inline header of {c.inlineLen} bytes"
  else if c.signalEvery<0 then .error s!"mlx5: a completion every {c.signalEvery} packets"
  else if c.ethHdrLen<0 ∨ c.ethHdrLen > maxInline then
    .error s!"mlx5: an Ethernet header of {c.ethHdrLen} bytes"
  else if c.multiPacket ∧ (c.mpwMaxLen≤0 ∨ c.mpwMaxLen > c.frameSize) then
    .error (s!"mlx5: carrying packets of up to {c.mpwMaxLen} bytes in a descriptor, in "++
      s!"{c.frameSize}-byte frames")
  else if c.ringsPerQueue<0 ∨ c.ringsPerQueue > 16 then
    .error (s!"mlx5: {c.ringsPerQueue} rings behind each transmit queue; between 1 and 16, or 0 "++
      "to let the device choose")
  else .ok ()

def validateSteering : Except OpenError Unit :=
  match c.steering.validate with
  | .error e => .error (.filter e)
  | .ok () =>
    if c.steering.promiscuous ∨ c.steering.ms.length > 0 then
      if c.rxQueues=0 then .error (.receivesNothing c.steering)
      else match c.steering.rules with
        | .error e => .error (.filter e)
        | .ok _ => .ok ()
    else .ok ()

def need (rings : Int) : Int :=
  addInt (mulInt (c.txQueues*rings) c.txDepth) (mulInt c.rxQueues c.rxDepth)

/-- `dev` is only for the text of an error. -/
def validate (dev : String) : Except OpenError Unit :=
  match c.validateSizes with
  | .error e => .error (.text e)
  | .ok () => match c.validateSteering with
    | .error e => .error e
    | .ok () =>
      let need := c.need (max c.ringsPerQueue 1)
      if c.framesSet ∧ c.frames<need then
        .error (.text
          (s!"mlx5: {c.frames} frames is not enough for {c.txQueues} transmit queues of "++
          s!"{c.txDepth} and {c.rxQueues} receive queues of {c.rxDepth}; {dev} needs at least "++
          s!"{need}"))
      else .ok ()

def autoCopy (enhancedMPW : Bool) : Bool :=
  !c.mpwSet && enhancedMPW &&
    decide (c.rxQueues=0 ∧ c.txQueues ≥ 2 ∨ c.rxQueues > 0 ∧ c.txQueues ≥ 4)

def rings (enhancedMPW : Bool) : Int :=
  if c.ringsPerQueue=0 then
    if c.autoCopy enhancedMPW || (c.mpwSet && c.multiPacket) then ringsPerCopiedQueue else 1
  else c.ringsPerQueue

def finalRings (enhancedMPW : Bool) (required : Int) : Int :=
  if c.autoCopy enhancedMPW ∧ required≠0 ∧ c.ringsPerQueue=0 then 1 else c.rings enhancedMPW

def size (rings : Int) : Option (Except String Nat) :=
  let need := c.need rings
  if c.framesSet then
    if c.frames<need then
      some (.error
        (s!"mlx5: {c.frames} frames is not enough for {c.txQueues*rings} transmit rings "++
        s!"of {c.txDepth} and {c.rxQueues} receive queues of {c.rxDepth}; at least {need} are "++
        "needed"))
    else some (.ok c.frames.toNat)
  else if c.frames < mulInt 2 need then match nextPow2 (mulInt 2 need) with
    | none => none
    | some f =>
      if (f : Int) > maxFrames then
        some (.error (s!"mlx5: {c.txQueues*rings} transmit rings of {c.txDepth} and {c.rxQueues} "++
          s!"receive queues of {c.rxDepth} want {mulInt 2 need} frames, more than this backend "++
          "registers; open fewer queues or size the region yourself with WithFrames"))
      else some (.ok f)
  else some (.ok c.frames.toNat)

def mode (ibdev : String) (enhancedMPW : Bool) (required : Int) : Except String (Bool × Bool) :=
  if !c.mpwSet then
    if c.autoCopy enhancedMPW ∧ required=0 then .ok (true,false)
    else .ok (enhancedMPW && required == 0,true)
  else if c.multiPacket ∧ !enhancedMPW then
    .error s!"mlx5: {ibdev} cannot carry several packets in one descriptor"
  else if c.multiPacket ∧ required≠0 then
    .error (s!"mlx5: {ibdev} requires {required} inline header bytes, which leaves no room for "++
      "several packets in one descriptor")
  else .ok (c.multiPacket,false)

end Options

def inlineHeaderFor (required ethHdrLen : Int) : Int :=
  if required=0 then 0 else if ethHdrLen > required then ethHdrLen else required

def Options.inline (c : Options) (ibdev : String) (required : Int) (multiPacket : Bool) :
    Except String Int :=
  if c.inlineSet then
    if c.inlineLen<required then
      .error (s!"mlx5: {ibdev} requires {required} inline header bytes, but {c.inlineLen} were "++
        "asked for")
    else .ok c.inlineLen
  else .ok (if multiPacket then 0 else inlineHeaderFor required c.ethHdrLen)

/-! Which frames each queue gets -/

namespace Options
variable (c : Options) (rings frames : Int)

def weighted : Int × Int :=
  let txW := mulInt rings c.txDepth
  let rxW := c.rxDepth
  let totalW := max (addInt (mulInt c.txQueues txW) (mulInt c.rxQueues rxW)) 1
  (mulInt (frames/totalW) txW,mulInt (frames/totalW) rxW)

def starved (share : Int × Int) : Prop := share.1=0 ∨ (c.rxQueues > 0 ∧ share.2=0)

instance (share : Int × Int) : Decidable (c.starved share) := inferInstanceAs (Decidable (_ ∨ _))

def share : Int × Int :=
  let even := frames/max (c.txQueues+c.rxQueues) 1
  if c.starved (c.weighted rings frames) then (even,even) else c.weighted rings frames

def rem : Int :=
  let x := c.share rings frames
  addInt (addInt frames (-mulInt c.txQueues x.1)) (-mulInt c.rxQueues x.2)

end Options

/-- The turns of `take`: where the frames of each queue start and how many there are. -/
def deal : List Int → Int → Int → List (Int × Int)
  | [], _, _ => []
  | base::bases, rem, first =>
    let n := if rem > 0 then addInt base 1 else base
    (first,n)::deal bases (if rem > 0 then rem-1 else rem) (addInt first n)

def Options.slices (c : Options) (rings frames : Int) : List (Int × Int) :=
  let x := c.share rings frames
  deal (List.replicate c.txQueues.toNat x.1++List.replicate c.rxQueues.toNat x.2)
    (c.rem rings frames) 0

structure Host where
  ifname : String := ""
  resolve : Except String String
  device : Except String Bool
  mmap : Int → Except String (Nat → UInt8)
  register : Except String Unit
  minInline : Except String Int
  placement : Except String Unit

def newRegion (h : Host) (frames frameSize : Int) : Except String Region :=
  if frames≤0 ∨ frameSize≤0 then
    .error s!"mlx5: a region of {frames} frames of {frameSize} bytes"
  else
    let size := mulInt frames frameSize
    match h.mmap size with
    | .error e => .error s!"mlx5: mapping {size} bytes of frame memory: {e}"
    | .ok mem => .ok ⟨mem,size.toNat,mulInt_toNat_lt frames frameSize⟩

structure Plan where
  region : Region
  frames : Nat
  rings : Int
  inline : Int
  multiPacket : Bool
  mpwPointer : Bool
  tx : List (Int × Int)
  rx : List (Int × Int)

namespace Options
variable (c : Options) (h : Host)

def settle (ibdev : String) (enhancedMPW : Bool) (region : Region) (frames : Nat) :
    Except String Plan :=
  match h.minInline with
  | .error e => .error e
  | .ok required => match c.mode ibdev enhancedMPW required with
    | .error e => .error e
    | .ok (multiPacket,mpwPointer) => match c.inline ibdev required multiPacket with
      | .error e => .error e
      | .ok inline => match h.placement with
        | .error e => .error e
        | .ok () =>
          let rings := c.finalRings enhancedMPW required
          let slices := c.slices rings frames
          .ok
            { region := region, frames := frames, rings := rings, inline := inline
              multiPacket := multiPacket, mpwPointer := mpwPointer
              tx := slices.take c.txQueues.toNat, rx := slices.drop c.txQueues.toNat }

/-- pool.New cannot make the list of the slice's frames, of 8 bytes each and 2^48 at most. -/
def panics (x : Int × Int) : Bool := x.2<0 || 2^45<x.2

def planRegion (ibdev : String) (enhancedMPW : Bool) : Option (Except OpenError Plan) :=
  let rings := c.rings enhancedMPW
  if c.txQueues*rings > maxQueues then
    some (.error (.text (s!"mlx5: {c.txQueues} transmit queues of {rings} rings each is "++
      s!"{c.txQueues*rings} send queues, and {maxQueues} is the most this backend opens")))
  else match c.size rings with
    | none => none
    | some (.error e) => some (.error (.text e))
    | some (.ok frames) => match newRegion h frames c.frameSize with
      | .error e => some (.error (.text e))
      | .ok region => match h.register with
        | .error e => some (.error (.text (e++
            s!"; is the memory lock limit high enough for {region.len} bytes?")))
        | .ok () => match c.settle h ibdev enhancedMPW region frames with
          | .error e => some (.error (.text e))
          | .ok p => if (p.tx++p.rx).any panics then none else some (.ok p)

def plan : Option (Except OpenError Plan) :=
  match c.validate h.ifname with
  | .error e => some (.error e)
  | .ok () => match h.resolve with
    | .error e => some (.error (.text e))
    | .ok ibdev => match c.validate ibdev with
      | .error e => some (.error e)
      | .ok () => match h.device with
        | .error e => some (.error (.text e))
        | .ok enhancedMPW => c.planRegion h ibdev enhancedMPW

end Options

end Packetio.Mlx5

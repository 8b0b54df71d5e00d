import Packetio.Frame
import Packetio.Lib.Little

/-! The receive ring of a packet socket (tpacket.go) and the walk that empties it. Every
access is checked: a read of the ring outside of the block being drained, a write to a
buffer outside of what dst returned, an index of a result array from `max` on, and a loop
that does not end are all `none`. What the kernel wrote stands still during a call. -/
namespace Packetio.Afpacket
open Lib

def tpStatusUser : UInt32 := 1
def tpStatusKernel : UInt32 := 0
def tpStatusVlanValid : UInt32 := (1 : UInt32) <<< 4

def rxFrameSize : UInt32 := 2048
def rxFramesPerBlock : UInt32 := 32
def rxBlockSize : UInt32 := rxFrameSize*rxFramesPerBlock
def rxBlockNr : UInt32 := 160

def gsoFrameSize : UInt32 := 69632
def gsoFramesPerBlock : UInt32 := 4
def gsoBlockSize : UInt32 := gsoFrameSize*gsoFramesPerBlock
def gsoBlockNr : UInt32 := 64

structure TpacketBlockDesc where
  blockStatus : UInt32
  numPkts : UInt32
  offsetToFirst : UInt32
  deriving DecidableEq

structure Tpacket3Hdr where
  tpNextOffset : UInt32
  tpSec : UInt32
  tpNsec : UInt32
  tpSnaplen : UInt32
  tpLen : UInt32
  tpStatus : UInt32
  tpMac : UInt16
  tpVlanTci : UInt32
  tpVlanTpid : UInt16
  deriving DecidableEq

def hdrSize : Nat := 48

def u16At (mem : Nat → UInt8) (a : Nat) : UInt16 := UInt16.ofNat (leNat 2 fun i => mem (a+i))

def u32At (mem : Nat → UInt8) (a : Nat) : UInt32 := UInt32.ofNat (leNat 4 fun i => mem (a+i))

def bytesAt (mem : Nat → UInt8) (a n : Nat) : List UInt8 := (List.range n).map fun i => mem (a+i)

def blockDescAt (mem : Nat → UInt8) (a : Nat) : TpacketBlockDesc :=
  { blockStatus := u32At mem (a+8), numPkts := u32At mem (a+12), offsetToFirst := u32At mem (a+16) }

def frameHdrAt (mem : Nat → UInt8) (a : Nat) : Tpacket3Hdr :=
  { tpNextOffset := u32At mem a, tpSec := u32At mem (a+4), tpNsec := u32At mem (a+8),
    tpSnaplen := u32At mem (a+12), tpLen := u32At mem (a+16), tpStatus := u32At mem (a+20),
    tpMac := u16At mem (a+24), tpVlanTci := u32At mem (a+32), tpVlanTpid := u16At mem (a+36) }

structure Ring where
  mem : Nat → UInt8
  blockSize : UInt32
  blockNr : UInt32
  block : UInt32 := 0
  frameOff : UInt32 := 0
  numPkts : UInt32 := 0
  pending : Bool := false
  oversize : UInt64 := 0
  batchTooSmall : UInt64 := 0
  packets : UInt64 := 0
  chain : Bool
  vnet : Bool

def setupRing (mem : Nat → UInt8) (vnet chain : Bool) : Ring :=
  if vnet then { mem, blockSize := gsoBlockSize, blockNr := gsoBlockNr, vnet, chain }
  else { mem, blockSize := rxBlockSize, blockNr := rxBlockNr, vnet, chain }

def Ring.start (r : Ring) : Nat := r.block.toNat*r.blockSize.toNat

/-- The `n` bytes at `a` are bytes of the block being drained. -/
def Ring.Inside (r : Ring) (a n : Nat) : Prop := r.start≤a ∧ a+n≤r.start+r.blockSize.toNat

instance (r : Ring) (a n : Nat) : Decidable (r.Inside a n) := inferInstanceAs (Decidable (_ ∧ _))

def Ring.blockDesc (r : Ring) : Option TpacketBlockDesc :=
  let a := (r.block*r.blockSize).toNat
  if r.Inside a hdrSize then some (blockDescAt r.mem a) else none

def Ring.storeStatus (r : Ring) (v : UInt32) : Option Ring :=
  let a := (r.block*r.blockSize).toNat+8
  if r.Inside a 4 then some { r with mem := blit r.mem a 4 (leByte v.toNat) } else none

def Ring.frameHdr (r : Ring) (off : UInt32) : Option Tpacket3Hdr :=
  if r.Inside off.toNat hdrSize then some (frameHdrAt r.mem off.toNat) else none

/-- `mem[lo:hi]` -/
def Ring.slice (r : Ring) (lo hi : UInt32) : Option (List UInt8) :=
  if lo≤hi ∧ r.Inside lo.toNat (hi.toNat-lo.toNat) then
    some (bytesAt r.mem lo.toNat (hi.toNat-lo.toNat))
  else none

def Ring.frameHdrFits (r : Ring) (off : UInt32) : Bool := off≤r.blockSize-UInt32.ofNat hdrSize

def Ring.frameInBlock (r : Ring) (off : UInt32) (tph : Tpacket3Hdr) : Bool :=
  let mac := tph.tpMac.toUInt32
  if r.vnet && mac<UInt32.ofNat offloadHdrLen then false
  else
    let avail := r.blockSize-off
    if mac > avail then false else tph.tpSnaplen≤avail-mac

def Ring.advance (r : Ring) (next : UInt32) : Ring :=
  let r := { r with numPkts := r.numPkts-1 }
  if next=0 then { r with numPkts := 0 } else { r with frameOff := r.frameOff+next }

def Ring.refuse (r : Ring) : Ring := { r with oversize := r.oversize+1, numPkts := 0 }

def Ring.skip (r : Ring) (tph : Tpacket3Hdr) : Ring :=
  { r with oversize := r.oversize+1 }.advance tph.tpNextOffset

structure Tag where
  tagLen : Nat
  tpid : UInt16
  tci : UInt16

def Tpacket3Hdr.tag (tph : Tpacket3Hdr) : Tag :=
  if tph.tpStatus &&& tpStatusVlanValid≠0 ∧ 12≤tph.tpSnaplen.toNat then
    ⟨4,if tph.tpVlanTpid=0 then 0x8100 else tph.tpVlanTpid,tph.tpVlanTci.toUInt16⟩
  else ⟨0,0,0⟩

def Tag.bytes (tag : Tag) : List UInt8 :=
  [(tag.tpid >>> 8).toUInt8,tag.tpid.toUInt8,(tag.tci >>> 8).toUInt8,tag.tci.toUInt8]

def shift (tagLen : Nat) (v : UInt16) : UInt16 :=
  if v.toNat+tagLen > 0xffff then 0xffff else v+UInt16.ofNat tagLen

def shifted (o : Offload) (tagLen : Nat) : Offload :=
  let o := if o.flags &&& offloadNeedsCsum≠0 then { o with csumStart := shift tagLen o.csumStart }
    else o
  if o.hdrLen≠0 then { o with hdrLen := shift tagLen o.hdrLen } else o

def Ring.offloadFor (r : Ring) (d : UInt32) (tagLen : Nat) : Option Offload :=
  if !r.vnet then some {}
  else do
    let o := unmarshalOffload (← r.slice (d-UInt32.ofNat offloadHdrLen) d)
    some (if tagLen=0 then o else shifted o tagLen)

structure Output where
  bufs : Nat → Nat → UInt8
  lens : Nat → Nat
  offs : Nat → Offload
  tss : Nat → UInt64
  cont : Nat → Bool

def Output.made : Output := ⟨fun _ _ => 0,fun _ => 0,fun _ => {},fun _ => 0,fun _ => false⟩

structure Batch where
  max : Nat
  offs : Bool
  tss : Bool
  cont : Bool

abbrev Dst (σ : Type) := σ → Nat → Option Nat × σ

section
variable {α : Type}

/-- `f[i] = v` -/
def put (max : Nat) (f : Nat → α) (i : Nat) (v : α) : Option (Nat → α) :=
  if i < max then some (Function.update f i v) else none

/-- `f[j] = v` for the `n` indices from `i` on. -/
def putAll (max : Nat) (f : Nat → α) (v : α) : Nat → Nat → Option (Nat → α)
  | _, 0 => some f
  | i, n+1 => do putAll max (← put max f i v) v (i+1) n

/-- The entry of a packet in the `n` slots from `out` on: `v` on the first slot and `zero` on
the others, in an array that is not nil. -/
def entries (max : Nat) (want : Bool) (f : Nat → α) (out n : Nat) (v : Option α) (zero : α) :
    Option (Nat → α) :=
  if want then do putAll max (← put max f out (← v)) zero (out+1) (n-1) else some f

end

def markSlots (b : Batch) (cont : Nat → Bool) (out n : Nat) : Option (Nat → Bool) :=
  if b.cont then do put b.max (← putAll b.max cont true out (n-1)) (out+n-1) false else some cont

/-- The bytes `bs` at offset `pos` of a buffer of `room` bytes. -/
def write (room : Nat) (buf : Nat → UInt8) (pos : Nat) (bs : List UInt8) : Option (Nat → UInt8) :=
  if pos+bs.length≤room then some (blit buf pos bs.length (bs.getD · 0)) else none

/-- `copy(buf[pos:], src)` -/
def copyTo (room : Nat) (buf : Nat → UInt8) (pos : Nat) (src : List UInt8) : Option (Nat → UInt8) :=
  if pos≤room then write room buf pos (src.take (room-pos)) else none

/-- The inner loop of `spread`: as much as goes into one buffer, and what is left. Of the
segment in hand only what is not copied yet is kept; when the copy ends inside of it the
buffer is full. -/
def fillSlot (room : Nat) : List (List UInt8) → Nat → (Nat → UInt8) →
    Option ((Nat → UInt8) × Nat × List (List UInt8))
  | [], written, buf => some (buf,written,[])
  | seg::segs, written, buf =>
    if written<room then do
      let buf ← copyTo room buf written seg
      let c := min (room-written) seg.length
      if c=seg.length then fillSlot room segs (written+c) buf
      else some (buf,written+c,seg.drop c::segs)
    else some (buf,written,seg::segs)

inductive Spread
  | placed (n : Nat)
  | noSlots
  | noFrames
  deriving DecidableEq

section
variable {σ : Type}

/-- The loop of `spread`, with `left` slots from `slot` to the end of the batch. -/
def spreadLoop (max : Nat) (dst : Dst σ) : Nat → Nat → List (List UInt8) → σ → Output →
    Option (Spread × σ × Output)
  | _, slot, [], st, o => some (.placed slot,st,o)
  | 0, _, _::_, st, o => some (.noSlots,st,o)
  | left+1, slot, seg::segs, st, o => match dst st slot with
    | (none,st) => some (.noFrames,st,o)
    | (some room,st) => do
      let (buf,written,rest) ← fillSlot room (seg::segs) 0 (o.bufs slot)
      let lens ← put max o.lens slot written
      spreadLoop max dst left (slot+1) rest st
        { o with bufs := Function.update o.bufs slot buf, lens }

def Ring.segs (r : Ring) (d plen : UInt32) (tag : Tag) : Option (List (List UInt8)) :=
  if tag.tagLen≠0 then do some [← r.slice d (d+12),tag.bytes,← r.slice (d+12) (d+plen)]
  else do some [← r.slice d (d+plen)]

def Ring.spread (r : Ring) (b : Batch) (dst : Dst σ) (out : Nat) (d plen : UInt32) (tag : Tag)
    (st : σ) (o : Output) : Option (Spread × σ × Output) := do
  let segs ← r.segs d plen tag
  match ← spreadLoop b.max dst (b.max-out) out segs st o with
  | (.placed stop,st,o) =>
    some (.placed (stop-out),st,{ o with cont := ← markSlots b o.cont out (stop-out) })
  | failed => some failed

structure Reading (σ : Type) where
  ring : Ring
  st : σ
  o : Output
  out : Nat

inductive Next
  | again
  | leave
  | stop
  deriving DecidableEq

def timestamp (tph : Tpacket3Hdr) : UInt64 := tph.tpSec.toUInt64*1000000000+tph.tpNsec.toUInt64

/-- The metadata of the packet in the `n` slots from `out` on, and the step to the next
frame. -/
def Reading.stamp (b : Batch) (s : Reading σ) (tph : Tpacket3Hdr) (d : UInt32) (n : Nat) :
    Option (Reading σ) := do
  let offload := s.ring.offloadFor d tph.tag.tagLen
  let offs ← entries b.max b.offs s.o.offs s.out n offload {}
  let tss ← entries b.max b.tss s.o.tss s.out n (some (timestamp tph)) 0
  some { s with o := { s.o with offs, tss }, out := s.out+n,
                ring := s.ring.advance tph.tpNextOffset }

def Ring.copyFrame (r : Ring) (tph : Tpacket3Hdr) (d : UInt32) (room : Nat) (buf : Nat → UInt8) :
    Option (Nat → UInt8) :=
  if tph.tag.tagLen≠0 then do
    let buf ← write room buf 0 (← r.slice d (d+12))
    let buf ← write room buf 12 tph.tag.bytes
    copyTo room buf 16 (← r.slice (d+12) (d+tph.tpSnaplen))
  else do copyTo room buf 0 (← r.slice d (d+tph.tpSnaplen))

def Reading.single (b : Batch) (s : Reading σ) (tph : Tpacket3Hdr) (d : UInt32) (room : Nat) :
    Option (Reading σ × Next) := do
  let buf ← s.ring.copyFrame tph d room (s.o.bufs s.out)
  let lens ← put b.max s.o.lens s.out (tph.tpSnaplen.toNat+tph.tag.tagLen)
  let o := { s.o with bufs := Function.update s.o.bufs s.out buf, lens }
  some (← { s with o }.stamp b tph d 1,.again)

def Reading.chained (b : Batch) (dst : Dst σ) (s : Reading σ) (tph : Tpacket3Hdr) (d : UInt32) :
    Option (Reading σ × Next) := do
  match ← s.ring.spread b dst s.out d tph.tpSnaplen tph.tag s.st s.o with
  | (.placed n,st,o) => some (← { s with st, o }.stamp b tph d n,.again)
  | (.noSlots,st,o) =>
    if s.out=0 then
      let r := { s.ring with batchTooSmall := s.ring.batchTooSmall+1 }
      some ({ s with st, o, ring := r.skip tph },.again)
    else some ({ s with st, o, ring := { s.ring with pending := true } },.stop)
  | (.noFrames,st,o) => some ({ s with st, o, ring := { s.ring with pending := true } },.stop)

def Reading.frame (b : Batch) (dst : Dst σ) (s : Reading σ) : Option (Reading σ × Next) :=
  if !s.ring.frameHdrFits s.ring.frameOff then some ({ s with ring := s.ring.refuse },.leave)
  else do
    let frameOff := s.ring.block*s.ring.blockSize+s.ring.frameOff
    let tph ← s.ring.frameHdr frameOff
    if !s.ring.frameInBlock s.ring.frameOff tph then
      some ({ s with ring := s.ring.refuse },.leave)
    else match dst s.st s.out with
      | (none,st) => some ({ s with st },.leave)
      | (some room,st) =>
        let s := { s with st }
        let d := frameOff+tph.tpMac.toUInt32
        if tph.tpSnaplen<tph.tpLen then some ({ s with ring := s.ring.skip tph },.again)
        else if room<tph.tpSnaplen.toNat+tph.tag.tagLen then
          if !s.ring.chain then some ({ s with ring := s.ring.skip tph },.again)
          else s.chained b dst tph d
        else s.single b tph d room

/-- The loop over the frames of a block; the flag is a `break blocks`. -/
def Reading.drain (b : Batch) (dst : Dst σ) : Nat → Reading σ → Option (Reading σ × Bool)
  | 0, _ => none
  | fuel+1, s =>
    if 0<s.ring.numPkts ∧ s.out<b.max then do
      match ← s.frame b dst with
      | (s,.again) => s.drain b dst fuel
      | (s,.leave) => some (s,false)
      | (s,.stop) => some (s,true)
    else some (s,false)

def Ring.enter (r : Ring) (bd : TpacketBlockDesc) : Ring :=
  let r := if !r.pending then { r with numPkts := bd.numPkts, frameOff := bd.offsetToFirst } else r
  { r with pending := false }

def Reading.blocks (b : Batch) (dst : Dst σ) : Nat → Reading σ → Option (Reading σ)
  | 0, _ => none
  | fuel+1, s =>
    if s.out<b.max then do
      let bd ← s.ring.blockDesc
      if bd.blockStatus &&& tpStatusUser=0 then some s
      else
        let s := { s with ring := s.ring.enter bd }
        match ← s.drain b dst (s.ring.numPkts.toNat+1) with
        | (s,true) => some s
        | (s,false) =>
          if s.ring.numPkts≠0 then some { s with ring := { s.ring with pending := true } }
          else do
            let r ← s.ring.storeStatus tpStatusKernel
            { s with ring := { r with block := (r.block+1)%r.blockNr } }.blocks b dst fuel
    else some s

def Ring.read (r : Ring) (b : Batch) (dst : Dst σ) (st : σ) (o : Output) : Option (Reading σ) := do
  let s ← Reading.blocks b dst (r.blockNr.toNat+1) ⟨r,st,o,0⟩
  some { s with ring := { s.ring with packets := s.ring.packets+UInt64.ofNat s.out } }

end

end Packetio.Afpacket

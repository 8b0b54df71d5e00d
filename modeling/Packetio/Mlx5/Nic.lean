import Packetio.Mlx5.Wqe

/-! How the NIC reads a send queue (mocknic.go). The model in the source goes on
after a violation and keeps a list of them; here a violation ends the reading,
and `none` says that there was one. -/
namespace Packetio.Mlx5
open Lib

structure Nic where
  sqLen : Nat
  region : Region
  regionVA : UInt64
  lkey : UInt32
  qpn : UInt32

structure Packet where
  bytes : List UInt8
  addr : UInt64
  block : UInt32
  inlined : Nat
  deriving DecidableEq, Repr

def bigEndian32 (bs : List UInt8) : UInt32 := UInt32.ofNat (beList bs)
def bigEndian64 (bs : List UInt8) : UInt64 := UInt64.ofNat (beList bs)

section
variable (n : Nic) (sq : Nat → UInt8)

def Nic.blocks : UInt32 := UInt32.ofNat (n.sqLen/64)

/-- `length` bytes from `off` on, following the wrap. -/
def Nic.readSQ (off length : UInt32) : List UInt8 :=
  let size := UInt32.ofNat n.sqLen
  let off := off &&& (size-1)
  if off+length ≤ size then (List.range length.toNat).map fun i => sq (off.toNat+i)
  else (List.range (size-off).toNat).map (fun i => sq (off.toNat+i))++
    (List.range (length-(size-off)).toNat).map sq

/-- The bytes a data segment at `off` points at, and their address. A segment
that describes no bytes, or bytes outside the region, is a violation. -/
def Nic.readSegment (off count : UInt32) : Option (UInt64 × List UInt8) :=
  let lkey := bigEndian32 (n.readSQ sq (off+4) 4)
  let addr := bigEndian64 (n.readSQ sq (off+8) 8)
  if count=0 ∨ lkey≠n.lkey then none
  else if addr<n.regionVA ∨ addr+count.toUInt64 > n.regionVA+UInt64.ofNat n.region.len then none
  else
    let start := (addr-n.regionVA).toNat
    some (addr,(List.range count.toNat).map fun i => n.region.mem (start+i))

/-- The packets of a multi-packet entry between `pos` and `stop`. -/
def Nic.readPackets (block stop : UInt32) : Nat → UInt32 → Option (List Packet)
  | 0, pos => if pos<stop then none else some []
  | fuel+1, pos =>
    if ¬ pos<stop then some []
    else
      let length := bigEndian32 (n.readSQ sq pos 4)
      if length &&& mpwInlineFlag=0 then
        -- a pointer segment
        if pos+octoword > stop then none
        else match n.readSegment sq pos length with
          | none => none
          | some (addr,bytes) =>
            (Nic.readPackets block stop fuel (pos+octoword)).map (⟨bytes,addr,block,0⟩::·)
      else
        let size := length &&& ~~~mpwInlineFlag
        if size=0 ∨ pos+4+size > stop then none
        else
          let pkt : Packet := ⟨n.readSQ sq (pos+4) size,0,block,size.toNat⟩
          (Nic.readPackets block stop fuel (pos+(4+size+octoword-1)/octoword*octoword)).map (pkt::·)

def Nic.processMultiPacket (block off ds : UInt32) : Option (List Packet) :=
  if beList (n.readSQ sq (off+ethInlineHdrSz) 2)≠0 then none
  else match n.readPackets sq block (off+ds*octoword) 64 (off+ctrlSegSize+mpwEthSegSize) with
    | none => none
    | some [] => none
    | some pkts => some pkts

def Nic.processSingle (block off ds : UInt32) : Option (List Packet) :=
  let inlineLen := UInt32.ofNat (beNat 2 fun i => sq ((off+ethInlineHdrSz).toNat+i))
  let ethOcts := (ethSegHeaderSize+inlineLen+octoword-1)/octoword
  let hasDseg := ds=1+ethOcts+1
  let buf := n.readSQ sq (off+ethInlineHdr) inlineLen
  if ¬ hasDseg ∧ ds≠1+ethOcts then none
  else if hasDseg then
    let dsegOff := off+ctrlSegSize+ethOcts*octoword
    match n.readSegment sq dsegOff (bigEndian32 (n.readSQ sq dsegOff 4)) with
    | none => none
    | some (addr,bytes) => some [⟨buf++bytes,addr,block,inlineLen.toNat⟩]
  else if buf = [] then none
  else some [⟨buf,0,block,inlineLen.toNat⟩]

/-- The entry at `block`: its packets and how many blocks it takes. -/
def Nic.processOne (block : UInt32) : Option (List Packet × UInt32) :=
  let off := (block &&& (n.blocks-1))*wqebb
  let opcode := (sq (off+3).toNat).toUInt32
  let idx := (sq (off+1).toNat).toUInt32 <<< 8 ||| (sq (off+2).toNat).toUInt32
  let qpnDS := UInt32.ofNat (beNat 4 fun i => sq ((off+4).toNat+i))
  let ds := qpnDS &&& 0xff
  if opcode≠opcodeSend ∧ opcode≠opcodeEnhancedMPSW then none
  else if idx≠block &&& 0xffff ∨ qpnDS >>> 8≠n.qpn then none
  else if ds=0 ∨ ds > maxDS then none
  else
    let blocks := (ds*octoword+wqebb-1)/wqebb
    if opcode=opcodeEnhancedMPSW then
      (n.processMultiPacket sq block off ds).map fun pkts => (pkts,blocks)
    else (n.processSingle sq block off ds).map fun pkts => (pkts,blocks)

def Nic.poll (limit : UInt32) : Nat → UInt32 → Option (List Packet)
  | 0, consumed => if consumed=limit then some [] else none
  | fuel+1, consumed =>
    if consumed=limit then some []
    else match n.processOne sq consumed with
      | none => none
      | some (pkts,blocks) => (Nic.poll limit fuel (consumed+blocks)).map (pkts++·)

end

end Packetio.Mlx5

import Packetio.Frame
import Packetio.Lib.Cyclic

/-! Work queue entries as the senders of package wqe write them: the cyclic send
queue buffer (sq.go), the single-packet builder (send.go) and the multi-packet
builder in its copying and its pointing form (mpw.go). -/
namespace Packetio.Mlx5
open Lib

def wqebb : UInt32 := 64
def octoword : UInt32 := 16
def ctrlSegSize : UInt32 := 16
def ethSegHeaderSize : UInt32 := 14
def mpwEthSegSize : UInt32 := 16
def maxDS : UInt32 := 60
def opcodeSend : UInt32 := 0x0a
def opcodeEnhancedMPSW : UInt32 := 0x29
def ctrlCQUpdate : UInt32 := (2 : UInt32) <<< 2
def mpwInlineFlag : UInt32 := (1 : UInt32) <<< 31

def ctrlOpmodIdxOpcode : UInt32 := 0
def ctrlQPNDS : UInt32 := 4
def ctrlSignature : UInt32 := 8
def ctrlFMCESE : UInt32 := 11
def ctrlImm : UInt32 := 12
def ethRsvd0 : UInt32 := ctrlSegSize+0
def ethCSFlags : UInt32 := ctrlSegSize+4
def ethRsvd2 : UInt32 := ctrlSegSize+8
def ethInlineHdrSz : UInt32 := ctrlSegSize+12
def ethInlineHdr : UInt32 := ctrlSegSize+14
def dsegByteCount : UInt32 := 0
def dsegLKey : UInt32 := 4
def dsegAddr : UInt32 := 8

structure SQ where
  len : Nat
  mask : UInt32
  bbs : UInt32
  deriving DecidableEq, Repr

def newSQ (n : Nat) : Except String SQ :=
  if n=0 then .error "wqe: empty send queue buffer"
  else if n%64≠0 then
    .error s!"wqe: send queue buffer of {n} bytes is not a whole number of 64-byte blocks"
  else if n &&& (n-1)≠0 then
    .error s!"wqe: send queue buffer of {n} bytes is not a power of two"
  else .ok ⟨n,UInt32.ofNat (n-1),UInt32.ofNat (n/64)⟩

def SQ.offset (q : SQ) (idx : UInt32) : UInt32 := (idx*wqebb) &&& q.mask

/-- A big-endian field of `n` bytes. -/
def SQ.putBE (q : SQ) (n : Nat) (buf : Nat → UInt8) (off : UInt32) (v : Nat) : Nat → UInt8 :=
  blit buf (off &&& q.mask).toNat n (beByte n v)

def SQ.putU16BE (q : SQ) (buf : Nat → UInt8) (off : UInt32) (v : UInt16) : Nat → UInt8 :=
  q.putBE 2 buf off v.toNat
def SQ.putU32BE (q : SQ) (buf : Nat → UInt8) (off v : UInt32) : Nat → UInt8 :=
  q.putBE 4 buf off v.toNat
def SQ.putU64BE (q : SQ) (buf : Nat → UInt8) (off : UInt32) (v : UInt64) : Nat → UInt8 :=
  q.putBE 8 buf off v.toNat

def SQ.putBytes (q : SQ) (buf : Nat → UInt8) (off : UInt32) (src : Slice) : Nat → UInt8 :=
  wrapBlit q.len buf (off &&& q.mask).toNat src.len src.get

def SQ.zero (q : SQ) (buf : Nat → UInt8) (off length : UInt32) : Nat → UInt8 :=
  let off := off &&& q.mask
  let n := UInt32.ofNat q.len-off
  let n := if n > length then length else n
  let buf := blit buf off.toNat n.toNat (fun _ => 0)
  if n<length then blit buf 0 (length-n).toNat (fun _ => 0) else buf

def ethSegOctowords (inlineLen : UInt32) : UInt32 :=
  (ethSegHeaderSize+inlineLen+octoword-1)/octoword

def mpwPacketOctowords (length : UInt32) : UInt32 := (4+length+octoword-1)/octoword

/-- The blocks an entry of `ds` octowords occupies. -/
def blocksFor (ds : UInt32) : UInt32 := (ds*octoword+wqebb-1)/wqebb

def SQ.putCtrl (q : SQ) (buf : Nat → UInt8) (off : UInt32) (idx : UInt16)
    (opcode qpn ds : UInt32) (signaled : Bool) : Nat → UInt8 :=
  let buf := q.putU32BE buf (off+ctrlOpmodIdxOpcode) (idx.toUInt32 <<< 8 ||| opcode)
  let buf := q.putU32BE buf (off+ctrlQPNDS) (qpn <<< 8 ||| ds)
  let buf := q.putU32BE buf (off+ctrlSignature) (if signaled then ctrlCQUpdate else 0)
  q.putU32BE buf (off+ctrlImm) 0

def SQ.putDataSeg (q : SQ) (buf : Nat → UInt8) (off count lkey : UInt32) (addr : UInt64) :
    Nat → UInt8 :=
  let buf := q.putU32BE buf (off+dsegByteCount) count
  let buf := q.putU32BE buf (off+dsegLKey) lkey
  q.putU64BE buf (off+dsegAddr) addr

inductive Touch where
  | copied (off len : Nat)
  | pointed (addr : UInt64) (len : Nat)
  deriving DecidableEq, Repr

structure Put where
  buf : Nat → UInt8
  bbs : UInt32
  touched : List Touch

structure Sender where
  sq : SQ
  qpn : UInt32
  lkey : UInt32
  csFlags : UInt8
  inlineLen : UInt32
  maxDS : UInt32
  maxBBs : UInt32
  deriving DecidableEq, Repr

def newSender (sq : SQ) (qpn lkey : UInt32) (inlineLen : Int) (csFlags : UInt8) :
    Except String Sender :=
  if inlineLen<0 then .error s!"wqe: negative inline length {inlineLen}"
  else
    let inl := UInt32.ofInt inlineLen
    let ds := 1+ethSegOctowords inl+1
    if ds > maxDS then
      .error (s!"wqe: an inline header of {inl} bytes needs {ds} octowords, more than the "++
        s!"{maxDS} a work queue entry may have")
    else
      let bbs := blocksFor ds
      if bbs > sq.bbs then
        .error s!"wqe: an entry of {bbs} blocks does not fit a send queue of {sq.bbs}"
      else .ok ⟨sq,qpn,lkey,csFlags,inl,ds,bbs⟩

def Sender.inlined (s : Sender) (length : UInt32) : UInt32 :=
  if length > s.inlineLen then s.inlineLen else length

def Sender.ds (s : Sender) (length : UInt32) : UInt32 :=
  let ds := 1+ethSegOctowords (s.inlined length)
  if length-s.inlined length > 0 then ds+1 else ds

def Sender.put (s : Sender) (buf : Nat → UInt8) (idx : UInt16) (frame : Slice)
    (addr : UInt64) (signaled : Bool) : Put :=
  let length := UInt32.ofNat frame.len
  let inl := s.inlined length
  let rest := length-inl
  let ethOcts := ethSegOctowords inl
  let ds := s.ds length
  let off := s.sq.offset idx.toUInt32
  let buf := s.sq.putCtrl buf off idx opcodeSend s.qpn ds signaled
  let buf := s.sq.putU32BE buf (off+ethRsvd0) 0
  let buf := s.sq.putU32BE buf (off+ethCSFlags) (s.csFlags.toUInt32 <<< 24)
  let buf := s.sq.putU32BE buf (off+ethRsvd2) 0
  let buf := s.sq.putU16BE buf (off+ethInlineHdrSz) inl.toUInt16
  let buf := s.sq.putBytes buf (off+ethInlineHdr) (frame.upTo inl.toNat)
  let pad := ctrlSegSize+ethOcts*octoword-(ethInlineHdr+inl)
  let buf := if pad > 0 then s.sq.zero buf (off+ethInlineHdr+inl) pad else buf
  let buf := if rest > 0 then
      s.sq.putDataSeg buf (off+ctrlSegSize+ethOcts*octoword) rest s.lkey (addr+inl.toUInt64)
    else buf
  { buf := buf
    bbs := blocksFor ds
    touched := (if inl > 0 then [.copied frame.off inl.toNat] else []) ++
      (if rest > 0 then [.pointed (addr+inl.toUInt64) rest.toNat] else []) }

structure MPWSender where
  sq : SQ
  qpn : UInt32
  lkey : UInt32
  csFlags : UInt8
  pointer : Bool
  maxPackets : Nat
  maxLen : Int
  deriving DecidableEq, Repr

def newMPWSender (sq : SQ) (qpn : UInt32) (csFlags : UInt8) (maxLen : Int) (pointer : Bool)
    (lkey : UInt32) : Except String MPWSender :=
  let room : Int := sq.bbs.toNat*64/16
  if pointer then
    let maxPackets : Int := min 58 (room-2)
    if maxPackets<2 then
      .error (s!"wqe: only {maxPackets} packets fit an entry of a {sq.bbs}-block send queue; "++
        "there is no point")
    else .ok ⟨sq,qpn,lkey,csFlags,pointer,maxPackets.toNat,maxLen⟩
  else if maxLen≤0 then .error s!"wqe: a longest multi-packet packet of {maxLen} bytes"
  else
    let perPacket := mpwPacketOctowords (UInt32.ofInt maxLen)
    if 2+perPacket > maxDS then
      .error s!"wqe: a packet of {maxLen} bytes does not fit a multi-packet entry"
    else if perPacket=0 then .error "runtime error: integer divide by zero"
    else
      let maxPackets := ((maxDS-2)/perPacket).toNat
      if maxPackets<2 then
        .error s!"wqe: only {maxPackets} packets of {maxLen} bytes fit one entry; there is no point"
      else if 2+perPacket > UInt32.ofInt room then
        .error s!"wqe: an entry does not fit a send queue of {sq.bbs} blocks"
      else .ok ⟨sq,qpn,lkey,csFlags,pointer,maxPackets,maxLen⟩

def leadingNonEmpty : List Slice → Nat
  | [] => 0
  | f::fs => if f.len=0 then 0 else 1+leadingNonEmpty fs

/-- How many of the frames fit behind `ds` octowords. -/
def fitsFrom (maxLen : Int) : UInt32 → List Slice → Nat
  | _, [] => 0
  | ds, f::fs =>
    let need := mpwPacketOctowords (UInt32.ofNat f.len)
    if f.len=0 ∨ (f.len : Int) > maxLen ∨ ds+need > maxDS then 0
    else 1+fitsFrom maxLen (ds+need) fs

def MPWSender.fits (s : MPWSender) (frames : List Slice) : Nat :=
  if s.pointer then leadingNonEmpty (frames.take s.maxPackets) else fitsFrom s.maxLen 2 frames

def mpwOctowords (frames : List Slice) : UInt32 :=
  frames.foldl (fun ds f => ds+mpwPacketOctowords (UInt32.ofNat f.len)) 2

def MPWSender.putEth (s : MPWSender) (buf : Nat → UInt8) (off : UInt32) : Nat → UInt8 :=
  let buf := s.sq.putU32BE buf (off+ethRsvd0) 0
  let buf := s.sq.putU32BE buf (off+ethCSFlags) (s.csFlags.toUInt32 <<< 24)
  let buf := s.sq.putU32BE buf (off+ethRsvd2) 0
  s.sq.putU32BE buf (off+ethInlineHdrSz) 0

def SQ.putPacket (q : SQ) (buf : Nat → UInt8) (pos : UInt32) (f : Slice) : Nat → UInt8 :=
  let n := UInt32.ofNat f.len
  let buf := q.putU32BE buf pos (n ||| mpwInlineFlag)
  let buf := q.putBytes buf (pos+4) f
  let pad := mpwPacketOctowords n*octoword-4-n
  if pad > 0 then q.zero buf (pos+4+n) pad else buf

def SQ.putPackets (q : SQ) : (Nat → UInt8) → UInt32 → List Slice → Nat → UInt8
  | buf, _, [] => buf
  | buf, pos, f::fs =>
    q.putPackets (q.putPacket buf pos f)
      (pos+mpwPacketOctowords (UInt32.ofNat f.len)*octoword) fs

def MPWSender.put (s : MPWSender) (buf : Nat → UInt8) (idx : UInt16) (frames : List Slice)
    (signaled : Bool) : Put :=
  let off := s.sq.offset idx.toUInt32
  let ds := mpwOctowords frames
  let buf := s.sq.putCtrl buf off idx opcodeEnhancedMPSW s.qpn ds signaled
  let buf := s.putEth buf off
  let buf := s.sq.putPackets buf (off+ctrlSegSize+mpwEthSegSize) frames
  { buf := buf
    bbs := blocksFor ds
    touched := frames.map fun f => .copied f.off f.len }

def SQ.putPointerSegs (q : SQ) (lkey : UInt32) :
    (Nat → UInt8) → UInt32 → List (Slice × UInt64) → Nat → UInt8
  | buf, _, [] => buf
  | buf, pos, (f,addr)::fs =>
    q.putPointerSegs lkey (q.putDataSeg buf pos (UInt32.ofNat f.len) lkey addr) (pos+octoword) fs

def MPWSender.putPointers (s : MPWSender) (buf : Nat → UInt8) (idx : UInt16)
    (frames : List (Slice × UInt64)) (signaled : Bool) : Put :=
  let off := s.sq.offset idx.toUInt32
  let ds := UInt32.ofNat (2+frames.length)
  let buf := s.sq.putCtrl buf off idx opcodeEnhancedMPSW s.qpn ds signaled
  let buf := s.putEth buf off
  let buf := s.sq.putPointerSegs s.lkey buf (off+ctrlSegSize+mpwEthSegSize) frames
  { buf := buf
    bbs := blocksFor ds
    touched := frames.map fun p => .pointed p.2 p.1.len }

end Packetio.Mlx5

import Packetio.Mlx5.Ring.Tx

/-! The receive ring (rx.go): buffers are posted by Fill and come back from Receive
in the same order, each with one completion. Receive reads completions until it
has enough packets or finds none; a turn count stands in for time, and running out
of turns is an outcome of its own. -/
namespace Packetio.Mlx5.Ring
open Lib

structure RxConfig where
  rq : Nat → UInt8
  rqLen : Nat
  cq : Nat → CQE
  cqLen : Nat
  rqDbrec : Option UInt32
  cqDbrec : Option UInt32
  stride : UInt32
  lkey : UInt32
  region : Region
  regionVA : UInt64
  bufferSize : UInt32

structure RxCounters where
  packets : UInt64 := 0
  bytes : UInt64 := 0
  filled : UInt64 := 0
  batches : UInt64 := 0
  completions : UInt64 := 0
  errors : UInt64 := 0
  oversize : UInt64 := 0
  sincePublish : UInt32 := 0
  deriving DecidableEq, Repr

structure RxStats where
  c : RxCounters := {}
  outstanding : UInt64 := 0
  deriving DecidableEq, Repr

structure RxFixed where
  entries : UInt32
  mask : UInt32
  stride : UInt32
  region : Region
  regionVA : UInt64
  bufSize : UInt32

structure Rx extends RxFixed where
  rq : Nat → UInt8
  cq : CQ
  rqDbrec : UInt32
  cqDbrec : UInt32
  pi : UInt32 := 0
  ci : UInt32 := 0
  cqci : UInt32 := 0
  posted : Nat → Desc := fun _ => default
  failed : List Desc := []
  dead : Option String := none
  c : RxCounters := {}
  stats : RxStats := {}

def Rx.sync (r : Rx) : Rx :=
  let c := { r.c with sincePublish := 0 }
  { r with c := c, stats := ⟨c,(r.pi-r.ci).toUInt64⟩ }

def Rx.tick (r : Rx) : Rx :=
  let r := { r with c := { r.c with sincePublish := r.c.sincePublish+1 } }
  if r.c.sincePublish ≥ publishEvery then r.sync else r

/-- The half of entry `i` that never changes: buffer length and memory key. -/
def putBuffer (stride bufferSize lkey : UInt32) (rq : Nat → UInt8) (i : Nat) : Nat → UInt8 :=
  let off := UInt32.ofNat i*stride
  blit (blit rq off.toNat 4 (beByte 4 bufferSize.toNat)) (off+4).toNat 4 (beByte 4 lkey.toNat)

def newRx (cfg : RxConfig) : Except String Rx :=
  if cfg.stride≠16 then
    .error s!"ring: a receive entry of {cfg.stride} bytes, want the 16 of one data segment"
  else if cfg.rqLen%cfg.stride.toNat≠0 ∨ cfg.rqLen=0 then
    .error s!"ring: a receive queue of {cfg.rqLen} bytes is not a whole number of entries"
  else
    let entries := UInt32.ofNat cfg.rqLen/cfg.stride
    if entries &&& (entries-1)≠0 then
      .error s!"ring: a receive queue of {entries} entries is not a power of two"
    else match newCQ cfg.cqLen cfg.cq cqeSize with
      | .error e => .error e
      | .ok cq =>
        if cq.entries<entries then
          .error (s!"ring: a completion queue of {cq.entries} entries is smaller than the "++
            s!"{entries} buffers that can be outstanding")
        else match cfg.rqDbrec, cfg.cqDbrec with
          | some rqDbrec, some cqDbrec =>
            if cfg.bufferSize=0 then .error "ring: buffers of no bytes"
            else .ok {
              entries := entries, mask := entries-1, stride := cfg.stride, region := cfg.region
              regionVA := cfg.regionVA, bufSize := cfg.bufferSize, cq := cq, rqDbrec := rqDbrec
              cqDbrec := cqDbrec
              rq := (List.range entries.toNat).foldl
                (putBuffer cfg.stride cfg.bufferSize cfg.lkey) cfg.rq }
          | _, _ => .error "ring: the receive queue is missing a doorbell record"

def Rx.freeSlots (r : Rx) : Nat := (r.entries-(r.pi-r.ci)).toNat

def Rx.outstanding (r : Rx) : Nat := (r.pi-r.ci).toNat

def Rx.fillOne (r : Rx) (d : Desc) : Rx :=
  let slot := r.pi &&& r.mask
  { r with
    rq := blit r.rq (slot*r.stride+8).toNat 8 (beByte 8 (r.regionVA+d.addr).toNat)
    posted := Function.update r.posted slot.toNat d
    pi := r.pi+1 }

def Rx.fill (r : Rx) (descs : List Desc) : Rx × Nat :=
  let n := min descs.length r.freeSlots
  if n=0 then (r,0)
  else
    let r := (descs.take n).foldl Rx.fillOne r
    (Rx.tick { r with
      rqDbrec := r.pi &&& 0xffff
      c := { r.c with filled := r.c.filled+UInt64.ofNat n } },n)

def Rx.fail (r : Rx) (err : String) : Rx := { r with dead := r.dead.or (some err) }

def Rx.countError (r : Rx) : Rx := { r with c := { r.c with errors := r.c.errors+1 } }

structure ReceiveState where
  rx : Rx
  out : List Desc
  ts : Option (List UInt64)
  got : Nat := 0
  bytes : UInt64 := 0
  read : UInt64 := 0

def Rx.refuse (r : Rx) (d : Desc) : Rx := { r.countError with failed := r.failed++[d] }

def checksumOptions (e : CQE) : UInt32 :=
  let f := checksumFlags e
  if f &&& cqeL3OK≠0 then
    optL3ChecksumOK ||| (if f &&& cqeL4OK≠0 then optChecksumOK else 0)
  else 0

def received (d : Desc) (e : CQE) : Desc := ⟨d.addr,byteCount e,checksumOptions e⟩

/-- What becomes of the oldest buffer `d` when completion `e` reports it. -/
def ReceiveState.settle (st : ReceiveState) (d : Desc) (e : CQE) : ReceiveState :=
  if opcode (header e)=cqeRespErr then { st with rx := st.rx.refuse d }
  else if byteCount e > st.rx.bufSize then
    let r := st.rx.refuse d
    { st with rx := { r with c := { r.c with oversize := r.c.oversize+1 } } }
  else { st with
    out := st.out++[received d e]
    ts := st.ts.map (·++[timestamp e])
    got := st.got+1
    bytes := st.bytes+(byteCount e).toUInt64 }

inductive ReceiveTurn where
  | stop (st : ReceiveState)
  | again (st : ReceiveState)
  | crash

def receiveTurn (st : ReceiveState) : ReceiveTurn :=
  let r := st.rx
  let hdr := r.cq.header r.cqci
  if !r.cq.owned r.cqci hdr then .stop st
  else if format hdr≠cqeFormatNoData then
    let fmt := format hdr
    let err := s!"ring: a completion of format {fmt}, which needs a decoder this does not have"
    .stop { st with rx := r.countError.fail err }
  else
    let r := { r with cqci := r.cqci+1 }
    let st := { st with rx := r, read := st.read+1 }
    if opcode hdr≠cqeRespSend ∧ opcode hdr≠cqeRespErr then
      .again { st with rx := r.countError }
    else if r.pi=r.ci then .again { st with rx := r.countError }
    else
      let slot := r.ci &&& r.mask
      let counter := (wqeCounter hdr).toUInt32 &&& r.mask
      if counter≠slot then
        let err := s!"ring: completion names buffer {counter}, expected {slot}; "++
          "the queue and the card have lost track of each other"
        .stop { st with rx := r.countError.fail err }
      else
        let d := r.posted slot.toNat
        -- the prefetch takes the address of the first byte of the frame
        if ¬ d.addr.toNat<r.region.len then .crash
        else .again (({ st with rx := { r with ci := r.ci+1 } }).settle d (r.cq.entry (r.cqci-1)))

inductive Outcome (α : Type) where
  | ok (a : α)
  | crash
  | hang

def receiveLoop (max : Int) : Nat → ReceiveState → Outcome ReceiveState
  | 0, _ => .hang
  | turns+1, st =>
    if ¬ (st.got : Int) < max then .ok st
    else match receiveTurn st with
      | .stop st => .ok st
      | .again st => receiveLoop max turns st
      | .crash => .crash

def ReceiveState.finish (st : ReceiveState) : Rx :=
  let r := st.rx
  if st.read=0 then if r.pi=r.ci then r.sync else r
  else { r with
    c := { r.c with
      completions := r.c.completions+st.read
      batches := r.c.batches+1
      packets := r.c.packets+UInt64.ofNat st.got
      bytes := r.c.bytes+st.bytes }
    cqDbrec := r.cqci &&& 0xffffff }

def Rx.receive (r : Rx) (turns : Nat) (max : Int) (out : List Desc) (ts : Option (List UInt64)) :
    Outcome (Rx × List Desc × Option (List UInt64)) :=
  let r := { r with failed := [] }
  if max≤0 ∨ r.dead.isSome then .ok (r,out,ts)
  else match receiveLoop max turns { rx := r, out := out, ts := ts } with
    | .ok st => .ok (st.finish,st.out,st.ts)
    | .crash => .crash
    | .hang => .hang

end Packetio.Mlx5.Ring

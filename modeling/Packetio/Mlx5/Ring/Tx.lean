import Packetio.Mlx5.Wqe
import Packetio.Mlx5.Cqe

/-! The send ring (ring/tx.go): posting descriptors as work queue entries and
turning completions back into the frames they release. Two fields record what
was done and are read by no code: `entries`, every entry written so far, and
`touched`, the frame memory those entries used. -/
namespace Packetio.Mlx5.Ring

structure TxConfig where
  sq : Nat → UInt8
  sqLen : Nat
  cq : Nat → CQE
  cqLen : Nat
  sqDbrec : Option UInt32
  cqDbrec : Option UInt32
  uar : Bool
  qpn : UInt32
  lkey : UInt32
  region : Region
  regionVA : UInt64
  frameSize : Int
  inlineLen : Int
  csFlags : UInt8
  multiPacket : Bool
  multiPacketMaxLen : Int
  multiPacketPointer : Bool
  signalEvery : Int
  frameSize_lt : frameSize<2^63 := by decide

structure Counters where
  packets : UInt64 := 0
  bytes : UInt64 := 0
  completed : UInt64 := 0
  batches : UInt64 := 0
  completions : UInt64 := 0
  ringFull : UInt64 := 0
  errors : UInt64 := 0
  badDesc : UInt64 := 0
  sincePublish : UInt32 := 0
  deriving DecidableEq, Repr

structure EntryMeta where
  slotTail : UInt32 := 0
  bbs : UInt16 := 0
  deriving DecidableEq, Repr

structure Entry where
  bbs : Nat
  descs : List Desc
  deriving DecidableEq, Repr

structure TxFixed where
  sender : Sender
  mpw : Option MPWSender
  region : Region
  regionVA : UInt64
  frameMask : UInt64
  sqLen : Nat
  bbs : UInt32
  bbMask : UInt32
  maxBBs : UInt32
  numSlots : UInt32
  slotMask : UInt32
  signalEvery : UInt32

structure Ledger where
  pi : UInt32 := 0
  head : UInt32 := 0
  slots : Nat → Desc := fun _ => default
  slotHead : UInt32 := 0
  slotTail : UInt32 := 0
  entryMeta : Nat → EntryMeta := fun _ => {}
  entries : List Entry := []

structure Tx extends TxFixed, Ledger where
  cq : CQ
  sqDbrec : UInt32
  cqDbrec : UInt32
  sqBytes : Nat → UInt8
  ci : UInt32 := 0
  sinceSignal : UInt32 := 0
  failed : Option ErrorInfo := none
  c : Counters := {}
  stats : Counters := {}
  touched : List Touch := []

def publishEvery : UInt32 := 256

def Tx.publish (t : Tx) : Tx :=
  { t with c := { t.c with sincePublish := 0 }, stats := { t.c with sincePublish := 0 } }

def Tx.tick (t : Tx) : Tx :=
  let t := { t with c := { t.c with sincePublish := t.c.sincePublish+1 } }
  if t.c.sincePublish ≥ publishEvery then t.publish else t

def nextPow2From (n : UInt32) : Nat → UInt32 → UInt32
  | 0, p => p
  | fuel+1, p => if p<n then nextPow2From n fuel (p <<< 1) else p

def nextPow2 (n : UInt32) : UInt32 := nextPow2From n 32 1

def onesCount (w n : Nat) : Nat := (List.range w).countP fun i => n.testBit i

def slotsPerBlock (multiPacket : Bool) : UInt32 :=
  if multiPacket then
    let perEntry := maxDS-2
    let entryBlocks := ((2+perEntry)*octoword)/wqebb
    let perBlock := (perEntry+entryBlocks-1)/entryBlocks
    if perBlock=0 then 1 else perBlock
  else 1

def newMPW (cfg : TxConfig) (sq : SQ) : Except String (Option MPWSender) :=
  if cfg.multiPacket then
    if cfg.multiPacketMaxLen≤0 ∧ !cfg.multiPacketPointer then
      .error "ring: multi-packet entries need a longest packet length"
    else if cfg.inlineLen≠0 then
      .error (s!"ring: multi-packet entries cannot carry the {cfg.inlineLen} inline header "++
        "bytes this device requires")
    else
      (newMPWSender sq cfg.qpn cfg.csFlags cfg.multiPacketMaxLen cfg.multiPacketPointer
        cfg.lkey).map some
  else .ok none

def newTx (cfg : TxConfig) : Except String Tx := do
  let sq ← newSQ cfg.sqLen
  let cq ← newCQ cfg.cqLen cfg.cq cqeSize
  let sender ← newSender sq cfg.qpn cfg.lkey cfg.inlineLen cfg.csFlags
  match cfg.sqDbrec, cfg.cqDbrec, cfg.uar with
  | some sqDbrec, some cqDbrec, true =>
    if cq.entries<sq.bbs then
      .error (s!"ring: a completion queue of {cq.entries} entries is smaller than the "++
        s!"{sq.bbs} that can be outstanding")
    else
      let mpw ← newMPW cfg sq
      let slots := nextPow2 (sq.bbs*slotsPerBlock cfg.multiPacket)
      if onesCount 32 sq.bbs.toNat≠1 then
        .error s!"ring: send queue of {sq.bbs} blocks is not a power of two"
      else if cfg.frameSize≤0 ∨ onesCount 64 (UInt64.ofInt cfg.frameSize).toNat≠1 then
        .error s!"ring: frame size {cfg.frameSize} is not a power of two"
      else if (cfg.region.len : Int)%cfg.frameSize≠0 then
        .error (s!"ring: a region of {cfg.region.len} bytes is not a whole number of "++
          s!"{cfg.frameSize}-byte frames")
      else
        .ok { sender := sender, mpw := mpw, region := cfg.region, regionVA := cfg.regionVA
              frameMask := UInt64.ofInt cfg.frameSize-1, sqLen := cfg.sqLen, bbs := sq.bbs
              bbMask := sq.bbs-1, maxBBs := sender.maxBBs, numSlots := slots
              slotMask := slots-1, signalEvery := UInt32.ofInt cfg.signalEvery, cq := cq
              sqDbrec := sqDbrec, cqDbrec := cqDbrec, sqBytes := cfg.sq }
  | _, _, _ => .error "ring: send queue is missing a doorbell record or user access region"

def TxFixed.descOK (t : TxFixed) (d : Desc) : Bool :=
  d.addr<UInt64.ofNat t.region.len &&
    d.len.toUInt64-1<t.frameMask+1-(d.addr &&& t.frameMask)

section
variable (f : TxFixed) (l : Ledger)

def Ledger.free : UInt32 := f.bbs-(l.pi-l.head)

def Ledger.inFlight : Nat := (l.slotTail-l.slotHead).toNat

def Ledger.putSlot (d : Desc) : Ledger :=
  { l with slots := Function.update l.slots (l.slotTail &&& f.slotMask).toNat d
           slotTail := l.slotTail+1 }

def Ledger.record (ds : List Desc) (bbs : UInt32) : Ledger :=
  let l := ds.foldl (Ledger.putSlot f) l
  { l with
    entryMeta := Function.update l.entryMeta (l.pi &&& f.bbMask).toNat ⟨l.slotTail,bbs.toUInt16⟩
    pi := l.pi+bbs
    entries := l.entries++[⟨bbs.toNat,ds⟩] }

def Ledger.entryFor (header : UInt32) : Option (UInt32 × UInt32) :=
  let delta := (wqeCounter header-l.head.toUInt16).toUInt32
  if delta ≥ l.pi-l.head then none
  else
    let m := l.entryMeta ((l.head+delta) &&& f.bbMask).toNat
    if m.bbs=0 then none
    else
      let used := m.slotTail-l.slotHead
      if used=0 ∨ used > l.slotTail-l.slotHead then none
      else some (m.slotTail,l.head+delta+m.bbs.toUInt32)

/-- The `n` frames from slot position `h` on. -/
def Ledger.slotRun : Nat → UInt32 → List Desc
  | 0, _ => []
  | n+1, h => l.slots (h &&& f.slotMask).toNat :: Ledger.slotRun n (h+1)

end

def Tx.free (t : Tx) : UInt32 := t.toLedger.free t.toTxFixed

/-- How many packets `free` blocks are offered for. -/
def byBlocks (m : MPWSender) (free : UInt32) : Nat :=
  if m.pointer then
    let rem : Int := (free%15).toNat*4-2
    (free/15).toNat*58+(if rem > 0 then rem.toNat else 0)
  else free.toNat*4/((4+m.maxLen.toNat+16-1)/16)

def Tx.freeSlots (t : Tx) : Nat :=
  if t.failed.isSome then 0
  else match t.mpw with
    | some m => min (byBlocks m t.free) (t.numSlots-(t.slotTail-t.slotHead)).toNat
    | none => (t.free/t.maxBBs).toNat

def Tx.record (t : Tx) (ds : List Desc) (bbs : UInt32) : Tx :=
  { t with toLedger := t.toLedger.record t.toTxFixed ds bbs }

def Tx.write (t : Tx) (p : Put) : Tx :=
  { t with sqBytes := p.buf, touched := t.touched++p.touched }

def Tx.ring (t : Tx) (posted : Nat) (bytes : UInt64) : Tx :=
  Tx.tick { t with
    sqDbrec := t.pi &&& 0xffff
    c := { t.c with
      packets := t.c.packets+UInt64.ofNat posted
      bytes := t.c.bytes+bytes
      batches := t.c.batches+1 } }

def Tx.countBadDesc (t : Tx) : Tx := { t with c := { t.c with badDesc := t.c.badDesc+1 } }

def Tx.countRingFull (t : Tx) : Tx := { t with c := { t.c with ringFull := t.c.ringFull+1 } }

def Tx.signals (t : Tx) (last : Bool) : Bool :=
  last || (t.signalEvery != 0 && t.sinceSignal+1 ≥ t.signalEvery)

def Tx.postOne (t : Tx) (last : Bool) (d : Desc) : Option Tx :=
  let signal := t.signals last
  match t.region.slice d.addr (d.addr+d.len.toUInt64) with
  | none => none
  | some frame =>
    let p := t.sender.put t.sqBytes t.pi.toUInt16 frame (t.regionVA+d.addr) signal
    let t := { t with sinceSignal := if signal then 0 else t.sinceSignal+1 }
    some ((t.write p).record [d] p.bbs)

structure PostState where
  tx : Tx
  bytes : UInt64 := 0
  posted : Nat := 0

def postLoop (n : Nat) : List Desc → PostState → Option PostState
  | [], st => some st
  | d::ds, st =>
    if !st.tx.descOK d then some { st with tx := st.tx.countBadDesc }
    else match st.tx.postOne (st.posted+1 == n) d with
      | none => none
      | some t => postLoop n ds ⟨t,st.bytes+d.len.toUInt64,st.posted+1⟩

def Tx.postSingle (t : Tx) (descs : List Desc) : Option (Tx × Nat) :=
  match postLoop descs.length descs { tx := t } with
  | none => none
  | some st =>
    if st.posted=0 then some (st.tx.publish,0)
    else some (st.tx.ring st.posted st.bytes,st.posted)

structure Gathered where
  frames : List (Slice × UInt64)
  checked : Nat
  bad : Bool

/-- The packets that may share one entry, each with its device address. A
descriptor before `checked` was validated on an earlier turn. -/
def gather (t : TxFixed) : Nat → Nat → List Desc → Option Gathered
  | _, checked, [] => some ⟨[],checked,false⟩
  | i, checked, d::ds =>
    if checked ≤ i ∧ !t.descOK d then some ⟨[],checked,true⟩
    else match t.region.slice d.addr (d.addr+d.len.toUInt64) with
      | none => none
      | some frame =>
        match gather t (i+1) (if checked ≤ i then i+1 else checked) ds with
        | none => none
        | some g => some { g with frames := (frame,t.regionVA+d.addr)::g.frames }

def mpwBlocks (frames : List Slice) : UInt32 := blocksFor (mpwOctowords frames)

def Tx.putMulti (t : Tx) (m : MPWSender) (free : UInt32) (frames : List (Slice × UInt64))
    (d : Desc) : Option (Nat × Put) :=
  let k := m.fits (frames.map Prod.fst)
  let idx := t.pi.toUInt16
  if 2≤k ∧ m.pointer then
    let bbs := blocksFor (UInt32.ofNat (2+k))
    if bbs > free then some (k,⟨t.sqBytes,bbs,[]⟩)
    else some (k,{ m.putPointers t.sqBytes idx (frames.take k) false with bbs := bbs })
  else if 2≤k then
    let bbs := mpwBlocks ((frames.take k).map Prod.fst)
    if bbs > free then some (k,⟨t.sqBytes,bbs,[]⟩)
    else some (k,{ m.put t.sqBytes idx ((frames.take k).map Prod.fst) false with bbs := bbs })
  else if t.maxBBs > free then some (1,⟨t.sqBytes,0,[]⟩)
  else match t.region.slice d.addr (d.addr+d.len.toUInt64) with
    | none => none
    | some frame => some (1,t.sender.put t.sqBytes idx frame (t.regionVA+d.addr) false)

def sumLens (bytes : UInt64) (ds : List Desc) : UInt64 :=
  ds.foldl (fun b d => b+d.len.toUInt64) bytes

structure MultiState where
  tx : Tx
  bytes : UInt64 := 0
  lastIdx : UInt16 := 0
  posted : Nat := 0
  anyPut : Bool := false
  bad : Bool := false
  checked : Nat := 0

def Tx.gatherLimit (t : Tx) (waiting : Nat) : Nat :=
  min (min 58 waiting) (t.numSlots.toNat-t.inFlight)

def multiTurn (m : MPWSender) (descs : List Desc) (st : MultiState) :
    Option (MultiState × Bool) :=
  let t := st.tx
  let waiting := descs.drop st.posted
  if t.free=0 ∨ t.slotTail-t.slotHead=t.numSlots then some (st,false)
  else match gather t.toTxFixed st.posted st.checked
      (waiting.take (t.gatherLimit waiting.length)) with
    | none => none
    | some g =>
      let t := if g.bad then t.countBadDesc else t
      let st := { st with tx := t, checked := g.checked, bad := g.bad }
      match g.frames, waiting with
      | [], _ => some (st,false)
      | _, [] => some (st,false)
      | _, d::_ => match t.putMulti m t.free g.frames d with
        | none => none
        | some (k,p) =>
          if p.bbs=0 ∨ p.bbs > t.free then some ({ st with tx := t.write p },false)
          else
            let ds := waiting.take k
            some ({ st with
              tx := (t.write p).record ds p.bbs
              bytes := sumLens st.bytes ds
              lastIdx := t.pi.toUInt16
              posted := st.posted+k
              anyPut := true },true)

def multiLoop (m : MPWSender) (descs : List Desc) : Nat → MultiState → Option MultiState
  | 0, st => some st
  | fuel+1, st =>
    if st.posted<descs.length ∧ !st.bad then
      match multiTurn m descs st with
      | none => none
      | some (st,false) => some st
      | some (st,true) => multiLoop m descs fuel st
    else some st

/-- Ask for a completion on the entry at `idx`, after it was written. -/
def Tx.setSignaled (t : Tx) (idx : UInt16) : Tx :=
  let off := (idx.toUInt32*wqebb) &&& (UInt32.ofNat t.sqLen-1)
  let i := (off+ctrlFMCESE).toNat
  { t with sqBytes := Function.update t.sqBytes i (t.sqBytes i ||| ctrlCQUpdate.toUInt8) }

def Tx.postMulti (t : Tx) (m : MPWSender) (descs : List Desc) : Option (Tx × Nat) :=
  match multiLoop m descs descs.length { tx := t } with
  | none => none
  | some st =>
    if !st.anyPut then some (st.tx.countRingFull.publish,0)
    else some ((st.tx.setSignaled st.lastIdx).ring st.posted st.bytes,st.posted)

/-- Write entries for as many of the descriptors as fit and publish them;
`none` is a run-time panic. -/
def Tx.post (t : Tx) (descs : List Desc) : Option (Tx × Nat) :=
  if t.failed.isSome then some (t,0)
  else if descs.length > t.freeSlots ∧ t.freeSlots=0 then some (t.countRingFull.publish,0)
  else
    let descs := descs.take t.freeSlots
    if descs.length=0 then some (t,0)
    else match t.mpw with
      | some m => t.postMulti m descs
      | none => t.postSingle descs

structure CompleteState where
  ci : UInt32
  release : UInt32 := 0
  newHead : UInt32 := 0
  haveAny : Bool := false
  completed : UInt64 := 0
  errors : UInt64
  failed : Option ErrorInfo

def CompleteState.consume (t : Tx) (st : CompleteState) : CompleteState :=
  let err := opcode (t.cq.header st.ci)=cqeReqErr
  { st with
    ci := st.ci+1
    completed := st.completed+1
    errors := if err then st.errors+1 else st.errors
    failed := if err then st.failed.or (some (errorInfo (t.cq.entry st.ci))) else st.failed }

def completeLoop (t : Tx) (max : UInt32) : Nat → CompleteState → CompleteState
  | 0, st => st
  | n+1, st =>
    let hdr := t.cq.header st.ci
    if !t.cq.owned st.ci hdr then st
    else if format hdr≠cqeFormatNoData then { st with errors := st.errors+1 }
    else if opcode hdr≠cqeReq ∧ opcode hdr≠cqeReqErr then
      completeLoop t max n
        { st with ci := st.ci+1, completed := st.completed+1, errors := st.errors+1 }
    else
      let next := st.consume t
      match t.toLedger.entryFor t.toTxFixed hdr with
      | none => completeLoop t max n { next with errors := next.errors+1 }
      | some (target,head) =>
        if st.haveAny ∧ target-t.slotHead > max then st
        else
          let next := { next with release := target, newHead := head, haveAny := true }
          if target-t.slotHead ≥ max then next else completeLoop t max n next

/-- Give back the frames up to slot position `release`. -/
def Tx.release (t : Tx) (release newHead : UInt32) : Tx :=
  let freed := release-t.slotHead
  let t := { t with slotHead := release, head := newHead
                    c := { t.c with completed := t.c.completed+freed.toUInt64 } }
  if t.slotTail=t.slotHead then t.publish else t

def Tx.complete (t : Tx) (max : Int) (out : List Desc) : Tx × List Desc :=
  if max≤0 then (t,out)
  else
    let st := completeLoop t (UInt32.ofInt max) t.cq.entries.toNat
      { ci := t.ci, errors := t.c.errors, failed := t.failed }
    let t' := { t with ci := st.ci, failed := st.failed, c := { t.c with errors := st.errors } }
    if st.completed=0 then (t',out)
    else
      let t' := { t' with c := { t'.c with completions := t'.c.completions+st.completed } }
      let out := if st.haveAny then
          out++t.toLedger.slotRun t.toTxFixed (st.release-t.slotHead).toNat t.slotHead
        else out
      let t' := if st.haveAny then t'.release st.release st.newHead else t'
      ({ t' with cqDbrec := st.ci &&& 0xffffff },out)

def completableLoop (t : Tx) : Nat → UInt32 → Option UInt32 → Option UInt32
  | 0, _, release => release
  | n+1, ci, release =>
    let hdr := t.cq.header ci
    if !t.cq.owned ci hdr ∨ format hdr≠cqeFormatNoData then release
    else if opcode hdr=cqeReq ∨ opcode hdr=cqeReqErr then
      match t.toLedger.entryFor t.toTxFixed hdr with
      | some (target,_) => completableLoop t n (ci+1) (some target)
      | none => completableLoop t n (ci+1) release
    else completableLoop t n (ci+1) release

def Tx.completable (t : Tx) : Nat :=
  match completableLoop t t.cq.entries.toNat t.ci none with
  | none => 0
  | some release => (release-t.slotHead).toNat

end Packetio.Mlx5.Ring

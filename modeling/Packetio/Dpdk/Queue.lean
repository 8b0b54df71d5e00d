import Packetio.Dpdk.Mbuf
import Packetio.Dpdk.Ring
import Packetio.PoolFrames

/-! The queues of the DPDK backend, one hardware ring each (queue/queue.go): which
frames Alloc hands out, what Transmit gives to the driver, and which free list a frame
goes back to. The driver is not part of a queue: an operation that calls it comes in
two halves, before the call and after it, or takes the driver's answer as an argument.
A result of `none` is a run-time panic; queues are open. -/
namespace Packetio.Dpdk
open Pool Dpdk.Mbuf

inductive Dead where
  | freed (va : UInt64)
  | delivered (va : UInt64)
  | returned (va : UInt64)
  deriving DecidableEq, Repr

structure Config where
  layout : Layout
  regionVA : UInt64
  poolVA : UInt64
  firstFrame : Nat
  frames : Nat
  depth : Nat
  supply : Option Ring := none
  returned : Option Ring := none
  checksums : Bool := false
  tso : Bool := false
  pmd : Bool := true

def Config.validate (c : Config) (region : Region) : Except String Unit :=
  match c.layout.validate with
  | .error e => .error e
  | .ok () =>
    if region.len=0 then .error "dpdk: a queue with no region"
    else if region.len%c.layout.frameSize≠0 then
      .error (s!"dpdk: a region of {region.len} bytes is not a whole number of "++
        s!"{c.layout.frameSize}-byte frames")
    else if c.frames=0 then .error s!"dpdk: a queue with {c.frames} frames"
    else if (c.firstFrame+c.frames)*c.layout.frameSize > region.len then
      .error (s!"dpdk: frames {c.firstFrame}..{c.firstFrame+c.frames} run past the "++
        s!"{region.len}-byte region")
    else if c.depth=0 then .error s!"dpdk: a queue of depth {c.depth}"
    else if c.returned.isNone then .error "dpdk: a queue with no returned ring"
    else if !c.pmd then .error "dpdk: a queue with no driver"
    else .ok ()

structure Fixed where
  l : Layout
  regionVA : UInt64
  poolVA : UInt64
  firstFrame : Nat
  frames : Nat
  depth : Nat
  regionLen : UInt64
  frameMask : UInt64
  dataStart : UInt64
  bufStart : UInt64

structure Base extends Fixed where
  pool : Frames
  returned : Ring
  dead : Option Dead := none

def initBase (checked : Bool) (region : Region) (c : Config) : Except String Base :=
  match c.validate region with
  | .error e => .error e
  | .ok () => match c.returned with
    | none => .error "dpdk: a queue with no returned ring"
    | some returned => .ok
      { l := c.layout
        regionVA := c.regionVA
        poolVA := c.poolVA
        firstFrame := c.firstFrame
        frames := c.frames
        depth := c.depth
        regionLen := UInt64.ofNat region.len
        frameMask := UInt64.ofNat (c.layout.frameSize-1)
        dataStart := UInt64.ofNat c.layout.dataStart
        bufStart := UInt64.ofNat (c.layout.objHeader+c.layout.mbufSize)
        pool := newFrames checked c.firstFrame c.frames c.layout.frameSize
        returned := returned }

namespace Fixed

def descOK (b : Fixed) (d : Desc) : Bool :=
  if d.addr ≥ b.regionLen then false
  else
    let within := d.addr &&& b.frameMask
    if within<b.bufStart then false else d.len.toUInt64-1<b.frameMask+1-within

def frameOf (b : Fixed) (addr : UInt64) : UInt64 := addr &&& ~~~b.frameMask

def offsetOfVA (b : Fixed) (va : UInt64) : Option UInt64 :=
  if va<b.regionVA then none
  else if va-b.regionVA ≥ b.regionLen then none
  else some (va-b.regionVA)

def frameOfVA (b : Fixed) (va : UInt64) : Option UInt64 := (b.offsetOfVA va).map b.frameOf

def owns (b : Fixed) (addr : UInt64) : Bool :=
  let lo := UInt64.ofNat b.firstFrame*UInt64.ofNat b.l.frameSize
  let hi := lo+UInt64.ofNat b.frames*UInt64.ofNat b.l.frameSize
  lo≤addr && addr<hi

def mbufAt (b : Fixed) (frame : UInt64) : Nat := frame.toNat+b.l.objHeader

def mbufVA (b : Fixed) (frame : UInt64) : UInt64 := b.regionVA+UInt64.ofNat (b.mbufAt frame)

end Fixed

def Base.fail (b : Base) (e : Option Dead) : Option Dead := b.dead <|> e

/-! Transmit -/

structure TxStats where
  packets : UInt64 := 0
  bytes : UInt64 := 0
  completed : UInt64 := 0
  batches : UInt64 := 0
  ringFull : UInt64 := 0
  poolEmpty : UInt64 := 0
  badDesc : UInt64 := 0
  badOffload : UInt64 := 0
  pokes : UInt64 := 0
  foreign : UInt64 := 0
  deriving DecidableEq, Repr

structure Tx extends Base where
  checksums : Bool
  tso : Bool
  inFlight : Int := 0
  stats : TxStats := {}

def newTx (checked : Bool) (region : Region) (c : Config) : Except String Tx :=
  match initBase checked region c with
  | .error e => .error e
  | .ok b => .ok { b with checksums := c.checksums, tso := c.tso }

inductive OffloadError where
  | badLength (text : String)
  | unsupported (text : String)
  deriving DecidableEq, Repr

inductive TransmitError where
  | lengths (descs offs : Nat)
  | failed (e : Dead)
  | desc (i : Nat) (d : Desc)
  | offload (i : Nat) (e : OffloadError)
  deriving DecidableEq, Repr

namespace Tx

def numFreeSlots (t : Tx) : Nat := (t.depth-t.inFlight).toNat

def numInFlight (t : Tx) : Int := t.inFlight

def alloc (t : Tx) (n : Int) : Option (Tx × List Desc) :=
  if n≤0 ∨ t.dead.isSome then some (t,[])
  else match clamp n t.numFreeSlots with
    | none => some ({ t with stats.ringFull := t.stats.ringFull+1 },[])
    | some n => match clamp n t.pool.len with
      | none => some ({ t with stats.poolEmpty := t.stats.poolEmpty+1 },[])
      | some n => match t.pool.pop n [] with
        | none => none
        | some (p,addrs) =>
          some ({ t with pool := p },addrs.map fun frame => ⟨frame+t.dataStart,0,0⟩)

def segmentation (t : Tx) (h : Headers) (o : Offload) (len : Nat) (flags : UInt64) :
    Except OffloadError (UInt64 × UInt64 × UInt64) :=
  let hdrLen := h.l2Len+h.l3Len
  let gsoType := o.gsoType &&& ~~~offloadGSOECN
  if !o.segmented then .ok (0,0,flags)
  else if !t.tso then
    .error (.unsupported "segmentation, which this device was not opened for or does not offer")
  else if gsoType≠offloadGSOTCPv4 ∧ gsoType≠offloadGSOTCPv6 then
    .error (.unsupported s!"segmentation type {o.gsoType}")
  else if h.proto≠protoTCP then .error (.badLength "TCP segmentation of a non-TCP packet")
  else if o.gsoSize=0 then .error (.badLength "segmented but the segment size is zero")
  else if o.hdrLen.toNat≤hdrLen ∨ o.hdrLen.toNat > len then
    .error (.badLength (s!"header length {o.hdrLen}, with {hdrLen} bytes of L2 and L3 in a "++
      s!"{len}-byte packet"))
  else .ok (UInt64.ofNat (o.hdrLen.toNat-hdrLen),o.gsoSize.toUInt64,flags ||| txTCPSeg)

def applyOffload (t : Tx) (b : Region) (m : Nat) (o : Offload) (packet : Slice) :
    Option (Except OffloadError Region) :=
  if o.flags=0 ∧ o.gsoType=offloadGSONone then some (.ok b)
  else match parse packet with
    | none => none
    | some none => some (.error (.badLength
        "offload asked for a packet whose headers this backend does not recognise"))
    | some (some h) =>
      let hdrLen := h.l2Len+h.l3Len
      if o.flags &&& offloadNeedsCsum≠0 ∧ o.csumStart.toNat≠hdrLen then
        some (.error (.badLength
          s!"CsumStart {o.csumStart}, but the packet's headers end at {hdrLen}"))
      else if checksumFlags h=0 then
        some (.error (.badLength "offload asked for a packet that is neither IPv4 nor IPv6"))
      else match t.segmentation h o packet.len (checksumFlags h) with
        | .error e => some (.error e)
        | .ok (l4Len,segSize,flags) => do
          let b ← setOlFlags b m flags
          let b ← setTxOffloadTSO b m (UInt64.ofNat h.l2Len) (UInt64.ofNat h.l3Len) l4Len segSize
          some (.ok b)

def ask (t : Tx) (b : Region) (m : Nat) (d : Desc) (o : Option Offload) :
    Option (Except OffloadError Region) :=
  match o with
  | some o => do
    let packet ← b.slice d.addr (d.addr+d.len.toUInt64)
    t.applyOffload b m o packet
  | none =>
    if t.checksums then do
      let packet ← b.slice d.addr (d.addr+d.len.toUInt64)
      match ← parse packet with
      | none => some (.ok b)
      | some h => do
        let b ← setOlFlags b m (checksumFlags h)
        let b ← setTxOffload b m (UInt64.ofNat h.l2Len) (UInt64.ofNat h.l3Len)
        some (.ok b)
    else some (.ok b)

structure Batch where
  mbufs : List UInt64 := []
  bytes : UInt64 := 0
  refused : Option TransmitError := none

/-- The loop of transmit, at descriptor `i`. -/
def build (t : Tx) : Nat → List (Desc × Option Offload) → Region → Option (Region × Batch)
  | _, [], b => some (b,{})
  | i, (d,o)::ds, b =>
    if !t.descOK d then some (b,{ refused := some (.desc i d) })
    else
      let frame := t.frameOf d.addr
      match prepareTx b (t.mbufAt frame) t.poolVA (d.addr-frame-t.bufStart).toUInt16 d.len with
      | none => none
      | some b => match t.ask b (t.mbufAt frame) d o with
        | none => none
        | some (.error e) => some (b,{ refused := some (.offload i e) })
        | some (.ok b) => match t.build (i+1) ds b with
          | none => none
          | some (b,rest) => some (b,{ rest with
              mbufs := t.mbufVA frame::rest.mbufs, bytes := d.len.toUInt64+rest.bytes })

def countRefusal (t : Tx) : Option TransmitError → Tx
  | some (.desc _ _) => { t with stats.badDesc := t.stats.badDesc+1 }
  | some (.offload _ _) => { t with stats.badOffload := t.stats.badOffload+1 }
  | _ => t

def prepare (t : Tx) (b : Region) (ds : List (Desc × Option Offload)) :
    Option (Tx × Region × Batch) :=
  match t.dead with
  | some e => some (t,b,{ refused := some (.failed e) })
  | none =>
    if ds.length=0 then some (t,b,{})
    else
      let n := min ds.length t.numFreeSlots
      if n=0 then some ({ t with stats.ringFull := t.stats.ringFull+1 },b,{})
      else match t.build 0 (ds.take (min n t.depth)) b with
        | none => none
        | some (b,batch) => some (t.countRefusal batch.refused,b,batch)

def prepareOffload (t : Tx) (b : Region) (descs : List Desc) (offs : List Offload) :
    Option (Tx × Region × Batch) :=
  if offs.length≠descs.length then
    some (t,b,{ refused := some (.lengths descs.length offs.length) })
  else t.prepare b (descs.zip (offs.map some))

/-- Transmit after the burst, of which the driver says it took `sent`. -/
def settle (t : Tx) (descs : List Desc) (batch : Batch) (sent : Int) :
    Tx × Nat × Option TransmitError :=
  let built := batch.mbufs.length
  if built=0 then (t,0,batch.refused)
  else
    let sent := if sent<0 ∨ sent > built then 0 else sent.toNat
    let unsent := ((descs.take built).drop sent).map fun d => d.len.toUInt64
    let t := { t with
      inFlight := t.inFlight+sent
      stats.packets := t.stats.packets+UInt64.ofNat sent
      stats.bytes := t.stats.bytes+(batch.bytes-unsent.foldl (·+·) 0)
      stats.batches := t.stats.batches+1 }
    (t,sent,if sent=built then batch.refused else none)

def pokes (t : Tx) (max : Int) : Bool := 0 < max && t.returned.len == 0 && 0<t.inFlight

def poked (t : Tx) : Tx := { t with stats.pokes := t.stats.pokes+1 }

/-- The frames the driver has freed, up to `max`. -/
def drain (t : Tx) (max : Int) : Tx × List UInt64 :=
  let n := min (t.returned.len : Int) max
  if max≤0 ∨ n=0 then (t,[])
  else
    let x := t.returned.pop n
    let back := x.2.filterMap t.frameOfVA
    let foreign := x.2.filter fun va => (t.offsetOfVA va).isNone
    ({ t with
      returned := x.1
      dead := t.fail (foreign.head?.map .freed)
      inFlight := t.inFlight-back.length
      stats.foreign := t.stats.foreign+UInt64.ofNat foreign.length
      stats.completed := t.stats.completed+UInt64.ofNat back.length },back)

def complete (t : Tx) (max : Int) : Option (Tx × Nat) :=
  let x := t.drain max
  match x.1.pool.pushAll x.2 with
  | none => none
  | some p => some ({ x.1 with pool := p },x.2.length)

def reclaim (t : Tx) (max : Int) (out : List Desc) : Tx × List Desc :=
  let x := t.drain max
  (x.1,out++x.2.map fun frame => ⟨frame+t.dataStart,0,0⟩)

def free (t : Tx) (descs : List Desc) : Option Tx :=
  match pushBases t.pool descs with
  | none => none
  | some p => some { t with pool := p }

end Tx

/-! Receive -/

structure RxStats where
  packets : UInt64 := 0
  bytes : UInt64 := 0
  filled : UInt64 := 0
  batches : UInt64 := 0
  poolEmpty : UInt64 := 0
  chained : UInt64 := 0
  badLen : UInt64 := 0
  foreign : UInt64 := 0
  deriving DecidableEq, Repr

structure Rx extends Base where
  supply : Ring
  outstanding : Int := 0
  stats : RxStats := {}

def newRx (checked : Bool) (region : Region) (c : Config) : Except String Rx :=
  match c.supply with
  | none => .error "dpdk: a receive queue with no supply ring"
  | some supply => match initBase checked region c with
    | .error e => .error e
    | .ok b => .ok { b with supply := supply }

namespace Rx

def reset (q : Rx) : List UInt64 → Region → Option (Region × List UInt64)
  | [], b => some (b,[])
  | frame::frames, b =>
    match resetRx b (q.mbufAt frame) (UInt16.ofNat q.l.headroom) q.poolVA with
    | none => none
    | some b => match q.reset frames b with
      | none => none
      | some (b,mbufs) => some (b,q.mbufVA frame::mbufs)

def fill (q : Rx) (b : Region) (n : Int) : Option (Rx × Region × Int) :=
  if n≤0 ∨ q.dead.isSome then some (q,b,0)
  else match clamp n q.pool.len with
    | none => some ({ q with stats.poolEmpty := q.stats.poolEmpty+1 },b,0)
    | some n => match q.pool.pop n [] with
      | none => none
      | some (p,addrs) => match q.reset addrs b with
        | none => none
        | some (b,mbufs) =>
          let x := q.supply.push mbufs
          match p.pushAll (addrs.drop x.2.toNat) with
          | none => none
          | some p => some ({ q with
              pool := p
              supply := x.1
              outstanding := q.outstanding+x.2
              stats.filled := q.stats.filled+UInt64.ofNat x.2.toNat },b,x.2)

def numOutstanding (q : Rx) : Int := q.outstanding

structure Delivery where
  descs : List Desc := []
  bytes : UInt64 := 0
  taken : Nat := 0

def rxOptions (flags : UInt64) : UInt32 :=
  if flags &&& rxIPChecksumGood≠0 then
    if flags &&& rxL4ChecksumGood≠0 then optL3ChecksumOK ||| optChecksumOK else optL3ChecksumOK
  else 0

def refuse (q : Rx) (frame : UInt64) : Option Rx :=
  match q.pool.push frame with
  | none => none
  | some p => some { q with pool := p }

def deliver (q : Rx) (b : Region) (acc : Delivery) (va : UInt64) : Option (Rx × Delivery) :=
  match q.frameOfVA va with
  | none => some ({ q with
      dead := q.fail (some (.delivered va))
      stats.foreign := q.stats.foreign+1 },acc)
  | some frame => match rxRead b (q.mbufAt frame) with
    | none => none
    | some f =>
      let acc := { acc with taken := acc.taken+1 }
      let d : Desc := ⟨frame+q.bufStart+f.dataOff.toUInt64,f.dataLen.toUInt32,rxOptions f.olFlags⟩
      if f.nbSegs≠1 then do
        let q ← refuse { q with stats.chained := q.stats.chained+1 } frame
        some (q,acc)
      else if !q.descOK d then do
        let q ← refuse { q with stats.badLen := q.stats.badLen+1 } frame
        some (q,acc)
      else some (q,{ acc with descs := acc.descs++[d], bytes := acc.bytes+d.len.toUInt64 })

def polls (q : Rx) (max : Int) : Bool := 0 < max && q.dead.isNone

/-- Receive after the burst: `got` is what the driver says, `out` what it filled in. -/
def receive (q : Rx) (b : Region) (max got : Int) (out : List UInt64) :
    Option (Rx × List Desc) :=
  if !q.polls max then some (q,[])
  else if got≤0 ∨ got > min max q.depth then some (q,[])
  else match (out.take got.toNat).foldlM (fun x va => x.1.deliver b x.2 va) (q,({} : Delivery)) with
    | none => none
    | some (q,acc) =>
      let q := { q with outstanding := q.outstanding-acc.taken }
      if acc.descs.length > 0 then some ({ q with
          stats.packets := q.stats.packets+UInt64.ofNat acc.descs.length
          stats.bytes := q.stats.bytes+acc.bytes
          stats.batches := q.stats.batches+1 },acc.descs)
      else some (q,acc.descs)

def recycle (q : Rx) (descs : List Desc) : Option Rx :=
  match pushBases q.pool descs with
  | none => none
  | some p => some { q with pool := p }

def drainReturned (q : Rx) : Option (Rx × Nat) :=
  if q.returned.len=0 then some (q,0)
  else
    let x := q.returned.pop q.returned.len
    let back := x.2.filterMap q.frameOfVA
    let foreign := x.2.filter fun va => (q.offsetOfVA va).isNone
    match q.pool.pushAll back with
    | none => none
    | some p => some ({ q with
        pool := p
        returned := x.1
        dead := q.fail (foreign.head?.map .returned)
        outstanding := q.outstanding-back.length
        stats.foreign := q.stats.foreign+UInt64.ofNat foreign.length },back.length)

/-! What each call can do -/

section
variable {q q' : Rx} {b b' : Region}

inductive Turn (q : Rx) (b : Region) (acc : Delivery) (va : UInt64) : Rx → Delivery → Prop
  | foreign (hframe : q.frameOfVA va=none) : Turn q b acc va { q with
      dead := q.fail (some (.delivered va))
      stats.foreign := q.stats.foreign+1 } acc
  | refused {frame : UInt64} {f : RxFields} {st : RxStats} {q' : Rx}
    (hframe : q.frameOfVA va=some frame)
      (hread : rxRead b (q.mbufAt frame)=some f)
      (hbad : f.nbSegs=1 → q.descOK ⟨frame+q.bufStart+f.dataOff.toUInt64,f.dataLen.toUInt32,
        rxOptions f.olFlags⟩=false)
      (hq : refuse { q with stats := st } frame=some q')
      (hst : st.packets=q.stats.packets ∧ st.batches=q.stats.batches) :
      Turn q b acc va q' { acc with taken := acc.taken+1 }
  | passed {frame : UInt64} {f : RxFields} {d : Desc} (hframe : q.frameOfVA va=some frame)
      (hread : rxRead b (q.mbufAt frame)=some f) (hseg : f.nbSegs=1)
      (hd : d=⟨frame+q.bufStart+f.dataOff.toUInt64,f.dataLen.toUInt32,rxOptions f.olFlags⟩)
      (hok : q.descOK d=true) : Turn q b acc va q
        ⟨acc.descs++[d],acc.bytes+d.len.toUInt64,acc.taken+1⟩

theorem deliver_turn {acc acc' : Delivery} {va : UInt64} (h : q.deliver b acc va=some (q',acc')) :
    Turn q b acc va q' acc' := by
  rw [deliver] at h
  rcases hframe : q.frameOfVA va with _ | frame
  · simp only [hframe] at h
    cases h
    exact .foreign hframe
  rcases hread : rxRead b (q.mbufAt frame) with _ | f
  · simp [hframe,hread] at h
  simp only [hframe,hread] at h
  split at h
  case isTrue hseg =>
    obtain ⟨q1,hq1,hq⟩ := Option.bind_eq_some_iff.mp h
    cases hq
    exact .refused hframe hread (fun h => absurd h hseg) hq1 ⟨rfl,rfl⟩
  rename_i hseg
  split at h
  case isTrue hbad =>
    obtain ⟨q1,hq1,hq⟩ := Option.bind_eq_some_iff.mp h
    cases hq
    exact .refused hframe hread (fun _ => by simpa using hbad) hq1 ⟨rfl,rfl⟩
  case isFalse hok =>
    cases h
    exact .passed hframe hread (not_not.mp hseg) rfl (by simpa using hok)

theorem refuse_some {frame : UInt64} (h : q.refuse frame=some q') :
    ∃ p, q.pool.push frame=some p ∧ q' = { q with pool := p } := by
  rw [refuse] at h
  cases hp : q.pool.push frame with
  | none => simp [hp] at h
  | some p =>
    simp only [hp] at h
    cases h
    exact ⟨p,rfl,rfl⟩

theorem receive_some {max got : Int} {out : List UInt64} {descs : List Desc}
    (h : q.receive b max got out=some (q',descs)) :
    ((!q.polls max)=true ∨ got≤0 ∨ got > min max q.depth) ∧ q'=q ∧ descs = [] ∨
    ∃ q1 acc, ¬ (!q.polls max)=true ∧ ¬ (got≤0 ∨ got > min max q.depth) ∧
      (out.take got.toNat).foldlM (fun x va => x.1.deliver b x.2 va) (q,({} : Delivery)) =
        some (q1,acc) ∧ descs=acc.descs ∧ q' = { q1 with
          outstanding := q1.outstanding-acc.taken
          stats := if acc.descs.length > 0 then { q1.stats with
              packets := q1.stats.packets+UInt64.ofNat acc.descs.length
              bytes := q1.stats.bytes+acc.bytes
              batches := q1.stats.batches+1 }
            else q1.stats } := by
  rw [receive] at h
  split at h
  case isTrue hpoll =>
    cases h
    exact .inl ⟨.inl hpoll,rfl,rfl⟩
  rename_i hpoll
  split at h
  case isTrue hgot =>
    cases h
    exact .inl ⟨.inr hgot,rfl,rfl⟩
  rename_i hgot
  cases hd : (out.take got.toNat).foldlM (fun x va => x.1.deliver b x.2 va) (q,({} : Delivery)) with
  | none => simp [hd] at h
  | some y =>
    obtain ⟨q1,acc⟩ := y
    simp only [hd] at h
    refine .inr ⟨q1,acc,hpoll,hgot,rfl,?_⟩
    split at h
    case isTrue hpos =>
      cases h
      exact ⟨rfl,by rw [if_pos hpos]⟩
    rename_i hpos
    cases h
    exact ⟨rfl,by rw [if_neg hpos]⟩

theorem recycle_some {descs : List Desc} (h : q.recycle descs=some q') :
    ∃ p, pushBases q.pool descs=some p ∧ q' = { q with pool := p } := by
  rw [recycle] at h
  cases hp : pushBases q.pool descs with
  | none => simp [hp] at h
  | some p =>
    simp only [hp] at h
    cases h
    exact ⟨p,rfl,rfl⟩

theorem drainReturned_some {n : Nat} (h : q.drainReturned=some (q',n)) :
    q'=q ∨ ∃ back p ring dead outstanding foreign, q.pool.pushAll back=some p ∧ q' = { q with
      pool := p
      returned := ring
      dead := dead
      outstanding := outstanding
      stats.foreign := foreign } := by
  rw [drainReturned] at h
  split at h
  case isTrue =>
    cases h
    exact .inl rfl
  dsimp only at h
  generalize (q.returned.pop q.returned.len).2.filterMap q.frameOfVA=back at h
  cases hp : q.pool.pushAll back with
  | none => simp [hp] at h
  | some p =>
    simp only [hp] at h
    cases h
    exact .inr ⟨back,p,_,_,_,_,hp,rfl⟩

theorem fill_some {n m : Int} (h : q.fill b n=some (q',b',m)) :
    (∃ st, q' = { q with stats := st } ∧ st.packets=q.stats.packets ∧
      st.batches=q.stats.batches) ∨
    ∃ n1 p addrs rest p' supply outstanding filled, q.pool.pop n1 []=some (p,addrs) ∧
      p.pushAll rest=some p' ∧ q' = { q with
        pool := p'
        supply := supply
        outstanding := outstanding
        stats.filled := filled } := by
  rw [fill] at h
  split at h
  case isTrue =>
    cases h
    exact .inl ⟨q.stats,rfl,rfl,rfl⟩
  rcases hn : clamp n q.pool.len with _ | n1
  · simp only [hn] at h
    cases h
    exact .inl ⟨_,rfl,rfl,rfl⟩
  rcases hp : q.pool.pop n1 [] with _ | ⟨p,addrs⟩
  · simp [hn,hp] at h
  rcases hreset : q.reset addrs b with _ | z
  · simp [hn,hp,hreset] at h
  simp only [hn,hp,hreset] at h
  cases hback : p.pushAll (addrs.drop (q.supply.push z.2).2.toNat) with
  | none => simp [hback] at h
  | some p' =>
    simp only [hback] at h
    cases h
    exact .inr ⟨n1,p,addrs,_,p',_,_,_,hp,hback,rfl⟩

end

end Rx

end Packetio.Dpdk

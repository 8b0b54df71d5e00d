import Packetio.Netstack.Neighbors
import Packetio.Netstack.Verify

/-! Receiving (rx.go): each frame is dropped and counted, or handed to the stack as a copy of
the packet without its padding. `none` is the panic of an index out of range. -/
namespace Packetio.Netstack
open List Option

def arpSize : Nat := 28

def broadcastMAC : List UInt8 := List.replicate 6 0xff

inductive Fate where
  | delivered
  | wrongVLAN
  | ownEcho
  | runt
  | badCsum
  | fragment
  | notIP
  | chained
  deriving DecidableEq, Repr

structure RxCounters where
  rx : UInt64 := 0
  wrongVLAN : UInt64 := 0
  ownEcho : UInt64 := 0
  runt : UInt64 := 0
  rxBadCsum : UInt64 := 0
  fragments : UInt64 := 0
  notIP : UInt64 := 0
  chained : UInt64 := 0
  groFrames : UInt64 := 0
  deriving DecidableEq, Repr

def RxCounters.of (c : RxCounters) : Fate → UInt64
  | .delivered => c.rx
  | .wrongVLAN => c.wrongVLAN
  | .ownEcho => c.ownEcho
  | .runt => c.runt
  | .badCsum => c.rxBadCsum
  | .fragment => c.fragments
  | .notIP => c.notIP
  | .chained => c.chained

def RxCounters.add (c : RxCounters) : Fate → RxCounters
  | .delivered => { c with rx := c.rx+1 }
  | .wrongVLAN => { c with wrongVLAN := c.wrongVLAN+1 }
  | .ownEcho => { c with ownEcho := c.ownEcho+1 }
  | .runt => { c with runt := c.runt+1 }
  | .badCsum => { c with rxBadCsum := c.rxBadCsum+1 }
  | .fragment => { c with fragments := c.fragments+1 }
  | .notIP => { c with notIP := c.notIP+1 }
  | .chained => { c with chained := c.chained+1 }

inductive NetworkProtocol where
  | ipv4
  | arp
  deriving DecidableEq, Repr

inductive PktType where
  | host
  | broadcast
  | multicast
  | otherHost
  deriving DecidableEq, Repr

structure Inbound where
  proto : NetworkProtocol
  bytes : List UInt8
  linkLen : Nat
  hash : UInt32
  pktType : PktType
  rxChecksumValidated : Bool
  gro : Bool
  deriving DecidableEq, Repr

structure Receiver where
  vlan : UInt16
  mac : MAC
  addr : IPv4
  onLink : Prefix
  gro : Bool
  neigh : Neighbors := {}
  counters : RxCounters := {}

structure Moment where
  seen : Neighbors
  order : List Entry
  looked : Int64
  now : Int64

namespace Receiver
variable (e : Receiver)

def drop (fate : Fate) : Receiver × Option Inbound :=
  ({ e with counters := e.counters.add fate },none)

def addressedToUs (f : List UInt8) (linkLen : Nat) : Option Bool := do
  let dst ← slice f 0 6
  if dst≠List.ofFn e.mac then some false
  else
    let src ← slice f 6 12
    let group ← isMulticast src
    if group ∨ src=List.replicate 6 0 then some false
    else
      let ip ← slice f linkLen f.length
      let target ← IPv4Header.destinationAddress ip
      if target≠List.ofFn e.addr then some false
      else
        let sender ← IPv4Header.sourceAddress ip
        some (decide (e.onLink.Contains (.v4 fun i => sender.getD i 0)))

def learn (m : Moment) (f : List UInt8) (linkLen : Nat) : Option Receiver := do
  let ip ← slice f (linkLen+12) (linkLen+16)
  let mac ← slice f 6 12
  some { e with neigh := (m.seen.learn e.neigh m.order m.looked m.now (fun i => ip.getD i 0)
    fun i => mac.getD i 0).1 }

def hand (qi : Nat) (f : List UInt8) (linkLen : Nat) (proto : NetworkProtocol) (pktLen : Nat) :
    Option (Receiver × Option Inbound) := do
  let bytes ← slice f 0 pktLen
  let dst ← slice f 0 6
  let group ← isMulticast dst
  let pktType := if dst=List.ofFn e.mac then PktType.host
    else if dst=broadcastMAC then .broadcast else if group then .multicast else .otherHost
  let gro := e.gro && proto == .ipv4
  let counters := e.counters.add .delivered
  let counters := if gro then { counters with groFrames := counters.groFrames+1 } else counters
  some ({ e with counters },some
    { proto, bytes, linkLen, hash := UInt32.ofNat qi, pktType, rxChecksumValidated := gro, gro })

def deliverIPv4 (m : Moment) (qi : Nat) (f : List UInt8) (linkLen : Nat) :
    Option (Receiver × Option Inbound) :=
  if f.length<linkLen+ipMinimumSize then some (e.drop .runt)
  else do
    let ip ← slice f linkLen f.length
    let valid ← checksumsValid ip
    if !valid then some (e.drop .badCsum)
    else
      let fragment ← IPv4Header.isFragment ip
      if fragment then some (e.drop .fragment)
      else
        let total ← IPv4Header.totalLength ip
        let ours ← e.addressedToUs f linkLen
        let e ← if ours then e.learn m f linkLen else some e
        e.hand qi f linkLen .ipv4 (linkLen+total)

def deliver (m : Moment) (qi : Nat) (f : List UInt8) : Option (Receiver × Option Inbound) := do
  let parsed ← parseFrame f e.vlan
  match parsed with
  | none => some (e.drop .wrongVLAN)
  | some (linkLen,et) =>
    let src ← slice f 6 12
    if src=List.ofFn e.mac then some (e.drop .ownEcho)
    else if et=etherTypeIPv4 then e.deliverIPv4 m qi f linkLen
    else if et=etherTypeARP then
      if f.length<linkLen+arpSize then some (e.drop .runt)
      else e.hand qi f linkLen .arp f.length
    else some (e.drop .notIP)

def deliverAll (qi : Nat) : List (Moment × Bool × List UInt8) → Bool → Receiver →
    Option (Receiver × Bool × List Inbound)
  | [], inChain, e => some (e,inChain,[])
  | (m,continued,f)::rest, inChain, e =>
    if continued || inChain then
      deliverAll qi rest continued (e.drop .chained).1
    else do
      let (e,out) ← e.deliver m qi f
      let (e,inChain,outs) ← deliverAll qi rest inChain e
      some (e,inChain,out.toList++outs)

end Receiver

/-! Every frame ends in one way -/

structure Accepted (vlan : UInt16) (f : List UInt8) (p : Inbound) : Prop where
  link : parseFrame f vlan=some (some (p.linkLen,etherTypeIPv4))
  verified : Verified (f.drop p.linkLen)
  whole : ¬ Fragment (f.drop p.linkLen)
  bytes : p.bytes=f.take p.linkLen++(f.drop p.linkLen).take (ipTotalLength (f.drop p.linkLen))

theorem RxCounters.of_add (c : RxCounters) (fate x : Fate) :
    (c.add fate).of x=c.of x+if x=fate then 1 else 0 := by
  cases fate <;> cases x <;> simp [add,of]

namespace Receiver

structure Outcome (e : Receiver) (f : List UInt8) (r : Receiver × Option Inbound) : Prop where
  counted : ∃ fate, (∀ x, r.1.counters.of x=e.counters.of x+if x=fate then 1 else 0) ∧
    (fate = .delivered ↔ r.2.isSome)
  vlan : r.1.vlan=e.vlan
  accepted : ∀ p, r.2=some p → p.proto = .ipv4 → Accepted e.vlan f p

variable {e : Receiver} {f : List UInt8} {linkLen : Nat}

theorem drop_outcome {fate : Fate} (h : fate ≠ .delivered) : Outcome e f (e.drop fate) where
  counted := ⟨fate,e.counters.of_add fate,iff_of_false h (by simp [drop])⟩
  vlan := rfl
  accepted := by simp [drop]

theorem isMulticast_some {mac : List UInt8} (h : 0 < mac.length) : ∃ b, isMulticast mac=some b := by
  cases mac with
  | nil => exact absurd h (lt_irrefl 0)
  | cons a _ => exact ⟨_,rfl⟩

theorem addresses (h : etherHdrLen≤f.length) :
    (∃ dst, slice f 0 6=some dst ∧ ∃ b, isMulticast dst=some b) ∧
      ∃ src, slice f 6 12=some src ∧ ∃ b, isMulticast src=some b := by
  have h : 14≤f.length := h
  constructor
  · refine ⟨_,slice_some (by omega) (by omega),isMulticast_some ?_⟩
    rw [length_take,length_drop]
    omega
  · refine ⟨_,slice_some (by omega) (by omega),isMulticast_some ?_⟩
    rw [length_take,length_drop]
    omega

theorem addressedToUs_some (h : etherHdrLen≤linkLen) (hip : linkLen+ipMinimumSize≤f.length) :
    ∃ b, e.addressedToUs f linkLen=some b := by
  obtain ⟨⟨dst,hdst,-⟩,src,hsrc,group,hgroup⟩ := addresses (h.trans (by omega : linkLen≤f.length))
  have hlen : ipMinimumSize≤(f.drop linkLen).length := by
    rw [length_drop]
    omega
  simp only [addressedToUs,hdst,hsrc,hgroup,slice_from (by omega : linkLen≤f.length),
    destinationAddress_some hlen,sourceAddress_some hlen,bind_eq_bind,bind_some]
  split
  · exact ⟨_,rfl⟩
  · split
    · exact ⟨_,rfl⟩
    · split
      · exact ⟨_,rfl⟩
      · exact ⟨_,rfl⟩

theorem learn_some (m : Moment) (h : etherHdrLen≤linkLen) (hip : linkLen+ipMinimumSize≤f.length) :
    ∃ neigh, e.learn m f linkLen=some { e with neigh } := by
  have hmin : ipMinimumSize=20 := rfl
  obtain ⟨-,src,hsrc,-⟩ := addresses (h.trans (by omega : linkLen≤f.length))
  simp only [learn,slice_some (by omega : linkLen+12≤linkLen+16)
    (by omega : linkLen+16≤f.length),hsrc,bind_eq_bind,bind_some]
  exact ⟨_,rfl⟩

theorem hand_spec (qi : Nat) (proto : NetworkProtocol) {pktLen : Nat}
    (h : etherHdrLen≤f.length) (hlen : pktLen≤f.length) :
    ∃ e' p, e.hand qi f linkLen proto pktLen=some (e',some p) ∧
      (∀ x, e'.counters.of x=e.counters.of x+if x = .delivered then 1 else 0) ∧
      e'.vlan=e.vlan ∧ p.proto=proto ∧ p.linkLen=linkLen ∧ p.bytes=f.take pktLen := by
  obtain ⟨⟨dst,hdst,group,hgroup⟩,-⟩ := addresses h
  simp only [hand,slice_some (Nat.zero_le _) hlen,hdst,hgroup,bind_eq_bind,bind_some]
  refine ⟨_,_,rfl,fun x => ?_,rfl,rfl,rfl,rfl⟩
  rw [← RxCounters.of_add]
  split
  · cases x <;> rfl
  · rfl

theorem hand_outcome {e0 : Receiver} (qi : Nat) {proto : NetworkProtocol} {pktLen : Nat}
    (hsame : e.counters=e0.counters ∧ e.vlan=e0.vlan)
    (h : etherHdrLen≤f.length) (hlen : pktLen≤f.length)
    (hok : proto = .ipv4 → ∀ p : Inbound, p.linkLen=linkLen → p.bytes=f.take pktLen →
      Accepted e0.vlan f p) : ∃ r, e.hand qi f linkLen proto pktLen=some r ∧ Outcome e0 f r := by
  obtain ⟨e',p,hhand,hcounted,hvlan,hproto,hlink,hbytes⟩ := hand_spec qi proto h hlen
  refine ⟨_,hhand,⟨.delivered,fun x => ?_,by simp⟩,hvlan.trans hsame.2,fun q hq hip => ?_⟩
  · rw [hcounted x,hsame.1]
  · cases hq
    exact hok (hproto.symm.trans hip) p hlink hbytes

theorem deliverIPv4_spec (m : Moment) (qi : Nat) (hmin : etherHdrLen≤linkLen)
    (hlink : parseFrame f e.vlan=some (some (linkLen,etherTypeIPv4))) :
    ∃ r, e.deliverIPv4 m qi f linkLen=some r ∧ Outcome e f r := by
  rw [deliverIPv4]
  split
  case isTrue => exact ⟨_,rfl,drop_outcome (by decide)⟩
  rename_i hrunt
  have hip : linkLen+ipMinimumSize≤f.length := by omega
  have hlen : ipMinimumSize≤(f.drop linkLen).length := by
    rw [length_drop]
    omega
  obtain ⟨valid,hvalid,hverified⟩ := checksumsValid_spec (f.drop linkLen)
  rw [slice_from (by omega),bind_eq_bind,bind_some,hvalid,bind_eq_bind,
    bind_some]
  split
  case isTrue => exact ⟨_,rfl,drop_outcome (by decide)⟩
  rename_i hgood
  have hver := hverified.mp (by simpa using hgood)
  rw [isFragment_some hlen,bind_eq_bind,bind_some]
  split
  case isTrue => exact ⟨_,rfl,drop_outcome (by decide)⟩
  rename_i hwhole
  have hinside := hver.inside
  rw [length_drop] at hinside
  have htotal : linkLen+ipTotalLength (f.drop linkLen)≤f.length := by omega
  obtain ⟨ours,hours⟩ := addressedToUs_some (e := e) hmin hip
  obtain ⟨neigh,hlearn⟩ := learn_some (e := e) m hmin hip
  rw [totalLength_some hlen,bind_eq_bind,bind_some,hours,bind_some]
  have haccept : ∀ p : Inbound, p.linkLen=linkLen →
      p.bytes=f.take (linkLen+ipTotalLength (f.drop linkLen)) → Accepted e.vlan f p := by
    intro p hp hbytes
    subst hp
    exact ⟨hlink,hver,by simpa using hwhole,by rw [hbytes,take_add]⟩
  cases ours with
  | true =>
    rw [if_pos rfl,hlearn,bind_some]
    exact hand_outcome qi ⟨rfl,rfl⟩ (hmin.trans (by omega)) htotal fun _ => haccept
  | false => exact hand_outcome qi ⟨rfl,rfl⟩ (hmin.trans (by omega)) htotal fun _ => haccept

theorem deliver_spec (e : Receiver) (m : Moment) (qi : Nat) (f : List UInt8) :
    ∃ r, e.deliver m qi f=some r ∧ Outcome e f r := by
  obtain ⟨parsed,hparsed,hin⟩ := parseFrame_spec f e.vlan
  rw [deliver,hparsed,bind_eq_bind,bind_some]
  rcases parsed with _ | ⟨linkLen,et⟩
  · exact ⟨_,rfl,drop_outcome (by decide)⟩
  obtain ⟨⟨hmin,hle⟩,-⟩ := hin linkLen et rfl
  obtain ⟨-,src,hsrc,-⟩ := addresses (hmin.trans hle)
  simp only [hsrc,bind_eq_bind,bind_some]
  split
  · exact ⟨_,rfl,drop_outcome (by decide)⟩
  · split
    case isTrue het => exact deliverIPv4_spec m qi hmin (het ▸ hparsed)
    split
    · split
      · exact ⟨_,rfl,drop_outcome (by decide)⟩
      · exact hand_outcome qi ⟨rfl,rfl⟩ (hmin.trans hle) (le_refl _)
          fun harp => absurd harp (by decide)
    · exact ⟨_,rfl,drop_outcome (by decide)⟩

theorem counted_cons (c : UInt64) (fate x : Fate) (fates : List Fate) :
    (c+if x=fate then 1 else 0)+UInt64.ofNat (fates.count x) =
      c+UInt64.ofNat ((fate::fates).count x) := by
  have hone : UInt64.ofNat (if x=fate then 1 else 0)=if x=fate then 1 else 0 := by
    split
    case isTrue | isFalse => rfl
  rw [count_cons,UInt64.add_assoc,← hone,← UInt64.ofNat_add,Nat.add_comm]
  simp only [beq_iff_eq,eq_comm (a := x)]

theorem deliverAll_spec (qi : Nat) (frames : List (Moment × Bool × List UInt8)) (inChain : Bool)
    (e : Receiver) : ∃ e' inChain' outs, deliverAll qi frames inChain e=some (e',inChain',outs) ∧
      (∃ fates : List Fate, fates.length=frames.length ∧
        (∀ x, e'.counters.of x=e.counters.of x+UInt64.ofNat (fates.count x)) ∧
        fates.count .delivered=outs.length) ∧
      ∀ p∈outs, p.proto = .ipv4 → ∃ x∈frames, Accepted e.vlan x.2.2 p := by
  induction frames generalizing inChain e with
  | nil => exact ⟨e,inChain,[],rfl,⟨[],rfl,by simp,rfl⟩,by simp⟩
  | cons frame rest ih =>
    obtain ⟨m,continued,f⟩ := frame
    rw [deliverAll]
    split
    case isTrue =>
      obtain ⟨e',inChain',outs,heq,⟨fates,hlen,hcount,hdel⟩,hacc⟩ :=
        ih continued (e.drop .chained).1
      refine ⟨e',inChain',outs,heq,⟨.chained::fates,by simp [hlen],fun x => ?_,?_⟩,
        fun p hp hip => ?_⟩
      · rw [hcount x,drop,RxCounters.of_add,counted_cons]
      · rw [count_cons_of_ne (by decide),hdel]
      · obtain ⟨x,hx,hx'⟩ := hacc p hp hip
        exact ⟨x,.tail _ hx,hx'⟩
    obtain ⟨⟨e1,out⟩,hdeliver,⟨fate,hone,hout⟩,hvlan,haccept⟩ := deliver_spec e m qi f
    obtain ⟨e',inChain',outs,heq,⟨fates,hlen,hcount,hdel⟩,hacc⟩ := ih inChain e1
    rw [hdeliver,bind_eq_bind,bind_some]
    simp only [heq]
    refine ⟨e',inChain',_,rfl,⟨fate::fates,by simp [hlen],fun x => ?_,?_⟩,fun p hp hip => ?_⟩
    · rw [hcount x,hone x,counted_cons]
    · rw [count_cons,hdel,length_append]
      cases out with
      | none => simp [show fate ≠ .delivered from fun h => by simpa using hout.mp h]
      | some p => simp [hout.mpr rfl,add_comm]
    · rcases mem_append.mp hp with hp | hp
      · exact ⟨_,.head _,haccept p (by simpa using hp) hip⟩
      · obtain ⟨x,hx,hx'⟩ := hacc p hp hip
        exact ⟨x,.tail _ hx,hvlan ▸ hx'⟩

end Receiver

/-- Whatever arrives is read without leaving the frame and counted once, and only packets whose
checksums are right are handed over, without what is behind them in the frame. -/
theorem received_verified (e : Receiver) (qi : Nat) :
    (∀ m f, ∃ r, e.deliver m qi f = some r ∧ e.Outcome f r) ∧ ∀ frames inChain, ∃ e' inChain' outs,
      Receiver.deliverAll qi frames inChain e = some (e',inChain',outs) ∧
      (∃ fates : List Fate, fates.length = frames.length ∧
        (∀ x, e'.counters.of x = e.counters.of x+UInt64.ofNat (fates.count x)) ∧
        fates.count .delivered = outs.length) ∧
      ∀ p ∈ outs, p.proto = .ipv4 → ∃ x ∈ frames, Accepted e.vlan x.2.2 p :=
  ⟨fun m f => e.deliver_spec m qi f,fun frames inChain =>
    Receiver.deliverAll_spec qi frames inChain e⟩

end Packetio.Netstack

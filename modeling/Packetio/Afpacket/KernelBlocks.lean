import Packetio.Afpacket.RingRead

/-! The kernel's side of a receive ring: the packets it puts into a block, and the blocks that
it gives to the reader and takes back, in order and each in its turn. -/
namespace Packetio.Afpacket
open Lib

structure Arrival where
  data : List UInt8
  len : Nat
  tag : Option (UInt16 × UInt16)

def Arrival.wire (p : Arrival) : List UInt8 := match p.tag with
  | none => p.data
  | some (tpid,tci) => p.data.take 12++
      [(tpid >>> 8).toUInt8,tpid.toUInt8,(tci >>> 8).toUInt8,tci.toUInt8]++p.data.drop 12

structure Describes (tph : Tpacket3Hdr) (p : Arrival) : Prop where
  snaplen : tph.tpSnaplen.toNat=p.data.length
  len : tph.tpLen.toNat=p.len
  tag : p.tag=if tph.tpStatus &&& tpStatusVlanValid=0 then none
    else some (if tph.tpVlanTpid=0 then 0x8100 else tph.tpVlanTpid,tph.tpVlanTci.toUInt16)
  ethernet : 14≤p.data.length

theorem Describes.wire {tph : Tpacket3Hdr} {p : Arrival} (h : Describes tph p) :
    tph.wire p.data=p.wire := by
  have hlen : 12≤tph.tpSnaplen.toNat := by rw [h.snaplen]; exact le_trans (by decide) h.ethernet
  rw [Tpacket3Hdr.wire,Arrival.wire,h.tag]
  by_cases hv : tph.tpStatus &&& tpStatusVlanValid=0
  · have htag : tph.tag=⟨0,0,0⟩ := if_neg fun hn => hn.1 hv
    rw [if_pos hv,htag]
    rfl
  have htag : tph.tag=⟨4,_,_⟩ := if_pos ⟨hv,hlen⟩
  rw [if_neg hv,htag]
  rfl

section
variable {mem mem' : Nat → UInt8} {bs : Nat} {vnet : Bool} {a off : Nat} {p : Arrival}
  {ps : List Arrival}

structure FrameAt (mem : Nat → UInt8) (bs : Nat) (vnet : Bool) (a off : Nat) (p : Arrival) :
    Prop where
  hdr : off+hdrSize≤bs
  fits : off+(frameHdrAt mem (a+off)).tpMac.toNat+p.data.length≤bs
  vnet : vnet=true → offloadHdrLen≤(frameHdrAt mem (a+off)).tpMac.toNat
  describes : Describes (frameHdrAt mem (a+off)) p
  data : bytesAt mem (a+off+(frameHdrAt mem (a+off)).tpMac.toNat) p.data.length=p.data

inductive Frames (mem : Nat → UInt8) (bs : Nat) (vnet : Bool) (a : Nat) : Nat → List Arrival → Prop
  | nil {off : Nat} : Frames mem bs vnet a off []
  | cons {off : Nat} {p : Arrival} {ps : List Arrival} (h : FrameAt mem bs vnet a off p)
      (hnext : ps ≠ [] → (frameHdrAt mem (a+off)).tpNextOffset≠0)
      (hs : Frames mem bs vnet a (off+(frameHdrAt mem (a+off)).tpNextOffset.toNat) ps) :
      Frames mem bs vnet a off (p::ps)

structure Filled (mem : Nat → UInt8) (bs : Nat) (vnet : Bool) (a : Nat) (ps : List Arrival) :
    Prop where
  user : (blockDescAt mem a).blockStatus &&& tpStatusUser≠0
  count : (blockDescAt mem a).numPkts.toNat=ps.length
  frames : Frames mem bs vnet a (blockDescAt mem a).offsetToFirst.toNat ps

theorem u16At_congr (h : ∀ i, i<2 → mem (a+i)=mem' (a+i)) : u16At mem a=u16At mem' a := by
  rw [u16At,u16At,leNat_congr 2 _ _ h]

theorem frameHdrAt_congr (h : ∀ i, i<hdrSize → mem (a+i)=mem' (a+i)) :
    frameHdrAt mem a=frameHdrAt mem' a := by
  have h32 (c : Nat) (hc : c+4≤hdrSize) : u32At mem (a+c)=u32At mem' (a+c) :=
    u32At_congr fun i hi => by rw [add_assoc]; exact h (c+i) (by omega)
  have h16 (c : Nat) (hc : c+2≤hdrSize) : u16At mem (a+c)=u16At mem' (a+c) :=
    u16At_congr fun i hi => by rw [add_assoc]; exact h (c+i) (by omega)
  have h0 := h32 0 (by decide)
  rw [add_zero] at h0
  simp [frameHdrAt,h0,h32 4 (by decide),h32 8 (by decide),h32 12 (by decide),h32 16 (by decide),
    h32 20 (by decide),h16 24 (by decide),h32 32 (by decide),h16 36 (by decide)]

theorem FrameAt.congr (h : FrameAt mem bs vnet a off p) (hm : ∀ x, x<bs → mem (a+x)=mem' (a+x)) :
    FrameAt mem' bs vnet a off p ∧ frameHdrAt mem (a+off)=frameHdrAt mem' (a+off) := by
  have hh := h.hdr
  have hfit := h.fits
  have he : frameHdrAt mem (a+off)=frameHdrAt mem' (a+off) :=
    frameHdrAt_congr fun i hi => by rw [add_assoc]; exact hm (off+i) (by omega)
  refine ⟨⟨hh,?_,?_,?_,?_⟩,he⟩
  · rwa [← he]
  · rw [← he]
    exact h.vnet
  · rw [← he]
    exact h.describes
  · rw [← he]
    refine (bytesAt_congr fun i hi => ?_).trans h.data
    rw [add_assoc a,add_assoc a]
    exact (hm _ (by omega)).symm

theorem Frames.congr (h : Frames mem bs vnet a off ps)
    (hm : ∀ x, x<bs → mem (a+x)=mem' (a+x)) : Frames mem' bs vnet a off ps := by
  induction h with
  | nil => exact .nil
  | cons h hnext _ ih =>
    obtain ⟨h',he⟩ := h.congr hm
    rw [he] at hnext ih
    exact .cons h' hnext ih

theorem Filled.congr (h : Filled mem bs vnet a ps) (hbs : hdrSize≤bs)
    (hm : ∀ x, x<bs → mem (a+x)=mem' (a+x)) : Filled mem' bs vnet a ps := by
  rw [hdrSize] at hbs
  have h32 (c : Nat) (hc : c+4≤bs) : u32At mem (a+c)=u32At mem' (a+c) :=
    u32At_congr fun i hi => by rw [add_assoc]; exact hm (c+i) (by omega)
  have he : blockDescAt mem a=blockDescAt mem' a := by
    simp [blockDescAt,h32 8 (by omega),h32 12 (by omega),h32 16 (by omega)]
  have hf := h.frames.congr hm
  rw [he] at hf
  exact ⟨he ▸ h.user,he ▸ h.count,hf⟩

end

def assemble : List (List UInt8 × Bool) → List (List UInt8)
  | [] => []
  | (bytes,false)::rest => bytes::assemble rest
  | (bytes,true)::rest => match assemble rest with
    | [] => [bytes]
    | packet::packets => (bytes++packet)::packets

/-- What is in the `n` slots from `slot` on, with its marks. -/
def Output.pieces (o : Output) : Nat → Nat → List (List UInt8 × Bool)
  | _, 0 => []
  | slot, n+1 => (o.got slot,o.cont slot)::o.pieces (slot+1) n

structure Call where
  max : Nat
  offs : Bool
  tss : Bool
  dst : Nat → Option Nat
  o : Output

def Call.batch (c : Call) (chain : Bool) : Batch := ⟨c.max,c.offs,c.tss,chain⟩

def Call.supply (c : Call) : Dst Unit := fun _ i => (c.dst i,())

def Call.output (c : Call) : Output := { c.o with cont := fun _ => false }

structure Record where
  call : Call
  got : List (List UInt8)

structure Sys where
  ring : Ring
  back : List (List Arrival)
  lent : List (List Arrival)
  log : List Record

def userBlock (mem : Nat → UInt8) (bs i : Nat) : Bool :=
  (blockDescAt mem (i*bs)).blockStatus &&& tpStatusUser≠0

/-- The block that is `j` behind the oldest one of the reader's. -/
def Sys.blockAt (s : Sys) (j : Nat) : Nat := (s.back.length+j)%s.ring.blockNr.toNat

def Sys.returned (s : Sys) (mem : Nat → UInt8) : Nat :=
  ((List.range s.lent.length).takeWhile fun j =>
    !userBlock mem s.ring.blockSize.toNat (s.blockAt j)).length

def Sys.called (s : Sys) (c : Call) (t : Reading Unit) : Sys :=
  let k := s.returned t.ring.mem
  { ring := t.ring, back := s.back++s.lent.take k, lent := s.lent.drop k,
    log := s.log++[⟨c,assemble (t.o.pieces 0 t.out)⟩] }

inductive Sys.Reached : Sys → Prop
  | start (mem : Nat → UInt8) (vnet chain : Bool)
      (h : ∀ i, i<(setupRing mem vnet chain).blockNr.toNat →
        userBlock mem (setupRing mem vnet chain).blockSize.toNat i=false) :
      Sys.Reached ⟨setupRing mem vnet chain,[],[],[]⟩
  | fill {s : Sys} (h : s.Reached) (mem : Nat → UInt8) (ps : List Arrival)
      (hroom : s.lent.length<s.ring.blockNr.toNat)
      (hlent : ∀ j x, j<s.lent.length → x<s.ring.blockSize.toNat →
        s.ring.mem (s.blockAt j*s.ring.blockSize.toNat+x) =
          mem (s.blockAt j*s.ring.blockSize.toNat+x))
      (hnew : Filled mem s.ring.blockSize.toNat s.ring.vnet
        (s.blockAt s.lent.length*s.ring.blockSize.toNat) ps)
      (hkernel : ∀ j, s.lent.length<j → j<s.ring.blockNr.toNat →
        userBlock mem s.ring.blockSize.toNat (s.blockAt j)=false) :
      Sys.Reached { s with ring := { s.ring with mem }, lent := s.lent++[ps] }
  | call {s : Sys} (h : s.Reached) (c : Call) {t : Reading Unit}
      (hr : s.ring.read (c.batch s.ring.chain) c.supply () c.output=some t) :
      Sys.Reached (s.called c t)

inductive Fate
  | delivered
  | clipped
  | tooBig
  | tooLong
  deriving DecidableEq

def Fair (c : Call) (chain : Bool) (p : Arrival) : Fate → Prop
  | .delivered => p.len≤p.data.length
  | .clipped => p.data.length<p.len
  | .tooBig => chain=false ∧ ∃ i room, i<c.max ∧ c.dst i=some room ∧ room<p.wire.length
  | .tooLong => chain=true ∧ ∃ rooms : List Nat, rooms.length=c.max ∧
      (∀ i room, rooms[i]? = some room → c.dst i=some room) ∧ rooms.sum<p.wire.length

def deliveries (evs : List (Arrival × Fate)) : List (List UInt8) :=
  evs.filterMap fun e => if e.2 = .delivered then some e.1.wire else none

def skips (evs : List (Arrival × Fate)) : Nat := evs.countP fun e => e.2 ≠ .delivered

structure Served (chain : Bool) (rec : Record) (evs : List (Arrival × Fate)) : Prop where
  got : rec.got=deliveries evs
  fair : ∀ e∈evs, Fair rec.call chain e.1 e.2

end Packetio.Afpacket

import Packetio.Afpacket.RxQueue
import Packetio.Afpacket.TxFrames

/-! Opening a device (options.go, afpacket.go): what a configuration is checked for, and which
frames of the region each queue gets. -/
namespace Packetio.Afpacket
open Int

def maxQueues : Int := 64
def maxRegionBytes : Int := 512*2^20

structure Config where
  txQueues : Int := 1
  rxQueues : Int := 1
  frames : Int := 4096
  frameSize : Int := 2048
  gso : Bool := false
  multiBuffer : Bool := false

def Config.validate (c : Config) : Option String :=
  let per := c.frames/(c.txQueues+c.rxQueues)
  let room := c.frameSize-frameHeadroom
  let need := (2^16+room-1)/room
  let bytes := Int.bmod (c.frames*c.frameSize) (2^64)
  if c.txQueues<0 ∨ c.rxQueues<0 then
    some s!"afpacket: {c.txQueues} transmit and {c.rxQueues} receive queues"
  else if c.txQueues=0 ∧ c.rxQueues=0 then
    some "afpacket: a device with no queues at all does nothing"
  else if c.txQueues > maxQueues ∨ c.rxQueues > maxQueues then
    some s!"afpacket: at most {maxQueues} queues either way"
  else if c.frameSize<2*frameHeadroom ∨ c.frameSize.toNat &&& (c.frameSize.toNat-1)≠0 then
    let least := 2*frameHeadroom
    some (s!"afpacket: frame size {c.frameSize} must be a power of two of at least {least} "++
      s!"(a packet starts {frameHeadroom} bytes into its frame)")
  else if c.gso ∧ c.rxQueues > 0 ∧ !c.multiBuffer ∧ c.frameSize<2^16 then
    some ("afpacket: WithGSO with receive queues needs a frame size of at "++
      s!"least 65536, not {c.frameSize} -- or WithMultiBuffer, which lays an arriving "++
      "super-frame across small frames instead. A transmit-only device needs "++
      "neither: a packet given as a chain is gathered by the kernel.")
  else if !c.gso ∧ c.frameSize > rxBlockSize.toNat then
    some (s!"afpacket: frame size {c.frameSize} is larger than the {rxBlockSize}-byte ring "++
      "block, and the ring delivers nothing bigger than about 65400 bytes; use WithGSO "++
      "for frames bigger than that")
  else if c.frames<64 then some s!"afpacket: {c.frames} frames is too few"
  else if c.gso ∧ c.multiBuffer ∧ c.rxQueues > 0 ∧ per<need then
    let queues := c.txQueues+c.rxQueues
    let least := need*queues*2
    some (s!"afpacket: {c.frames} frames over {queues} queues is {per} each, and a "++
      s!"64 KB packet chained into {c.frameSize}-byte frames needs {need} at once; "++
      s!"ask for at least {least} frames")
  else if bytes > maxRegionBytes then
    let mib := Int.shiftRight bytes 20
    some (s!"afpacket: {c.frames} frames of {c.frameSize} bytes is {mib} MiB of locked memory; "++
      "lower WithFrames or WithFrameSize")
  else none

inductive Queue where
  | tx (q : TxQueue) (sock : Sock)
  | rx (q : RxQueue)

/-- The transmit queues from number `i` on, each with its share of the frames. -/
def openTx (checked : Bool) (r : FrameMemory) (gso : Bool) (kernels : Nat → Kernel)
    (perQueue : Nat) :
    Nat → Nat → Nat → Option (List Queue)
  | 0, _, _ => some []
  | n+1, i, base => do
    let q ← newTxQueue checked r base perQueue gso
    let qs ← openTx checked r gso kernels perQueue n (i+1) (base+perQueue)
    some (.tx q { kernel := kernels i }::qs)

/-- The receive queues from number `i` on, over their rings. -/
def openRx (checked : Bool) (r : FrameMemory) (rings : Nat → Ring) (perQueue : Nat) :
    Nat → Nat → Nat → List Queue
  | 0, _, _ => []
  | n+1, i, base =>
    .rx (newRxQueue checked r (rings i) base perQueue)::openRx checked r rings perQueue n (i+1)
      (base+perQueue)

def openQueues (checked : Bool) (c : Config) (r : FrameMemory) (kernels : Nat → Kernel)
    (mems : Nat → Nat → UInt8) : Option (List Queue) := do
  let perQueue := (c.frames/(c.txQueues+c.rxQueues)).toNat
  let rings i := setupRing (mems i) c.gso c.multiBuffer
  let txs ← openTx checked r c.gso kernels perQueue c.txQueues.toNat 0 0
  some (txs++openRx checked r rings perQueue c.rxQueues.toNat 0 (c.txQueues.toNat*perQueue))

/-! What Open checked -/

structure Config.Checked (c : Config) : Prop where
  txQueues : 0≤c.txQueues
  rxQueues : 0≤c.rxQueues
  some : ¬ (c.txQueues=0 ∧ c.rxQueues=0)
  frameSize : 2*(frameHeadroom : Int)≤c.frameSize
  frames : 64≤c.frames
  bytes : Int.bmod (c.frames*c.frameSize) (2^64) ≤ maxRegionBytes

theorem Config.validate_none {c : Config} (h : c.validate=none) : c.Checked := by
  obtain ⟨hsign,h⟩ := passed h nofun
  obtain ⟨hsome,h⟩ := passed h nofun
  obtain ⟨-,h⟩ := passed h nofun
  obtain ⟨hsize,h⟩ := passed h nofun
  obtain ⟨-,h⟩ := passed h nofun
  obtain ⟨-,h⟩ := passed h nofun
  obtain ⟨hframes,h⟩ := passed h nofun
  obtain ⟨-,h⟩ := passed h nofun
  obtain ⟨hbytes,-⟩ := passed h nofun
  rw [not_or,not_lt,not_lt] at hsign
  rw [not_or,not_lt] at hsize
  exact ⟨hsign.1,hsign.2,hsome,hsize.1,not_lt.mp hframes,not_lt.mp hbytes⟩

theorem newRegion_size {frames frameSize : Int} {mapped : Bool} {r : FrameMemory}
    (h : newRegion frames frameSize mapped = .ok r) : r.frameSize=frameSize.toNat ∧
      r.b.len=(Int.bmod (frames*frameSize) (2^64)).toNat := by
  obtain ⟨-,h⟩ := passed h nofun
  obtain ⟨-,h⟩ := passed h nofun
  split at h
  case isFalse => simp at h
  rw [Except.ok.injEq] at h
  rw [← h]
  exact ⟨rfl,rfl⟩

structure Config.Fits (c : Config) (k : Nat) (r : FrameMemory) : Prop where
  region : r.Made k
  headroom : frameHeadroom<2^k
  short : 2^k≤2^32
  len : r.b.len=c.frames.toNat*2^k
  small : c.frames.toNat*2^k<2^63
  shares : (c.txQueues.toNat+c.rxQueues.toNat)*(c.frames/(c.txQueues+c.rxQueues)).toNat ≤
    c.frames.toNat

theorem Config.fits {c : Config} {k : Nat} {r : FrameMemory} (hv : c.validate=none)
    (hk : c.frameSize=2^k) (hfit : c.frames*c.frameSize<2^63)
    (hr : newRegion c.frames c.frameSize true = .ok r) : c.Fits k r := by
  obtain ⟨htx,hrx,hsome,hsize,hframes,hbytes⟩ := validate_none hv
  obtain ⟨hfs,hlen⟩ := newRegion_size hr
  obtain ⟨k',hmade⟩ := newRegion_made hr
  have hcast : c.frameSize.toNat=2^k := by
    rw [hk]
    exact_mod_cast toNat_natCast (2^k)
  have hkk : k'=k := Nat.pow_right_injective (le_refl 2) (hmade.size.symm.trans (hfs.trans hcast))
  subst hkk
  have hprod : c.frames*c.frameSize=((c.frames.toNat*2^k' : Nat) : Int) := by
    rw [Nat.cast_mul,← hcast,toNat_of_nonneg (by omega),toNat_of_nonneg (by omega)]
  have hmod : bmod (c.frames*c.frameSize) (2^64)=c.frames*c.frameSize :=
    bmod_eq_of_le (by omega) (by omega)
  rw [hmod,hprod] at hbytes hlen
  have hmost : 64*2^k'≤c.frames.toNat*2^k' := Nat.mul_le_mul_right _ (by omega)
  have hpos : 0<frameHeadroom := by decide
  have hmax : maxRegionBytes=512*2^20 := rfl
  refine ⟨hmade,by omega,by omega,by rw [hlen,toNat_natCast],by omega,?_⟩
  have hdiv := mul_ediv_self_le (x := c.frames) (k := c.txQueues+c.rxQueues) (by omega)
  have hper : 0≤c.frames/(c.txQueues+c.rxQueues) := ediv_nonneg (by omega) (by omega)
  have hsum : ((c.txQueues.toNat+c.rxQueues.toNat : Nat) : Int)=c.txQueues+c.rxQueues := by omega
  rwa [← ofNat_le,Nat.cast_mul,hsum,toNat_of_nonneg hper,toNat_of_nonneg (by omega)]

end Packetio.Afpacket

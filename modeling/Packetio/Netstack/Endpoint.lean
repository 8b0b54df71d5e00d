import Packetio.Frame
import Packetio.Netstack.Frame
import Packetio.Netstack.TxFrames

/-! The sizes an endpoint settles on when it is made (endpoint.go): the MTU, and the largest
packet that TCP may hand over for the endpoint to cut up. -/
namespace Packetio.Netstack
open List

def defaultMTU : Int := 1500
def minMSS : Int := 536
def gsoMaxSize : Int := 2^16
def ipMinimumMTU : Int := 68

structure QueueSpace where
  numFreeFrames : Int
  numFreeSlots : Int
  deriving DecidableEq, Repr

def QueueSpace.room (q : QueueSpace) : Int := min q.numFreeFrames q.numFreeSlots

structure Device where
  backend : String
  numRxQueues : Nat
  txQueues : List QueueSpace
  maxFrameSize : Int
  deriving DecidableEq, Repr

structure EndpointConfig where
  vlan : UInt16
  mtu : Int
  deriving DecidableEq, Repr

structure Sizes where
  linkLen : Nat
  maxMTU : Int
  mtu : Int
  gsoMax : UInt32
  deriving DecidableEq, Repr

/-- The loop over the queues, at the `i`th with `room` so far. -/
def smallestRoom : List QueueSpace → Nat → Int → Int
  | [], _, room => room
  | q::qs, i, room => smallestRoom qs (i+1) (if i=0 ∨ q.room<room then q.room else room)

def newEndpoint (dev : Device) (cfg : EndpointConfig) : Except String Sizes :=
  let rx := dev.numRxQueues
  let tx := dev.txQueues.length
  let linkLen := linkHeaderLen cfg.vlan
  let frame := dev.maxFrameSize
  let backend := dev.backend
  let maxMTU := frame-linkLen
  let mtu := if cfg.mtu=0 then min defaultMTU maxMTU else cfg.mtu
  if rx=0 ∨ tx=0 then
    .error s!"netstack: the device has {rx} receive and {tx} transmit queues; a stack needs both"
  else if mtu > maxMTU then
    .error (s!"netstack: MTU {mtu} plus a {linkLen}-byte link header exceeds the {frame} bytes "++
      s!"a {backend} frame carries")
  else if mtu < ipMinimumMTU then .error s!"netstack: MTU {mtu} is below the IPv4 minimum"
  else
    let room := smallestRoom dev.txQueues 0 0
    .ok { linkLen := linkLen, maxMTU := maxMTU, mtu := mtu
          gsoMax := UInt32.ofInt (max mtu (min gsoMaxSize (room.tdiv 2*minMSS))) }

/-- The packets that transmit admits when its queue has room for `budget` frames. -/
def admitted (budget : Int) (pkts : List PacketBuffer) : Nat :=
  (admitPackets ((pkts.map segments).take budget.toNat) budget.toNat).1

structure IsTCP (p : PacketBuffer) (total : Nat) : Prop where
  ip : p.isIPv4=true
  tcp : p.isTCP=true
  network : ipMinimumSize≤p.networkLen
  transport : tcpMinimumSize≤p.transportLen
  total : p.networkLen+p.transportLen+p.data.length=total

theorem smallestRoom_go (qs : List QueueSpace) {i : Nat} (hi : i≠0) (room : Int) :
    smallestRoom qs i room≤room ∧ (∀ q∈qs, smallestRoom qs i room≤q.room) ∧
      (smallestRoom qs i room=room ∨ ∃ q∈qs, smallestRoom qs i room=q.room) := by
  induction qs generalizing i room with
  | nil => exact ⟨Int.le_refl _,by simp,.inl rfl⟩
  | cons q qs ih =>
    obtain ⟨hle,hall,hone⟩ := ih (by omega : i+1≠0)
      (if i=0 ∨ q.room<room then q.room else room)
    have hmin : (if i=0 ∨ q.room<room then q.room else room)=min q.room room := by
      split
      case isTrue | isFalse => omega
    rw [hmin] at hle hall hone
    rw [smallestRoom,hmin]
    refine ⟨by omega,fun q' hq' => ?_,?_⟩
    · cases mem_cons.mp hq' with
      | inl heq =>
        subst heq
        omega
      | inr hmem => exact hall q' hmem
    · cases hone with
      | inl heq =>
        by_cases hq : q.room<room
        · exact .inr ⟨q,mem_cons_self,by omega⟩
        · exact .inl (by omega)
      | inr hex =>
        obtain ⟨q',hmem,heq⟩ := hex
        exact .inr ⟨q',mem_cons_of_mem q hmem,heq⟩

theorem smallestRoom_spec {qs : List QueueSpace} (hqs : qs ≠ []) :
    (∀ q∈qs, smallestRoom qs 0 0≤q.room) ∧ ∃ q∈qs, smallestRoom qs 0 0=q.room := by
  rcases qs with _ | ⟨q,qs⟩
  · exact absurd rfl hqs
  obtain ⟨hle,hall,hone⟩ := smallestRoom_go qs Nat.one_ne_zero q.room
  refine ⟨fun q' hq' => ?_,?_⟩
  · cases mem_cons.mp hq' with
    | inl heq => exact heq ▸ hle
    | inr hmem => exact hall q' hmem
  · cases hone with
    | inl heq => exact ⟨q,mem_cons_self,heq⟩
    | inr hex =>
      obtain ⟨q',hmem,heq⟩ := hex
      exact ⟨q',mem_cons_of_mem q hmem,heq⟩

theorem newEndpoint_ok {dev : Device} {cfg : EndpointConfig} {e : Sizes}
    (h : newEndpoint dev cfg = .ok e) : dev.txQueues ≠ [] ∧ ipMinimumMTU≤e.mtu ∧
      e.gsoMax=UInt32.ofInt (max e.mtu
        (min gsoMaxSize ((smallestRoom dev.txQueues 0 0).tdiv 2*minMSS))) := by
  rw [newEndpoint] at h
  generalize (if cfg.mtu=0 then min defaultMTU (dev.maxFrameSize-linkHeaderLen cfg.vlan)
    else cfg.mtu)=mtu at h
  obtain ⟨hqs,h⟩ := passed h nofun
  obtain ⟨-,h⟩ := passed h nofun
  obtain ⟨hmtu,h⟩ := passed h nofun
  injection h with h
  rw [← h]
  refine ⟨fun hnil => hqs (.inr ?_),Int.not_lt.mp hmtu,rfl⟩
  rw [hnil,length_nil]

theorem segments_le {p : PacketBuffer} {room : Nat} (hroom : 1≤room)
    (hmss : minMSS≤p.gso.mss.toNat) (hdata : p.data.length≤room*minMSS.toNat) :
    segments p≤room := by
  rw [segments]
  split
  case isTrue => exact hroom
  dsimp only
  split
  case isTrue => exact hroom
  refine Nat.le_of_lt_succ (Nat.div_lt_of_lt_mul ?_)
  have hmul : room*minMSS.toNat≤room*p.gso.mss.toNat := Nat.mul_le_mul_left room (by omega)
  rw [Nat.mul_succ,mul_comm p.gso.mss.toNat]
  omega

theorem admitted_pos {p : PacketBuffer} {budget : Int} (h : (segments p : Int)≤budget)
    (rest : List PacketBuffer) : 0<admitted budget (p::rest) := by
  have hpos := segments_pos p
  obtain ⟨b,hb⟩ := Nat.exists_eq_add_one_of_ne_zero (by omega : budget.toNat≠0)
  rw [admitted,map_cons,hb,take_succ_cons,admit_cons_le _ (by omega)]
  exact Nat.succ_pos _

def smallSegments (n : Nat) : PacketBuffer where
  views := [List.replicate (40+n) 0]
  headerOffset := 0
  linkLen := 0
  networkLen := 20
  transportLen := 20
  gso := ⟨true,536,true⟩
  isIPv4 := true
  isTCP := true

theorem smallSegments_data (n : Nat) : (smallSegments n).data.length=n := by
  simp [smallSegments,PacketBuffer.data,PacketBuffer.bytes,PacketBuffer.headerSize]

theorem smallSegments_tcp (n : Nat) : IsTCP (smallSegments n) (40+n) := by
  refine ⟨rfl,rfl,le_refl _,le_refl _,?_⟩
  rw [smallSegments_data]
  rfl

theorem smallSegments_many {n room : Nat} (hroom : 1≤room) (h : room*536<n) :
    room<segments (smallSegments n) := by
  have hmss : (smallSegments n).gso.mss.toNat=536 := rfl
  rw [segments,if_neg (by simp [smallSegments])]
  simp only [hmss,smallSegments_data]
  rw [if_neg (by omega)]
  omega

theorem cut_word {mtu : Int} (room : Nat) (hpos : 0 ≤ mtu) (hword : mtu<2^32) :
    ((UInt32.ofInt (max mtu (min gsoMaxSize ((room : Int).tdiv 2*536)))).toNat : Int) =
      max mtu (min 65536 (room/2*536)) := by
  have hsize : gsoMaxSize=65536 := rfl
  have hhalf : (room : Int).tdiv 2=room/2 := Int.tdiv_eq_ediv_of_nonneg (by omega)
  rw [hsize,hhalf]
  have hcut : max mtu (min 65536 ((room : Int)/2*536))<2^32 :=
    max_lt hword ((min_le_left _ _).trans_lt (by decide))
  rw [UInt32.ofInt,UInt32.toNat_ofNat_of_lt' (by change _<2^32; omega)]
  omega

/-- GSOMaxSize, or what the length field of an IPv4 packet can hold. -/
def Sizes.longest (e : Sizes) : Nat := min e.gsoMax.toNat 65535

/-- Every IPv4 packet of TCP that is no longer than GSOMaxSize, to be cut into segments no
smaller than the minimum, fits in each transmit queue and is admitted when that is empty,
just if the longest is no more than the smallest headers and a smallest segment for each
frame of the smallest queue. For an MTU of 32 bits that is a matter of the MTU. -/
theorem gso_fits_iff (dev : Device) (cfg : EndpointConfig) (e : Sizes)
    (h : newEndpoint dev cfg = .ok e)
    (hfree : ∀ q ∈ dev.txQueues, 1 ≤ q.numFreeFrames ∧ 1 ≤ q.numFreeSlots) :
    ((∀ p total, IsTCP p total → total ≤ e.longest → minMSS ≤ p.gso.mss.toNat →
        ∀ q ∈ dev.txQueues, (segments p : Int) ≤ q.room ∧ ∀ rest, 0 < admitted q.room (p::rest)) ↔
      (e.longest : Int) ≤ 40+smallestRoom dev.txQueues 0 0*minMSS) ∧
    (e.mtu < 2^32 → ((e.longest : Int) ≤ 40+smallestRoom dev.txQueues 0 0*minMSS ↔
      min e.mtu 65535 ≤ 40+smallestRoom dev.txQueues 0 0*minMSS)) := by
  obtain ⟨hqs,hmtu,hgso⟩ := newEndpoint_ok h
  obtain ⟨hall,q0,hq0,hsmall⟩ := smallestRoom_spec hqs
  have hpos : 1 ≤ smallestRoom dev.txQueues 0 0 := by
    have := hfree q0 hq0
    rw [hsmall,QueueSpace.room]
    omega
  generalize smallestRoom dev.txQueues 0 0=small at hall hsmall hgso hpos
  obtain ⟨room,rfl⟩ : ∃ room : Nat, small=room := ⟨small.toNat,by omega⟩
  have hmin : minMSS=536 := rfl
  rw [hmin] at hgso ⊢
  constructor
  · constructor
    · intro hfits
      by_contra hlong
      -- the longest packet with the smallest headers does not fit in the smallest queue
      have hmany : room<segments (smallSegments (e.longest-40)) :=
        smallSegments_many (by omega) (by omega)
      have hone := (hfits _ _ (smallSegments_tcp (e.longest-40)) (by omega)
        (by simp [smallSegments]) q0 hq0).1
      omega
    · intro hle p total hp htotal hmss q hq
      obtain ⟨-,-,hnet,htrans,hsum⟩ := hp
      have hip : ipMinimumSize=20 := rfl
      have htcp : tcpMinimumSize=20 := rfl
      have hsegs : segments p≤room := segments_le (by omega) hmss (by
        change _≤room*536
        omega)
      have hroom : (segments p : Int)≤q.room := by
        have := hall q hq
        omega
      exact ⟨hroom,admitted_pos hroom⟩
  · intro hword
    have hbound : ipMinimumMTU=68 := rfl
    have hmax := cut_word room (by omega : 0≤e.mtu) hword
    rw [← hgso] at hmax
    rw [Sizes.longest]
    omega

def narrowDevice (n : Int) : Device := ⟨"mlx5",1,[⟨n,64⟩],2048⟩

def narrowSizes : Sizes := ⟨14,2034,1500,1500⟩

theorem gso_fits_three : newEndpoint (narrowDevice 3) ⟨0,0⟩ = .ok narrowSizes ∧
    IsTCP (smallSegments 1460) 1500 ∧ (segments (smallSegments 1460) : Int) ≤ 3 ∧
    0 < admitted 3 [smallSegments 1460] := by
  have hnew : newEndpoint (narrowDevice 3) ⟨0,0⟩ = .ok narrowSizes := by decide
  have hfits := (gso_fits_iff (narrowDevice 3) ⟨0,0⟩ narrowSizes hnew (by decide)).1.mpr (by decide)
  obtain ⟨hsegs,hall⟩ :=
    hfits _ _ (smallSegments_tcp 1460) (by decide) (by decide) ⟨3,64⟩ (by decide)
  exact ⟨hnew,smallSegments_tcp 1460,hsegs,hall []⟩

theorem gso_stuck_two : newEndpoint (narrowDevice 2) ⟨0,0⟩ = .ok narrowSizes ∧
    IsTCP (smallSegments 1460) narrowSizes.gsoMax.toNat ∧
    minMSS ≤ (smallSegments 1460).gso.mss.toNat ∧ 2 < segments (smallSegments 1460) ∧
    admitted 2 [smallSegments 1460] = 0 := by
  have hmany : 2<segments (smallSegments 1460) := smallSegments_many (by decide) (by decide)
  refine ⟨by decide,smallSegments_tcp 1460,by decide,hmany,?_⟩
  have htwo : (2 : Int).toNat=2 := rfl
  rw [admitted,htwo,map_cons,take_succ_cons,admit_cons_gt _ hmany]

end Packetio.Netstack

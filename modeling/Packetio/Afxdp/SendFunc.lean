import Packetio.Afxdp.TxQueue

/-! SendFunc of the AF_XDP transmit queue (afxdp/queues.go) is that of the socket, which
draws on its own pool; the frames given back with Free are not in that pool. -/
namespace Packetio.Afxdp

structure SendSocket (σ ε : Type) extends Socket σ where
  freeTxFrames : σ → Int
  numCompleted : σ → Int
  sendFunc : Int → (Int → List UInt8 → Int) → σ → (Int × Option ε) × σ
  isClosed : ε → Bool
  isBadLength : ε → Bool

inductive SendError (ε : Type) where
  | closed (e : ε)
  | badLength (e : ε)
  | other (e : ε)

namespace TxQueue
variable {σ ε : Type} (S : SendSocket σ ε)

def adapt (e : ε) : SendError ε :=
  if S.isClosed e then .closed e else if S.isBadLength e then .badLength e else .other e

def sendFunc (q : TxQueue) (s : σ) (count : Int) (build : Int → List UInt8 → Int) :
    TxQueue × σ × Int × Option (SendError ε) :=
  let x := S.sendFunc count build s
  (q,x.2,x.1.1,x.1.2.map (adapt S))

def numFreeFrames (q : TxQueue) (s : σ) : Int := S.freeTxFrames s+q.spare.length

inductive Call where
  | alloc (n : Int)
  | transmit (descs : List Desc)
  | free (descs : List Desc)
  | complete (max : Int)

def Call.run (c : Call) (x : TxQueue × σ) : TxQueue × σ :=
  match c with
  | .alloc n => let y := x.1.alloc S.toSocket x.2 n; (y.1,y.2.1)
  | .transmit descs => let y := x.1.transmit S.toSocket x.2 descs; (y.1,y.2.1)
  | .free descs => (x.1.free descs,x.2)
  | .complete max => let y := x.1.complete S.toSocket x.2 max; (y.1,y.2.1)

def runAll (cs : List Call) (x : TxQueue × σ) : TxQueue × σ := cs.foldl (fun x c => c.run S x) x

def Valid (build : Int → List UInt8 → Int) : Prop :=
  ∀ i frame, frame≠[] → 0<build i frame ∧ build i frame≤frame.length

/-- The socket draws on its own pool: Alloc takes its frames out of it, Complete puts frames back,
SendFunc sends no more than are in it or can be reclaimed, and sends when it has one. -/
structure OwnPool (accepts : σ → Prop) : Prop where
  alloc : ∀ n s, ((S.alloc n s).1.length : Int)+S.freeTxFrames (S.alloc n s).2 = S.freeTxFrames s
  transmit : ∀ descs s, S.freeTxFrames (S.transmit descs s).2 = S.freeTxFrames s
  complete : ∀ max s,
    S.freeTxFrames (S.complete max s).2 = S.freeTxFrames s+(S.complete max s).1
  completed : ∀ s, 0≤S.numCompleted s
  draws : ∀ count build s,
    (S.sendFunc count build s).1.1 ≤ S.freeTxFrames s+S.numCompleted s
  sends : ∀ s build, Valid build → 0<S.numFreeTxSlots s → accepts s →
    0<S.freeTxFrames s+S.numCompleted s → (S.sendFunc 1 build s).1 = (1,none)

/-- What a call takes out of the pool of the socket, less what it puts back. -/
def Call.drawn (c : Call) (x : TxQueue × σ) : Int :=
  match c with
  | .alloc n => (x.1.more S.toSocket x.2 n.toNat).length
  | .transmit _ => 0
  | .free _ => 0
  | .complete max => -(S.complete max x.2).1

def drawn : List Call → TxQueue × σ → Int
  | [], _ => 0
  | c::cs, x => c.drawn S x+drawn cs (c.run S x)

section
variable {S} {accepts : σ → Prop} (hS : OwnPool S accepts)
include hS

theorem OwnPool.call (c : Call) (x : TxQueue × σ) :
    S.freeTxFrames (c.run S x).2+c.drawn S x = S.freeTxFrames x.2 := by
  cases c with
  | alloc n =>
    have hsock := hS.alloc (n-x.1.spare.length) x.2
    change S.freeTxFrames
      (x.1.alloc S.toSocket x.2 n).2.1+(x.1.more S.toSocket x.2 n.toNat).length=_
    rw [TxQueue.alloc,more]
    by_cases hn : n≤0
    · rw [if_pos hn,if_neg (by omega)]
      exact Int.add_zero _
    have hlen : (takeSpare n.toNat x.1.spare []).2.length=min n.toNat x.1.spare.length := by
      rw [takeSpare_length,List.length_nil,Nat.zero_add]
    rw [if_neg hn]
    by_cases hlt : x.1.spare.length<n.toNat
    · have hmin : ((min n.toNat x.1.spare.length : Nat) : Int)=x.1.spare.length := by omega
      have hmore : ((n.toNat-x.1.spare.length : Nat) : Int)=n-x.1.spare.length := by omega
      simp only [hlen,hmin,hmore,if_pos hlt]
      rw [if_pos (by omega)]
      omega
    · simp only [hlen,if_neg hlt]
      rw [if_neg (by omega)]
      exact Int.add_zero _
  | transmit descs =>
    have hkeeps := hS.transmit (fromDescs (descs.take (x.1.firstBad descs)) []) x.2
    change S.freeTxFrames (x.1.transmit S.toSocket x.2 descs).2.1+0=_
    rw [transmit_eq,Int.add_zero]
    split
    case isTrue => rfl
    case isFalse => exact hkeeps
  | free descs => exact Int.add_zero _
  | complete max =>
    have hback := hS.complete max x.2
    change S.freeTxFrames (S.complete max x.2).2+ -(S.complete max x.2).1=_
    omega

theorem OwnPool.runAll (cs : List Call) (x : TxQueue × σ) :
    S.freeTxFrames (TxQueue.runAll S cs x).2+drawn S cs x = S.freeTxFrames x.2 := by
  induction cs generalizing x with
  | nil => exact Int.add_zero _
  | cons c cs ih =>
    have hcall := hS.call c x
    have hrest := ih (c.run S x)
    change S.freeTxFrames (TxQueue.runAll S cs (c.run S x)).2+(c.drawn S x+drawn S cs (c.run S x))=_
    omega

end

/-- After any history SendFunc sends a packet just when the history has left a frame in the pool of
the socket, or there is one to reclaim; frames that were given back with Free do not count. -/
theorem sendFunc_sends_iff (accepts : σ → Prop) (hS : OwnPool S accepts) (cs : List Call)
    (x : TxQueue × σ) (build : Int → List UInt8 → Int) (hb : Valid build) :
    ∀ q s, runAll S cs x = (q,s) → 0 < numFreeSlots S.toSocket s → 0 < q.numFreeFrames S s →
      accepts s →
      ((q.sendFunc S s 1 build).2.2 = (1,none) ↔
        drawn S cs x < S.freeTxFrames x.2+S.numCompleted s) ∧
      (q.spare = [] → (q.sendFunc S s 1 build).2.2 = (1,none)) := by
  intro q s hrun hslots hfree hacc
  have hpool : S.freeTxFrames s+drawn S cs x=S.freeTxFrames x.2 := by
    rw [← hS.runAll cs x,hrun]
  have hdone := hS.completed s
  have hsends : 0<S.freeTxFrames s+S.numCompleted s → (q.sendFunc S s 1 build).2.2=(1,none) := by
    intro hpos
    rw [sendFunc]
    simp [hS.sends s build hb hslots hacc hpos]
  refine ⟨⟨fun h => ?_,fun h => hsends (by omega)⟩,fun hspare => hsends ?_⟩
  · have hdraws := hS.draws 1 build s
    have hone : (S.sendFunc 1 build s).1.1=1 := congrArg Prod.fst h
    omega
  · rw [numFreeFrames,hspare,List.length_nil] at hfree
    omega

def pairSocket : SendSocket Nat Unit where
  alloc n s := ((List.range (min n.toNat s)).map fun i => ⟨UInt64.ofNat (64*i),0,0⟩,s-min n.toNat s)
  transmit descs s := (descs.length,s)
  complete _ s := (0,s)
  numFreeTxSlots _ := 2
  freeTxFrames s := s
  numCompleted _ := 0
  sendFunc _ _ s := ((if 0<s then 1 else 0,none),s-1)
  isClosed _ := false
  isBadLength _ := false

theorem pairSocket_own : OwnPool pairSocket fun _ => True where
  alloc n s := by
    simp only [pairSocket,List.length_map,List.length_range]
    omega
  transmit _ _ := rfl
  complete _ s := (Int.add_zero (s : Int)).symm
  completed _ := Int.le_refl 0
  draws _ _ s := by
    simp only [pairSocket]
    split <;> omega
  sends s _ _ _ _ h := by
    have hpos : 0<s := by simpa [pairSocket] using h
    simp [pairSocket,hpos]

def pairQueue : TxQueue := { regionLen := 128, frameSize := 64 }

def unit (_ : Int) (_ : List UInt8) : Int := 1

theorem unit_valid : Valid unit :=
  fun _ _ hne => ⟨Int.one_pos,Int.ofNat_le.mpr (List.length_pos_iff.mpr hne)⟩

/-- One of two frames is taken and given back: the other is sent. -/
theorem sendFunc_sends_pair :
    ∃ q s, runAll pairSocket [.alloc 1,.free [⟨0,0,0⟩]] (pairQueue,2) = (q,s) ∧
      q.spare = [⟨0,0,0⟩] ∧ (q.sendFunc pairSocket s 1 unit).2.2 = (1,none) := by
  obtain ⟨hiff,-⟩ := sendFunc_sends_iff pairSocket _ pairSocket_own [.alloc 1,.free [⟨0,0,0⟩]]
    (pairQueue,2) unit unit_valid _ _ rfl (by decide) (by decide) trivial
  exact ⟨_,_,rfl,by decide,hiff.mpr (by decide)⟩

def freedPair : TxQueue × Nat :=
  runAll pairSocket [.alloc 2,.free (pairQueue.alloc pairSocket.toSocket 2 2).2.2] (pairQueue,2)

theorem sendFunc_starves :
    OwnPool pairSocket (fun _ => True) ∧ freedPair.1.numFreeFrames pairSocket freedPair.2 = 2 ∧
      numFreeSlots pairSocket.toSocket freedPair.2 = 2 ∧
      (freedPair.1.sendFunc pairSocket freedPair.2 1 unit).2.2 = (0,none) :=
  ⟨pairSocket_own,by decide,rfl,rfl⟩

end TxQueue

end Packetio.Afxdp

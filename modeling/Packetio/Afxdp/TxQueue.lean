import Mathlib.Data.List.TakeWhile
import Packetio.Frame

/-! The transmit queue of the AF_XDP backend (afxdp/queues.go) over a socket of go-afxdp,
which is not part of it: what it hands to the socket, and how many frames Alloc gives
out. -/
namespace Packetio.Afxdp
open List

structure Socket (σ : Type) where
  alloc : Int → σ → List Desc × σ
  transmit : List Desc → σ → Int × σ
  complete : Int → σ → Int × σ
  numFreeTxSlots : σ → Int

structure TxQueue where
  spare : List Desc := []
  rejected : UInt64 := 0
  regionLen : UInt64
  frameSize : UInt64

def toDescs (ds out : List Desc) : List Desc := out++ds.map fun d => ⟨d.addr,d.len,d.options⟩

def fromDescs (ds out : List Desc) : List Desc :=
  out++ds.map fun d => ⟨d.addr,d.len,d.options &&& optContinued⟩

namespace TxQueue
variable {σ : Type} (S : Socket σ)

def takeSpare : Nat → List Desc → List Desc → List Desc × List Desc
  | 0, spare, out => (spare,out)
  | n+1, spare, out => match spare.getLast? with
    | none => (spare,out)
    | some d => takeSpare n spare.dropLast (out++[d])

def alloc (q : TxQueue) (s : σ) (n : Int) : TxQueue × σ × List Desc :=
  if n≤0 then (q,s,[])
  else
    let x := takeSpare n.toNat q.spare []
    let y := if (x.2.length : Int)<n then S.alloc (n-x.2.length) s else ([],s)
    let descs := toDescs y.1 x.2
    let descs := if (descs.length : Int) > n then descs.take n.toNat else descs
    ({ q with spare := x.1 },y.2,descs.map fun d => { d with len := 0, options := 0 })

def descOK (q : TxQueue) (d : Desc) : Bool :=
  if q.frameSize=0 then true
  else d.addr<q.regionLen && d.len.toUInt64-1<q.frameSize-d.addr%q.frameSize

def firstBad (q : TxQueue) : List Desc → Nat
  | [] => 0
  | d::ds => if !q.descOK d then 0 else q.firstBad ds+1

def transmit (q : TxQueue) (s : σ) (descs : List Desc) : TxQueue × σ × Int :=
  let n := q.firstBad descs
  let q := if n<descs.length then { q with rejected := q.rejected+1 } else q
  if n=0 then (q,s,0)
  else
    let x := S.transmit (fromDescs (descs.take n) []) s
    (q,x.2,x.1)

def complete (q : TxQueue) (s : σ) (max : Int) : TxQueue × σ × Int :=
  let x := S.complete max s
  (q,x.2,x.1)

def freeOne (q : TxQueue) (d : Desc) : TxQueue :=
  if q.frameSize=0 then { q with spare := q.spare++[⟨d.addr,0,0⟩] }
  else if d.addr ≥ q.regionLen then { q with rejected := q.rejected+1 }
  else { q with spare := q.spare++[⟨d.addr-d.addr%q.frameSize,0,0⟩] }

def free (q : TxQueue) (descs : List Desc) : TxQueue := descs.foldl freeOne q

def numFreeSlots (s : σ) : Int := S.numFreeTxSlots s

/-! What is handed to the socket -/

theorem transmit_eq (q : TxQueue) (s : σ) (descs : List Desc) : (q.transmit S s descs).2 =
    if q.firstBad descs=0 then (s,0)
    else (S.transmit (fromDescs (descs.take (q.firstBad descs)) []) s).swap := by
  rw [transmit]
  split <;> split <;> rfl

theorem take_firstBad (q : TxQueue) (descs : List Desc) :
    descs.take (q.firstBad descs)=descs.takeWhile q.descOK := by
  induction descs with
  | nil => rfl
  | cons d ds ih =>
    rw [firstBad]
    cases hd : q.descOK d with
    | false => simp [hd]
    | true => simp [hd,ih]

def CutsWhole (q : TxQueue) (descs : List Desc) : Prop :=
  ∀ front d rest, descs=front++d::rest → (∀ x∈front++[d], q.descOK x=true) →
    (∀ x∈rest.head?, q.descOK x=false) → d.continued=false

theorem masked_continued (d : Desc) :
    (Desc.continued ⟨d.addr,d.len,d.options &&& optContinued⟩)=d.continued := by
  rw [Desc.continued,Desc.continued,UInt32.and_assoc,UInt32.and_self]

theorem getLast?_takeWhile_iff {p : Desc → Bool} {descs : List Desc} {d : Desc} :
    (descs.takeWhile p).getLast? = some d ↔ ∃ front rest, descs=front++d::rest ∧
      (∀ x∈front++[d], p x=true) ∧ ∀ x∈rest.head?, p x=false := by
  constructor
  · intro h
    obtain ⟨front,hfront⟩ := getLast?_eq_some_iff.mp h
    refine ⟨front,descs.dropWhile p,?_,?_,?_⟩
    · rw [append_cons,← hfront,takeWhile_append_dropWhile]
    · intro x hx
      rw [← hfront] at hx
      exact mem_takeWhile_imp hx
    · intro x hx
      have := head?_dropWhile_not p descs
      rw [hx] at this
      simpa using this
  · rintro ⟨front,rest,rfl,hgood,hbad⟩
    have hrest : rest.takeWhile p = [] := by
      cases rest with
      | nil => rfl
      | cons x xs => simp [hbad x rfl]
    rw [append_cons,takeWhile_append_of_pos hgood,hrest,append_nil,
      getLast?_append_cons,getLast?_singleton]

/-- Whatever the socket, Transmit hands it a part of the batch from its start on without a bad
descriptor (and does not call it for an empty one), and that part ends with a packet just when the
batch is cut between two. -/
theorem transmit_whole_iff (q : TxQueue) (descs : List Desc) :
    ∃ n, (∀ (σ : Type) (S : Socket σ) (s : σ), (q.transmit S s descs).2 =
        if n = 0 then (s,0) else (S.transmit (fromDescs (descs.take n) []) s).swap) ∧
      (∀ d ∈ descs.take n, q.descOK d = true) ∧
      ((∀ d ∈ (fromDescs (descs.take n) []).getLast?, d.continued = false) ↔
      q.CutsWhole descs) := by
  refine ⟨q.firstBad descs,fun σ S s => transmit_eq S q s descs,?_,?_⟩
  · intro d hd
    rw [take_firstBad] at hd
    exact mem_takeWhile_imp hd
  rw [take_firstBad,fromDescs,nil_append,getLast?_map]
  constructor
  · intro h front d rest hdescs hfront hrest
    have hlast := getLast?_takeWhile_iff.mpr ⟨front,rest,hdescs,hfront,hrest⟩
    rw [← masked_continued]
    exact h _ (by rw [hlast]; rfl)
  · intro h d hd
    obtain ⟨d',hlast,rfl⟩ := Option.map_eq_some_iff.mp hd
    obtain ⟨front,rest,hdescs,hfront,hrest⟩ := getLast?_takeWhile_iff.mp hlast
    rw [masked_continued]
    exact h front d' rest hdescs hfront hrest

def twoFrames : TxQueue := { regionLen := 128, frameSize := 64 }

/-- It takes all, and keeps what it was given. -/
def recorder : Socket (List (List Desc)) where
  alloc _ log := ([],log)
  transmit descs log := (descs.length,log++[descs])
  complete _ log := (0,log)
  numFreeTxSlots _ := 4

theorem transmit_stops_in_packet :
    (twoFrames.transmit recorder [] [⟨0,60,optContinued⟩,⟨128,10,0⟩]).2.1 =
        [[⟨0,60,optContinued⟩]] ∧
      Desc.continued ⟨0,60,optContinued⟩ = true := by decide

/-! How much Alloc gives out -/

theorem takeSpare_length (n : Nat) (spare out : List Desc) :
    (takeSpare n spare out).2.length=out.length+min n spare.length := by
  induction n generalizing spare out with
  | zero => rw [takeSpare,Nat.zero_min,add_zero]
  | succ n ih =>
    rw [takeSpare]
    cases hlast : spare.getLast? with
    | none =>
      rw [getLast?_eq_none_iff.mp hlast]
      simp
    | some d =>
      have hpos : 0<spare.length := length_pos_of_mem (mem_of_getLast? hlast)
      simp only [ih,length_append,length_singleton,length_dropLast]
      omega

def more (q : TxQueue) (s : σ) (n : Nat) : List Desc :=
  if q.spare.length<n then (S.alloc ((n-q.spare.length : Nat) : Int) s).1 else []

theorem alloc_length (q : TxQueue) (s : σ) {n : Nat} (hn : 0<n) :
    (q.alloc S s n).2.2.length=min n (q.spare.length+(q.more S s n).length) := by
  have hlen : (takeSpare n q.spare []).2.length=min n q.spare.length := by
    rw [takeSpare_length,length_nil,zero_add]
  have hmore : (if ((min n q.spare.length : Nat) : Int)<n then
      S.alloc (n-(min n q.spare.length : Nat)) s else ([],s)).1=q.more S s n := by
    rw [more]
    split
    case isTrue hlt => rw [if_pos (by omega),min_eq_right (by omega),Int.ofNat_sub (by omega)]
    case isFalse hge => rw [if_neg (by omega)]
  rw [alloc,if_neg (by omega)]
  simp only [length_map,Int.toNat_natCast,hlen,toDescs,hmore]
  split
  case isTrue hlong =>
    rw [length_take,length_append,length_map,hlen]
    omega
  rename_i hshort
  rw [length_append,length_map,hlen] at hshort ⊢
  omega

structure Bounded (s : σ) (slots : Nat) : Prop where
  free : S.numFreeTxSlots s=slots
  alloc : ∀ k : Nat, (S.alloc k s).1.length ≤ min k slots

variable {S} in
theorem Bounded.more_le {s : σ} {slots : Nat} (h : Bounded S s slots) (q : TxQueue) (n : Nat) :
    (q.more S s n).length ≤ min (n-q.spare.length) slots := by
  rw [more]
  split
  case isTrue => exact h.alloc _
  case isFalse => exact Nat.zero_le _

def fullSocket : Socket (Nat × Nat) where
  alloc n s := ((List.range (min n.toNat s.1)).map fun i => ⟨UInt64.ofNat (64*(s.2+i)),0,0⟩,
    (s.1,s.2+min n.toNat s.1))
  transmit descs s := (min descs.length s.1,(s.1-descs.length,s.2))
  complete _ s := (0,s)
  numFreeTxSlots s := s.1

theorem fullSocket_length (k : Nat) (s : Nat × Nat) :
    (fullSocket.alloc k s).1.length=min k s.1 := by
  rw [fullSocket,length_map,length_range,Int.toNat_natCast]

theorem fullSocket_bounded (slots : Nat) : Bounded fullSocket (slots,0) slots :=
  ⟨rfl,fun k => le_of_eq (fullSocket_length k _)⟩

/-- With any socket that keeps to its own bound, Alloc gives out no more than was asked
for and no more than Transmit can take, just when there is room for all that was asked
for or no frame was given back with Free. -/
theorem alloc_fits_iff (q : TxQueue) (slots : Nat) (n : Int) :
    (∀ (σ : Type) (S : Socket σ) (s : σ), Bounded S s slots →
      ((q.alloc S s n).2.2.length : Int) ≤ min (n.toNat : Int) (numFreeSlots S s)) ↔
      n ≤ slots ∨ q.spare = [] := by
  rcases Int.le_total n 0 with hneg | hpos
  · refine ⟨fun _ => .inl (by omega),fun _ σ S s hS => ?_⟩
    rw [alloc,if_pos hneg,numFreeSlots,hS.free,length_nil]
    omega
  obtain ⟨m,rfl⟩ := Int.eq_ofNat_of_zero_le hpos
  rcases Nat.eq_zero_or_pos m with hzero | hm
  · refine ⟨fun _ => .inl (by omega),fun _ σ S s hS => ?_⟩
    rw [alloc,if_pos (by omega),numFreeSlots,hS.free,length_nil]
    omega
  constructor
  · intro h
    -- a socket that gives all it may
    have hfull := h _ fullSocket (slots,0) (fullSocket_bounded slots)
    have hmore : (q.more fullSocket (slots,0) m).length=min (m-q.spare.length) slots := by
      rw [more]
      split
      case isTrue => exact fullSocket_length _ _
      case isFalse hge => rw [Nat.sub_eq_zero_of_le (not_lt.mp hge),Nat.zero_min]; rfl
    rw [alloc_length _ _ _ hm,hmore,numFreeSlots,(fullSocket_bounded slots).free] at hfull
    by_contra hno
    rw [not_or] at hno
    have hspare := length_pos_iff.mpr hno.2
    omega
  · intro h σ S s hS
    have hmore := hS.more_le q m
    rw [alloc_length _ _ _ hm,numFreeSlots,hS.free]
    cases h with
    | inl h => omega
    | inr h =>
      rw [h,length_nil] at hmore ⊢
      omega

def fourFrames : TxQueue := { regionLen := 256, frameSize := 64 }

def freedTwo : TxQueue := fourFrames.free (fourFrames.alloc fullSocket (2,0) 2).2.2

theorem alloc_past_ring : (fourFrames.alloc fullSocket (2,0) 2).2.2 = [⟨0,0,0⟩,⟨64,0,0⟩] ∧
      (freedTwo.alloc fullSocket (2,2) 4).2.2 = [⟨64,0,0⟩,⟨0,0,0⟩,⟨128,0,0⟩,⟨192,0,0⟩] ∧
      numFreeSlots fullSocket (2,2) = 2 := by decide

end TxQueue

end Packetio.Afxdp

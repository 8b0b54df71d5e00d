import Mathlib.Algebra.Order.Ring.Int
import Mathlib.Data.Nat.Log
import Packetio.Frame

/-! How Open sizes the frame region of a device, in both backends that share it out between
their queues (mlx5/device.go, dpdk/device.go): with Go ints, which wrap around, and beside it
the number of frames that is meant. -/
namespace Packetio
open Nat

def mulInt (a b : Int) : Int := Int.bmod (a*b) (2^64)

def isPow2 (n : Int) : Bool := n.toNat &&& (n.toNat-1) == 0

/-- `p` doubles until it is `n` or more. After 2^62 it is negative and then zero, and
never gets there. -/
def nextPow2From (n : Int) : Nat → Nat → Option Nat
  | 0, _ => none
  | fuel+1, p => if (p : Int)<n then nextPow2From n fuel (2*p) else some p

def nextPow2 (n : Int) : Option Nat := nextPow2From n 63 1

def regionFrames (framesSet : Bool) (frames need : Int) : Nat :=
  if framesSet ∨ 2*need≤frames then frames.toNat else 2^Nat.clog 2 (2*need).toNat

theorem mulInt_eq {a b : Int} (hlow : -2^63≤a*b) (hhigh : a*b<2^63) : mulInt a b=a*b := by
  exact Int.bmod_eq_of_le (by simpa using hlow) (by simpa using hhigh)

theorem mulInt_toNat_lt (a b : Int) : (mulInt a b).toNat<2^63 := by
  have hlt : mulInt a b<2^63 := Int.bmod_lt (by decide)
  omega

theorem addInt_eq {a b : Int} (hlow : -2^63≤a+b) (hhigh : a+b<2^63) : addInt a b=a+b := by
  exact Int.bmod_eq_of_le (by simpa using hlow) (by simpa using hhigh)

theorem mulInt_mulInt (a b d : Int) : mulInt a (mulInt b d)=mulInt (a*b) d := by
  rw [mulInt,mulInt,mulInt,Int.mul_bmod_bmod,mul_assoc]

theorem mulInt_eq_zero (a b : Int) : mulInt a b=0 ↔ a*b%2^64=0 := by
  rw [mulInt,Int.bmod_def]
  split <;> omega

theorem depths_le {n depth : Int} (hn : 0≤n ∧ n≤64) (hdepth : 0<depth) (hlt : 0<n → depth<2^32) :
    0≤n*depth ∧ n*depth≤64*2^32 := by
  refine ⟨mul_nonneg hn.1 (le_of_lt hdepth),?_⟩
  rcases eq_or_lt_of_le hn.1 with rfl | hpos
  · rw [zero_mul]
    decide
  · exact Int.mul_le_mul hn.2 (le_of_lt (hlt hpos)) (le_of_lt hdepth) (by decide)

theorem need_eq {tx txDepth rx rxDepth : Int} (htx : 0≤tx ∧ tx≤64) (htxDepth : 0<txDepth)
    (htxLt : 0<tx → txDepth<2^32) (hrx : 0≤rx ∧ rx≤64) (hrxDepth : 0<rxDepth)
    (hrxLt : 0<rx → rxDepth<2^32) :
    0≤tx*txDepth ∧ 0≤rx*rxDepth ∧ tx*txDepth+rx*rxDepth<2^40 ∧
      addInt (mulInt tx txDepth) (mulInt rx rxDepth)=tx*txDepth+rx*rxDepth := by
  obtain ⟨ht,ht'⟩ := depths_le htx htxDepth htxLt
  obtain ⟨hr,hr'⟩ := depths_le hrx hrxDepth hrxLt
  refine ⟨ht,hr,by omega,?_⟩
  rw [mulInt_eq (by omega) (by omega),mulInt_eq (by omega) (by omega),
    addInt_eq (by omega) (by omega)]

theorem isPow2_some {n : Int} (hpos : ¬ n≤0) (h : isPow2 n=true) : ∃ d, n=((2^d : Nat) : Int) := by
  rw [isPow2,beq_iff_eq] at h
  obtain ⟨d,hd⟩ := (and_sub_one_eq_zero_iff_isPowerOfTwo (by omega)).mp h
  exact ⟨d,by rw [← hd,Int.toNat_of_nonneg (by omega)]⟩

theorem nextPow2From_spec {n : Int} {fuel i p : Nat} (h : nextPow2From n fuel (2^i)=some p) :
    ∃ j, p=2^j ∧ n≤p ∧ ∀ m : Nat, i ≤ m → n≤2^m → j ≤ m := by
  induction fuel generalizing i with
  | zero => cases h
  | succ fuel ih =>
    rw [nextPow2From] at h
    split at h
    case isTrue hlt =>
      rw [← pow_succ'] at h
      obtain ⟨j,hp,hn,hleast⟩ := ih h
      refine ⟨j,hp,hn,fun m him hm => hleast m ?_ hm⟩
      -- the power before is too small, and so not 2^m
      cases eq_or_lt_of_le him with
      | inl heq =>
        rw [heq,cast_pow,cast_ofNat] at hlt
        omega
      | inr hlt => exact hlt
    case isFalse hge =>
      injection h with h
      exact ⟨i,h.symm,by rw [← h]; omega,fun m him _ => him⟩

theorem nextPow2From_some {n : Int} {fuel i : Nat} (h : n≤2^(i+fuel)) :
    ∃ p, nextPow2From n (fuel+1) (2^i)=some p := by
  induction fuel generalizing i with
  | zero =>
    rw [nextPow2From,if_neg (by push_cast; rw [add_zero] at h; omega)]
    exact ⟨_,rfl⟩
  | succ fuel ih =>
    rw [nextPow2From]
    split
    case isTrue =>
      rw [← pow_succ']
      exact ih (by rw [succ_add_eq_add_succ]; exact h)
    case isFalse => exact ⟨_,rfl⟩

theorem nextPow2_eq {n : Int} (h : n≤2^62) : nextPow2 n=some (2^Nat.clog 2 n.toNat) := by
  obtain ⟨p,hp⟩ : ∃ p, nextPow2From n 63 (2^0)=some p := nextPow2From_some h
  obtain ⟨j,hj,hn,hleast⟩ := nextPow2From_spec (i := 0) hp
  have hclog : clog 2 n.toNat=j := by
    apply le_antisymm
    · apply clog_le_of_le_pow
      omega
    · apply hleast _ (zero_le _)
      have := le_pow_clog (b := 2) (by decide) n.toNat
      have hcast : ((2^clog 2 n.toNat : Nat) : Int)=2^clog 2 n.toNat := by push_cast; rfl
      omega
  rwa [hclog,← hj]

end Packetio

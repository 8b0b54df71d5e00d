import Mathlib.Algebra.Group.Nat.Defs
import Mathlib.Data.List.Basic

/-! A set of numbers as the bits of a list of 64-bit words: number `i` is bit
`i % 64` of word `i / 64`. -/
namespace Packetio.Lib

def bit (ws : List UInt64) (i : Nat) : Bool := (ws[i/64]?.getD 0).toBitVec.getLsbD (i%64)

section
variable {ws : List UInt64} {w s : UInt64} {i j : Nat}

theorem mask_bit (hs : s.toNat=i%64) (hj : j<64) :
    (1 <<< s : UInt64).toBitVec.getLsbD j=decide (j=i%64) := by
  have hmod : (s.toBitVec%64).toNat=i%64 := by
    change s.toNat%64=i%64
    rw [hs,Nat.mod_mod]
  rw [UInt64.toBitVec_shiftLeft,BitVec.shiftLeft_eq',hmod,BitVec.getLsbD_shiftLeft]
  simp only [hj,decide_true,Bool.true_and]
  by_cases h : j=i%64
  · subst h
    simp
  · simp only [h,decide_false]
    rcases Nat.lt_or_gt_of_ne h with h | h <;> simp <;> omega

theorem and_mask_ne_zero (hs : s.toNat=i%64) :
    w &&& (1 <<< s)≠0 ↔ w.toBitVec.getLsbD (i%64)=true := by
  have hi : i%64<64 := Nat.mod_lt _ (by decide)
  have hz : w &&& (1 <<< s)=0 ↔ w.toBitVec.getLsbD (i%64)=false := by
    rw [← UInt64.toBitVec_inj,UInt64.toBitVec_and,UInt64.toBitVec_zero]
    constructor
    · intro h
      have hb := congrArg (BitVec.getLsbD · (i%64)) h
      rw [BitVec.getLsbD_and,mask_bit hs hi] at hb
      simpa using hb
    · intro h
      refine BitVec.eq_of_getLsbD_eq fun j hj => ?_
      rw [BitVec.getLsbD_and,mask_bit hs hj]
      by_cases hji : j=i%64
      · simp [hji,h]
      · simp [hji]
  rw [ne_eq,hz]
  simp

theorem bit_set (h : i/64<ws.length) :
    bit (ws.set (i/64) w) j=if j/64=i/64 then w.toBitVec.getLsbD (j%64) else bit ws j := by
  by_cases hji : j/64=i/64
  · rw [if_pos hji,bit,hji,List.getElem?_set_self h,Option.getD_some]
  · rw [if_neg hji,bit,List.getElem?_set_ne (Ne.symm hji),bit]

/-- A word rewritten bit by bit, where `f` changes the bit of number `i` alone. -/
theorem bit_change {v : UInt64} {f : Bool → Bool → Bool} (h : ws[i/64]? = some w)
    (hkeep : ∀ b, f false b=b)
    (hv : ∀ n<64, v.toBitVec.getLsbD n=f (decide (n=i%64)) (w.toBitVec.getLsbD n)) :
    bit (ws.set (i/64) v) j=f (decide (j=i)) (bit ws j) := by
  obtain ⟨hlt,-⟩ := List.getElem?_eq_some_iff.mp h
  rw [bit_set hlt]
  split
  case isTrue hji =>
    have he : j%64=i%64 ↔ j=i := by omega
    rw [hv _ (Nat.mod_lt _ (by decide)),bit,hji,h,Option.getD_some,decide_eq_decide.mpr he]
  rename_i hji
  have hne : j≠i := by rintro rfl; exact hji rfl
  rw [decide_eq_false hne,hkeep]

theorem bit_insert (h : ws[i/64]? = some w) (hs : s.toNat=i%64) :
    bit (ws.set (i/64) (w ||| (1 <<< s))) j=(decide (j=i) || bit ws j) := by
  refine bit_change (f := or) h Bool.false_or fun n hn => ?_
  rw [UInt64.toBitVec_or,BitVec.getLsbD_or,mask_bit hs hn,Bool.or_comm]

theorem bit_erase (h : ws[i/64]? = some w) (hs : s.toNat=i%64) :
    bit (ws.set (i/64) (w &&& ~~~(1 <<< s))) j=(decide (j≠i) && bit ws j) := by
  rw [decide_not]
  refine bit_change (f := fun a b => !a && b) h Bool.true_and fun n hn => ?_
  rw [UInt64.toBitVec_and,UInt64.toBitVec_not,BitVec.getLsbD_and,BitVec.getLsbD_not,
    mask_bit hs hn,decide_eq_true hn,Bool.true_and,Bool.and_comm]

end
end Packetio.Lib

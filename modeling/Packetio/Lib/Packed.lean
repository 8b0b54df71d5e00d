import Mathlib.Algebra.Ring.Nat
import Mathlib.Data.List.Basic

/-! Words with bit fields in them, the lowest field first: each is given by its width and
its value, of which the width decides how much fits. -/
namespace Packetio.Lib
open Nat

def pack : List (Nat × Nat) → Nat
  | [] => 0
  | (w,v)::fs => v%2^w+2^w*pack fs

def widths (fs : List (Nat × Nat)) : Nat := (fs.map Prod.fst).sum

theorem pack_lt (fs : List (Nat × Nat)) : pack fs<2^widths fs := by
  induction fs with
  | nil => exact Nat.one_pos
  | cons f fs ih =>
    obtain ⟨w,v⟩ := f
    have hhigh : 2^w*(pack fs+1)≤2^w*2^widths fs := mul_le_mul_left _ ih
    have hsum : widths ((w,v)::fs)=w+widths fs := rfl
    rw [pack,hsum,pow_add]
    rw [mul_succ] at hhigh
    omega

theorem pack_append (fs gs : List (Nat × Nat)) : pack (fs++gs)=pack fs+2^widths fs*pack gs := by
  induction fs with
  | nil =>
    have hnil : widths []=0 := rfl
    rw [List.nil_append,pack,hnil,pow_zero,one_mul,zero_add]
  | cons f fs ih =>
    obtain ⟨w,v⟩ := f
    have hsum : widths ((w,v)::fs)=w+widths fs := rfl
    rw [List.cons_append,pack,pack,ih,hsum,pow_add,mul_add,mul_assoc,add_assoc]

theorem pack_field (fs gs : List (Nat × Nat)) (w v : Nat) :
    pack (fs++(w,v)::gs)/2^widths fs%2^w=v%2^w := by
  rw [pack_append,Nat.add_mul_div_left _ _ (Nat.two_pow_pos _),Nat.div_eq_of_lt (pack_lt fs),
    zero_add,pack,Nat.add_mul_mod_self_left,Nat.mod_mod]

theorem pack_snoc (fs : List (Nat × Nat)) (w v : Nat) :
    pack (fs++[(w,v)])=pack fs ||| (v%2^w) <<< widths fs := by
  rw [pack_append,pack,pack,mul_zero,add_zero,Nat.or_comm,
    ← shiftLeft_add_eq_or_of_lt (pack_lt fs),shiftLeft_eq,add_comm,mul_comm]

end Packetio.Lib

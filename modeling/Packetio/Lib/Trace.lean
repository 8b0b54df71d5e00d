import Mathlib.Algebra.BigOperators.Group.List.Basic
import Mathlib.Algebra.Ring.Nat

/-! Runs of a system some of whose steps return a result, and counters that grow with each
result by what it weighs. -/
namespace Packetio.Lib
open List
variable {Q α M : Type*}

inductive Trace (step : Q → Q → Option α → Prop) (q₀ : Q) : Q → List α → Prop
  | start : Trace step q₀ q₀ []
  | step {q q' : Q} {xs : List α} {x : Option α} (h : Trace step q₀ q xs) (hs : step q q' x) :
      Trace step q₀ q' (xs++x.toList)

theorem Trace.tally [Add M] (I : Q → Prop) (count : Nat → M) (c : Q → M) (weight : α → Nat)
    {step : Q → Q → Option α → Prop} {q₀ q : Q} {xs : List α}
    (hadd : ∀ a b, count (a+b)=count a+count b)
    (hstep : ∀ q q' x, I q → step q q' x → I q' ∧ c q'=c q+count (x.toList.map weight).sum)
    (hstart : I q₀) (hzero : c q₀=count 0) (h : Trace step q₀ q xs) :
    I q ∧ c q=count (xs.map weight).sum := by
  induction h with
  | start => exact ⟨hstart,hzero⟩
  | step _ hs ih =>
    obtain ⟨hq,hc⟩ := hstep _ _ _ ih.1 hs
    exact ⟨hq,by rw [hc,ih.2,map_append,sum_append,hadd]⟩

theorem sum_indicator (p : α → Bool) (xs : List α) :
    (xs.map fun x => (p x).toNat).sum=xs.countP p := by
  induction xs with
  | nil => rfl
  | cons x xs ih =>
    rw [map_cons,sum_cons,ih,countP_cons]
    cases p x with
    | false => simp
    | true => simp [add_comm]

theorem countP_le_sum {p : α → Bool} {f : α → Nat} (h : ∀ x, p x=true → 0<f x) (xs : List α) :
    xs.countP p≤(xs.map f).sum := by
  induction xs with
  | nil => exact le_refl 0
  | cons x xs ih =>
    rw [map_cons,sum_cons,countP_cons]
    split
    case isTrue hx =>
      have := h x hx
      omega
    case isFalse => omega

end Packetio.Lib

import Mathlib.Algebra.Order.BigOperators.Group.List
import Mathlib.Data.Multiset.OrderedMonoid

/-! Items dealt out in shares without overlap: an item of one share is counted in no
part of the others. -/
namespace Packetio.Lib
open List Multiset
variable {α : Type*}

theorem count_sum_of_share [DecidableEq α] {ms ns : List (Multiset α)}
    (h : List.Forall₂ (· ≤ ·) ms ns)
    (hnd : ns.sum.Nodup) {i : Nat} {m n : Multiset α} (hm : ms[i]? = some m) (hn : ns[i]? = some n)
    {a : α} (ha : a∈n) : ms.sum.count a=m.count a := by
  induction h generalizing i with
  | nil => simp at hm
  | cons hx hxs ih =>
    rw [List.sum_cons] at hnd ⊢
    have hdis := (nodup_add.mp hnd).2.2
    rw [count_add]
    cases i with
    | zero =>
      rw [getElem?_cons_zero,Option.some_inj] at hm hn
      subst hm hn
      have hrest := mem_of_le (Forall₂.sum_le_sum hxs) (a := a)
      rw [count_eq_zero_of_notMem
        (fun hmem => disjoint_left.mp hdis ha (hrest hmem)),add_zero]
    | succ i =>
      rw [getElem?_cons_succ] at hm hn
      have hsum := mem_of_le (le_sum_of_mem (mem_of_getElem? hn)) ha
      rw [ih (nodup_add.mp hnd).2.1 hm hn,count_eq_zero_of_notMem
        (fun hmem => disjoint_left.mp hdis (mem_of_le hx hmem) hsum),zero_add]

theorem pair_le_sum {ms : List (Multiset α)} {i j : Nat} {m n : Multiset α} (hij : i≠j)
    (hm : ms[i]? = some m) (hn : ms[j]? = some n) : m+n ≤ ms.sum := by
  induction ms generalizing i j with
  | nil => simp at hm
  | cons x xs ih =>
    cases i with
    | zero =>
      cases j with
      | zero => exact absurd rfl hij
      | succ j =>
        rw [getElem?_cons_zero,Option.some_inj] at hm
        exact add_le_add (le_of_eq hm.symm) (le_sum_of_mem (mem_of_getElem? hn))
    | succ i =>
      cases j with
      | zero =>
        rw [getElem?_cons_zero,Option.some_inj] at hn
        rw [add_comm]
        exact add_le_add (le_of_eq hn.symm) (le_sum_of_mem (mem_of_getElem? hm))
      | succ j => exact (ih (by omega) hm hn).trans (le_add_left _ _)

end Packetio.Lib

import Mathlib.Data.List.Count

/-! Updates of a map that are owed: issued in one order, each by some thread, and made in
another. Updates of different places do not see each other's order. -/
namespace Packetio.Lib
open List Function

section
variable {α β : Type*} [DecidableEq α]

def updates (m : α → β) : List (α × β) → α → β
  | [] => m
  | u::us => updates (Function.update m u.1 u.2) us

theorem updates_append (m : α → β) (xs ys : List (α × β)) :
    updates m (xs++ys)=updates (updates m xs) ys := by
  induction xs generalizing m with
  | nil => rfl
  | cons x xs ih => rw [cons_append,updates,ih,updates]

theorem updates_ahead (m : α → β) {u : α × β} {xs : List (α × β)} (h : ∀ x∈xs, x.1≠u.1)
    (ys : List (α × β)) : updates m (xs++u::ys)=updates (Function.update m u.1 u.2) (xs++ys) := by
  induction xs generalizing m with
  | nil => rfl
  | cons x xs ih =>
    rw [cons_append,updates,ih _ fun y hy => h y (mem_cons_of_mem x hy),
      update_comm (h x mem_cons_self),cons_append,updates]

end

section
variable {ι δ : Type*} [DecidableEq ι] [BEq δ] [LawfulBEq δ] {pending : List (ι × δ)}
  {due : ι → List δ}

def Owed (pending : List (ι × δ)) (due : ι → List δ) : Prop :=
  ∀ i d, pending.count (i,d)=(due i).count d

theorem Owed.nil (h : Owed pending due) (hdue : ∀ i, due i = []) : pending = [] := by
  refine eq_nil_iff_forall_not_mem.mpr fun x hx => ?_
  have hpos := count_pos_iff.mpr hx
  rw [h x.1 x.2,hdue,count_nil] at hpos
  exact Nat.lt_irrefl 0 hpos

theorem count_map_own (i j : ι) (ds : List δ) (d : δ) :
    (ds.map (i,·)).count (j,d)=if j=i then ds.count d else 0 := by
  split
  case isTrue hj =>
    rw [hj]
    exact count_map_of_injective ds _ (fun _ _ hxy => (Prod.mk.inj hxy).2) d
  rename_i hj
  rw [count_eq_zero]
  intro hmem
  obtain ⟨x,-,hx⟩ := mem_map.mp hmem
  exact hj (congrArg Prod.fst hx).symm

theorem Owed.issue {i : ι} (h : Owed pending due) (hi : due i = []) (ds : List δ) :
    Owed (pending++ds.map (i,·)) (Function.update due i ds) := by
  intro j d
  rw [count_append,h j d,count_map_own]
  split
  case isTrue hj => rw [hj,hi,count_nil,Nat.zero_add,update_self]
  case isFalse hj => rw [update_of_ne hj,Nat.add_zero]

theorem Owed.make {i : ι} {d : δ} {ds : List δ} (h : Owed pending due) (hi : due i=d::ds) :
    Owed (pending.erase (i,d)) (Function.update due i ds) := by
  intro j e
  rw [count_erase,h j e]
  by_cases hj : j=i
  · have hsame : ((i,d) == (j,e))=(d == e) := by
      simp [hj]
    rw [hsame,hj,hi,update_self,count_cons,Nat.add_sub_cancel]
  · rw [update_of_ne hj,if_neg (by simp [Ne.symm hj]),Nat.sub_zero]

end

end Packetio.Lib

import Mathlib.Algebra.BigOperators.Group.List.Basic
import Mathlib.Tactic.Abel

/-! Replacing one element of a list: what becomes of a sum over the list and of a
relation that holds element by element. Elements with names of their own are found
where they are. -/
namespace Packetio.Lib
open List Option

section
variable {α β : Type*} {l : List α} {i : Nat} {a b : α} {l' : List β} {b' : β} {f : α → β}
  {R : α → β → Prop}

theorem sum_map_set {M : Type*} [AddCommMonoid M] (f : α → M) (h : l[i]? = some a) :
    ((l.set i b).map f).sum+f a=(l.map f).sum+f b := by
  induction l generalizing i with
  | nil => simp at h
  | cons x xs ih =>
    cases i with
    | zero =>
      rw [getElem?_cons_zero,some_inj] at h
      simp only [h,set_cons_zero,map_cons,sum_cons]
      rw [add_comm (f b),add_assoc,add_comm (f b),← add_assoc,add_comm _ (f a)]
    | succ i =>
      simp only [set_cons_succ,map_cons,sum_cons]
      rw [add_assoc,ih h,add_assoc]

theorem sum_map_set_trade {M : Type*} [AddCancelCommMonoid M] (f : α → M) (h : l[i]? = some a)
    {gives takes : M} (hmove : f b+gives=f a+takes) (rest : M) :
    ((l.set i b).map f).sum+(rest+gives)=(l.map f).sum+(rest+takes) := by
  refine add_right_cancel (b := f a) ?_
  calc ((l.set i b).map f).sum+(rest+gives)+f a
      = ((l.set i b).map f).sum+f a+(rest+gives) := by abel
    _=(l.map f).sum+f b+(rest+gives) := by rw [sum_map_set f h]
    _=(l.map f).sum+(rest+(f b+gives)) := by abel
    _=(l.map f).sum+(rest+takes)+f a := by rw [hmove]; abel

theorem forall₂_set (h : List.Forall₂ R l l') (hb : R b b') :
    List.Forall₂ R (l.set i b) (l'.set i b') := by
  induction h generalizing i with
  | nil => exact .nil
  | cons hx hxs ih =>
    cases i with
    | zero => exact .cons hb hxs
    | succ i => exact .cons hx ih

theorem forall₂_set_left (h : List.Forall₂ R l l')
    (hi : l'[i]? = some b') (hb : R b b') : List.Forall₂ R (l.set i b) l' := by
  induction h generalizing i with
  | nil => exact .nil
  | cons hx hxs ih =>
    cases i with
    | zero =>
      rw [getElem?_cons_zero,some_inj] at hi
      exact .cons (hi ▸ hb) hxs
    | succ i => exact .cons hx (ih (by rwa [getElem?_cons_succ] at hi))

theorem forall₂_set_imp {S : α → β → Prop} (h : List.Forall₂ R l l')
    (hi : l'[i]? = some b') (hb : S b b')
    (himp : ∀ (j : Nat) x x', j≠i → l[j]? = some x → R x x' → S x x') :
    List.Forall₂ S (l.set i b) l' := by
  rw [forall₂_iff_get] at h ⊢
  refine ⟨by rw [length_set,h.1],fun j hj hj' => ?_⟩
  rw [length_set] at hj
  simp only [get_eq_getElem,getElem_set]
  split
  case isTrue hij =>
    subst hij
    rw [getElem?_eq_getElem hj',some_inj] at hi
    exact hi ▸ hb
  case isFalse hij => exact himp j _ _ (Ne.symm hij) (getElem?_eq_getElem hj) (h.2 j hj hj')

theorem forall₂_get (h : List.Forall₂ R l l') (hi : l[i]? = some a) :
    ∃ b', l'[i]? = some b' ∧ R a b' := by
  induction h generalizing i with
  | nil => simp at hi
  | cons hx hxs ih =>
    cases i with
    | zero =>
      rw [getElem?_cons_zero,some_inj] at hi
      exact ⟨_,getElem?_cons_zero,hi ▸ hx⟩
    | succ i => exact ih hi

theorem map_eq_of_forall₂ {γ : Type*} {f : α → γ} {g : β → γ}
    (h : List.Forall₂ R l l') (hfg : ∀ x y, R x y → f x=g y) : l.map f=l'.map g := by
  induction h with
  | nil => rfl
  | cons hxy _ ih => rw [map_cons,map_cons,hfg _ _ hxy,ih]

theorem map_set_eq (h : l[i]? = some a) (hb : f b=f a) : (l.set i b).map f=l.map f := by
  rw [map_set,hb]
  refine ext_getElem? fun j => ?_
  rw [getElem?_set]
  split
  case isTrue hij =>
    have hi := (List.getElem?_eq_some_iff.mp h).1
    rw [← hij,length_map,if_pos hi,getElem?_map,h,map_some]
  case isFalse => rfl

theorem findIdx?_name [DecidableEq β] (hnd : (l.map f).Nodup) (h : l[i]? = some a) :
    (l.findIdx? fun x => f x == f a)=some i := by
  obtain ⟨hi,ha⟩ := List.getElem?_eq_some_iff.mp h
  rw [findIdx?_eq_some_iff_getElem]
  refine ⟨hi,by rw [ha,beq_self_eq_true],fun j hj heq => ?_⟩
  have hlt : j<l.length := by omega
  have hsame : (l.map f)[j]? = (l.map f)[i]? := by
    rw [getElem?_map,getElem?_map,h,getElem?_eq_getElem hlt,map_some,map_some,beq_iff_eq.mp heq]
  have hji := (getElem?_inj (by rwa [length_map]) hnd).mp hsame
  omega

end

end Packetio.Lib

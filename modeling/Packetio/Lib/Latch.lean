import Packetio.Lib.Update

/-! Parts that latch an event each: once a part has one it keeps it, and what is read
over all the parts stays as well. -/
namespace Packetio.Lib
open List
variable {α ε : Type*} {f : α → Option ε} {xs ys zs : List α}

def Latched (f : α → Option ε) (xs ys : List α) : Prop :=
  List.Forall₂ (fun x y => ∀ e, f x=some e → f y=some e) xs ys

theorem Latched.refl (xs : List α) : Latched f xs xs := forall₂_same.mpr fun _ _ _ he => he

theorem Latched.trans (h : Latched f xs ys) (h' : Latched f ys zs) : Latched f xs zs := by
  induction h generalizing zs with
  | nil => exact h'
  | cons hx _ ih =>
    cases h' with
    | cons hy hys => exact .cons (fun e he => hy e (hx e he)) (ih hys)

theorem Latched.map {g : α → α} (hg : ∀ x e, f x=some e → f (g x)=some e) (xs : List α) :
    Latched f xs (xs.map g) :=
  forall₂_map_right_iff.mpr (forall₂_same.mpr fun x _ => hg x)

theorem Latched.set {i : Nat} {x y : α} (hi : xs[i]? = some x) (h : ∀ e, f x=some e → f y=some e) :
    Latched f xs (xs.set i y) := by
  have hsame : List.Forall₂ (fun y x => ∀ e, f x=some e → f y=some e) xs xs :=
    forall₂_same.mpr fun _ _ _ he => he
  exact (forall₂_set_left hsame hi h).flip

theorem Latched.get {i : Nat} {x : α} (h : Latched f xs ys) (hi : xs[i]? = some x) {e : ε}
    (he : f x=some e) : ∃ y, ys[i]? = some y ∧ f y=some e := by
  obtain ⟨y,hy,hlatch⟩ := forall₂_get h hi
  exact ⟨y,hy,hlatch e he⟩

theorem Latched.findSome (h : Latched f xs ys) (hx : xs.findSome? f≠none) :
    ys.findSome? f≠none := by
  obtain ⟨e,he⟩ := Option.ne_none_iff_exists'.mp hx
  obtain ⟨x,hmem,hx⟩ := exists_of_findSome?_eq_some he
  obtain ⟨i,hi⟩ := mem_iff_getElem?.mp hmem
  obtain ⟨y,hy,hye⟩ := h.get hi hx
  intro hnone
  rw [findSome?_eq_none_iff.mp hnone y (mem_of_getElem? hy)] at hye
  cases hye

end Packetio.Lib

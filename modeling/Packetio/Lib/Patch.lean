import Mathlib.Data.List.Basic

/-! A few items of a list written over others, as fields are in a header. -/
namespace Packetio.Lib
open List
variable {α : Type*} {a b xs ys : List α} {off i : Nat}

def patch (b : List α) (off : Nat) (xs : List α) : List α :=
  b.take off++xs++b.drop (off+xs.length)

theorem patch_length (h : off+xs.length≤b.length) : (patch b off xs).length=b.length := by
  rw [patch,length_append,length_append,length_take,length_drop]
  omega

theorem patch_append (h : off+xs.length≤a.length) : patch (a++b) off xs=patch a off xs++b := by
  rw [patch,patch,take_append_of_le_length (by omega),drop_append_of_le_length h,
    append_assoc _ _ b]

theorem patch_append_right (h : a.length=i) : patch (a++b) (i+off) xs=a++patch b off xs := by
  subst h
  rw [patch,patch,take_length_add_append,Nat.add_assoc,drop_length_add_append,
    append_assoc,append_assoc,append_assoc]

theorem patch_front : patch b 0 xs=xs++b.drop xs.length := by
  rw [patch,take_zero,nil_append,Nat.zero_add]

section
variable (h : off+xs.length≤b.length)
include h

theorem patch_patch (hlen : ys.length=xs.length) :
    patch (patch b off xs) off ys=patch b off ys := by
  have hoff : (b.take off).length=off := by
    rw [length_take]
    omega
  have htake : (patch b off xs).take off=b.take off := by
    rw [patch,append_assoc]
    exact take_left' hoff
  have hdrop : (patch b off xs).drop (off+xs.length)=b.drop (off+xs.length) := by
    exact drop_left' (by rw [length_append,hoff])
  rw [patch,htake,hlen,hdrop,patch,hlen]

theorem patch_back (hlen : ys.length=xs.length) :
    patch (patch (patch b off xs) off ys) off xs=patch b off xs := by
  have hback : off+ys.length≤b.length := by omega
  rw [patch_patch h hlen,patch_patch hback hlen.symm]

theorem patch_outside (hi : i<off ∨ off+xs.length ≤ i) : (patch b off xs)[i]? = b[i]? := by
  have hoff : (b.take off).length=off := by
    rw [length_take]
    omega
  rcases hi with hi | hi
  · rw [patch,append_assoc,getElem?_append_left (by omega),getElem?_take_of_lt hi]
  rw [patch,getElem?_append_right (by rw [length_append]; omega),length_append,
    hoff,getElem?_drop]
  congr 1
  omega

theorem patch_drop (hi : off+xs.length ≤ i) : (patch b off xs).drop i=b.drop i := by
  refine ext_getElem? fun j => ?_
  rw [getElem?_drop,getElem?_drop,patch_outside h (.inr (by omega))]

theorem patch_inside (hi : i<xs.length) : (patch b off xs)[off+i]? = xs[i]? := by
  have hoff : (b.take off).length=off := by
    rw [length_take]
    omega
  rw [patch,append_assoc,getElem?_append_right (by omega),hoff,Nat.add_sub_cancel_left,
    getElem?_append_left hi]

end

theorem patch_comm {off' : Nat} (h : off+xs.length≤off') (h' : off'+ys.length≤b.length) :
    patch (patch b off xs) off' ys=patch (patch b off' ys) off xs := by
  have hx : off+xs.length≤b.length := by omega
  have hxl := patch_length hx
  have hyl := patch_length h'
  refine ext_getElem? fun i => ?_
  by_cases hi : off ≤ i ∧ i<off+xs.length
  · obtain ⟨k,rfl⟩ := Nat.exists_eq_add_of_le hi.1
    rw [patch_outside (by omega) (.inl (by omega)),patch_inside hx (by omega),
      patch_inside (by omega) (by omega)]
  rw [patch_outside (b := patch b off' ys) (by omega) (by omega)]
  by_cases hi' : off' ≤ i ∧ i<off'+ys.length
  · obtain ⟨k,rfl⟩ := Nat.exists_eq_add_of_le hi'.1
    rw [patch_inside (by omega) (by omega),patch_inside h' (by omega)]
  · rw [patch_outside (by omega) (by omega),patch_outside hx (by omega),
      patch_outside h' (by omega)]

end Packetio.Lib

import Packetio.Lib.Counter

/-! Rings of `size` cells indexed by free-running counts. `Cells` is a queue in
such a ring. `LapRing` is one that a writer and a reader use with no shared
index: every cell carries an owner bit, the parity of the lap it was written on,
and the reader takes a cell only when the bit is that of its own lap. -/
namespace Packetio.Lib
open List
variable {α : Type*} {size rd wr : Nat} {mem : Nat → α} {items : List α}

/-- `items` lie in the ring from count `rd` on. -/
def Cells (size : Nat) (mem : Nat → α) (rd : Nat) (items : List α) : Prop :=
  ∀ j (h : j < items.length), mem ((rd+j)%size)=items[j]

theorem Cells.nil : Cells size mem rd [] := nofun

theorem Cells.push (h : Cells size mem rd items) (hroom : items.length<size) (x : α) :
    Cells size (Function.update mem ((rd+items.length)%size) x) rd (items++[x]) := by
  intro j hj
  rw [length_append,length_singleton] at hj
  by_cases hl : j < items.length
  · have hne := mod_ne_of_near size (rd+j) (rd+items.length) (by omega) (by omega)
    rw [Function.update_of_ne hne,h j hl,getElem_append_left hl]
  have he : j=items.length := by omega
  subst he
  simp

theorem Cells.drop (h : Cells size mem rd items) (n : Nat) :
    Cells size mem (rd+n) (items.drop n) := by
  intro j hj
  rw [length_drop] at hj
  rw [add_assoc,h (n+j) (by omega),getElem_drop]

/-- The cell content `x` is ready for a reader at count `j`. -/
def Ready (size : Nat) (valid : α → Prop) (owner : α → Nat) (j : Nat) (x : α) : Prop :=
  valid x ∧ owner x=j/size%2

theorem not_ready_next_lap {size : Nat} (hs : 0<size) {valid : α → Prop} {owner : α → Nat}
    {j : Nat} {x : α} (h : Ready size valid owner j x) : ¬ Ready size valid owner (j+size) x := by
  rintro ⟨-,ho⟩
  have h1 := h.2
  rw [Nat.add_div_right j hs] at ho
  omega

structure LapRing (size : Nat) (valid : α → Prop) (owner : α → Nat)
    (mem : Nat → α) (rd wr : Nat) (items : List α) : Prop where
  count : wr=rd+items.length
  cell : Cells size mem rd items
  ready : ∀ j (h : j < items.length), Ready size valid owner (rd+j) items[j]
  blank : ∀ j, wr≤j → j<wr+size → ¬ Ready size valid owner j (mem (j%size))

namespace LapRing
variable {valid : α → Prop} {owner : α → Nat}

theorem empty (h : ∀ j, ¬ valid (mem j)) : LapRing size valid owner mem 0 0 [] where
  count := rfl
  cell := Cells.nil
  ready j hj := by simp at hj
  blank j _ _ hr := h _ hr.1

section
variable (h : LapRing size valid owner mem rd wr items)
include h

theorem write (hroom : items.length<size) {x : α} (hx : Ready size valid owner wr x) :
    LapRing size valid owner (Function.update mem (wr%size) x) rd (wr+1) (items++[x]) where
  count := by simp [h.count]; omega
  cell := by
    rw [h.count]
    exact h.cell.push hroom x
  ready j hj := by
    have hc := h.count
    rw [length_append,length_singleton] at hj
    by_cases hl : j < items.length
    · rw [getElem_append_left hl]
      exact h.ready j hl
    have he : j=items.length := by omega
    subst he
    rw [← hc]
    simpa using hx
  blank j hj hj' := by
    by_cases hlap : j=wr+size
    · -- the cell just written, one lap on
      rw [hlap,Nat.add_mod_right,Function.update_self]
      exact not_ready_next_lap (by omega) hx
    have hne := mod_ne_of_near size wr j (by omega) (by omega)
    rw [Function.update_of_ne hne.symm]
    exact h.blank j (by omega) (by omega)

theorem read (n : Nat) (hn : n ≤ items.length) :
    LapRing size valid owner mem (rd+n) wr (items.drop n) where
  count := by have := h.count; simp; omega
  cell := h.cell.drop n
  ready j hj := by
    rw [length_drop] at hj
    rw [add_assoc,getElem_drop]
    exact h.ready (n+j) (by omega)
  blank := h.blank

theorem stop (hs : 0<size) :
    ¬ Ready size valid owner (rd+items.length) (mem ((rd+items.length)%size)) := by
  rw [← h.count]
  exact h.blank wr (le_refl wr) (by omega)

end

end LapRing
end Packetio.Lib

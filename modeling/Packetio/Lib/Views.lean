import Mathlib.Data.List.Basic
import Mathlib.Algebra.Ring.Nat

/-! Views into arrays that grow: a start, a length and a capacity. Appending writes behind
the view when its capacity allows it, and moves the view to a new array when not. -/
namespace Packetio.Lib
open List

structure View where
  array : Nat
  start : Nat
  len : Nat
  cap : Nat
  deriving DecidableEq, Repr

namespace View

def none : View := ⟨0,0,0,0⟩

/-- The first `n`, with no room behind them. -/
def upTo (v : View) (n : Nat) : View := { v with len := n, cap := n }

/-- All but the first `n`. -/
def beyond (v : View) (n : Nat) : View := ⟨v.array,v.start+n,v.len-n,v.cap-n⟩

def cleared (v : View) : View := { v with len := 0 }

def Apart (v w : View) : Prop :=
  ∀ i<v.cap, ∀ j<w.cap, v.array=w.array → v.start+i≠w.start+j

/-- Cells of `w`. -/
def Part (v w : View) : Prop :=
  v.array=w.array ∧ w.start≤v.start ∧ v.start+v.cap≤w.start+w.cap

variable {u v w : View} {n : Nat}

theorem Apart.symm (h : v.Apart w) : w.Apart v := fun i hi j hj he hs => h j hj i hi he.symm hs.symm

theorem Apart.part (h : v.Apart w) (hp : u.Part w) : v.Apart u := by
  obtain ⟨ha,hlo,hhi⟩ := hp
  intro i hi j hj he hs
  exact h i hi (u.start-w.start+j) (by omega) (he.trans ha) (by omega)

theorem apart_of_cap (h : v.cap=0) (w : View) : v.Apart w := fun i hi => absurd hi (by omega)

theorem upTo_part (h : n≤v.cap) : (v.upTo n).Part v := ⟨rfl,le_refl _,Nat.add_le_add_left h _⟩

theorem beyond_part (h : n≤v.cap) : (v.beyond n).Part v := by
  refine ⟨rfl,Nat.le_add_right _ _,?_⟩
  change v.start+n+(v.cap-n)≤v.start+v.cap
  omega

theorem beyond_apart_upTo (v : View) (n : Nat) : (v.beyond n).Apart (v.upTo n) := by
  intro i _ j hj _
  change j<n at hj
  change v.start+n+i≠v.start+j
  omega

end View

structure Arrays (α : Type*) where
  cell : Nat → Nat → α
  made : Nat

namespace Arrays
variable {α : Type*} {m m' : Arrays α} {u v v' w : View} {xs ys : List α} {spare : Nat → Nat → Nat}

def read (m : Arrays α) (v : View) : List α :=
    (List.range v.len).map fun i => m.cell v.array (v.start+i)

/-- Cells of an array from `pos` on. -/
def put (m : Arrays α) (a pos : Nat) (xs : List α) : Arrays α := { m with
  cell := fun b i => if b=a ∧ pos ≤ i then (xs[i-pos]?).getD (m.cell b i) else m.cell b i }

/-- `spare` says how much room a new array has behind what is in it, given the capacity of
the old one and the length. -/
def append (spare : Nat → Nat → Nat) (m : Arrays α) (v : View) (xs : List α) : Arrays α × View :=
  if v.len+xs.length≤v.cap then
    (m.put v.array (v.start+v.len) xs,{ v with len := v.len+xs.length })
  else
    let len := v.len+xs.length
    ({ m with made := m.made+1 }.put m.made 0 (m.read v++xs),⟨m.made,0,len,len+spare v.cap len⟩)

def appendEach (spare : Nat → Nat → Nat) (m : Arrays α) (v : View) : List α → Arrays α × View
  | [] => (m,v)
  | x::xs =>
    let r := m.append spare v [x]
    r.1.appendEach spare r.2 xs

structure Within (m : Arrays α) (v : View) : Prop where
  len : v.len≤v.cap
  array : 0<v.cap → v.array < m.made

theorem Within.mono (h : m.Within v) (hm : m.made ≤ m'.made) : m'.Within v :=
  ⟨h.len,fun hc => lt_of_lt_of_le (h.array hc) hm⟩

theorem Within.upTo (h : m.Within v) {n : Nat} (hn : n≤v.cap) : m.Within (v.upTo n) :=
  ⟨le_refl _,fun hc => h.array (lt_of_lt_of_le hc hn)⟩

theorem Within.beyond (h : m.Within v) (n : Nat) : m.Within (v.beyond n) := by
  refine ⟨Nat.sub_le_sub_right h.len n,fun hc => h.array ?_⟩
  exact lt_of_lt_of_le hc (Nat.sub_le _ _)

theorem Within.cleared (h : m.Within v) : m.Within v.cleared := ⟨Nat.zero_le _,h.array⟩

@[simp] theorem read_length (m : Arrays α) (v : View) : (m.read v).length = v.len := by
  rw [read,length_map,length_range]

theorem read_upTo_beyond {n : Nat} (h : n≤v.len) :
    m.read (v.upTo n)++m.read (v.beyond n)=m.read v := by
  have hlen : v.len=n+(v.len-n) := by omega
  rw [read,read,read,hlen,range_add,map_append,map_map,View.upTo,View.beyond]
  congr 1
  refine map_congr_left fun i _ => ?_
  rw [Function.comp_apply,add_assoc]

theorem put_outside {a pos b i : Nat} (h : b=a → i<pos ∨ pos+xs.length ≤ i) :
    (m.put a pos xs).cell b i=m.cell b i := by
  rw [put]
  dsimp only
  split
  case isTrue hin =>
    have hlen : xs.length ≤ i-pos := by omega
    rw [getElem?_eq_none hlen,Option.getD_none]
  case isFalse => rfl

theorem read_congr (h : ∀ i<v.len, m'.cell v.array (v.start+i)=m.cell v.array (v.start+i)) :
    m'.read v=m.read v :=
  map_congr_left fun i hi => h i (mem_range.mp hi)

theorem read_put {pos : Nat} (hw : w.len≤w.cap) (h : w.Apart v) (hpos : pos+xs.length≤v.cap) :
    (m.put v.array (v.start+pos) xs).read w=m.read w := by
  refine read_congr fun i hi => put_outside fun he => ?_
  by_contra hin
  push Not at hin
  exact h i (by omega) (w.start+i-v.start) (by omega) he (by omega)

theorem put_inside (m : Arrays α) (a pos : Nat) (xs : List α) :
    ((List.range xs.length).map fun i => (m.put a pos xs).cell a (pos+i))=xs := by
  refine ext_getElem (by simp) fun i hi hi' => ?_
  rw [getElem_map,getElem_range,put]
  simp [hi']

structure Appended (m : Arrays α) (v : View) (xs : List α) (m' : Arrays α) (v' : View) : Prop where
  within : m'.Within v'
  read : m'.read v'=m.read v++xs
  made : m.made ≤ m'.made
  apart : ∀ w, m.Within w → w.Apart v → m'.read w=m.read w ∧ w.Apart v'

theorem Appended.trans {m1 : Arrays α} {v1 : View} (h : m.Appended v xs m1 v1)
    (h' : m1.Appended v1 ys m' v') : m.Appended v (xs++ys) m' v' := by
  refine ⟨h'.within,?_,le_trans h.made h'.made,fun w hw ha => ?_⟩
  · rw [h'.read,h.read,append_assoc]
  · obtain ⟨hr,ha1⟩ := h.apart w hw ha
    obtain ⟨hr',ha'⟩ := h'.apart w (hw.mono h.made) ha1
    exact ⟨hr'.trans hr,ha'⟩

section
variable (spare : Nat → Nat → Nat) (hv : m.Within v) (xs : List α)
include hv

theorem append_spec : m.Appended v xs (m.append spare v xs).1 (m.append spare v xs).2 := by
  rw [append]
  split
  case isTrue hroom =>
    refine ⟨⟨hroom,hv.array⟩,?_,le_refl _,fun w hw ha => ⟨read_put hw.len ha hroom,ha⟩⟩
    change map _ (range (v.len+xs.length))=_
    rw [range_add,map_append,map_map]
    congr 1
    · refine map_congr_left fun i hi => put_outside fun _ => .inl ?_
      exact Nat.add_lt_add_left (mem_range.mp hi) _
    · refine Eq.trans (map_congr_left fun i _ => ?_) (put_inside m v.array (v.start+v.len) xs)
      rw [Function.comp_apply,add_assoc]
  have hlen : v.len+xs.length=(m.read v++xs).length := by rw [length_append,read_length]
  -- the cells of a new array are of no view that there was
  have hnew : ∀ w, m.Within w → 0<w.cap → w.array≠m.made := fun w hw hc => ne_of_lt (hw.array hc)
  refine ⟨⟨Nat.le_add_right _ _,fun _ => Nat.lt_succ_self _⟩,?_,Nat.le_succ _,fun w hw _ => ⟨?_,?_⟩⟩
  · rw [hlen]
    exact put_inside _ m.made 0 (m.read v++xs)
  · refine read_congr fun i hi => put_outside fun he => ?_
    exact absurd he (hnew w hw (by have := hw.len; omega))
  · intro i hi j _ he
    exact absurd he (hnew w hw (by omega))

theorem appendEach_spec :
    m.Appended v xs (m.appendEach spare v xs).1 (m.appendEach spare v xs).2 := by
  induction xs generalizing m v with
  | nil => exact ⟨hv,(append_nil _).symm,le_refl _,fun w _ ha => ⟨rfl,ha⟩⟩
  | cons x xs ih =>
    have hx := append_spec spare hv [x]
    exact hx.trans (ih hx.within)

end

end Arrays

end Packetio.Lib

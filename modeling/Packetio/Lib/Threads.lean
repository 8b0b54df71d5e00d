import Mathlib.Logic.Function.Basic
import Mathlib.Logic.Relation

/-! Threads that share a state. A step is a step of one of them and changes its own state
and the shared one; a run is any interleaving of such steps. -/
namespace Packetio.Lib
variable {ι τ σ : Type*}

structure Threads (ι τ σ : Type*) where
  own : ι → τ
  shared : σ

variable {step : ι → τ → σ → τ → σ → Prop} {t' : τ}

namespace Threads
variable [DecidableEq ι] {c c' : Threads ι τ σ} {i j : ι} {t : τ} {s : σ}

/-- Thread `i` has moved. -/
def move (c : Threads ι τ σ) (i : ι) (t : τ) (s : σ) : Threads ι τ σ :=
  ⟨Function.update c.own i t,s⟩

@[simp]
theorem move_shared : (c.move i t s).shared=s := rfl

@[simp]
theorem move_own : (c.move i t s).own i=t := Function.update_self _ _ _

theorem move_other (h : j≠i) : (c.move i t s).own j=c.own j := Function.update_of_ne h _ _

theorem move_move {s' : σ} : (c.move i t s).move i t' s'=c.move i t' s' := by
  rw [move,move,move,Function.update_idem]

inductive Step (step : ι → τ → σ → τ → σ → Prop) (c : Threads ι τ σ) : Threads ι τ σ → Prop
  | of {i : ι} {t : τ} {s : σ} (h : step i (c.own i) c.shared t s) : Step step c (c.move i t s)

def Run (step : ι → τ → σ → τ → σ → Prop) : Threads ι τ σ → Threads ι τ σ → Prop :=
  Relation.ReflTransGen (Step step)

theorem Run.on {s' : σ}
    (h : Run step c (c'.move i t s)) (hs : step i t s t' s') : Run step c (c'.move i t' s') := by
  rw [← move_move]
  exact h.tail (.of (by rwa [move_own,move_shared]))

theorem Run.next {t : τ} (h : Run step c c')
    (hi : c'.own i=t) (hs : step i t c'.shared t' s) : Run step c (c'.move i t' s) := by
  subst hi
  exact h.tail (.of hs)

theorem Run.invariant {I : Threads ι τ σ → Prop}
    (hstep : ∀ c i t s, I c → step i (c.own i) c.shared t s → I (c.move i t s))
    (h : Run step c c') (hc : I c) : I c' := by
  induction h with
  | refl => exact hc
  | tail _ hs ih =>
    cases hs with
    | of hs => exact hstep _ _ _ _ ih hs

theorem forall_move {P : ι → τ → Prop} (hi : P i t) (hj : ∀ j≠i, P j (c.own j)) :
    ∀ j, P j ((c.move i t s).own j) := by
  intro j
  by_cases h : j=i
  · rwa [h,move_own]
  · rw [move_other h]
    exact hj j h

/-! The lock -/

inductive LockStep (i : ι) : Option ι → Bool → Option ι → Bool → Prop
  | keep (l : Option ι) (b : Bool) : LockStep i l b l b
  | take : LockStep i none false (some i) true
  | give : LockStep i (some i) true none false

def Locked (lock : σ → Option ι) (holds : τ → Bool) (c : Threads ι τ σ) : Prop :=
  ∀ i, lock c.shared=some i ↔ holds (c.own i)=true

variable {lock : σ → Option ι} {holds : τ → Bool}

theorem Locked.move (h : Locked lock holds c)
    (hs : LockStep i (lock c.shared) (holds (c.own i)) (lock s) (holds t)) :
    Locked lock holds (c.move i t s) := by
  intro j
  rw [move_shared]
  generalize hl : lock c.shared=l at hs
  generalize hb : holds (c.own i)=b at hs
  generalize hl' : lock s=l' at hs
  generalize hb' : holds t=b' at hs
  by_cases hj : j=i
  · rw [hj,move_own,hb']
    cases hs with
    | keep => rw [← hl,← hb]; exact h i
    | take | give => simp
  rw [move_other hj,← h j,hl]
  cases hs with
  | keep => rfl
  | take | give => simp [Ne.symm hj]

omit [DecidableEq ι] in
theorem Locked.unique (h : Locked lock holds c) (hi : holds (c.own i)=true)
    (hj : holds (c.own j)=true) : j=i := by
  have := (h i).mpr hi
  rw [(h j).mpr hj] at this
  exact Option.some_inj.mp this

end Threads

end Packetio.Lib

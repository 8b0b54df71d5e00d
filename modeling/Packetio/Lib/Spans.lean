import Mathlib.Algebra.Ring.Nat
import Mathlib.Data.List.Forall2

/-! Numbers dealt out in runs: one run of each of the given lengths, laid end to end, and
the ones that are left over go to the first runs. -/
namespace Packetio.Lib
open List

def spans : Nat → List Nat → List (Nat × Nat)
  | _, [] => []
  | first, n::ns => (first,n)::spans (first+n) ns

/-- One more for each of the first `extra`. -/
def topUp : Nat → List Nat → List Nat
  | _, [] => []
  | extra, n::ns => (if 0<extra then n+1 else n)::topUp (extra-1) ns

theorem spans_lengths (first : Nat) (ns : List Nat) : (spans first ns).map Prod.snd=ns := by
  induction ns generalizing first with
  | nil => rfl
  | cons n ns ih => rw [spans,map_cons,ih]

theorem spans_length (first : Nat) (ns : List Nat) : (spans first ns).length=ns.length := by
  rw [← length_map Prod.snd,spans_lengths]

theorem spans_append (first : Nat) (ms ns : List Nat) :
    spans first (ms++ns)=spans first ms++spans (first+ms.sum) ns := by
  induction ms generalizing first with
  | nil => rfl
  | cons m ms ih => rw [cons_append,spans,spans,ih,sum_cons,add_assoc,cons_append]

theorem spans_bounds {first : Nat} {ns : List Nat} {x : Nat × Nat} (hx : x∈spans first ns) :
    first≤x.1 ∧ x.1+x.2≤first+ns.sum := by
  induction ns generalizing first with
  | nil => cases hx
  | cons n ns ih =>
    rw [sum_cons]
    cases mem_cons.mp hx with
    | inl hx =>
      rw [hx]
      omega
    | inr hx =>
      have := ih hx
      omega

theorem spans_apart (first : Nat) (ns : List Nat) :
    (spans first ns).Pairwise fun x y => x.1+x.2≤y.1 := by
  induction ns generalizing first with
  | nil => exact .nil
  | cons n ns ih => exact .cons (fun y hy => (spans_bounds hy).1) (ih (first+n))

theorem topUp_length (extra : Nat) (ns : List Nat) : (topUp extra ns).length=ns.length := by
  induction ns generalizing extra with
  | nil => rfl
  | cons n ns ih => rw [topUp,length_cons,length_cons,ih]

theorem topUp_sum (extra : Nat) (ns : List Nat) :
    (topUp extra ns).sum=ns.sum+min extra ns.length := by
  induction ns generalizing extra with
  | nil => simp [topUp]
  | cons n ns ih =>
    rw [topUp,sum_cons,sum_cons,length_cons,ih]
    split <;> omega

theorem topUp_sum_replicate (extra n count : Nat) :
    (topUp extra (List.replicate count n)).sum=n*count+min extra count := by
  rw [topUp_sum,sum_replicate_nat,length_replicate,mul_comm]

theorem topUp_append (extra : Nat) (ms ns : List Nat) :
    topUp extra (ms++ns)=topUp extra ms++topUp (extra-ms.length) ns := by
  induction ms generalizing extra with
  | nil => rfl
  | cons m ms ih =>
    rw [cons_append,topUp,topUp,ih,length_cons,cons_append,Nat.sub_sub,add_comm 1]

theorem le_of_mem_topUp {extra n count m : Nat} (hm : m∈topUp extra (List.replicate count n)) :
    n ≤ m := by
  induction count generalizing extra with
  | zero => cases hm
  | succ count ih =>
    cases mem_cons.mp hm with
    | inl hm => split at hm <;> omega
    | inr hm => exact ih hm

theorem forall_topUp {extra n count : Nat} {P : Nat → Prop} (hP : P n → P (n+1))
    (hcount : 0<count) :
    (∀ m∈topUp extra (List.replicate count n), P m) ↔ P (if count≤extra then n+1 else n) := by
  induction count generalizing extra with
  | zero => omega
  | succ count ih =>
    rw [replicate_succ,topUp,forall_mem_cons]
    cases count with
    | zero => exact ⟨fun hp => hp.1,fun hp => ⟨hp,nofun⟩⟩
    | succ count =>
      rw [ih (Nat.succ_pos count)]
      by_cases h : count+2≤extra
      · rw [if_pos (by omega),if_pos (by omega),if_pos h]
        exact ⟨fun hp => hp.1,fun hp => ⟨hp,hp⟩⟩
      rw [if_neg (show ¬ count+1≤extra-1 by omega),if_neg h]
      refine ⟨fun hp => hp.2,fun hp => ⟨?_,hp⟩⟩
      split
      · exact hP hp
      · exact hp

end Packetio.Lib

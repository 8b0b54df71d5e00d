import Packetio.Lib.Threads

/-! Processors for workers (internal/affinity, Placement.Pin). A call has a section under the
mutex, the system call, and a second section if that fails; threads are named by their ids. -/
namespace Packetio.Affinity
open Lib List Function
variable {ι : Type} [DecidableEq ι]

structure Placement (ι : Type) where
  cpus : List Nat
  next : Nat := 0
  byTID : ι → Option Nat := fun _ => none
  failed : Nat := 0

inductive Pinning where
  | idle (last : Option Nat)
  /-- At the system call. -/
  | placing (cpu : Nat) (known : Bool) (last : Option Nat)
  /-- The system call has failed. -/
  | failing (cpu : Nat) (known : Bool)

inductive PinStep (i : ι) : Pinning → Placement ι → Pinning → Placement ι → Prop
  | known {last p cpu} (h : p.byTID i=some cpu) :
      PinStep i (.idle last) p (.placing cpu true last) p
  | place {last p cpu} (h : p.byTID i=none) (hnext : p.cpus[p.next]?=some cpu) :
      PinStep i (.idle last) p (.placing cpu false last)
        { p with next := p.next+1, byTID := Function.update p.byTID i (some cpu) }
  | exhausted {last p} (h : p.byTID i=none) (hnext : p.cpus.length≤p.next) :
      PinStep i (.idle last) p (.idle none) p
  | placed {cpu known last p} : PinStep i (.placing cpu known last) p (.idle (some cpu)) p
  | fail {cpu known last p} : PinStep i (.placing cpu known last) p (.failing cpu known) p
  | giveBack {cpu known p} : PinStep i (.failing cpu known) p (.idle none)
      { p with
        byTID := Function.update p.byTID i none
        next := if known then p.next else p.next-1
        failed := p.failed+1 }

def InOrder (i : ι) (t : Pinning) (p : Placement ι) (t' : Pinning) (p' : Placement ι) : Prop :=
  PinStep i t p t' p' ∧ ∀ cpu known, t=.failing cpu known → known=false ∧ p.cpus[p.next-1]?=some cpu

def start (ι : Type) (cpus : List Nat) : Threads ι Pinning (Placement ι) :=
  ⟨fun _ => .idle none,{ cpus }⟩

def Pinning.held : Pinning → Option Nat
  | .idle last => last
  | .placing _ _ last => last
  | .failing _ _ => none

def Pinning.assigning : Pinning → Option Nat
  | .idle _ => none
  | .placing cpu _ _ => some cpu
  | .failing cpu _ => some cpu

def Pinning.Has (t : Pinning) (own : Option Nat) : Prop :=
  match t with
  | .idle last => own=last
  | .placing cpu known last => own=some cpu ∧ last=if known then some cpu else none
  | .failing cpu _ => own=some cpu

structure Deals (m : ι → Option Nat) (xs : List Nat) : Prop where
  all : ∀ x, x∈xs ↔ ∃ i, m i=some x
  once : ∀ i j x, m i=some x → m j=some x → i=j

structure Sound (cpus : List Nat) (c : Threads ι Pinning (Placement ι)) : Prop where
  list : c.shared.cpus=cpus
  own : ∀ i, (c.own i).Has (c.shared.byTID i)
  deals : Deals c.shared.byTID (cpus.take c.shared.next)

variable {t : Pinning} {cpu n : Nat}

theorem Pinning.Has.held {own : Option Nat} (h : t.Has own)
    (hheld : t.held=some cpu) : own=some cpu := by
  cases t with
  | idle last => exact h.trans hheld
  | failing cpu' known => cases hheld
  | placing cpu' known last =>
    obtain ⟨rfl,rfl⟩ := h
    cases known with
    | false => cases hheld
    | true => exact hheld

theorem Pinning.Has.used (h : t.Has (some cpu)) : t.held=some cpu ∨ t.assigning=some cpu := by
  cases t with
  | idle last => exact .inl h.symm
  | failing cpu' known => exact .inr h.symm
  | placing cpu' known last => exact .inr h.1.symm

variable {cpus : List Nat} {c : Threads ι Pinning (Placement ι)} {i : ι} {m : ι → Option Nat}
  {xs : List Nat} {x : Nat} {p : Placement ι}

theorem take_last (h : cpus[n]?=some cpu) : cpus.take (n+1)=cpus.take n++[cpu] := by
  rw [take_add_one,h,Option.toList_some]

theorem not_before (hnd : cpus.Nodup) (h : cpus[n]?=some cpu) : cpu∉cpus.take n := by
  have hnd' := hnd.sublist (take_sublist (n+1) cpus)
  rw [take_last h,nodup_append] at hnd'
  exact fun hmem => hnd'.2.2 cpu hmem cpu (mem_singleton_self _) rfl

theorem Deals.give (h : Deals m xs) (hno : m i=none) (hx : x∉xs) :
    Deals (Function.update m i (some x)) (xs++[x]) := by
  have hcases : ∀ j y, update m i (some x) j=some y ↔ j=i ∧ y=x ∨ m j=some y := by
    intro j y
    by_cases hj : j=i
    · rw [hj,update_self,hno]
      simp [eq_comm]
    · simp [hj]
  constructor
  · intro y
    simp only [mem_append,mem_singleton,h.all y,hcases,exists_or]
    simp [or_comm]
  · intro j k y hj hk
    rw [hcases] at hj hk
    have hfresh : ∀ l, m l≠some x := fun l hl => hx ((h.all x).mpr ⟨l,hl⟩)
    rcases hj with ⟨rfl,rfl⟩ | hj
    · exact (hk.resolve_right (hfresh k)).1.symm
    · rcases hk with ⟨rfl,rfl⟩ | hk
      · exact absurd hj (hfresh j)
      · exact h.once j k y hj hk

theorem Deals.takeBack (h : Deals m (xs++[x])) (hi : m i=some x) (hx : x∉xs) :
    Deals (Function.update m i none) xs := by
  have hcases : ∀ j y, update m i none j=some y ↔ j≠i ∧ m j=some y := by
    intro j y
    by_cases hj : j=i
    · rw [hj,update_self]
      simp
    · simp [hj]
  constructor
  · intro y
    simp only [hcases]
    constructor
    · intro hy
      obtain ⟨j,hj⟩ := (h.all y).mp (mem_append_left _ hy)
      refine ⟨j,?_,hj⟩
      rintro rfl
      cases hj.symm.trans hi
      exact hx hy
    · rintro ⟨j,hne,hj⟩
      refine (mem_append.mp ((h.all y).mpr ⟨j,hj⟩)).resolve_right fun hy => ?_
      rw [mem_singleton.mp hy] at hj
      exact hne (h.once j i x hj hi)
  · intro j k y hj hk
    exact h.once j k y ((hcases j y).mp hj).2 ((hcases k y).mp hk).2

theorem Sound.own_move (h : Sound cpus c) (hi : t.Has (p.byTID i))
    (hj : ∀ j≠i, p.byTID j=c.shared.byTID j) : ∀ j, ((c.move i t p).own j).Has (p.byTID j) :=
  Threads.forall_move (P := fun j (t : Pinning) => t.Has (p.byTID j)) hi fun j hne => by
    rw [hj j hne]
    exact h.own j

theorem Sound.move (hnd : cpus.Nodup) (h : Sound cpus c)
    (hs : InOrder i (c.own i) c.shared t p) : Sound cpus (c.move i t p) := by
  obtain ⟨hs,horder⟩ := hs
  have hi := h.own i
  generalize c.own i=t0 at hs hi horder
  cases hs with
  | known hknown => exact ⟨h.list,h.own_move ⟨hknown,hi.symm.trans hknown⟩ fun _ _ => rfl,h.deals⟩
  | exhausted hno => exact ⟨h.list,h.own_move hno fun _ _ => rfl,h.deals⟩
  | placed | fail => exact ⟨h.list,h.own_move hi.1 fun _ _ => rfl,h.deals⟩
  | @place last _ cpu hno hnext =>
    rw [h.list] at hnext
    refine ⟨h.list,h.own_move ⟨update_self _ _ _,hi.symm.trans hno⟩ fun j hj =>
      update_of_ne hj _ _,?_⟩
    have hdeals := h.deals.give hno (not_before hnd hnext)
    rwa [← take_last hnext] at hdeals
  | @giveBack cpu known =>
    obtain ⟨rfl,hlast⟩ := horder cpu known rfl
    rw [h.list] at hlast
    refine ⟨h.list,h.own_move (update_self _ _ _) fun j hj =>
      update_of_ne hj _ _,?_⟩
    have hpos : c.shared.next≠0 := by
      intro hzero
      have hmem := (h.deals.all cpu).mpr ⟨i,hi⟩
      rw [hzero] at hmem
      cases hmem
    have hdeals := h.deals
    rw [← Nat.sub_add_cancel (Nat.one_le_iff_ne_zero.mpr hpos),take_last hlast] at hdeals
    exact hdeals.takeBack hi (not_before hnd hlast)

omit [DecidableEq ι] in
theorem start_sound (cpus : List Nat) : Sound cpus (start ι cpus) where
  list := rfl
  own _ := rfl
  deals := ⟨by simp [start],nofun⟩

/-- If failed calls only give back what was handed out last, threads that are placed have
processors of their own, and there is none left only when all are taken. -/
theorem placed_apart (cpus : List Nat) (hnd : cpus.Nodup) (c : Threads ι Pinning (Placement ι))
    (h : (start ι cpus).Run InOrder c) :
    (∀ i j cpu, (c.own i).held=some cpu → (c.own j).held=some cpu → i=j) ∧
    ∀ i last, c.own i = .idle last → PinStep i (.idle last) c.shared (.idle none) c.shared →
      ∀ cpu∈cpus, ∃ j, (c.own j).held=some cpu ∨ (c.own j).assigning=some cpu := by
  have hsound : Sound cpus c := h.invariant (fun _ _ _ _ hc hs => hc.move hnd hs) (start_sound cpus)
  refine ⟨fun i j cpu hi hj => ?_,fun i last _ hstep cpu hcpu => ?_⟩
  · exact hsound.deals.once i j cpu ((hsound.own i).held hi) ((hsound.own j).held hj)
  · cases hstep with
    | exhausted hno hnext =>
      rw [hsound.list] at hnext
      rw [← take_of_length_le hnext] at hcpu
      obtain ⟨j,hj⟩ := (hsound.deals.all cpu).mp hcpu
      have hhas := hsound.own j
      rw [hj] at hhas
      exact ⟨j,hhas.used⟩

theorem InOrder.of {t' : Pinning} {p' : Placement ι} (h : PinStep i t p t' p')
    (hno : ∀ cpu known, t≠.failing cpu known) : InOrder i t p t' p' :=
  ⟨h,fun cpu known ht => absurd ht (hno cpu known)⟩

/-- Thread 1's call fails and is rolled back in order; thread 2 gets its processor. -/
theorem placed_apart_two : ∃ c : Threads (Fin 3) Pinning (Placement (Fin 3)),
    (start (Fin 3) [4,5]).Run InOrder c ∧ c.shared.failed=1 ∧ (c.own 0).held=some 4 ∧
    (c.own 2).held=some 5 ∧ (∀ i j cpu, (c.own i).held=some cpu → (c.own j).held=some cpu → i=j) ∧
    ∀ i last, c.own i = .idle last → PinStep i (.idle last) c.shared (.idle none) c.shared →
      ∀ cpu ∈ [4,5], ∃ j, (c.own j).held=some cpu ∨ (c.own j).assigning=some cpu := by
  have h0 := Threads.Run.next (.refl : (start (Fin 3) [4,5]).Run InOrder _) (i := 0) rfl
    (.of (.place rfl rfl) (by simp [start]))
  have h1 := (h0.on (.of .placed (by simp))).next (i := 1) rfl
    (.of (.place rfl rfl) (by simp [start,Threads.move]))
  have hback := (h1.on (.of .fail (by simp))).on
    ⟨.giveBack,fun cpu known h => by cases h; exact ⟨rfl,rfl⟩⟩
  have h2 := hback.next (i := 2) rfl (.of (.place rfl rfl) (by simp [start,Threads.move]))
  have hplaced := h2.on (.of .placed (by simp))
  exact ⟨_,hplaced,rfl,rfl,rfl,placed_apart [4,5] (by decide) _ hplaced⟩

/-- Thread 0 gives processor 1 back, which is thread 1's, and thread 2 gets it too. -/
theorem placed_together : ∃ c : Threads (Fin 3) Pinning (Placement (Fin 3)),
    (start (Fin 3) [0,1]).Run PinStep c ∧ (c.own 1).held=some 1 ∧ (c.own 2).held=some 1 := by
  have h0 :=
    Threads.Run.next (.refl : (start (Fin 3) [0,1]).Run PinStep _) (i := 0) rfl (.place rfl rfl)
  have h1 := (h0.next (i := 1) rfl (.place rfl rfl)).on .placed
  have hback := (h1.next (i := 0) rfl .fail).on .giveBack
  have h2 := (hback.next (i := 2) rfl (.place rfl rfl)).on .placed
  exact ⟨_,h2,rfl,rfl⟩

end Packetio.Affinity

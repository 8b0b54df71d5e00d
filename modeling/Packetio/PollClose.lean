import Packetio.Lib.Threads

/-! Poll and Close of a receive queue on two goroutines (mlx5 rxqueue.go, dpdk queues.go). Both
backends have the same steps: a flag that is swapped, a mutex around each look at the completion
queue or call of the driver, and the release of what is looked at. -/
namespace Packetio.PollClose
open Lib

inductive Backend where
  | mlx5
  | dpdk

inductive Role where
  | poller
  | closer
  deriving DecidableEq

structure Shared where
  closed : Bool := false
  ringMu : Option Role := none
  stash : Nat := 0
  released : Bool := false

inductive Phase where
  | idle
  | entering
  | waiting
  | testing
  | looking
  | unlocking (r : Option Nat)
  | judging (r : Option Nat)
  | polled (r : Option Nat)
  | swapping
  | stopping
  | releasing
  | finishing
  | closed

/-- What Poll is told by a look that found `got` packets. -/
def Backend.ready (b : Backend) (stash got : Nat) : Nat :=
  match b with
  | .mlx5 => got
  | .dpdk => stash+got

def Backend.keeps (b : Backend) (stash got : Nat) : Nat :=
  match b with
  | .mlx5 => stash
  | .dpdk => stash+got

inductive Step (b : Backend) : Role → Phase → Shared → Phase → Shared → Prop
  | poll {s} : Step b .poller .idle s .entering s
  | pollAgain {r s} : Step b .poller (.polled r) s .entering s
  | refuse {s} (h : s.closed=true) : Step b .poller .entering s (.polled none) s
  | stashed {s} (hb : b = .dpdk) (h : s.closed=false) (hs : 0<s.stash) :
      Step b .poller .entering s (.polled (some s.stash)) s
  | enter {s} (h : s.closed=false) (hs : b = .dpdk → s.stash=0) :
      Step b .poller .entering s .waiting s
  | lock {s} (h : s.ringMu=none) :
      Step b .poller .waiting s .testing { s with ringMu := some .poller }
  | saw {s} (h : s.closed=true) : Step b .poller .testing s (.unlocking none) s
  | test {s} (h : s.closed=false) : Step b .poller .testing s .looking s
  | look {s} (got : Nat) : Step b .poller .looking s (.unlocking (some (b.ready s.stash got)))
      { s with stash := b.keeps s.stash got }
  | unlock {r s} : Step b .poller (.unlocking r) s (.judging r) { s with ringMu := none }
  | fail {s} : Step b .poller (.judging none) s (.polled none) s
  | found {n s} (h : 0<n) : Step b .poller (.judging (some n)) s (.polled (some n)) s
  | timeUp {s} : Step b .poller (.judging (some 0)) s (.polled (some 0)) s
  | again {s} : Step b .poller (.judging (some 0)) s .waiting s
  | close {s} : Step b .closer .idle s .swapping s
  | closeAgain {s} : Step b .closer .closed s .swapping s
  | second {s} (h : s.closed=true) : Step b .closer .swapping s .closed s
  | swap {s} (h : s.closed=false) : Step b .closer .swapping s .stopping { s with closed := true }
  | stop {s} (h : s.ringMu=none) :
      Step b .closer .stopping s .releasing { s with ringMu := some .closer }
  | release {s} : Step b .closer .releasing s .finishing { s with released := true }
  | finish {s} : Step b .closer .finishing s .closed { s with ringMu := none }

def started : Threads Role Phase Shared := ⟨fun _ => .idle,{}⟩

def Phase.holds : Phase → Bool
  | .testing => true
  | .looking => true
  | .unlocking _ => true
  | .releasing => true
  | .finishing => true
  | _ => false

def Phase.Knows (s : Shared) : Phase → Prop
  | .stopping => s.closed=true
  | .releasing => s.closed=true
  | .finishing => s.closed=true ∧ s.released=true
  | .closed => s.closed=true ∧ s.released=true
  | _ => s.closed=s.released

variable {b : Backend} {i : Role} {p p' : Phase} {s s' : Shared}

theorem Step.lockStep (h : Step b i p s p' s') (hi : p.holds=true → s.ringMu=some i) :
    Threads.LockStep i s.ringMu p.holds s'.ringMu p'.holds := by
  cases h with
  | lock h | stop h => rw [h]; exact .take
  | unlock | finish => rw [hi rfl]; exact .give
  | _ => exact .keep _ _

theorem Step.poller (h : Step b .poller p s p' s') :
    s'.closed=s.closed ∧ s'.released=s.released ∧ (p' = .looking → s.closed=false) := by
  cases h with
  | test h => exact ⟨rfl,rfl,fun _ => h⟩
  | _ => exact ⟨rfl,rfl,nofun⟩

theorem Step.closer (h : Step b .closer p s p' s') (hp : p.Knows s) :
    p'.Knows s' ∧ p'≠.looking ∧ (s.closed=true → s'.closed=true) ∧
      (s'.released=s.released ∨ p.holds=true ∧ s'.closed=true) := by
  cases h with
  | close | stop _ | finish => exact ⟨hp,by simp,id,.inl rfl⟩
  | closeAgain => exact ⟨hp.1.trans hp.2.symm,by simp,id,.inl rfl⟩
  | second h => exact ⟨⟨h,hp ▸ h⟩,by simp,id,.inl rfl⟩
  | swap h => exact ⟨rfl,by simp,fun _ => rfl,.inl rfl⟩
  | release => exact ⟨⟨hp,rfl⟩,by simp,id,.inr ⟨rfl,hp⟩⟩

structure Sound (c : Threads Role Phase Shared) : Prop where
  locked : c.Locked Shared.ringMu Phase.holds
  order : c.shared.released=true → c.shared.closed=true
  looks : c.own .poller = .looking → c.shared.released=false
  knows : (c.own .closer).Knows c.shared

variable {c : Threads Role Phase Shared}

theorem Sound.move (h : Sound c) (hs : Step b i (c.own i) c.shared p s) : Sound (c.move i p s) := by
  have hlock := h.locked.move (hs.lockStep (h.locked i).mpr)
  cases i with
  | poller =>
    obtain ⟨hc,hr,hlook⟩ := hs.poller
    refine ⟨hlock,?_,?_,?_⟩
    · rw [Threads.move_shared,hc,hr]
      exact h.order
    · rw [Threads.move_own,Threads.move_shared,hr]
      intro hp
      cases hrel : c.shared.released with
      | false => rfl
      | true => rw [← hlook hp,h.order hrel]
    · rw [Threads.move_other (by simp),Threads.move_shared]
      have hknows := h.knows
      cases hp : c.own .closer <;> rw [hp] at hknows <;> simpa [Phase.Knows,hc,hr] using hknows
  | closer =>
    obtain ⟨hknows,-,hkeep,hrel⟩ := hs.closer h.knows
    refine ⟨hlock,?_,?_,?_⟩
    · intro hr
      rcases hrel with hrel | ⟨-,hc⟩
      · exact hkeep (h.order (hrel ▸ hr))
      · exact hc
    · rw [Threads.move_other (by simp),Threads.move_shared]
      intro hp
      rcases hrel with hrel | ⟨hholds,-⟩
      · rw [hrel,h.looks hp]
      · -- the poller would have the lock as well
        have := h.locked.unique hholds (j := .poller) (by rw [hp]; rfl)
        cases this
    · exact hknows

theorem Sound.run (h : started.Run (Step b) c) : Sound c := by
  refine h.invariant (fun _ _ _ _ hc hs => hc.move hs) ⟨?_,?_,?_,rfl⟩
  · intro i
    simp [started,Phase.holds]
  · simp [started]
  · simp [started]

def Phase.Doomed : Phase → Prop
  | .entering => True
  | .waiting => True
  | .testing => True
  | .unlocking r => r=none
  | .judging r => r=none
  | .polled r => r=none
  | _ => False

structure Over (c : Threads Role Phase Shared) : Prop where
  closed : c.shared.closed=true
  released : c.shared.released=true
  closer : c.own .closer = .closed ∨ c.own .closer = .swapping

theorem Step.doomed (h : Step b .poller p s p' s') (hs : s.closed=true) (hp : p.Doomed) :
    p'.Doomed := by
  cases h with
  | poll | look _ | found _ | timeUp | again => cases hp
  | stashed _ hc _ | test hc => rw [hs] at hc; cases hc
  | enter hc _ => exact trivial
  | unlock => exact hp
  | pollAgain | lock _ => exact trivial
  | refuse _ | saw _ | fail => exact rfl

theorem Over.second (h : Over c) (hs : Step b .closer (c.own .closer) c.shared p s) :
    s=c.shared ∧ (p = .closed ∨ p = .swapping) := by
  rcases h.closer with hp | hp
  · rw [hp] at hs
    cases hs with
    | closeAgain => exact ⟨rfl,.inr rfl⟩
  rw [hp] at hs
  cases hs with
  | second _ => exact ⟨rfl,.inl rfl⟩
  | swap hc =>
    rw [h.closed] at hc
    cases hc

theorem Over.move (h : Over c) (hs : Step b i (c.own i) c.shared p s) : Over (c.move i p s) := by
  cases i with
  | poller =>
    obtain ⟨hc,hr,-⟩ := hs.poller
    exact ⟨hc.trans h.closed,hr.trans h.released,
      by rw [Threads.move_other (by simp)]; exact h.closer⟩
  | closer =>
    obtain ⟨rfl,hp⟩ := h.second hs
    exact ⟨h.closed,h.released,by rw [Threads.move_own]; exact hp⟩

/-- The steps a Poll on its way to ErrClosed has left. -/
def Phase.left : Phase → Nat
  | .entering => 1
  | .waiting => 4
  | .testing => 3
  | .unlocking _ => 2
  | .judging _ => 1
  | _ => 0

theorem Step.left_lt (h : Step b .poller p s p' s') (hs : s.closed=true) (hp : p.Doomed)
    (hleft : 0<p.left) : p'.left<p.left := by
  cases h with
  | poll | look _ | found _ | timeUp | again => cases hp
  | pollAgain => cases hleft
  | stashed _ hc _ | test hc | enter hc _ => rw [hs] at hc; cases hc
  | refuse _ | lock _ | saw _ | unlock | fail => simp [Phase.left]

theorem Phase.Doomed.returned (hp : p.Doomed) (hleft : p.left=0) : p = .polled none := by
  cases p with
  | polled r => rw [show r=none from hp]
  | entering | waiting | testing | unlocking _ | judging _ => cases hleft
  | _ => cases hp

/-- Nobody has the mutex when the poller waits for it: Close has given it back. -/
theorem Over.moves (h : Over c) (hlock : c.Locked Shared.ringMu Phase.holds)
    (hp : (c.own .poller).Doomed) (hleft : 0<(c.own .poller).left) :
    ∃ p s, Step b .poller (c.own .poller) c.shared p s := by
  cases hown : c.own .poller with
  | entering => exact ⟨_,_,.refuse h.closed⟩
  | waiting =>
    refine ⟨_,_,.lock ?_⟩
    rcases hmu : c.shared.ringMu with _ | i
    · rfl
    have hholds := (hlock i).mp hmu
    cases i with
    | poller => rw [hown] at hholds; cases hholds
    | closer => rcases h.closer with hc | hc <;> rw [hc] at hholds <;> cases hholds
  | testing => exact ⟨_,_,.saw h.closed⟩
  | unlocking r => exact ⟨_,_,.unlock⟩
  | judging r =>
    rw [hown] at hp
    obtain rfl : r=none := hp
    exact ⟨_,_,.fail⟩
  | _ => rw [hown] at hleft; cases hleft

/-- Once Close has returned Poll makes no look. A Poll that is on its way to one can always go on,
and each of its steps brings it nearer to its end, at which it returns ErrClosed. Another Close
changes nothing. -/
theorem close_waits_for_poll (b : Backend) (c₀ c : Threads Role Phase Shared)
    (h₀ : started.Run (Step b) c₀) (hc : c₀.own .closer = .closed) (h : c₀.Run (Step b) c) :
    c.own .poller≠.looking ∧ ((c.own .poller).Doomed →
      (∀ c', c.Run (Step b) c' → (c'.own .poller).Doomed) ∧
      (c.own .poller = .polled none ∨
        (∃ p s, Step b .poller (c.own .poller) c.shared p s) ∧
        ∀ p s, Step b .poller (c.own .poller) c.shared p s → p.left < (c.own .poller).left)) ∧
    ∀ p s, Step b .closer (c.own .closer) c.shared p s → s = c.shared := by
  have hsound := Sound.run h₀
  have hknows := hsound.knows
  rw [hc] at hknows
  have hover : Over c := h.invariant (fun _ _ _ _ hc hs => hc.move hs) ⟨hknows.1,hknows.2,.inl hc⟩
  have hlater : Sound c := h.invariant (fun _ _ _ _ hc hs => hc.move hs) hsound
  refine ⟨fun hp => ?_,fun hp => ⟨fun c' h' => ?_,?_⟩,fun p s hs => (hover.second hs).1⟩
  · have hfree := hlater.looks hp
    rw [hover.released] at hfree
    cases hfree
  · refine (h'.invariant (I := fun c => Over c ∧ (c.own .poller).Doomed) ?_ ⟨hover,hp⟩).2
    rintro c i p s ⟨hc,hd⟩ hs
    refine ⟨hc.move hs,?_⟩
    cases i with
    | poller => exact hs.doomed hc.closed hd
    | closer => exact hd
  · cases Nat.eq_zero_or_pos (c.own .poller).left with
    | inl hzero => exact .inl (hp.returned hzero)
    | inr hpos =>
      exact .inr ⟨hover.moves hlater.locked hp hpos,fun p s hs => hs.left_lt hover.closed hp hpos⟩

/-- Poll waits for the mutex while Close runs from its start to its end. -/
def closedBefore : Threads Role Phase Shared :=
  (started.move .poller .waiting {}).move .closer .closed { closed := true, released := true }

theorem closedBefore_run (b : Backend) : started.Run (Step b) closedBefore := by
  have hentering : started.Run (Step b) (started.move .poller .entering {}) :=
    Relation.ReflTransGen.single (.of .poll)
  have hwaiting := hentering.on (.enter rfl fun _ => rfl)
  have hswapping := hwaiting.next (i := .closer) rfl .close
  exact (((hswapping.on (.swap rfl)).on (.stop rfl)).on .release).on .finish

theorem close_waits_for_poll_waiting : started.Run (Step .dpdk) closedBefore ∧
    closedBefore.own .poller = .waiting ∧ closedBefore.own .poller≠.looking ∧
    ∃ p s, Step .dpdk .poller (closedBefore.own .poller) closedBefore.shared p s := by
  obtain ⟨hlook,hpoll,-⟩ := close_waits_for_poll .dpdk _ _ (closedBefore_run _) rfl .refl
  have hmoves := (hpoll trivial).2.resolve_left nofun
  exact ⟨closedBefore_run .dpdk,rfl,hlook,hmoves.1⟩

end Packetio.PollClose

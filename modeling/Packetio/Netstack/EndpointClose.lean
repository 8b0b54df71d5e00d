import Packetio.Lib.Threads
import Mathlib.Algebra.Ring.Nat

/-! Close of the endpoint among writers and receive goroutines (endpoint.go, tx.go, rx.go). A
step is one operation on a mutex, flag or wait group, or a stay in the methods of a queue. -/
namespace Packetio.Netstack.EndpointClose
open Lib Function
variable {ι : Type} [DecidableEq ι]

structure Shared (ι : Type) where
  rxStop : Bool := false
  dispatcher : Bool
  live : ι → Bool
  txClosed : Bool := false
  mu : Option ι := none
  qmu : Nat → Option ι := fun _ => none
  closed : Bool := false
  fences : Nat := 0

inductive Result where
  | nothing
  | sent
  | errClosedForSend
  deriving DecidableEq

inductive Phase where
  | out
  | receiving
  | inRxQueue
  | exited
  | locking (late : Bool) (q : Nat)
  | testing (late : Bool) (q : Nat)
  | inTxQueue (late : Bool) (q : Nat)
  | unlocking (late : Bool) (q : Nat) (r : Result)
  | wrote (late empty : Bool) (r : Result)
  | closing
  | stopping
  | waiting
  | stopped
  | flagging
  | fencing (k : Nat)
  | fenced (k : Nat)
  | closed

def Phase.inQueue : Phase → Bool
  | .inRxQueue => true
  | .inTxQueue _ _ => true
  | _ => false

inductive Step (n : Nat) (i : ι) : Phase → Shared ι → Phase → Shared ι → Prop
  | writeNone {s} : Step n i .out s (.wrote s.closed true .nothing) s
  | write {s} (q : Nat) (hq : q<n) : Step n i .out s (.locking s.closed q) s
  | lock {late q s} (h : s.qmu q=none) : Step n i (.locking late q) s (.testing late q)
      { s with qmu := Function.update s.qmu q (some i) }
  | refuse {late q s} (h : s.txClosed=true) :
      Step n i (.testing late q) s (.unlocking late q .errClosedForSend) s
  | enter {late q s} (h : s.txClosed=false) : Step n i (.testing late q) s (.inTxQueue late q) s
  | leave {late q s} (r : Result) : Step n i (.inTxQueue late q) s (.unlocking late q r) s
  | unlock {late q r s} : Step n i (.unlocking late q r) s (.wrote late false r)
      { s with qmu := Function.update s.qmu q none }
  | returned {late empty r s} : Step n i (.wrote late empty r) s .out s
  | receive {s} (h : s.rxStop=false) : Step n i .receiving s .inRxQueue s
  | again {s} : Step n i .inRxQueue s .receiving s
  | stop {s} (h : s.rxStop=true) : Step n i .receiving s .exited
      { s with live := Function.update s.live i false }
  | fail {s} : Step n i .inRxQueue s .exited { s with live := Function.update s.live i false }
  | close {s} : Step n i .out s .closing s
  | lockAll {s} (h : s.mu=none) : Step n i .closing s .stopping { s with mu := some i }
  | detached {s} (h : s.dispatcher=false) : Step n i .stopping s .stopped s
  | stopAll {s} (h : s.dispatcher=true) : Step n i .stopping s .waiting { s with rxStop := true }
  | wait {s} (h : ∀ j, s.live j=false) : Step n i .waiting s .stopped { s with dispatcher := false }
  | unlockAll {s} : Step n i .stopped s .flagging { s with mu := none }
  | flag {s} : Step n i .flagging s (.fencing 0) { s with txClosed := true }
  | fence {k s} (hk : k<n) (h : s.qmu k=none) : Step n i (.fencing k) s (.fenced k)
      { s with qmu := Function.update s.qmu k (some i), fences := max s.fences (k+1) }
  | unfence {k s} : Step n i (.fenced k) s (.fencing (k+1))
      { s with qmu := Function.update s.qmu k none }
  | finish {k s} (hk : n≤k) : Step n i (.fencing k) s .closed { s with closed := true }
  | gone {s} : Step n i .closed s .out s

def start (receivers : ι → Bool) (attached : Bool) : Threads ι Phase (Shared ι) :=
  ⟨fun i => if attached && receivers i then .receiving else .out,
    { dispatcher := attached, live := fun i => attached && receivers i }⟩

/-! One step -/

def Phase.holds (q : Nat) : Phase → Bool
  | .testing _ q' => q=q'
  | .inTxQueue _ q' => q=q'
  | .unlocking _ q' _ => q=q'
  | .fenced k => q=k
  | _ => false

def Phase.Sound (n : Nat) (i : ι) (s : Shared ι) : Phase → Prop
  | .receiving => s.live i=true
  | .inRxQueue => s.live i=true
  | .locking late q => q<n ∧ (late=true → s.closed=true)
  | .testing late q => q<n ∧ (late=true → s.closed=true)
  | .inTxQueue late q => q<n ∧ late=false ∧ s.fences≤q
  | .unlocking late _ r => late=true → r = .errClosedForSend
  | .wrote late empty r => late=true → empty=false → r = .errClosedForSend
  | .stopped => s.dispatcher=false
  | .flagging => s.dispatcher=false
  | .fencing k => s.dispatcher=false ∧ s.txClosed=true ∧ k ≤ s.fences
  | .fenced k => s.dispatcher=false ∧ s.txClosed=true ∧ k<s.fences
  | _ => True

structure Shared.Sound (n : Nat) (s : Shared ι) : Prop where
  detached : s.dispatcher=false → ∀ j, s.live j=false
  fences : s.fences≠0 → s.txClosed=true
  closed : s.closed=true → s.dispatcher=false ∧ s.txClosed=true ∧ n ≤ s.fences

structure Shared.Later (i : ι) (s s' : Shared ι) : Prop where
  closed : s.closed=true → s'.closed=true
  txClosed : s.txClosed=true → s'.txClosed=true
  dispatcher : s.dispatcher=false → s'.dispatcher=false
  live : ∀ j, j≠i → s'.live j=s.live j
  fences : s.fences ≤ s'.fences

variable {n q : Nat} {i j : ι} {p p' : Phase} {s s' : Shared ι} {c c' : Threads ι Phase (Shared ι)}

section
variable (h : Step n i p s p' s')
include h

theorem Step.later : s.Later i s' := by
  cases h with
  | stop _ | fail => exact ⟨id,id,id,fun j hj => update_of_ne hj _ _,le_refl _⟩
  | wait h => exact ⟨id,id,fun _ => rfl,fun _ _ => rfl,le_refl _⟩
  | flag => exact ⟨id,fun _ => rfl,id,fun _ _ => rfl,le_refl _⟩
  | fence hk h => exact ⟨id,id,id,fun _ _ => rfl,le_max_left _ _⟩
  | finish hk => exact ⟨fun _ => rfl,id,id,fun _ _ => rfl,le_refl _⟩
  | _ => exact ⟨id,id,id,fun _ _ => rfl,le_refl _⟩

theorem Step.lockStep (hi : p.holds q=true → s.qmu q=some i) :
    Threads.LockStep i (s.qmu q) (p.holds q) (s'.qmu q) (p'.holds q) := by
  have htake {k : Nat} {a b : Phase} (ha : a.holds q=false) (hb : b.holds q=decide (q=k))
      (hk : s.qmu k=none) :
      Threads.LockStep i (s.qmu q) (a.holds q) (update s.qmu k (some i) q) (b.holds q) := by
    by_cases hq : q=k
    · subst hq
      rw [update_self,hk,ha,hb,decide_eq_true rfl]
      exact .take
    · rw [update_of_ne hq,ha,hb,decide_eq_false hq]
      exact .keep _ _
  have hgive {k : Nat} {a b : Phase} (ha : a.holds q=decide (q=k)) (hb : b.holds q=false)
      (hk : a.holds q=true → s.qmu q=some i) :
      Threads.LockStep i (s.qmu q) (a.holds q) (update s.qmu k none q) (b.holds q) := by
    by_cases hq : q=k
    · subst hq
      rw [ha,decide_eq_true rfl] at hk ⊢
      rw [update_self,hk rfl,hb]
      exact .give
    · rw [update_of_ne hq,ha,hb,decide_eq_false hq]
      exact .keep _ _
  cases h with
  | lock h | fence _ h => exact htake rfl rfl h
  | unlock | unfence => exact hgive rfl rfl hi
  | _ => exact .keep _ _

theorem Step.sound (hs : s.Sound n) (hp : p.Sound n i s) : p'.Sound n i s' := by
  cases h with
  | writeNone => exact nofun
  | write q hq => exact ⟨hq,id⟩
  | lock h => exact hp
  | refuse h => exact fun _ => rfl
  | @enter late q _ h =>
    have hclosed : s.closed≠true := fun hc => by rw [(hs.closed hc).2.1] at h; cases h
    have hzero : s.fences=0 := by
      by_contra hne
      rw [hs.fences hne] at h
      cases h
    refine ⟨hp.1,?_,by omega⟩
    cases late with
    | false => rfl
    | true => exact absurd (hp.2 rfl) hclosed
  | leave r => exact fun hlate => by rw [hp.2.1] at hlate; cases hlate
  | unlock => exact fun hlate _ => hp hlate
  | receive _ | again | unlockAll => exact hp
  | detached h => exact h
  | wait h => exact rfl
  | flag => exact ⟨hp,rfl,Nat.zero_le _⟩
  | fence hk h => exact ⟨hp.1,hp.2.1,Nat.lt_of_succ_le (Nat.le_max_right _ _)⟩
  | unfence => exact ⟨hp.1,hp.2.1,hp.2.2⟩
  | _ => exact trivial

theorem Step.shared (hs : s.Sound n) (hp : p.Sound n i s) : s'.Sound n := by
  have hlive (hd : s.dispatcher=false) (j : ι) : update s.live i false j=false := by
    by_cases hj : j=i
    · rw [hj,update_self]
    · rw [update_of_ne hj,hs.detached hd]
  cases h with
  | stop _ | fail => exact ⟨hlive,hs.fences,hs.closed⟩
  | wait h => exact ⟨fun _ => h,hs.fences,fun hc => ⟨rfl,(hs.closed hc).2⟩⟩
  | flag => exact ⟨hs.detached,fun _ => rfl,fun hc => ⟨(hs.closed hc).1,rfl,(hs.closed hc).2.2⟩⟩
  | fence hk h =>
    exact ⟨hs.detached,fun _ => hp.2.1,fun hc => ⟨(hs.closed hc).1,hp.2.1,
      le_trans (hs.closed hc).2.2 (le_max_left _ _)⟩⟩
  | finish hk => exact ⟨hs.detached,hs.fences,fun _ => ⟨hp.1,hp.2.1,le_trans hk hp.2.2⟩⟩
  | _ => exact ⟨hs.detached,hs.fences,hs.closed⟩

end

omit [DecidableEq ι] in
theorem Phase.Sound.later (hp : p.Sound n j s) (h : s.Later i s') (hj : j≠i)
    (hfence : ∀ late q, p = .inTxQueue late q → s.fences≤q → s'.fences≤q) : p.Sound n j s' := by
  cases p with
  | receiving | inRxQueue => exact (h.live j hj).trans hp
  | locking _ _ | testing _ _ => exact ⟨hp.1,fun hl => h.closed (hp.2 hl)⟩
  | inTxQueue late q => exact ⟨hp.1,hp.2.1,hfence late q rfl hp.2.2⟩
  | unlocking _ _ _ | wrote _ _ _ => exact hp
  | stopped | flagging => exact h.dispatcher hp
  | fencing k => exact ⟨h.dispatcher hp.1,h.txClosed hp.2.1,le_trans hp.2.2 h.fences⟩
  | fenced k => exact ⟨h.dispatcher hp.1,h.txClosed hp.2.1,lt_of_lt_of_le hp.2.2 h.fences⟩
  | _ => exact trivial

/-! Runs -/

structure Sound (n : Nat) (c : Threads ι Phase (Shared ι)) : Prop where
  locked : ∀ q, c.Locked (fun s => s.qmu q) (Phase.holds q)
  shared : c.shared.Sound n
  each : ∀ i, (c.own i).Sound n i c.shared

theorem Step.fence_free (h : Step n i p s p' s') (hp : p.Sound n i s) (hfree : s.qmu q≠none)
    (hle : s.fences≤q) : s'.fences≤q := by
  cases h with
  | @fence k _ hk h =>
    have hne : k≠q := fun heq => hfree (heq ▸ h)
    have hk' := hp.2.2
    change max s.fences (k+1)≤q
    omega
  | _ => exact hle

theorem Sound.move (h : Sound n c) (hs : Step n i (c.own i) c.shared p s) :
    Sound n (c.move i p s) where
  locked q := (h.locked q).move (hs.lockStep ((h.locked q) i).mpr)
  shared := hs.shared h.shared (h.each i)
  each := by
    refine Threads.forall_move (P := fun j p => Phase.Sound n j s p) (hs.sound h.shared (h.each i))
      fun j hj => (h.each j).later hs.later hj fun late q hq hle => hs.fence_free (h.each i) ?_ hle
    have hheld : c.shared.qmu q=some j := (h.locked q j).mpr (by rw [hq]; exact decide_eq_true rfl)
    rw [hheld]
    exact Option.some_ne_none j

omit [DecidableEq ι] in
theorem start_sound (receivers : ι → Bool) (attached : Bool) :
    Sound n (start receivers attached) where
  locked q i := by
    have hphase : ((start receivers attached).own i).holds q=false := by
      rw [start]
      dsimp only
      split
      · rfl
      · rfl
    rw [hphase]
    simp [start]
  shared := ⟨fun h => by simp [start] at h ⊢; simp [h],fun h => absurd rfl h,nofun⟩
  each i := by
    change Phase.Sound n i _ (if _ then _ else _)
    split
    case isTrue h => exact h
    case isFalse => exact trivial

theorem closed_stays (h : c.Run (Step n) c') (hc : c.shared.closed=true) : c'.shared.closed=true :=
  h.invariant (I := fun c => c.shared.closed=true) (fun _ _ _ _ hc hs => hs.later.closed hc) hc

/-- A WritePackets with packets that began after a Close had returned, and has not returned yet. -/
def Phase.Late : Phase → Prop
  | .locking late _ => late=true
  | .testing late _ => late=true
  | .unlocking late _ _ => late=true
  | _ => False

omit [DecidableEq ι] in
theorem Sound.quiet (h : Sound n c) (hc : c.shared.closed=true) (i : ι) :
    (c.own i).inQueue=false := by
  obtain ⟨hdet,-,hfences⟩ := h.shared.closed hc
  have hi := h.each i
  cases hp : c.own i with
  | inRxQueue =>
    rw [hp] at hi
    exact absurd (h.shared.detached hdet i) (by rw [show _=true from hi]; simp)
  | inTxQueue late q =>
    rw [hp] at hi
    exact absurd (lt_of_le_of_lt hi.2.2 hi.1) (not_lt.mpr hfences)
  | _ => rfl

/-- After Close the mutex of a queue is free, or its holder gives it back by its own steps. -/
theorem Sound.unlocks (h : Sound n c) (hc : c.shared.closed=true) (q : Nat) :
    ∃ c', c.Run (Step n) c' ∧ c'.shared.qmu q=none ∧ c'.shared.txClosed=true ∧
      ∀ i, (c.own i).holds q=false → c'.own i=c.own i := by
  have htx := (h.shared.closed hc).2.1
  rcases hmu : c.shared.qmu q with _ | j
  · exact ⟨c,.refl,hmu,htx,fun _ _ => rfl⟩
  have hheld := ((h.locked q) j).mp hmu
  have hother : ∀ i, (c.own i).holds q=false → i≠j := by
    rintro i hi rfl
    rw [hheld] at hi
    cases hi
  cases hp : c.own j with
  | testing late k =>
    rw [hp] at hheld
    obtain rfl := of_decide_eq_true hheld
    exact ⟨_,(Threads.Run.next .refl hp (.refuse htx)).on .unlock,update_self ..,htx,
      fun i hi => Threads.move_other (hother i hi)⟩
  | inTxQueue late k =>
    have hquiet := h.quiet hc j
    rw [hp] at hquiet
    cases hquiet
  | unlocking late k r =>
    rw [hp] at hheld
    obtain rfl := of_decide_eq_true hheld
    exact ⟨_,Threads.Run.next .refl hp .unlock,update_self ..,htx,
      fun i hi => Threads.move_other (hother i hi)⟩
  | fenced k =>
    rw [hp] at hheld
    obtain rfl := of_decide_eq_true hheld
    exact ⟨_,Threads.Run.next .refl hp .unfence,update_self ..,htx,
      fun i hi => Threads.move_other (hother i hi)⟩
  | _ => rw [hp] at hheld; cases hheld

theorem Sound.late_returns (h : Sound n c) (hc : c.shared.closed=true) (hi : (c.own i).Late) :
    ∃ c', c.Run (Step n) c' ∧ c'.own i = .wrote true false .errClosedForSend := by
  have htx := (h.shared.closed hc).2.1
  cases hp : c.own i with
  | locking late q =>
    rw [hp] at hi
    obtain rfl : late=true := hi
    obtain ⟨c',hrun,hmu,htx',hsame⟩ := h.unlocks hc q
    have hown := (hsame i (by rw [hp]; rfl)).trans hp
    exact ⟨_,((hrun.next hown (.lock hmu)).on (.refuse htx')).on .unlock,Threads.move_own⟩
  | testing late q =>
    rw [hp] at hi
    obtain rfl : late=true := hi
    exact ⟨_,(Threads.Run.next .refl hp (.refuse htx)).on .unlock,Threads.move_own⟩
  | unlocking late q r =>
    have hr := h.each i
    rw [hp] at hi hr
    obtain rfl : late=true := hi
    obtain rfl := hr rfl
    exact ⟨_,Threads.Run.next .refl hp .unlock,Threads.move_own⟩
  | _ => rw [hp] at hi; cases hi

/-- Once Close has returned, no goroutine is in a queue or will be, and a WritePackets that
begins later and has packets can be brought to its end from every later state, by its own steps and
those of who has the mutex it waits for; it returns ErrClosedForSend and nothing else. -/
theorem closed_quiet (n : Nat) (receivers : ι → Bool) (attached : Bool)
    (c c' : Threads ι Phase (Shared ι)) (h : (start receivers attached).Run (Step n) c)
    (hc : c.shared.closed=true) (h' : c.Run (Step n) c') (i : ι) : (c'.own i).inQueue=false ∧
    ((c'.own i).Late →
      ∃ c'', c'.Run (Step n) c'' ∧ c''.own i = .wrote true false .errClosedForSend) ∧
    ∀ r, c'.own i = .wrote true false r → r = .errClosedForSend := by
  have hrun : (start receivers attached).Run (Step n) c' := h.trans h'
  have hsound := hrun.invariant (fun _ _ _ _ hc hs => hc.move hs) (start_sound receivers attached)
  have hclosed := closed_stays h' hc
  refine ⟨hsound.quiet hclosed i,hsound.late_returns hclosed,fun r hr => ?_⟩
  have hi := hsound.each i
  rw [hr] at hi
  exact hi rfl rfl

/-- Who is in a transmit queue is alone with its mutex; no Close has fenced it or a later one. -/
theorem inTxQueue_alone {receivers : ι → Bool} {attached late : Bool}
    (h : (start receivers attached).Run (Step n) c) (hi : c.own i = .inTxQueue late q) :
    (∀ j≠i, (c.own j).holds q=false) ∧ c.shared.fences≤q := by
  have hsound := h.invariant (fun _ _ _ _ hc hs => hc.move hs) (start_sound receivers attached)
  have hheld : (c.own i).holds q=true := by
    rw [hi]
    exact decide_eq_true rfl
  have hin := hsound.each i
  rw [hi] at hin
  exact ⟨fun j hj => Bool.eq_false_iff.mpr fun hh => hj ((hsound.locked q).unique hheld hh),hin.2.2⟩

/-- Writer 0 is in queue 1, writer 1 waits for it, and a Close has gone past queue 0. -/
theorem inTxQueue_alone_fenced : ∃ c : Threads (Fin 3) Phase (Shared (Fin 3)),
    c.own 0 = .inTxQueue false 1 ∧ c.own 1 = .locking false 1 ∧ c.own 2 = .fencing 1 ∧
    (∀ j≠0, (c.own j).holds 1=false) ∧ c.shared.fences≤1 := by
  have hlocking := Threads.Run.next
    (.refl : (start (fun _ : Fin 3 => false) false).Run (Step 2) _) (i := 0) rfl
    (.write 1 Nat.one_lt_two)
  have hin := (hlocking.on (.lock rfl)).on (.enter rfl)
  have hclosing := (hin.next (i := 1) rfl (.write 1 Nat.one_lt_two)).next (i := 2) rfl .close
  have hflagging := ((hclosing.on (.lockAll rfl)).on (.detached rfl)).on .unlockAll
  have hfenced := ((hflagging.on .flag).on (.fence Nat.two_pos rfl)).on .unfence
  exact ⟨_,rfl,rfl,rfl,inTxQueue_alone hfenced (i := 0) rfl⟩

theorem close_runs : ∃ c : Threads Bool Phase (Shared Bool),
    (start (fun _ => false) false).Run (Step 1) c ∧ c.shared.closed=true ∧ c.own false = .out ∧
    c.own true = .out ∧ c.shared.qmu 0=none := by
  have hclosing := Threads.Run.next (.refl : (start (fun _ : Bool => false) false).Run (Step 1) _)
    (i := true) rfl .close
  have hflagging := ((hclosing.on (.lockAll rfl)).on (.detached rfl)).on .unlockAll
  have hfenced := ((hflagging.on .flag).on (.fence Nat.one_pos rfl)).on .unfence
  exact ⟨_,(hfenced.on (.finish (le_refl 1))).on .gone,rfl,rfl,rfl,rfl⟩

/-- A second writer has the mutex when a late one comes to it. -/
theorem closed_quiet_late : ∃ c c' : Threads Bool Phase (Shared Bool),
    (start (fun _ => false) false).Run (Step 1) c ∧ c.shared.closed=true ∧ c.Run (Step 1) c' ∧
    c'.own false = .locking true 0 ∧ c'.shared.qmu 0=some true ∧ (c'.own false).inQueue=false ∧
    ∃ c'', c'.Run (Step 1) c'' ∧ c''.own false = .wrote true false .errClosedForSend := by
  obtain ⟨c,hrun,hclosed,hout,hidle,hmu⟩ := close_runs
  have hstep (i : Bool) : Step 1 i .out c.shared (.locking c.shared.closed 0) c.shared :=
    .write 0 Nat.one_pos
  rw [hclosed] at hstep
  have hlate := (Threads.Run.next .refl hout (hstep false)).next (i := true) hidle (hstep true)
  have hheld := hlate.on (.lock hmu)
  obtain ⟨hquiet,hends,-⟩ := closed_quiet 1 _ _ c _ hrun hclosed hheld false
  exact ⟨c,_,hrun,hclosed,hheld,rfl,rfl,hquiet,hends rfl⟩

/-- With no packets WritePackets returns no error, whatever has been closed. -/
theorem closed_empty : ∃ c : Threads Bool Phase (Shared Bool),
    (start (fun _ => false) false).Run (Step 1) c ∧ c.shared.closed=true ∧
    c.own false = .wrote true true .nothing := by
  obtain ⟨c,hrun,hclosed,hout,-⟩ := close_runs
  have hstep :
    Step 1 false .out c.shared (.wrote c.shared.closed true .nothing) c.shared := .writeNone
  rw [hclosed] at hstep
  exact ⟨_,hrun.next hout hstep,hclosed,rfl⟩

end Packetio.Netstack.EndpointClose

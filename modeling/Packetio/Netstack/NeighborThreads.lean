import Packetio.Lib.Threads
import Packetio.Netstack.Neighbors

/-! The neighbor table among goroutines (neigh.go), and the ARP cache of the stack that is told
of its changes (rx.go, endpoint.go, stack.go). A step is one load or store of the table, one
operation on the mutex, or one update of the cache. -/
namespace Packetio.Netstack
open Lib

structure Call where
  ip : IPv4
  nb : Neighbor
  deriving DecidableEq

inductive Phase where
  | idle
  /-- learn has loaded the table and is at its throttle. -/
  | checking (w : Call) (m : Table)
  /-- At the mutex. -/
  | waiting (w : Call)
  | locked (w : Call)
  | loaded (w : Call) (old : Table)
  /-- At the store of the new table. -/
  | storing (w : Call) (next : Neighbors) (r : Change)
  /-- At the store of the time. -/
  | stored (w : Call) (next : Neighbors) (r : Change)
  | unlocking (w : Call) (r : Change)
  /-- The call of learn or pin has returned. -/
  | returned (w : Call) (r : Change)
  /-- In the learned callback, with what is still to be removed. -/
  | telling (w : Call) (evicted : Option IPv4)

structure Goroutine where
  phase : Phase := .idle
  published : List (Table × Table) := []

abbrev Update := IPv4 × Option MAC

abbrev Cache := IPv4 → Option MAC

def Cache.update (cache : Cache) (u : Update) : Cache := Function.update cache u.1 u.2

structure Shared (ι : Type) where
  n : Neighbors := newNeighbors
  mu : Option ι := none
  cache : Cache := fun _ => none
  pending : List (ι × Update) := []

def Neighbors.passes (seen : Neighbors) (looked : Int64) (ip : IPv4) (mac : MAC) : Bool :=
  let known := seen.m.lookup ip
  !(known.any fun nb => decide (nb.mac=mac) || nb.pinned) &&
    !((known.isSome || decide (maxNeighbors ≤ seen.size)) &&
      decide (looked-seen.lastWrite<writeInterval))

theorem Neighbors.learn_eq (seen n : Neighbors) (order : List Entry)
    (looked now : Int64) (ip : IPv4) (mac : MAC) : seen.learn n order looked now ip mac =
      if seen.passes looked ip mac then n.write order now ip { mac := mac } else (n,{}) := by
  rw [Neighbors.learn,Neighbors.passes]
  split
  case isTrue h => rw [h,if_neg (by simp)]
  rename_i h
  split
  case isTrue h' => rw [h',if_neg (by simp)]
  case isFalse h' => rw [if_pos (by simp [h,h'])]

def Call.updates (w : Call) (r : Change) : List Update :=
  if r.changed then (r.evicted.toList.map fun a => (a,none))++[(w.ip,some w.nb.mac)] else []

section
variable {ι : Type} [DecidableEq ι]

inductive GoStep (learned : Bool) (i : ι) : Goroutine → Shared ι → Goroutine → Shared ι → Prop
  | learn {p s} (ip : IPv4) (mac : MAC) :
      GoStep learned i ⟨.idle,p⟩ s ⟨.checking ⟨ip,{ mac := mac }⟩ s.n.m,[]⟩ s
  | pin {p s} (ip : IPv4) (mac : MAC) :
      GoStep learned i ⟨.idle,p⟩ s ⟨.waiting ⟨ip,{ mac := mac, pinned := true }⟩,[]⟩ s
  | pass {w m p s} (looked : Int64)
      (h : Neighbors.passes { lastWrite := s.n.lastWrite, m := m } looked w.ip w.nb.mac=true) :
      GoStep learned i ⟨.checking w m,p⟩ s ⟨.waiting w,p⟩ s
  | refuse {w m p s} (looked : Int64)
      (h : Neighbors.passes { lastWrite := s.n.lastWrite, m := m } looked w.ip w.nb.mac=false) :
      GoStep learned i ⟨.checking w m,p⟩ s ⟨.returned w {},p⟩ s
  | lock {w p s} (h : s.mu=none) :
      GoStep learned i ⟨.waiting w,p⟩ s ⟨.locked w,p⟩ { s with mu := some i }
  | load {w p s} : GoStep learned i ⟨.locked w,p⟩ s ⟨.loaded w s.n.m,p⟩ s
  | copy {w old p s next r} (order : List Entry) (now : Int64) (ho : order.Perm old.entries)
      (h : Neighbors.write { lastWrite := s.n.lastWrite, m := old } order now w.ip w.nb=(next,r))
      (hr : r.changed=true) :
      GoStep learned i ⟨.loaded w old,p⟩ s ⟨.storing w next r,p⟩ s
  | keep {w old p s next r} (order : List Entry) (now : Int64) (ho : order.Perm old.entries)
      (h : Neighbors.write { lastWrite := s.n.lastWrite, m := old } order now w.ip w.nb=(next,r))
      (hr : r.changed=false) :
      GoStep learned i ⟨.loaded w old,p⟩ s ⟨.unlocking w r,p⟩ s
  | store {w next r p s} :
      GoStep learned i ⟨.storing w next r,p⟩ s ⟨.stored w next r,p++[(s.n.m,next.m)]⟩
        { s with n := { s.n with m := next.m }, pending := s.pending++(w.updates r).map (i,·) }
  | stamp {w next r p s} :
      GoStep learned i ⟨.stored w next r,p⟩ s ⟨.unlocking w r,p⟩
        { s with n := { s.n with lastWrite := next.lastWrite } }
  | unlock {w r p s} :
      GoStep learned i ⟨.unlocking w r,p⟩ s ⟨.returned w r,p⟩ { s with mu := none }
  | tell {w r p s} (h : r.changed=true) (hl : learned=true) :
      GoStep learned i ⟨.returned w r,p⟩ s ⟨.telling w r.evicted,p⟩ s
  | quiet {w r p s} (h : ¬ (r.changed=true ∧ learned=true)) :
      GoStep learned i ⟨.returned w r,p⟩ s ⟨.idle,p⟩ s
  | remove {w a p s} :
      GoStep learned i ⟨.telling w (some a),p⟩ s ⟨.telling w none,p⟩
        { s with cache := s.cache.update (a,none), pending := s.pending.erase (i,(a,none)) }
  | add {w p s} :
      GoStep learned i ⟨.telling w none,p⟩ s ⟨.idle,p⟩
        { s with
          cache := s.cache.update (w.ip,some w.nb.mac)
          pending := s.pending.erase (i,(w.ip,some w.nb.mac)) }

end

/-! One step -/

def Goroutine.holds (g : Goroutine) : Bool :=
  match g.phase with
  | .locked _ => true
  | .loaded _ _ => true
  | .storing _ _ _ => true
  | .stored _ _ _ => true
  | .unlocking _ _ => true
  | _ => false

structure Reports (published : List (Table × Table)) (w : Call) (r : Change) : Prop where
  change : r.changed=true → ∃ old new, published = [(old,new)] ∧
    Neighbors.Differs old new w.ip w.nb r.evicted
  none : r.changed=false → published = [] ∧ r.evicted=none

def Goroutine.tells (g : Goroutine) : Option Update :=
  match g.phase with
  | .telling _ (some a) => some (a,none)
  | .telling w none => some (w.ip,some w.nb.mac)
  | _ => none

/-- What is true of a goroutine while the table is `n`. -/
def Goroutine.Sound (n : Neighbors) (g : Goroutine) : Prop :=
  match g.phase with
  | .idle => True
  | .checking _ _ => g.published = []
  | .waiting _ => g.published = []
  | .locked _ => g.published = []
  | .loaded _ old => g.published = [] ∧ old=n.m
  | .storing w next r => g.published = [] ∧ r.changed=true ∧ ∃ order now,
      order.Perm n.m.entries ∧ n.write order now w.ip w.nb=(next,r)
  | .stored w _ r => Reports g.published w r
  | .unlocking w r => Reports g.published w r
  | .returned w r => Reports g.published w r
  | .telling _ _ => True

theorem reports_nothing (w : Call) : Reports [] w {} :=
  ⟨fun h => absurd h Bool.false_ne_true,fun _ => ⟨rfl,rfl⟩⟩

section
variable {ι : Type} [DecidableEq ι] {learned : Bool} {i : ι} {g g' : Goroutine} {s s' : Shared ι}

theorem GoStep.table (h : GoStep learned i g s g' s') : s'.n=s.n ∨ g.holds=true := by
  cases h with
  | store | stamp => exact .inr rfl
  | _ => exact .inl rfl

theorem GoStep.lockStep (h : GoStep learned i g s g' s') (hi : g.holds=true → s.mu=some i) :
    Threads.LockStep i s.mu g.holds s'.mu g'.holds := by
  cases h with
  | lock h =>
    rw [h]
    exact .take
  | unlock =>
    rw [hi rfl]
    exact .give
  | _ => exact .keep _ _

theorem Goroutine.Sound.free {n : Neighbors} (h : g.Sound n) (hg : g.holds=false) (n' : Neighbors) :
    g.Sound n' := by
  obtain ⟨phase,p⟩ := g
  cases phase with
  | loaded _ _ | storing _ _ _ => cases hg
  | _ => exact h

theorem GoStep.sound (h : GoStep learned i g s g' s') (hg : g.Sound s.n) : g'.Sound s'.n := by
  cases h with
  | learn _ _ | pin _ _ => exact rfl
  | pass _ _ | lock _ | stamp | unlock => exact hg
  | refuse looked hpass =>
    subst hg
    exact reports_nothing _
  | load => exact ⟨hg,rfl⟩
  | copy order now ho hw hr =>
    obtain ⟨hp,rfl⟩ := hg
    exact ⟨hp,hr,order,now,ho,hw⟩
  | keep order now ho hw hr =>
    obtain ⟨hp,rfl⟩ := hg
    subst hp
    rw [Neighbors.write_unchanged ho hw hr]
    exact reports_nothing _
  | store =>
    obtain ⟨hp,hr,order,now,ho,hw⟩ := hg
    subst hp
    refine ⟨fun _ => ⟨_,_,rfl,(Neighbors.write_changed ho hw hr).1⟩,fun hno => ?_⟩
    rw [hr] at hno
    cases hno
  | tell _ _ | quiet _ | remove | add => exact trivial

/-! Runs -/

variable {c : Threads ι Goroutine (Shared ι)}

def started (ι : Type) : Threads ι Goroutine (Shared ι) := ⟨fun _ => {},{}⟩

structure Sound (c : Threads ι Goroutine (Shared ι)) : Prop where
  locked : c.Locked Shared.mu Goroutine.holds
  size : c.shared.n.size ≤ maxNeighbors
  each : ∀ i, (c.own i).Sound c.shared.n

omit [DecidableEq ι] in
theorem started_sound : Sound (started ι) where
  locked i := by simp [started,Goroutine.holds]
  size := Nat.zero_le _
  each _ := trivial

theorem GoStep.size (h : GoStep learned i g s g' s')
    (hg : g.Sound s.n) (hs : s.n.size ≤ maxNeighbors) : s'.n.size ≤ maxNeighbors := by
  cases h with
  | store =>
    obtain ⟨-,hr,order,now,ho,hw⟩ := hg
    exact (Neighbors.write_changed ho hw hr).2 hs
  | _ => exact hs

theorem Sound.move (h : Sound c) (hs : GoStep learned i (c.own i) c.shared g s) :
    Sound (c.move i g s) where
  locked := h.locked.move (hs.lockStep (h.locked i).mpr)
  size := hs.size (h.each i) h.size
  each := by
    refine Threads.forall_move (hs.sound (h.each i)) fun j hj => ?_
    rcases hs.table with hn | hi
    · rw [Threads.move_shared,hn]
      exact h.each j
    · cases hjh : (c.own j).holds with
      | true => exact absurd (h.locked.unique hi hjh) hj
      | false => exact (h.each j).free hjh s.n

theorem Sound.run (h : (started ι).Run (GoStep learned) c) : Sound c :=
  h.invariant (fun _ _ _ _ hc hs => hc.move hs) started_sound

def Goroutine.pins (g : Goroutine) (a : IPv4) (mac : MAC) : Prop :=
  ∃ next r, g.phase = .storing ⟨a,{ mac := mac, pinned := true }⟩ next r

theorem GoStep.pinned (h : GoStep learned i g s g' s')
    (hg : g.Sound s.n) {a : IPv4} {mac : MAC} (hp : s.n.Pinned a mac) :
    s'.n.Pinned a mac ∨ ∃ mac', g.pins a mac' ∧ s'.n.Pinned a mac' := by
  cases h with
  | @store w next r p =>
    obtain ⟨-,hr,order,now,ho,hw⟩ := hg
    by_cases hpin : w.ip=a ∧ w.nb.pinned=true
    · obtain ⟨ip,mac',pinned⟩ := w
      obtain ⟨rfl,rfl⟩ := hpin
      exact .inr ⟨mac',⟨next,r,rfl⟩,(Neighbors.write_changed ho hw hr).1.entry⟩
    have hlearn : w.ip=a → w.nb.pinned=false := by
      intro heq
      cases hb : w.nb.pinned with
      | true => exact absurd ⟨heq,hb⟩ hpin
      | false => rfl
    have hkept := hp.write ho now hlearn
    rw [hw] at hkept
    exact .inl hkept
  | _ => exact .inl hp

theorem write_runs {step : ι → Goroutine → Shared ι → Goroutine → Shared ι → Prop}
    {c0 : Threads ι Goroutine (Shared ι)} {w : Call}
    {order : List Entry} {now : Int64} {next : Neighbors} {r : Change}
    (hstep : ∀ g s g' s', GoStep learned i g s g' s' → g.tells=none → step i g s g' s')
    (h : c0.Run step (c.move i ⟨.waiting w,[]⟩ s)) (hmu : s.mu=none)
    (ho : order.Perm s.n.m.entries) (hw : s.n.write order now w.ip w.nb=(next,r))
    (hr : r.changed=true) : c0.Run step (c.move i ⟨.returned w r,[(s.n.m,next.m)]⟩
      { s with n := next, mu := none, pending := s.pending++(w.updates r).map (i,·) }) := by
  have hlocked := h.on (hstep _ _ _ _ (.lock hmu) rfl)
  have hloaded := hlocked.on (hstep _ _ _ _ .load rfl)
  have hcopied := hloaded.on (hstep _ _ _ _ (.copy order now ho hw hr) rfl)
  have hstored := hcopied.on (hstep _ _ _ _ .store rfl)
  have hstamped := hstored.on (hstep _ _ _ _ .stamp rfl)
  exact hstamped.on (hstep _ _ _ _ .unlock rfl)

/-- After any interleaving of learn and pin the table is within its bound, no step changes a
pinned entry but a pin of its address, and each call that has returned published what it
reports. -/
theorem neighbors_interleaved (learned : Bool) (c : Threads ι Goroutine (Shared ι))
    (h : (started ι).Run (GoStep learned) c) : c.shared.n.size ≤ maxNeighbors ∧
    (∀ c' a mac, c.Step (GoStep learned) c' → c.shared.n.Pinned a mac →
      c'.shared.n.Pinned a mac ∨ ∃ i mac', (c.own i).pins a mac' ∧ c'.shared.n.Pinned a mac') ∧
    ∀ i w r, (c.own i).phase = .returned w r → Reports (c.own i).published w r := by
  have hsound := Sound.run h
  refine ⟨hsound.size,fun c' a mac hstep hp => ?_,fun i w r hi => ?_⟩
  · cases hstep with
    | @of i g s hs =>
      rcases hs.pinned (hsound.each i) hp with hkept | ⟨mac',hpins,hnew⟩
      · exact .inl hkept
      · exact .inr ⟨i,mac',hpins,hnew⟩
  · have hg := hsound.each i
    rwa [Goroutine.Sound,hi] at hg

def firstMAC : MAC := [2,0,0,0,0,1].get

def learnedFirst : Neighbors × Change := newNeighbors.write [] 0 (nthIP 0) { mac := firstMAC }

def firstCall : Call := ⟨nthIP 0,{ mac := firstMAC }⟩

def afterFirst : Threads Bool Goroutine (Shared Bool) :=
  (started Bool).move false ⟨.returned firstCall learnedFirst.2,[(∅,learnedFirst.1.m)]⟩
    { n := learnedFirst.1, pending := [(false,(nthIP 0,some firstMAC))] }

theorem afterFirst_run {step : Bool → Goroutine → Shared Bool → Goroutine → Shared Bool → Prop}
    (hstep : ∀ g s g' s', GoStep true false g s g' s' → g.tells=none → step false g s g' s') :
    (started Bool).Run step afterFirst := by
  have hchecking : (started Bool).Run step
      ((started Bool).move false ⟨.checking firstCall ∅,[]⟩ {}) :=
    Relation.ReflTransGen.single (.of (hstep _ _ _ _ (.learn (nthIP 0) firstMAC) rfl))
  have hwaiting := hchecking.on (hstep _ _ _ _ (.pass 0 rfl) rfl)
  have hw : newNeighbors.write [] 0 firstCall.ip firstCall.nb=(learnedFirst.1,learnedFirst.2) := rfl
  exact write_runs hstep hwaiting rfl (List.Perm.refl []) hw rfl

def secondMAC : MAC := [2,0,0,0,0,2].get

def secondCall : Call := ⟨nthIP 0,{ mac := secondMAC, pinned := true }⟩

def pinnedSecond : Neighbors × Change :=
  learnedFirst.1.write learnedFirst.1.m.entries 0 secondCall.ip secondCall.nb

/-- Another goroutine pins the address before the first has told of what it learned. -/
def afterSecond : Threads Bool Goroutine (Shared Bool) :=
  afterFirst.move true ⟨.returned secondCall pinnedSecond.2,[(learnedFirst.1.m,pinnedSecond.1.m)]⟩
    { n := pinnedSecond.1
      pending := [(false,(nthIP 0,some firstMAC)),(true,(nthIP 0,some secondMAC))] }

theorem afterSecond_run {step : Bool → Goroutine → Shared Bool → Goroutine → Shared Bool → Prop}
    (hstep : ∀ i g s g' s', GoStep true i g s g' s' → g.tells=none → step i g s g' s') :
    (started Bool).Run step afterSecond := by
  have hwaiting := (afterFirst_run (hstep false)).next (i := true) rfl
    (hstep true _ _ _ _ (.pin (p := []) (nthIP 0) secondMAC) rfl)
  have hw : afterFirst.shared.n.write learnedFirst.1.m.entries 0 secondCall.ip secondCall.nb =
      (pinnedSecond.1,pinnedSecond.2) := rfl
  exact write_runs (hstep true) hwaiting rfl (List.Perm.refl _) hw rfl

theorem neighbors_interleaved_second : (started Bool).Run (GoStep true) afterSecond ∧
    afterSecond.shared.n.size ≤ maxNeighbors ∧
    Reports (afterSecond.own false).published firstCall { changed := true } ∧
    Reports (afterSecond.own true).published secondCall { changed := true } := by
  have hrun : (started Bool).Run (GoStep true) afterSecond := afterSecond_run fun _ _ _ _ _ h _ => h
  obtain ⟨hsize,-,hreports⟩ := neighbors_interleaved true afterSecond hrun
  exact ⟨hrun,hsize,hreports false firstCall { changed := true } rfl,
    hreports true secondCall { changed := true } rfl⟩

end

end Packetio.Netstack

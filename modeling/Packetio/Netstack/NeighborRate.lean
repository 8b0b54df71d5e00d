import Packetio.Netstack.NeighborThreads

/-! How often learning may write the neighbor table (neigh.go): a clock that does not go back is
read under the mutex, and a learned write that replaces an entry waits for the interval. -/
namespace Packetio.Netstack
open Lib List

theorem spaced {a b : Int64} (hle : a≤b) (h : ¬ b-a<writeInterval) :
    a.toInt+writeInterval.toInt≤b.toInt := by
  rw [Int64.le_iff_toInt_le] at hle
  rw [Int64.lt_iff_toInt_lt,Int64.toInt_sub] at h
  have ha := a.le_toInt
  have hb := b.toInt_lt
  have hmod : (b.toInt-a.toInt).bmod (2^64)=b.toInt-a.toInt ∨
      (b.toInt-a.toInt).bmod (2^64)=b.toInt-a.toInt-2^64 := by
    rw [Int.bmod_def]
    omega
  omega

/-! Interleavings -/

structure Written where
  w : Call
  known : Bool
  evicted : Option IPv4
  time : Int64

def Written.Replaces (x : Written) : Prop :=
  x.w.nb.pinned=false ∧ (x.known=true ∨ x.evicted.isSome=true)

structure History where
  clock : Int64
  writes : List Written := []

def Goroutine.found (g : Goroutine) (w : Call) : Bool :=
  g.published.any fun t => (t.1.lookup w.ip).isSome

def History.after (h : History) (g : Goroutine) : History :=
  match g.phase with
  | .stored w next r => { h with writes := h.writes++[⟨w,g.found w,r.evicted,next.lastWrite⟩] }
  | _ => h

def Goroutine.reads (g : Goroutine) : Bool :=
  match g.phase with
  | .checking _ _ => true
  | .loaded _ _ => true
  | _ => false

section
variable {ι : Type} [DecidableEq ι]

inductive TimedStep (learned : Bool) (i : ι) :
    Goroutine → Shared ι × History → Goroutine → Shared ι × History → Prop
  | look {w m p s h} (looked : Int64) (hclock : h.clock≤looked) :
      TimedStep learned i ⟨.checking w m,p⟩ (s,h)
        ⟨if Neighbors.passes { lastWrite := s.n.lastWrite, m := m } looked w.ip w.nb.mac then
          .waiting w else .returned w {},p⟩ (s,{ h with clock := looked })
  | copy {w old p s h next r} (order : List Entry) (now : Int64) (hclock : h.clock≤now)
      (ho : order.Perm old.entries)
      (hw : Neighbors.write { lastWrite := s.n.lastWrite, m := old } order now w.ip w.nb=(next,r)) :
      TimedStep learned i ⟨.loaded w old,p⟩ (s,h)
        ⟨if r.changed then .storing w next r else .unlocking w r,p⟩ (s,{ h with clock := now })
  | other {g s h g' s'} (hs : GoStep learned i g s g' s') (hg : g.reads=false) :
      TimedStep learned i g (s,h) g' (s',h.after g)

variable {learned : Bool} {i : ι} {g g' : Goroutine} {s s' : Shared ι} {h h' : History}

theorem TimedStep.goStep (hs : TimedStep learned i g (s,h) g' (s',h')) :
    GoStep learned i g s g' s' := by
  cases hs with
  | look looked hclock =>
    split
    case isTrue hpass => exact .pass looked hpass
    case isFalse hpass => exact .refuse looked (by simpa using hpass)
  | copy order now hclock ho hw =>
    split
    case isTrue hr => exact .copy order now ho hw hr
    case isFalse hr => exact .keep order now ho hw (by simpa using hr)
  | other hs hg => exact hs

structure Stamped (last : Int64) (h : History) (w : Call) (known : Bool) (time : Int64)
    (r : Change) : Prop where
  read : time≤h.clock
  later : h.writes ≠ [] → last≤time
  spaced : w.nb.pinned=false → known=true ∨ r.evicted.isSome=true →
    ¬ time-last<writeInterval

structure History.Sound (last : Int64) (h : History) : Prop where
  clock : h.writes ≠ [] → last≤h.clock
  before : ∀ x∈h.writes, x.time≤last
  apart : h.writes.Pairwise fun a b => b.Replaces → a.time.toInt+writeInterval.toInt≤b.time.toInt

def Goroutine.Stamps (n : Neighbors) (h : History) (g : Goroutine) : Prop :=
  match g.phase with
  | .storing w next r => Stamped n.lastWrite h w (n.m.lookup w.ip).isSome next.lastWrite r
  | .stored w next r => Stamped n.lastWrite h w (g.found w) next.lastWrite r
  | _ => True

theorem History.Sound.stamp {last time : Int64} {w : Call} {known : Bool} {r : Change}
    (hh : h.Sound last) (hg : Stamped last h w known time r) :
    History.Sound time { h with writes := h.writes++[⟨w,known,r.evicted,time⟩] } where
  clock _ := hg.read
  before x hx := by
    rcases mem_append.mp hx with hx | hx
    · exact Int64.le_trans (hh.before x hx) (hg.later (ne_nil_of_mem hx))
    · rw [mem_singleton.mp hx]
      exact Int64.le_refl _
  apart := by
    refine pairwise_append.mpr ⟨hh.apart,pairwise_singleton _ _,fun a ha b hb hrep => ?_⟩
    cases mem_singleton.mp hb
    have hlast := hh.before a ha
    have hgap := Netstack.spaced (hg.later (ne_nil_of_mem ha)) (hg.spaced hrep.1 hrep.2)
    rw [Int64.le_iff_toInt_le] at hlast
    change _≤time.toInt
    omega

theorem TimedStep.timed (hs : TimedStep learned i g (s,h) g' (s',h')) (hg : g.Sound s.n)
    (ht : g.Stamps s.n h) (hh : h.Sound s.n.lastWrite) :
    g'.Stamps s'.n h' ∧ h'.Sound s'.n.lastWrite := by
  cases hs with
  | look looked hclock =>
    refine ⟨?_,fun hne => Int64.le_trans (hh.clock hne) hclock,hh.before,hh.apart⟩
    split
    case isTrue | isFalse => exact trivial
  | @copy w old p _ _ next r order now hclock ho hw =>
    refine ⟨?_,fun hne => Int64.le_trans (hh.clock hne) hclock,hh.before,hh.apart⟩
    obtain ⟨-,rfl⟩ := hg
    split
    case isFalse => exact trivial
    rename_i hr
    obtain ⟨htime,-,-,hthrottle⟩ := Neighbors.write_made ho hw hr
    refine ⟨by rw [htime]; exact Int64.le_refl _,fun hne => ?_,?_⟩
    · rw [htime]
      exact Int64.le_trans (hh.clock hne) hclock
    · rwa [htime]
  | other hs hread =>
    cases hs with
    | store =>
      obtain ⟨hp,-⟩ := hg
      subst hp
      refine ⟨⟨ht.read,ht.later,fun hlearn hold => ht.spaced hlearn ?_⟩,hh⟩
      simpa [Goroutine.found] using hold
    | stamp => exact ⟨trivial,hh.stamp ht⟩
    | pass _ _ | refuse _ _ | copy _ _ _ _ _ | keep _ _ _ _ _ => cases hread
    | _ => exact ⟨trivial,hh⟩

theorem Goroutine.stamps_free {n : Neighbors} (hg : g.holds=false) : g.Stamps n h := by
  obtain ⟨phase,p⟩ := g
  cases phase with
  | storing _ _ _ | stored _ _ _ => cases hg
  | _ => exact trivial

theorem Goroutine.Stamps.later {n : Neighbors} {t : Int64} (hg : g.Stamps n h) (ht : h.clock≤t) :
    g.Stamps n { h with clock := t } := by
  obtain ⟨phase,p⟩ := g
  cases phase with
  | storing _ _ _ | stored _ _ _ => exact ⟨Int64.le_trans hg.read ht,hg.later,hg.spaced⟩
  | _ => exact trivial

theorem TimedStep.unlocked (hs : TimedStep learned i g (s,h) g' (s',h')) (hg : g.holds=false) :
    ∃ t, h.clock≤t ∧ h'={ h with clock := t } := by
  cases hs with
  | look looked hclock => exact ⟨looked,hclock,rfl⟩
  | copy => cases hg
  | other hs hread =>
    refine ⟨h.clock,Int64.le_refl _,?_⟩
    obtain ⟨phase,p⟩ := g
    cases phase with
    | stored w next r => cases hg
    | _ => rfl

/-- No goroutine is in a call yet, and the clock shows `t`. -/
def startedAt (ι : Type) (t : Int64) : Threads ι Goroutine (Shared ι × History) :=
  ⟨fun _ => {},({},{ clock := t })⟩

structure TimeSound (c : Threads ι Goroutine (Shared ι × History)) : Prop where
  sound : Sound ⟨c.own,c.shared.1⟩
  stamps : ∀ j, (c.own j).Stamps c.shared.1.n c.shared.2
  history : c.shared.2.Sound c.shared.1.n.lastWrite

theorem TimeSound.move {c : Threads ι Goroutine (Shared ι × History)} (hc : TimeSound c)
    {x : Shared ι × History} (hs : TimedStep learned i (c.own i) c.shared g x) :
    TimeSound (c.move i g x) := by
  obtain ⟨hstamp,hhist⟩ := hs.timed (hc.sound.each i) (hc.stamps i) hc.history
  refine ⟨hc.sound.move hs.goStep,Threads.forall_move hstamp fun j hj => ?_,hhist⟩
  cases hi : (c.own i).holds with
  | true =>
    refine Goroutine.stamps_free ?_
    cases hjh : (c.own j).holds with
    | true => exact absurd (hc.sound.locked.unique hi hjh) hj
    | false => rfl
  | false =>
    obtain ⟨t,ht,hx⟩ := hs.unlocked hi
    have hn := hs.goStep.table.resolve_right (by rw [hi]; simp)
    rw [Threads.move_shared,hx,hn]
    exact (hc.stamps j).later ht

omit [DecidableEq ι] in
theorem startedAt_sound (t : Int64) : TimeSound (startedAt ι t) :=
  ⟨started_sound,fun _ => trivial,fun hne => absurd rfl hne,by simp [startedAt],.nil⟩

/-- Over any run of learning and pinning threads, two writes that replace a known address by
learning are at least the write interval apart. -/
theorem learned_writes_spaced (learned : Bool) (t : Int64)
    (c : Threads ι Goroutine (Shared ι × History))
    (h : (startedAt ι t).Run (TimedStep learned) c) : c.shared.2.writes.Pairwise fun a b =>
      a.Replaces → b.Replaces → a.time.toInt+writeInterval.toInt≤b.time.toInt := by
  have hsound := h.invariant (fun _ _ _ _ hc hs => hc.move hs) (startedAt_sound t)
  refine hsound.history.apart.imp ?_
  intro a b hgap _
  exact hgap

theorem learn_runs {c0 c : Threads ι Goroutine (Shared ι × History)} {p : List (Table × Table)}
    (hrun : c0.Run (TimedStep false) (c.move i ⟨.idle,p⟩ (s,h))) (hmu : s.mu=none) (ip : IPv4)
    (mac : MAC) (now : Int64) (hclock : h.clock≤now) (hpass : s.n.passes now ip mac=true)
    (next : Neighbors) (r : Change) (hr : r.changed=true)
    (hw : s.n.write s.n.m.entries now ip { mac := mac }=(next,r)) :
    ∃ p' pending, c0.Run (TimedStep false) (c.move i ⟨.idle,p'⟩
      ({ s with n := next, mu := none, pending },
        ⟨now,h.writes++[⟨⟨ip,{ mac := mac }⟩,(s.n.m.lookup ip).isSome,r.evicted,
          next.lastWrite⟩]⟩)) := by
  have hlooking := (hrun.on (.other (.learn ip mac) rfl)).on (.look now hclock)
  rw [if_pos hpass] at hlooking
  have hloaded := (hlooking.on (.other (.lock hmu) rfl)).on (.other .load rfl)
  have hcopied := hloaded.on (.copy _ now (Int64.le_refl _) (List.Perm.refl _) hw)
  rw [if_pos hr] at hcopied
  have hstamped := (hcopied.on (.other .store rfl)).on (.other .stamp rfl)
  have hdone := (hstamped.on (.other .unlock rfl)).on (.other (.quiet (by simp)) rfl)
  refine ⟨[(s.n.m,next.m)],s.pending++(Call.updates ⟨ip,{ mac := mac }⟩ r).map (i,·),?_⟩
  simpa [History.after,Goroutine.found] using hdone

/-- The table with one address, learned at time `t`. -/
def learnedOnce (mac : UInt8) (t : Int64) : Neighbors :=
  { lastWrite := t, m := (∅ : Table).insert (nthIP 0) { mac := fun _ => mac } }

theorem learnedOnce_write {a b : UInt8} {t now : Int64} (hne : (fun _ : Fin 6 => a)≠fun _ => b)
    (ht : ¬ now-t<writeInterval) : (learnedOnce a t).write (learnedOnce a t).m.entries now (nthIP 0)
      { mac := fun _ => b }=(learnedOnce b now,{ changed := true }) := by
  have hlook : (learnedOnce a t).m.lookup (nthIP 0)=some { mac := fun _ => a } :=
    AList.lookup_insert _
  have hlast : (learnedOnce a t).lastWrite=t := rfl
  have hentries : (learnedOnce a t).m.entries=[⟨nthIP 0,{ mac := fun _ => a }⟩] := rfl
  simp [Neighbors.write,hlook,hlast,hentries,hne,ht,copyTable]
  rfl

theorem learned_writes_spaced_twice : ∃ c : Threads Bool Goroutine (Shared Bool × History),
    (startedAt Bool 0).Run (TimedStep false) c ∧
    c.shared.2.writes.map (fun x => (x.known,x.time)) =
    [(false,0),(true,10000000),(true,20000000)] ∧
    c.shared.2.writes.Pairwise fun a b =>
      a.Replaces → b.Replaces → a.time.toInt+writeInterval.toInt≤b.time.toInt := by
  have hstart : (startedAt Bool 0).Run (TimedStep false)
      ((startedAt Bool 0).move false ⟨.idle,[]⟩ ({},{ clock := 0 })) := by
    have hsame : (startedAt Bool 0).move false ⟨.idle,[]⟩ ({},{ clock := 0 })=startedAt Bool 0 :=
      congrArg (Threads.mk · _) (Function.update_eq_self _ _)
    rw [hsame]
    exact .refl
  obtain ⟨p1,pending1,h1⟩ := learn_runs hstart rfl (nthIP 0) (fun _ => 0) 0 (Int64.le_refl 0) rfl
    (learnedOnce 0 0) { changed := true } rfl rfl
  have hpass1 : (learnedOnce 0 0).passes 10000000 (nthIP 0) (fun _ => 1)=true := by decide +kernel
  have hpass2 : (learnedOnce 1 10000000).passes 20000000 (nthIP 0) (fun _ => 2)=true := by
    decide +kernel
  have hle : (10000000 : Int64)≤20000000 := by decide
  obtain ⟨p2,pending2,h2⟩ := learn_runs h1 rfl (nthIP 0) (fun _ => 1) 10000000 (by decide) hpass1
    (learnedOnce 1 10000000) { changed := true } rfl (learnedOnce_write (by decide) (by decide))
  obtain ⟨p3,pending3,h3⟩ := learn_runs h2 rfl (nthIP 0) (fun _ => 2) 20000000 hle hpass2
    (learnedOnce 2 20000000) { changed := true } rfl (learnedOnce_write (by decide) (by decide))
  exact ⟨_,h3,rfl,learned_writes_spaced false 0 _ h3⟩

end

/-! Sequences -/

namespace Neighbors
variable {n : Neighbors} {order : List Entry} {now : Int64} {ip : IPv4} {nb : Neighbor}

def copies (n : Neighbors) (now : Int64) (ip : IPv4) (nb : Neighbor) : Bool :=
  let known := n.m.lookup ip
  let evict := known.isNone && decide (maxNeighbors≤n.size)
  !decide (known=some nb) && !(known.any (·.pinned) && !nb.pinned) &&
    !(!nb.pinned && (known.isSome || evict) && decide (now-n.lastWrite<writeInterval))

theorem write_copies (n : Neighbors) (order : List Entry) (now : Int64) (ip : IPv4)
    (nb : Neighbor) :
    n.write order now ip nb=
      let c := copyTable order { evict := (n.m.lookup ip).isNone && decide (maxNeighbors≤n.size) }
      if n.copies now ip nb=false ∨ c.evict then (n,{})
      else ({ lastWrite := now, m := c.m.insert ip nb },
        { changed := true, evicted := c.evicted }) := by
  simp only [write,copies]
  split
  case isTrue h => simp [h]
  rename_i h
  split
  case isTrue h' => simp [h']
  rename_i h'
  split
  case isTrue h'' => simp [h'']
  case isFalse h'' => simp [h,h',h'']

theorem copies_changes (ho : order.Perm n.m.entries) (hroom : n.Room ip) :
    (n.write order now ip nb).2.changed=n.copies now ip nb := by
  rw [write_copies]
  cases n.copies now ip nb with
  | false => simp
  | true => simp [show ¬ _ from fun hevict => (evict_iff ho).mp hevict hroom]

end Neighbors

namespace NeighborEvent

def now : NeighborEvent → Int64
  | .learn _ _ _ now _ _ => now
  | .add _ now _ _ => now

def copies (n : Neighbors) : NeighborEvent → Bool
  | .learn seen _ looked now ip mac => seen.passes looked ip mac && n.copies now ip { mac := mac }
  | .add _ _ _ _ => false

def Fits (n : Neighbors) : NeighborEvent → Prop
  | .learn _ _ _ _ ip _ => n.Room ip
  | .add _ _ _ _ => True

end NeighborEvent

def copyCount : Neighbors → List NeighborEvent → Nat
  | _, [] => 0
  | n, ev::rest => (if ev.copies n then 1 else 0)+copyCount (ev.run n) rest

def Clocked : Neighbors → Int64 → List NeighborEvent → Prop
  | _, _, [] => True
  | n, t, ev::rest => t≤ev.now ∧ ev.Orders n ∧ Clocked (ev.run n) ev.now rest

def AllFit : Neighbors → List NeighborEvent → Prop
  | _, [] => True
  | n, ev::rest => ev.Fits n ∧ AllFit (ev.run n) rest

theorem event_effect {n : Neighbors} {ev : NeighborEvent} (ho : ev.Orders n) (hfit : ev.Fits n) :
    ev.run n=n ∧ ev.copies n=false ∨ (ev.run n).lastWrite=ev.now ∧ n.size≤(ev.run n).size ∧
      (ev.copies n=true → ¬ ev.now-n.lastWrite<writeInterval ∨
        n.size < maxNeighbors ∧ (ev.run n).size=n.size+1) := by
  cases ev with
  | learn seen order looked now ip mac =>
    simp only [NeighborEvent.run,NeighborEvent.copies,Neighbors.learn_eq,NeighborEvent.now]
    rcases seen.passes looked ip mac with _ | _
    · exact .inl ⟨rfl,rfl⟩
    rw [← Neighbors.copies_changes ho hfit,if_pos rfl]
    rcases Neighbors.write_cases ho now ip { mac := mac } with hsame |
      ⟨m,evicted,hchange,-,hgrown,hthr⟩
    · exact .inl (by rw [hsame]; exact ⟨rfl,rfl⟩)
    rw [hchange]
    refine .inr ⟨rfl,hgrown.bounds.1,fun _ => ?_⟩
    by_cases hold : (n.m.lookup ip).isSome=true ∨ evicted.isSome=true
    · exact .inl (hthr rfl hold)
    · rw [not_or,Bool.not_eq_true,Bool.not_eq_true] at hold
      exact .inr (hgrown.more hold.1 hold.2)
  | add order now ip mac =>
    rw [NeighborEvent.run]
    rcases n.addNeighbor_cases order now ip mac with ⟨a,m,-,-,hadd⟩ | hadd
    · rw [hadd]
      rcases Neighbors.write_cases ho now a { mac := m, pinned := true } with
        hsame | ⟨m',evicted,hchange,-,hgrown,-⟩
      · exact .inl ⟨congrArg Prod.fst hsame,rfl⟩
      · rw [Neighbors.pin,hchange]
        exact .inr ⟨rfl,hgrown.bounds.1,fun hno => by cases hno⟩
    · exact .inl ⟨congrArg Prod.fst hadd,rfl⟩

theorem copyCount_le {last : Int} (es : List NeighborEvent) (n : Neighbors) (t : Int64)
    (soonest : Int)
    (hclock : Clocked n t es) (hfit : AllFit n es) (hlast : ∀ ev∈es, ev.now.toInt≤last)
    (hsoon : soonest≤t.toInt+writeInterval.toInt)
    (hnext : ∀ now, t≤now → ¬ now-n.lastWrite<writeInterval → soonest≤now.toInt) :
    copyCount n es ≤ maxNeighbors-n.size+
      (last+writeInterval.toInt-soonest).toNat/writeInterval.toInt.toNat := by
  have hw : writeInterval.toInt=10000000 := rfl
  have hn : writeInterval.toInt.toNat=10000000 := rfl
  rw [hn,hw]
  induction es generalizing n t soonest with
  | nil => exact Nat.zero_le _
  | cons ev es ih =>
    obtain ⟨ht,ho,hclock⟩ := hclock
    have hle := hlast ev mem_cons_self
    have ht' := Int64.le_iff_toInt_le.mp ht
    rw [copyCount]
    rcases event_effect ho hfit.1 with ⟨hsame,hno⟩ | ⟨hstamp,hsize,hcopy⟩
    · have hrest :=
        ih (ev.run n) ev.now soonest hclock hfit.2 (fun e he => hlast e (.tail _ he)) (by omega)
        fun now hnow => by
          rw [hsame]
          exact hnext now (Int64.le_trans ht hnow)
      rw [hsame] at hrest
      rw [hno,hsame]
      simpa using hrest
    have hrest := ih (ev.run n) ev.now (ev.now.toInt+10000000) hclock hfit.2
      (fun e he => hlast e (.tail _ he)) (by omega) fun now hnow hgap => by
        rw [hstamp] at hgap
        exact spaced hnow hgap
    split
    case isFalse => omega
    rename_i hcopied
    rcases hcopy hcopied with hgap | hmore
    · have := hnext ev.now ht hgap
      omega
    · omega

/-- Unless every entry is pinned and there is no room, learning copies the table at most once
for each entry it can hold and once an interval. -/
theorem learn_copies_bounded (n : Neighbors) (es : List NeighborEvent) (t : Int64) (T : Nat)
    (hclock : Clocked n t es) (hspan : ∀ ev∈es, ev.now.toInt≤t.toInt+T) (hfit : AllFit n es) :
    copyCount n es≤4096+T/writeInterval.toInt.toNat+1 := by
  have hw : writeInterval.toInt=10000000 := rfl
  have hn : writeInterval.toInt.toNat=10000000 := rfl
  have hmax : maxNeighbors=4096 := rfl
  have hall := copyCount_le es n t t.toInt hclock hfit hspan (by omega) fun now hnow _ =>
    Int64.le_iff_toInt_le.mp hnow
  rw [hn,hw] at hall
  rw [hn]
  omega

/-- One address, learned, then changed within the interval and again after it. -/
def learnThrice : List NeighborEvent :=
  [.learn newNeighbors [] 0 0 (nthIP 0) fun _ => 0,
    .learn (learnedOnce 0 0) (learnedOnce 0 0).m.entries 5000000 5000000 (nthIP 0) fun _ => 1,
    .learn (learnedOnce 0 0) (learnedOnce 0 0).m.entries 10000000 10000000 (nthIP 0) fun _ => 1]

theorem learn_copies_bounded_thrice :
    learnThrice.map (·.copies (learnedOnce 0 0))=[false,false,true] ∧
    copyCount newNeighbors learnThrice=2 ∧
    copyCount newNeighbors learnThrice≤4096+10000000/writeInterval.toInt.toNat+1 :=
  ⟨by decide +kernel,by decide +kernel,learn_copies_bounded newNeighbors learnThrice 0 10000000
    ⟨by decide,.refl _,by decide,.refl _,by decide,.refl _,trivial⟩ (by decide)
    ⟨.inr (.inl (by decide)),.inl (by decide),.inl (by decide),trivial⟩⟩

theorem seeded_lastWrite (i : Nat) : (seeded i).lastWrite=0 := by
  induction i with
  | zero => rfl
  | succ i ih =>
    rcases Neighbors.write_cases (List.Perm.refl _) 0 (nthIP i)
      { mac := someMAC.get, pinned := true } with
      hsame | ⟨m,evicted,hchange,-⟩
    · exact (congrArg (fun x => x.1.lastWrite) hsame).trans ih
    · exact congrArg (fun x => x.1.lastWrite) hchange

def forged : NeighborEvent :=
  .learn (seeded maxNeighbors) (seeded maxNeighbors).m.entries 10000000 10000000
    (nthIP maxNeighbors) firstMAC

theorem full_copies {n : Neighbors} {now : Int64} {ip : IPv4} (mac : MAC) (hfull : ¬ n.Room ip)
    (hlate : writeInterval≤now-n.lastWrite) :
    (NeighborEvent.learn n n.m.entries now now ip mac).copies n=true ∧
      (NeighborEvent.learn n n.m.entries now now ip mac).run n=n := by
  have hnone := AList.lookup_eq_none.mpr fun hmem => hfull (.inl hmem)
  have hevict := (Neighbors.evict_iff (List.Perm.refl _)).mpr hfull
  constructor
  · simp [NeighborEvent.copies,Neighbors.passes,Neighbors.copies,hnone,hlate]
  · simp only [NeighborEvent.run,Neighbors.learn_eq,Neighbors.write_copies,hevict]
    simp

/-- With the table full of pinned entries each frame costs a copy, all at one time. -/
theorem learn_copies_unbounded : Neighbors.Run newNeighbors (seeded maxNeighbors) ∧
    Clocked (seeded maxNeighbors) 10000000 (List.replicate 4098 forged) ∧
    (∀ ev∈List.replicate 4098 forged, ev.now.toInt≤(10000000 : Int64).toInt+(0 : Nat)) ∧
    4096+0/writeInterval.toInt.toNat+1<copyCount (seeded maxNeighbors)
    (List.replicate 4098 forged) := by
  have hlate : writeInterval≤10000000-(seeded maxNeighbors).lastWrite := by
    rw [seeded_lastWrite]
    decide
  obtain ⟨hcopies,hrun⟩ := full_copies firstMAC seeded_full hlate
  rw [← forged] at hcopies hrun
  refine ⟨seeded_run _,?_,fun ev hev => ?_,?_⟩
  · generalize 4098=k
    induction k with
    | zero => exact trivial
    | succ k ih =>
      refine ⟨Int64.le_refl _,List.Perm.refl _,?_⟩
      rwa [hrun]
  · rw [eq_of_mem_replicate hev]
    decide
  · have hall : ∀ k, copyCount (seeded maxNeighbors) (replicate k forged)=k := by
      intro k
      induction k with
      | zero => rfl
      | succ k ih => rw [replicate_succ,copyCount,hrun,ih,hcopies,if_pos rfl,add_comm]
    rw [hall]
    decide

end Packetio.Netstack

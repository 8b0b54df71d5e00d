import Packetio.Lib.Owed
import Packetio.Netstack.NeighborThreads

/-! The ARP cache of the stack against the neighbor table: a table is published under the
lock, and the cache is told after it. -/
namespace Packetio.Netstack
open Lib List Function

def Goroutine.due (g : Goroutine) : List Update :=
  match g.phase with
  | .stored w _ r => w.updates r
  | .unlocking w r => w.updates r
  | .returned w r => w.updates r
  | .telling w (some a) => [(a,none),(w.ip,some w.nb.mac)]
  | .telling w none => [(w.ip,some w.nb.mac)]
  | _ => []

theorem updates_unchanged (w : Call) {r : Change} (h : r.changed=false) : w.updates r = [] := by
  rw [Call.updates,h,if_neg Bool.false_ne_true]

theorem updates_changed (w : Call) {r : Change} (h : r.changed=true) :
    w.updates r=(r.evicted.toList.map fun a => (a,none))++[(w.ip,some w.nb.mac)] := by
  rw [Call.updates,h,if_pos rfl]

theorem lookup_updates {n next : Neighbors} {w : Call} {r : Change} (hr : r.changed=true)
    (h : Neighbors.Differs n.m next.m w.ip w.nb r.evicted) :
    next.lookup=updates n.lookup (w.updates r) := by
  funext a
  rw [updates_changed w hr,updates_append]
  simp only [updates,Neighbors.lookup]
  by_cases ha : a=w.ip
  · rw [ha,update_self,h.entry,Option.map_some]
  rw [update_of_ne ha]
  rcases hev : r.evicted with _ | k
  · rw [h.rest a ha (by simp [hev])]; rfl
  by_cases hk : a=k
  · rw [hk,(h.gone k hev).1]
    simp [updates]
  · rw [h.rest a ha (by simp [hev, Ne.symm hk])]
    simp [updates,hk,Neighbors.lookup]

section
variable {ι : Type} [DecidableEq ι]

def OrderedStep (i : ι) (g : Goroutine) (s : Shared ι) (g' : Goroutine) (s' : Shared ι) : Prop :=
  GoStep true i g s g' s' ∧
    ∀ u, g.tells=some u → s.pending.find? (fun x => x.2.1=u.1)=some (i,u)

variable {i : ι} {g g' : Goroutine} {s s' : Shared ι}

theorem GoStep.owes (h : GoStep true i g s g' s') (hg : g.Sound s.n) :
    (g'.due=g.due ∧ s'.pending=s.pending ∧ s'.cache=s.cache ∧ s'.n.lookup=s.n.lookup) ∨
    (g.due = [] ∧ s'.pending=s.pending++g'.due.map (i,·) ∧ s'.cache=s.cache ∧
      s'.n.lookup=updates s.n.lookup g'.due) ∨
    ∃ u, g.tells=some u ∧ g.due=u::g'.due ∧ s'.pending=s.pending.erase (i,u) ∧
      s'.cache=s.cache.update u ∧ s'.n.lookup=s.n.lookup := by
  cases h with
  | keep order now ho hw hr => exact .inl ⟨updates_unchanged _ hr,rfl,rfl,rfl⟩
  | store =>
    obtain ⟨-,hr,order,now,ho,hw⟩ := hg
    exact .inr (.inl ⟨rfl,rfl,rfl,lookup_updates hr (Neighbors.write_changed ho hw hr).1⟩)
  | @tell w r _ _ hr _ =>
    refine .inl ⟨?_,rfl,rfl,rfl⟩
    change _=w.updates r
    rw [updates_changed w hr]
    cases r.evicted with
    | none | some _ => rfl
  | @quiet w r _ _ hr =>
    have hsame : r.changed=false := by simpa using hr
    exact .inl ⟨(updates_unchanged w hsame).symm,rfl,rfl,rfl⟩
  | remove | add => exact .inr (.inr ⟨_,rfl,rfl,rfl,rfl,rfl⟩)
  | _ => exact .inl ⟨rfl,rfl,rfl,rfl⟩

structure Owing (c : Threads ι Goroutine (Shared ι)) : Prop where
  owed : Owed c.shared.pending fun i => (c.own i).due
  settles : updates c.shared.cache (c.shared.pending.map Prod.snd)=c.shared.n.lookup

theorem due_move (c : Threads ι Goroutine (Shared ι)) (i : ι) (g : Goroutine) (s : Shared ι) :
    (fun j => ((c.move i g s).own j).due)=Function.update (fun j => (c.own j).due) i g.due := by
  funext j
  by_cases hj : j=i
  · rw [hj,Threads.move_own,update_self]
  · rw [Threads.move_other hj,update_of_ne hj]

theorem settles_first {pending : List (ι × Update)} {u : Update} (cache : Cache)
    (h : pending.find? (fun x => x.2.1=u.1)=some (i,u)) :
    updates (cache.update u) ((pending.erase (i,u)).map Prod.snd) =
      updates cache (pending.map Prod.snd) := by
  obtain ⟨-,front,rest,hsplit,hfront⟩ := find?_eq_some_iff_append.mp h
  have hother : ∀ x∈front, x.2.1≠u.1 := by simpa using hfront
  have hnot : (i,u)∉front := fun hmem => hother _ hmem rfl
  rw [hsplit,erase_append_right _ hnot,erase_cons_head,map_append,map_append,
    map_cons,updates_ahead]
  · rfl
  · intro x hx
    obtain ⟨y,hy,rfl⟩ := mem_map.mp hx
    exact hother y hy

theorem Owing.move {c : Threads ι Goroutine (Shared ι)} (h : Owing c) (hc : Sound c)
    (hs : OrderedStep i (c.own i) c.shared g s) : Owing (c.move i g s) := by
  obtain ⟨hstep,hfirst⟩ := hs
  have howed := h.owed
  have hsettles := h.settles
  rcases hstep.owes (hc.each i) with ⟨hdue,hp,hcache,hn⟩ | ⟨hdue,hp,hcache,hn⟩ |
    ⟨u,hu,hdue,hp,hcache,hn⟩
  · refine ⟨?_,?_⟩
    · rwa [due_move,Threads.move_shared,hp,hdue,update_eq_self]
    · rwa [Threads.move_shared,hp,hcache,hn]
  · refine ⟨?_,?_⟩
    · rw [due_move,Threads.move_shared,hp]
      exact howed.issue hdue g.due
    · rw [Threads.move_shared,hp,hcache,hn,map_append,updates_append,hsettles,map_map]
      exact congrArg _ (map_id _)
  · refine ⟨?_,?_⟩
    · rw [due_move,Threads.move_shared,hp]
      exact howed.make hdue
    · rwa [Threads.move_shared,hp,hcache,hn,settles_first _ (hfirst u hu)]

theorem Owing.run {c : Threads ι Goroutine (Shared ι)} (h : (started ι).Run OrderedStep c) :
    Sound c ∧ Owing c := by
  refine h.invariant (I := fun c => Sound c ∧ Owing c)
    (fun c i g s hc hs => ⟨hc.1.move hs.1,hc.2.move hc.1 hs⟩) ⟨started_sound,?_,?_⟩
  · exact fun _ _ => rfl
  · funext a
    rfl

/-- Once all calls have returned the cache has what the table has, if the updates of each
address were made in the order of the tables. -/
theorem cache_in_step (c : Threads ι Goroutine (Shared ι)) (h : (started ι).Run OrderedStep c)
    (hdone : ∀ i, (c.own i).phase = .idle) :
    (∀ a mac, c.shared.n.lookup a = some mac → c.shared.cache a = some mac) ∧
    (∀ a mac, c.shared.n.Pinned a mac → c.shared.cache a = some mac) ∧
    ∀ a, c.shared.n.lookup a = none → c.shared.cache a = none := by
  obtain ⟨-,howing⟩ := Owing.run h
  have hpending := howing.owed.nil fun i => by rw [Goroutine.due,hdone i]
  have hcache := howing.settles
  rw [hpending] at hcache
  change c.shared.cache=c.shared.n.lookup at hcache
  rw [hcache]
  exact ⟨fun a mac ha => ha,fun a mac ha => ha.lookup,fun a ha => ha⟩

theorem OrderedStep.quiet (h : GoStep true i g s g' s') (hg : g.tells=none) :
    OrderedStep i g s g' s' :=
  ⟨h,fun u hu => by rw [hg] at hu; cases hu⟩

/-- Both goroutines tell of their calls, in the order of their tables. -/
theorem cache_in_step_second : ∃ c, (started Bool).Run OrderedStep c ∧
    c.shared.n.Pinned (nthIP 0) secondMAC ∧ c.shared.cache (nthIP 0) = some secondMAC := by
  have hboth := afterSecond_run fun _ _ _ _ _ => OrderedStep.quiet
  have hfirst :=
    (hboth.next (i := false) (t := ⟨.returned firstCall learnedFirst.2,[(∅,learnedFirst.1.m)]⟩)
    rfl (.quiet (.tell rfl rfl) rfl)).on ⟨.add,fun u hu => by cases hu; rfl⟩
  have hsecond := (hfirst.next (i := true)
    (t := ⟨.returned secondCall pinnedSecond.2,[(learnedFirst.1.m,pinnedSecond.1.m)]⟩) rfl
    (.quiet (.tell rfl rfl) rfl)).on ⟨.add,fun u hu => by cases hu; rfl⟩
  obtain ⟨-,hpinned,-⟩ := cache_in_step _ hsecond fun i => by cases i <;> rfl
  have hpin : Neighbors.Pinned pinnedSecond.1 (nthIP 0) secondMAC := AList.lookup_insert _
  exact ⟨_,hsecond,hpin,hpinned _ _ hpin⟩

theorem cache_out_of_step : ∃ c, (started Bool).Run (GoStep true) c ∧
    (∀ i, (c.own i).phase = .idle) ∧ c.shared.n.Pinned (nthIP 0) secondMAC ∧
    c.shared.cache (nthIP 0) = some firstMAC := by
  have hboth : (started Bool).Run (GoStep true) afterSecond :=
    afterSecond_run fun _ _ _ _ _ h _ => h
  have htold := (hboth.on (.tell rfl rfl)).on .add
  have hlate :=
    htold.next (i := false) (t := ⟨.returned firstCall learnedFirst.2,[(∅,learnedFirst.1.m)]⟩)
    rfl (.tell rfl rfl)
  refine ⟨_,hlate.on .add,fun i => ?_,?_,?_⟩
  · cases i with
    | false | true => rfl
  · exact AList.lookup_insert _
  · rfl

end

end Packetio.Netstack

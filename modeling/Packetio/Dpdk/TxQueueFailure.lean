import Packetio.Dpdk.TxQueueFrames
import Packetio.Lib.Latch

/-! A transmit queue that has failed (queues.go). A ring is dead once the driver freed an
address from outside of the region, and a mempool counts the frees that found no room;
the calls that take packets look at the ring of the cursor only. -/
namespace Packetio.Dpdk
open Lib List Option

inductive QueueError where
  | dead (e : Dead)
  | lost
  deriving DecidableEq, Repr

variable {q q' : TxQueue} {d : Dead} {t : Tx} {c : TxCall} {e : Effect} {held : Multiset UInt64}
  {k i sent : Nat} {build : Nat → Slice → Int} {count max : Int} {is : List Nat}
  {res : Except BadLength Nat} {va : UInt64}

namespace TxQueue

def err (q : TxQueue) : Option QueueError :=
  match q.port.sides.findSome? fun x => x.q.base.dead with
  | some e => some (.dead e)
  | none => if q.port.drops > 0 then some .lost else none

/-- The driver frees an address of its own making into the pool of ring `i`. -/
def stray (q : TxQueue) (i : Nat) (va : UInt64) : Option TxQueue :=
  match q.port.sides[i]? with
  | none => none
  | some x => some { q with port := { q.port with
      sides := q.port.sides.set i { x with q := (x.q.putReturned va).1 }
      drops := q.port.drops+(x.q.putReturned va).2 } }

def Moves (k : Nat) (q q' : TxQueue) : Prop :=
  (∃ ev, q.step k ev=some q') ∨ ∃ i va, q.stray i va=some q'

def Later (k : Nat) : TxQueue → TxQueue → Prop := Relation.ReflTransGen (Moves k)

structure Kept (q q' : TxQueue) : Prop where
  sides : Latched (fun x : Side => x.q.base.dead) q.port.sides q'.port.sides
  drops : q.port.drops≤q'.port.drops

theorem Kept.refl (q : TxQueue) : Kept q q := ⟨.refl _,le_refl _⟩

theorem Kept.trans {q'' : TxQueue} (h : Kept q q') (h' : Kept q' q'') : Kept q q'' :=
  ⟨h.sides.trans h'.sides,h.drops.trans h'.drops⟩

theorem err_none_iff (q : TxQueue) : q.err=none ↔
    (q.port.sides.findSome? fun x => x.q.base.dead)=none ∧ q.port.drops=0 := by
  rw [err]
  split
  case h_1 _ he | h_2 he => simp [he]

theorem Kept.err (h : Kept q q') (hq : q.err≠none) : q'.err≠none := by
  rw [ne_eq,err_none_iff,Classical.not_and_iff_not_or_not] at hq ⊢
  cases hq with
  | inl hdead => exact .inl (h.sides.findSome hdead)
  | inr hlost =>
    have hdrops := h.drops
    exact .inr (by omega)

end TxQueue

theorem drain_dead (h : t.dead=some d) (max : Int) : (t.drain max).1.dead=some d := by
  rw [Tx.drain]
  split
  case isTrue => exact h
  case isFalse => simp [Base.fail,h]

theorem start_dead (h : t.dead=some d) (r : Region) (descs : List Desc)
    (offs : Option (List Offload)) :
    ∃ refused, t.start r descs offs=some (t,r,{ refused := refused }) := by
  rcases offs with _ | offs
  · exact ⟨_,by rw [Tx.start,Tx.prepare,h]⟩
  rw [Tx.start,Tx.prepareOffload]
  split
  case isTrue => exact ⟨_,rfl⟩
  case isFalse => exact ⟨_,by rw [Tx.prepare,h]⟩

theorem TxCall.run_dead {r : Region} (h : t.dead=some d) (he : c.run k r t held=some e) :
    e.side.q.base.dead=some d := by
  cases c with
  | alloc n =>
    obtain ⟨x,hx,rfl⟩ := map_eq_some_iff.mp he
    rw [Tx.alloc,if_pos (.inr (by rw [h]; rfl))] at hx
    cases hx
    exact h
  | transmit descs offs sent =>
    obtain ⟨x,hx,rfl⟩ := map_eq_some_iff.mp he
    obtain ⟨refused,hstart⟩ := start_dead h r descs offs
    rw [hstart] at hx
    cases hx
    exact h
  | free descs =>
    obtain ⟨x,hx,rfl⟩ := map_eq_some_iff.mp he
    rw [Tx.free] at hx
    split at hx
    case h_1 => cases hx
    cases hx
    exact h
  | poke =>
    cases he
    exact h
  | complete max =>
    obtain ⟨x,hx,rfl⟩ := map_eq_some_iff.mp he
    rw [Tx.complete] at hx
    split at hx
    case h_1 => cases hx
    cases hx
    exact drain_dead h max
  | reclaim max out =>
    cases he
    exact drain_dead h max

namespace TxQueue
variable {k : Nat} {q q' : TxQueue}

theorem on_kept (h : q.on k i c=some (q',e)) : Kept q q' := by
  rw [TxQueue.on] at h
  split at h
  case h_1 => cases h
  rename_i p e' hcall
  cases h
  rw [Port.call] at hcall
  split at hcall
  case h_1 => cases hcall
  rename_i x hx
  split at hcall
  case h_1 => cases hcall
  rename_i e hrun
  cases hcall
  refine ⟨.set hx fun d hd => ?_,le_refl _⟩
  obtain ⟨s,held⟩ := x
  cases s with
  | rx s => cases hrun
  | tx t => exact TxCall.run_dead hd hrun

theorem advance_kept (q : TxQueue) : Kept q q.advance := ⟨.refl _,le_refl _⟩

theorem completeRings_kept {total n : Nat}
    (h : completeRings k max is q total=some (q',n)) : Kept q q' := by
  induction is generalizing q total with
  | nil =>
    cases h
    exact .refl _
  | cons i is ih =>
    rw [TxQueue.completeRings] at h
    split at h
    case isTrue =>
      cases h
      exact .refl _
    split at h
    case h_1 => cases h
    case h_2 q1 e hon => exact (on_kept hon).trans (ih h)

theorem reclaimRings_kept {got got' : List Desc}
    (h : reclaimRings k max is q got=some (q',got')) : Kept q q' := by
  induction is generalizing q got with
  | nil =>
    cases h
    exact .refl _
  | cons i is ih =>
    rw [TxQueue.reclaimRings] at h
    split at h
    case isTrue =>
      cases h
      exact .refl _
    split at h
    case h_1 => cases h
    case h_2 q1 e hon => exact (on_kept hon).trans (ih h)

theorem free_kept {ds : List Desc} (h : TxQueue.free k ds q=some q') : Kept q q' := by
  induction ds generalizing q with
  | nil =>
    cases h
    exact .refl _
  | cons d ds ih =>
    rw [TxQueue.free] at h
    split at h
    case h_1 => cases h
    case h_2 q1 e hon => exact (on_kept hon).trans (ih h)

theorem sendBuilt_kept {n : Nat} {descs built : List Desc}
    (h : q.sendBuilt k i descs built sent=some (q',n)) : Kept q q' := by
  rw [TxQueue.sendBuilt] at h
  split at h
  case h_1 => cases h
  rename_i q1 e1 h1
  split at h
  case h_1 => cases h
  rename_i q2 e2 h2
  split at h
  case h_1 => cases h
  rename_i q3 e3 h3
  cases h
  exact ((on_kept h1).trans (on_kept h2)).trans (on_kept h3)

theorem sendRing_kept (h : q.sendRing k i t count build sent=some (q',res)) : Kept q q' := by
  rw [TxQueue.sendRing] at h
  split at h
  case h_1 => cases h
  rename_i q1 e1 h1
  split at h
  case h_1 => cases h
  rename_i q2 e2 h2
  have hkept : Kept q q2 := (on_kept h1).trans (on_kept h2)
  split at h
  case isTrue =>
    cases h
    exact hkept
  split at h
  case h_1 => cases h
  case h_2 =>
    split at h
    case h_1 => cases h
    rename_i q3 e3 h3
    cases h
    exact hkept.trans (on_kept h3)
  case h_3 =>
    split at h
    case h_1 => cases h
    rename_i q3 n h3
    cases h
    exact hkept.trans (sendBuilt_kept h3)

theorem putReturned_dead (va : UInt64) (x : Queue) :
    (x.putReturned va).1.base.dead=x.base.dead := by
  cases x with
  | tx _ | rx _ => rfl

theorem put_kept {p p' : Port} (h : p.put va=some p') :
    Latched (fun x : Side => x.q.base.dead) p.sides p'.sides ∧ p.drops≤p'.drops := by
  rw [Port.put] at h
  split at h
  case h_1 => cases h
  split at h
  case h_1 => cases h
  split at h
  case h_1 => cases h
  rename_i x hx
  cases h
  exact ⟨.set hx fun d hd => (putReturned_dead va x.q).trans hd,Nat.le_add_right _ _⟩

theorem step_kept {ev : Event} (h : q.step k ev=some q') : Kept q q' := by
  cases ev with
  | alloc n =>
    obtain ⟨x,hx,rfl⟩ := map_eq_some_iff.mp h
    rw [TxQueue.alloc] at hx
    split at hx
    case h_1 => cases hx
    rename_i hon
    cases hx
    exact on_kept hon
  | transmit descs sent =>
    obtain ⟨x,hx,rfl⟩ := map_eq_some_iff.mp h
    rw [TxQueue.transmit] at hx
    split at hx
    case h_1 => cases hx
    rename_i hon
    cases hx
    exact (on_kept hon).trans (advance_kept _)
  | transmitOffload descs offs sent =>
    obtain ⟨x,hx,rfl⟩ := map_eq_some_iff.mp h
    rw [TxQueue.transmitOffload] at hx
    split at hx
    case isTrue =>
      cases hx
      exact .refl _
    split at hx
    case h_1 => cases hx
    rename_i hon
    cases hx
    exact (on_kept hon).trans (advance_kept _)
  | complete max =>
    obtain ⟨x,hx,rfl⟩ := map_eq_some_iff.mp h
    exact completeRings_kept hx
  | reclaim max out =>
    obtain ⟨x,hx,rfl⟩ := map_eq_some_iff.mp h
    rw [TxQueue.reclaim] at hx
    split at hx
    case h_1 => cases hx
    rename_i hrings
    cases hx
    exact reclaimRings_kept hrings
  | free descs => exact free_kept h
  | sendFunc count build sent =>
    obtain ⟨x,hx,rfl⟩ := map_eq_some_iff.mp h
    rw [TxQueue.sendFunc] at hx
    split at hx
    case h_1 => cases hx
    case h_2 => exact (advance_kept q).trans (sendRing_kept hx)
  | poke i =>
    obtain ⟨x,hx,rfl⟩ := map_eq_some_iff.mp h
    exact on_kept hx
  | freed i va =>
    obtain ⟨p,hp,rfl⟩ := map_eq_some_iff.mp h
    rw [Port.step] at hp
    split at hp
    case h_1 => cases hp
    rename_i x hx
    obtain ⟨hsides,hdrops⟩ := put_kept hp
    have hheld : Latched (fun x : Side => x.q.base.dead) q.port.sides
        (q.port.sides.set i { x with held := x.held.erase va }) := .set hx fun d hd => hd
    exact ⟨hheld.trans hsides,hdrops⟩
  | write r =>
    cases h
    exact ⟨.refl _,le_refl _⟩

theorem stray_kept (h : q.stray i va=some q') : Kept q q' := by
  rw [stray] at h
  split at h
  case h_1 => cases h
  rename_i x hx
  cases h
  exact ⟨.set hx fun d hd => (putReturned_dead va x.q).trans hd,Nat.le_add_right _ _⟩

theorem Later.kept (h : Later k q q') : Kept q q' := by
  induction h with
  | refl => exact .refl q
  | tail _ hmove ih =>
    cases hmove with
    | inl hev =>
      obtain ⟨ev,hev⟩ := hev
      exact ih.trans (step_kept hev)
    | inr hstray =>
      obtain ⟨i,va,hstray⟩ := hstray
      exact ih.trans (stray_kept hstray)

end TxQueue

def Tx.healed (t : Tx) : Tx := { t with dead := none }

def Side.healed (x : Side) : Side :=
  match x.q with
  | .tx t => { x with q := .tx t.healed }
  | .rx _ => x

def Port.healed (s : Port) : Port := { s with sides := s.sides.map Side.healed, drops := 0 }

def TxQueue.healed (q : TxQueue) : TxQueue := { q with port := q.port.healed }

def Effect.healed (e : Effect) : Effect := { e with side := e.side.healed }

inductive TxCall.Back : TxCall → Prop
  | complete (max : Int) : Back (.complete max)
  | reclaim (max : Int) (out : List Desc) : Back (.reclaim max out)

theorem drain_healed (t : Tx) (max : Int) : (t.healed.drain max).2=(t.drain max).2 ∧
    (t.healed.drain max).1.healed=(t.drain max).1.healed := by
  have hring : t.healed.returned=t.returned := rfl
  rw [Tx.drain,Tx.drain,hring]
  split
  case isTrue | isFalse => exact ⟨rfl,rfl⟩

theorem TxCall.Back.run_healed (hc : c.Back) (k : Nat) (r : Region) (t : Tx)
    (held : Multiset UInt64) :
    (c.run k r t.healed held).map Effect.healed=(c.run k r t held).map Effect.healed := by
  cases hc with
  | complete max =>
    obtain ⟨hout,hstate⟩ := drain_healed t max
    have hpool : (t.healed.drain max).1.healed.pool=(t.drain max).1.healed.pool := by rw [hstate]
    have hpool : (t.healed.drain max).1.pool=(t.drain max).1.pool := hpool
    simp only [TxCall.run,Tx.complete,hout,hpool]
    cases (t.drain max).1.pool.pushAll (t.drain max).2 with
    | none => rfl
    | some p => exact congrArg (fun u : Tx => some ({
        side := ⟨.tx { u with pool := p },held⟩, region := r, count := (t.drain max).2.length
        refused := foreign t.pool (t.drain max).2 } : Effect)) hstate
  | reclaim max out =>
    obtain ⟨hout,hstate⟩ := drain_healed t max
    simp only [TxCall.run,Tx.reclaim,hout]
    exact congrArg (fun u : Tx => some ({
      side := ⟨.tx u,held⟩, region := r
      descs := (out++(t.drain max).2.map fun frame : UInt64 =>
        (⟨frame+t.dataStart,0,0⟩ : Desc)).drop out.length } : Effect)) hstate

theorem Side.healed_healed (x : Side) : x.healed.healed=x.healed := by
  obtain ⟨s,held⟩ := x
  cases s with
  | tx _ | rx _ => rfl

theorem Port.apply_healed (s : Port) (k i : Nat) {e' : Effect} (h : e'.healed=e.healed) :
    (s.healed.apply k i e').healed=(s.apply k i e).healed := by
  obtain ⟨x,r,descs,count,takes,refused⟩ := e
  obtain ⟨x',r',descs',count',takes',refused'⟩ := e'
  simp only [Effect.healed,Effect.mk.injEq] at h
  obtain ⟨hside,rfl,rfl,rfl,rfl,rfl⟩ := h
  have hsides : ((s.sides.map Side.healed).set i x').map Side.healed =
      (s.sides.set i x).map Side.healed := by
    rw [map_set,map_set,List.map_map,hside]
    congr 1
    exact map_congr_left fun y _ => y.healed_healed
  simp [Port.healed,Port.apply,hsides]

namespace TxQueue

theorem on_healed (q : TxQueue) (hc : c.Back) (k i : Nat) :
    (q.healed.on k i c).map (Prod.map TxQueue.healed Effect.healed) =
      (q.on k i c).map (Prod.map TxQueue.healed Effect.healed) := by
  have hside : q.healed.port.sides[i]? = q.port.sides[i]?.map Side.healed := getElem?_map
  rw [TxQueue.on,TxQueue.on,Port.call,Port.call,hside]
  rcases hx : q.port.sides[i]? with _ | ⟨s,held⟩
  · rfl
  cases s with
  | rx s => rfl
  | tx t =>
    have hrun := hc.run_healed k q.port.region t held
    have hleft : (Side.healed ⟨.tx t,held⟩).run k q.healed.port.region (.tx c) =
      c.run k q.port.region t.healed held := rfl
    have hright : Side.run k q.port.region ⟨.tx t,held⟩ (.tx c)=c.run k q.port.region t held := rfl
    simp only [map_some,hleft,hright]
    rcases he : c.run k q.port.region t held with _ | e
    · rw [he,map_none,map_eq_none_iff] at hrun
      rw [hrun]
    rw [he,map_some] at hrun
    obtain ⟨e',he',heq⟩ := map_eq_some_iff.mp hrun
    rw [he']
    have hport := q.port.apply_healed k i heq
    simp [Prod.map,TxQueue.healed,hport,heq]

theorem on_alike (h : q.healed=q'.healed) (hc : c.Back) (k i : Nat) :
    (q.on k i c=none ∧ q'.on k i c=none) ∨ ∃ x y, q.on k i c=some x ∧ q'.on k i c=some y ∧
      x.1.healed=y.1.healed ∧ x.2.descs=y.2.descs ∧ x.2.count=y.2.count := by
  have hon : (q.on k i c).map (Prod.map TxQueue.healed Effect.healed) =
      (q'.on k i c).map (Prod.map TxQueue.healed Effect.healed) := by
    rw [← q.on_healed hc,← q'.on_healed hc,h]
  rcases hq : q.on k i c with _ | x
  · rw [hq,map_none,eq_comm,map_eq_none_iff] at hon
    exact .inl ⟨rfl,hon⟩
  rw [hq,map_some,eq_comm] at hon
  obtain ⟨y,hy,hxy⟩ := map_eq_some_iff.mp hon
  have heffect : x.2.healed=y.2.healed := (congrArg Prod.snd hxy).symm
  simp only [Effect.healed,Effect.mk.injEq] at heffect
  obtain ⟨-,-,hdescs,hcount,-⟩ := heffect
  exact .inr ⟨x,y,rfl,hy,(congrArg Prod.fst hxy).symm,hdescs,hcount⟩

theorem completeRings_alike (h : q.healed=q'.healed) (k : Nat) (max : Int)
    (is : List Nat) (total : Nat) : (completeRings k max is q total).map Prod.snd =
    (completeRings k max is q' total).map Prod.snd := by
  induction is generalizing q q' total with
  | nil => rfl
  | cons i is ih =>
    rw [TxQueue.completeRings,TxQueue.completeRings]
    split
    case isTrue => rfl
    rcases on_alike h (.complete (max-total)) k i with ⟨hx,hy⟩ | ⟨x,y,hx,hy,hqueue,-,hcount⟩
    · rw [hx,hy]
    · rw [hx,hy]
      simp only [hcount]
      exact ih hqueue _

theorem reclaimRings_alike (h : q.healed=q'.healed) (k : Nat) (max : Int)
    (is : List Nat) (got : List Desc) :
    (reclaimRings k max is q got).map Prod.snd=(reclaimRings k max is q' got).map Prod.snd := by
  induction is generalizing q q' got with
  | nil => rfl
  | cons i is ih =>
    rw [TxQueue.reclaimRings,TxQueue.reclaimRings]
    split
    case isTrue => rfl
    rcases on_alike h (.reclaim (max-got.length) []) k i with
      ⟨hx,hy⟩ | ⟨x,y,hx,hy,hqueue,hdescs,-⟩
    · rw [hx,hy]
    · rw [hx,hy]
      simp only [hdescs]
      exact ih hqueue _

theorem healed_healed (q : TxQueue) : q.healed.healed=q.healed := by
  have hsides : (q.port.sides.map Side.healed).map Side.healed=q.port.sides.map Side.healed := by
    rw [List.map_map]
    exact map_congr_left fun x _ => x.healed_healed
  simp [TxQueue.healed,Port.healed,hsides]

theorem complete_healed (q : TxQueue) (k : Nat) (max : Int) :
    (q.complete k max).map Prod.snd=(q.healed.complete k max).map Prod.snd := by
  have hlen : q.healed.port.sides.length=q.port.sides.length := length_map _
  rw [TxQueue.complete,TxQueue.complete,hlen]
  exact completeRings_alike q.healed_healed.symm k max _ 0

theorem reclaim_out (q : TxQueue) (k : Nat) (max : Int) (out : List Desc) :
    (q.reclaim k max out).map Prod.snd =
      ((reclaimRings k max (List.range q.port.sides.length) q []).map Prod.snd).map (out++·) := by
  rw [TxQueue.reclaim]
  cases reclaimRings k max (range q.port.sides.length) q [] with
  | none | some _ => rfl

theorem reclaim_healed (q : TxQueue) (k : Nat) (max : Int) (out : List Desc) :
    (q.reclaim k max out).map Prod.snd=(q.healed.reclaim k max out).map Prod.snd := by
  have hlen : q.healed.port.sides.length=q.port.sides.length := length_map _
  rw [reclaim_out,reclaim_out,hlen,reclaimRings_alike q.healed_healed.symm]

theorem on_run (k : Nat) (hi : q.port.sides[i]? = some ⟨.tx t,held⟩) (c : TxCall) :
    (q.on k i c).map Prod.snd=c.run k q.port.region t held := by
  have hrun : Side.run k q.port.region ⟨.tx t,held⟩ (.tx c)=c.run k q.port.region t held := rfl
  rw [TxQueue.on,Port.call,hi]
  simp only [hrun]
  cases c.run k q.port.region t held with
  | none | some _ => rfl

theorem alloc_on (k : Nat) (q : TxQueue) (n : Int) : (q.alloc k n).map Prod.snd =
    ((q.on k q.next (.alloc n)).map Prod.snd).map Effect.descs := by
  rw [TxQueue.alloc]
  cases q.on k q.next (.alloc n) with
  | none | some _ => rfl

theorem transmit_on (k : Nat) (q : TxQueue) (descs : List Desc) (sent : Nat) :
    (q.transmit k descs sent).map Prod.snd =
      ((q.on k q.next (.transmit descs none sent)).map Prod.snd).map Effect.count := by
  rw [TxQueue.transmit]
  cases q.on k q.next (.transmit descs none sent) with
  | none | some _ => rfl

theorem transmitOffload_on (k : Nat) (q : TxQueue) (descs : List Desc) (offs : List Offload)
    (sent : Nat) : (q.transmitOffload k descs offs sent).map Prod.snd =
      if !q.txChecksums then some 0
      else ((q.on k q.next (.transmit descs (some offs) sent)).map Prod.snd).map Effect.count := by
  rw [TxQueue.transmitOffload]
  split
  case isTrue => rfl
  cases q.on k q.next (.transmit descs (some offs) sent) with
  | none | some _ => rfl

theorem on_alloc_dead {x : Side} (hi : q.port.sides[i]? = some x)
    (hd : x.q.base.dead=some d) {n : Int} (h : q.on k i (.alloc n)=some (q',e)) : e.descs = [] := by
  obtain ⟨s,held⟩ := x
  cases s with
  | rx s =>
    rw [TxQueue.on,Port.call,hi] at h
    cases h
  | tx t =>
    have hrun := on_run k hi (.alloc n)
    have hdead : t.dead.isSome=true := isSome_iff_exists.mpr ⟨d,hd⟩
    rw [h,TxCall.run,Tx.alloc,if_pos (.inr hdead)] at hrun
    cases hrun
    rfl

section
variable {k : Nat} {q : TxQueue} {t : Tx} (ht : q.ring q.next=some t)
include ht

theorem ring_side : ∃ held, q.port.sides[q.next]? = some ⟨.tx t,held⟩ := by
  rw [TxQueue.ring] at ht
  split at ht
  case h_1 t' held hi =>
    cases ht
    exact ⟨held,hi⟩
  case h_2 => cases ht

theorem on_clear (hd : t.dead=none) (c : TxCall) :
    (q.healed.on k q.healed.next c).map Prod.snd=(q.on k q.next c).map Prod.snd := by
  obtain ⟨held,hi⟩ := ring_side ht
  have hsame : t.healed=t := by rw [Tx.healed,← hd]
  have hi' : q.healed.port.sides[q.next]? = some ⟨.tx t,held⟩ := by
    have hmap : (q.port.sides.map Side.healed)[q.next]? = some ⟨.tx t.healed,held⟩ := by
      rw [getElem?_map,hi]
      rfl
    rwa [hsame] at hmap
  rw [on_run k hi c]
  exact on_run k hi' c

theorem alloc_eq (n : Int) : (q.alloc k n).map Prod.snd =
    if t.dead.isSome then some [] else (q.healed.alloc k n).map Prod.snd := by
  split
  case isTrue hd =>
    obtain ⟨held,hi⟩ := ring_side ht
    rw [alloc_on,on_run k hi,TxCall.run,Tx.alloc,if_pos (.inr hd)]
    rfl
  case isFalse hd => rw [alloc_on,alloc_on,on_clear ht (by simpa using hd)]

theorem transmit_eq (descs : List Desc) (sent : Nat) : (q.transmit k descs sent).map Prod.snd =
    if t.dead.isSome then some 0 else (q.healed.transmit k descs sent).map Prod.snd := by
  split
  case isTrue hd =>
    obtain ⟨held,hi⟩ := ring_side ht
    obtain ⟨d,hd⟩ := isSome_iff_exists.mp hd
    obtain ⟨refused,hstart⟩ := start_dead hd q.port.region descs none
    rw [transmit_on,on_run k hi,TxCall.run,hstart]
    rfl
  case isFalse hd => rw [transmit_on,transmit_on,on_clear ht (by simpa using hd)]

theorem transmitOffload_eq (descs : List Desc) (offs : List Offload) (sent : Nat) :
    (q.transmitOffload k descs offs sent).map Prod.snd=if t.dead.isSome then some 0
      else (q.healed.transmitOffload k descs offs sent).map Prod.snd := by
  have hchecksums : q.healed.txChecksums=q.txChecksums := rfl
  split
  case isTrue hd =>
    obtain ⟨held,hi⟩ := ring_side ht
    obtain ⟨d,hd⟩ := isSome_iff_exists.mp hd
    obtain ⟨refused,hstart⟩ := start_dead hd q.port.region descs (some offs)
    rw [transmitOffload_on,on_run k hi,TxCall.run,hstart]
    split
    case isTrue | isFalse => rfl
  case isFalse hd =>
    rw [transmitOffload_on,transmitOffload_on,on_clear ht (by simpa using hd),hchecksums]

theorem sendFunc_dead (hd : t.dead.isSome)
    (h : q.sendFunc k count build sent=some (q',res)) : res = .ok 0 := by
  obtain ⟨held,hi⟩ := ring_side ht
  obtain ⟨d,hd⟩ := isSome_iff_exists.mp hd
  rw [TxQueue.sendFunc,ht] at h
  simp only at h
  rw [TxQueue.sendRing] at h
  split at h
  case h_1 => cases h
  rename_i q1 e1 h1
  obtain ⟨x,hx,hdead⟩ := (on_kept h1).sides.get hi hd
  split at h
  case h_1 => cases h
  rename_i q2 e2 h2
  rw [if_pos (by rw [on_alloc_dead hx hdead h2]; rfl)] at h
  cases h
  rfl

end

end TxQueue

def twoStrayed : TxQueue := (twoRings.stray 0 0).get (by decide)

def twoDead : TxQueue := (twoStrayed.step 9 (.complete 1)).get (by decide)

def twoOn : TxQueue := (twoDead.step 9 (.transmit [] 0)).get (by decide)

theorem twoDead_later : TxQueue.Later 9 twoRings twoDead := by
  have hstray : twoRings.Moves 9 twoStrayed := .inr ⟨0,0,rfl⟩
  have hcomplete : twoStrayed.Moves 9 twoDead := .inl ⟨.complete 1,rfl⟩
  exact (Relation.ReflTransGen.single hstray).tail hcomplete

theorem twoOn_later : TxQueue.Later 9 twoDead twoOn := .single (.inl ⟨.transmit [] 0,rfl⟩)

end Packetio.Dpdk

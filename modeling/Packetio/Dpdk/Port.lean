import Packetio.Dpdk.ReceiveCalls
import Packetio.Lib.Shares
import Packetio.Lib.Update

/-! The queues of one port over one region, with their driver and a caller that moves
frames between them. The driver works at any time: what it does inside of a call of
one queue is the same before or after that call. -/
namespace Packetio.Dpdk
open Lib Pool List Option Multiset

inductive Call where
  | tx (c : TxCall)
  | rx (c : RxCall)

namespace Side

def run (k : Nat) (r : Region) (x : Side) (c : Call) : Option Effect :=
  match x.q, c with
  | .tx t, .tx c => c.run k r t x.held
  | .rx q, .rx c => c.run k r q x.held
  | _, _ => none

def Allowed (k : Nat) (r : Region) (x : Side) (caller : Multiset UInt64) (c : Call) : Prop :=
  match x.q, c with
  | .tx _, .tx c => c.Allowed k caller
  | .rx q, .rx c => c.Allowed k r q x.held caller
  | _, _ => False

def Home (x : Side) (c : Call) : Prop :=
  match x.q, c with
  | .tx t, .tx (.free descs) => ∀ d∈descs, t.pool.owns d.addr=true
  | .tx t, .tx (.complete max) => ∀ a∈(t.drain max).2, t.pool.owns a=true
  | .rx q, .rx (.recycle descs) => ∀ d∈descs, q.pool.owns d.addr=true
  | _, _ => True

end Side

variable {e : Effect} {p : Frames} {va : UInt64} {i : Nat} {x : Side}

section
variable {k total : Nat} {r : Region} {x : Side} {caller : Multiset UInt64}

theorem Side.Sound.run (h : x.Sound k total r) (hr : r.len=total*2^k)
    (hnd : (x.holdings+caller).Nodup) (c : Call) (hc : x.Allowed k r caller c) :
    ∃ e, x.run k r c=some e ∧ Moved k total r x caller e := by
  obtain ⟨q,held⟩ := x
  cases q with
  | tx t =>
    cases c with
    | tx c => exact h.runTx hr hnd c hc
    | rx c => exact hc.elim
  | rx q =>
    cases c with
    | tx c => exact hc.elim
    | rx c => exact h.runRx hr hnd c hc

theorem Side.Sound.shift (h : x.Sound k total r) {x' : Side}
    (hfixed : x'.q.base.toFixed=x.q.base.toFixed) (hmost : x'.q.most=x.q.most)
    (hcap : x'.q.base.returned.cap=x.q.base.returned.cap) (hpool : x'.q.base.pool=x.q.base.pool)
    (hdead : x'.q.base.dead=x.q.base.dead) (hcount : x'.q.count=x.q.count)
    (hring : x'.q.base.returned.Sized) (haway : x'.away=x.away)
    (hplace : ∀ va∈x'.held+x'.q.supplied, va∈x.held+x.q.supplied) (hlimits : x'.Limits k) :
    Moved k total r x caller ⟨x',r,[],0,0,0⟩ := by
  have hsound : x'.Sound k total r := by
    refine ⟨hfixed ▸ h.shape,?_,hdead.trans h.alive,hring,?_,?_,fun va hva => ?_,hlimits⟩
    · rw [hpool,hfixed]
      exact h.pool
    · rw [hcount,haway,h.count]
    · rw [haway,hfixed]
      exact h.mbufs
    · rw [hfixed]
      exact h.stamped va (hplace va hva)
  refine ⟨hsound,hfixed,hmost,hcap,zero_le _,?_,untouched k total r _,fun _ => by rw [hpool]⟩
  rw [bases_nil,add_zero,add_zero,add_zero,Side.holdings,Side.holdings,Side.framesOf,
    Side.framesOf,Side.free,Side.free,hfixed,hpool,haway]

theorem Side.away_le_frames (hnd : x.holdings.Nodup) (hown : ∀ a∈x.framesOf x.away,
      a∈frameStarts x.q.base.firstFrame x.q.base.frames (2^k)) : x.away.card≤x.q.base.frames := by
  have hle : x.framesOf x.away ≤ ↑(frameStarts x.q.base.firstFrame x.q.base.frames (2^k)) :=
    (le_iff_subset (nodup_add.mp hnd).2.1).mpr hown
  have hcard := card_le_card hle
  rwa [Side.framesOf,card_map,coe_card,frameStarts,length_map,length_range] at hcard

theorem Side.Sound.away_le_most (h : x.Sound k total r) (hnd : x.holdings.Nodup) :
    x.away.card≤x.q.most := by
  obtain ⟨q,held⟩ := x
  cases q with
  | tx t => exact h.limits
  | rx q =>
    obtain ⟨-,hown⟩ := h.rxLimits
    refine Side.away_le_frames (k := k) hnd fun a ha => ?_
    obtain ⟨va,hva,rfl⟩ := mem_map.mp ha
    exact hown va hva

theorem Side.room (hcap : x.away.card≤x.q.base.returned.cap) (hva : va∈x.held) :
    x.q.base.returned.len<x.q.base.returned.cap := by
  have hpos := card_pos_iff_exists_mem.mpr ⟨va,hva⟩
  rw [Side.away,card_add,card_add,Queue.returned,coe_card,Ring.items_length] at hcap
  omega

theorem Side.Sound.freed (h : x.Sound k total r)
    (hroom : x.q.base.returned.len<x.q.base.returned.cap) (hva : va∈x.held) :
    (x.q.putReturned va).2=0 ∧ ∀ caller,
      Moved k total r x caller ⟨⟨(x.q.putReturned va).1,x.held.erase va⟩,r,[],0,0,0⟩ := by
  have hring := h.returned
  have hput : x.q.base.returned.enqueue [va]=(x.q.base.returned.put va,0) :=
    hring.enqueue [va] hroom
  obtain ⟨hs,hitems⟩ := hring.put hroom va
  have haway : x.held.erase va+x.q.supplied+↑(x.q.base.returned.put va).items=x.away := by
    rw [hitems,← coe_add,coe_singleton,Side.away,Queue.returned,
      ← cons_erase hva,Multiset.erase_cons_head,← singleton_add]
    abel
  have hheld : ∀ v∈x.held.erase va+x.q.supplied, v∈x.held+x.q.supplied := fun v hv =>
    mem_of_le (add_le_add (erase_le va x.held) (le_refl _)) hv
  obtain ⟨q,held⟩ := x
  cases q with
  | tx t =>
    have hput : t.returned.enqueue [va]=(t.returned.put va,0) := hput
    have haway : Side.away ⟨.tx { t with returned := t.returned.put va },held.erase va⟩ =
      Side.away ⟨.tx t,held⟩ := haway
    simp only [Queue.putReturned,hput]
    refine ⟨trivial,fun caller => h.shift rfl rfl rfl rfl rfl rfl hs haway hheld ?_⟩
    rw [Side.Limits,haway]
    exact h.limits
  | rx q =>
    have hput : q.returned.enqueue [va]=(q.returned.put va,0) := hput
    have haway : Side.away ⟨.rx { q with returned := q.returned.put va },held.erase va⟩ =
      Side.away ⟨.rx q,held⟩ := haway
    simp only [Queue.putReturned,hput]
    refine ⟨trivial,fun caller => h.shift rfl rfl rfl rfl rfl rfl hs haway hheld ?_⟩
    rw [Side.Limits,haway]
    exact h.limits

theorem Side.Sound.taken {q : Rx} {held : Multiset UInt64} (h : Side.Sound k total r ⟨.rx q,held⟩)
    {n : UInt32} {ring : Ring} {vas : List UInt64} (hd : q.supply.dequeue n=some (ring,vas)) :
    Moved k total r ⟨.rx q,held⟩ caller ⟨⟨.rx { q with supply := ring },held+↑vas⟩,r,[],0,0,0⟩ := by
  obtain ⟨hsup,hown⟩ := h.rxLimits
  obtain ⟨hs,-,hitems⟩ := hsup.dequeue hd
  have hmoved :
    held+↑vas+(ring.items : Multiset UInt64)=held+(q.supply.items : Multiset UInt64) := by
    rw [hitems,← coe_add,add_assoc]
  have haway : Side.away ⟨.rx { q with supply := ring },held+↑vas⟩=Side.away ⟨.rx q,held⟩ :=
    congrArg (·+(q.returned.items : Multiset UInt64)) hmoved
  refine h.shift rfl rfl rfl rfl rfl rfl h.returned haway (fun va hva => ?_) ⟨hs,?_⟩
  · exact hmoved ▸ hva
  · rwa [haway]

theorem foreign_eq_zero {fs : List UInt64} (h : ∀ a∈fs, p.owns a=true) : foreign p fs=0 := by
  rw [foreign,coe_eq_zero,filter_eq_nil_iff]
  intro a ha
  simp [h a ha]

theorem foreign_frames {first count : Nat} (h : p.Inv first count k) {descs : List Desc}
    (hd : ∀ d∈descs, p.owns d.addr=true) : foreign p (descs.map (frameOf k))=0 := by
  refine foreign_eq_zero fun a ha => ?_
  have haligned := frames_aligned k descs a ha
  obtain ⟨d,hmem,rfl⟩ := mem_map.mp ha
  exact (h.shape.owns_iff haligned).mpr (frameOf_mem h.shape.fits h.shape (hd d hmem))

theorem Side.Sound.home (h : x.Sound k total r) {c : Call} (he : x.run k r c=some e)
    (hc : x.Home c) : e.refused=0 := by
  obtain ⟨q,held⟩ := x
  cases q with
  | tx t =>
    cases c with
    | rx c => cases he
    | tx c =>
      cases c with
      | alloc _ | transmit _ _ _ =>
        obtain ⟨_,-,rfl⟩ := map_eq_some_iff.mp he
        rfl
      | free descs =>
        obtain ⟨_,-,rfl⟩ := map_eq_some_iff.mp he
        exact foreign_frames h.pool hc
      | poke | reclaim _ _ =>
        cases he
        rfl
      | complete max =>
        obtain ⟨_,-,rfl⟩ := map_eq_some_iff.mp he
        exact foreign_eq_zero hc
  | rx q =>
    cases c with
    | tx c => cases he
    | rx c =>
      cases c with
      | fill _ | receive _ _ | drainReturned =>
        obtain ⟨_,-,rfl⟩ := map_eq_some_iff.mp he
        rfl
      | recycle descs =>
        obtain ⟨_,-,rfl⟩ := map_eq_some_iff.mp he
        exact foreign_frames h.pool hc

end

/-! The port -/

structure Port where
  region : Region
  regionVA : UInt64
  sides : List Side
  held : Multiset UInt64 := 0
  refused : Multiset UInt64 := 0
  drops : Nat := 0

inductive Event where
  | call (i : Nat) (c : Call)
  | free (i : Nat) (va : UInt64)
  | take (i : Nat) (n : UInt32)
  | write (r : Region)

variable {s' : Port} {ev : Event}

namespace Port
variable (k : Nat)

def apply (s : Port) (i : Nat) (e : Effect) : Port := { s with
  region := e.region
  sides := s.sides.set i e.side
  held := s.held-e.takes+bases k e.descs
  refused := s.refused+e.refused }

/-- A call of queue `i`, and what it returns. -/
def call (s : Port) (i : Nat) (c : Call) : Option (Port × Effect) :=
  match s.sides[i]? with
  | none => none
  | some x => match x.run k s.region c with
    | none => none
    | some e => some (s.apply k i e,e)

def put (s : Port) (va : UInt64) : Option Port :=
  match Mbuf.pool s.region (va-s.regionVA).toNat with
  | none => none
  | some pool => match s.sides.findIdx? fun x => x.q.base.poolVA == pool with
    | none => none
    | some j => match s.sides[j]? with
      | none => none
      | some x => some { s with
          sides := s.sides.set j { x with q := (x.q.putReturned va).1 }
          drops := s.drops+(x.q.putReturned va).2 }

def take (s : Port) (i : Nat) (n : UInt32) : Option Port :=
  match s.sides[i]? with
  | some ⟨.rx q,held⟩ => match q.supply.dequeue n with
    | none => some s
    | some (ring,vas) =>
      some { s with sides := s.sides.set i ⟨.rx { q with supply := ring },held+↑vas⟩ }
  | _ => none

def step (s : Port) : Event → Option Port
  | .call i c => (s.call k i c).map Prod.fst
  | .free i va => match s.sides[i]? with
    | none => none
    | some x => put { s with sides := s.sides.set i { x with held := x.held.erase va } } va
  | .take i n => s.take i n
  | .write r => some { s with region := r }

def Allows (s : Port) : Event → Prop
  | .call i c => ∃ x, s.sides[i]? = some x ∧ x.Allowed k s.region s.held c
  | .free i va => ∃ x, s.sides[i]? = some x ∧ va∈x.held
  | .take i _ => ∃ q held, s.sides[i]? = some ⟨.rx q,held⟩
  | .write r => r.len=s.region.len ∧ ∀ x∈s.sides, ∀ va∈x.held+x.q.supplied,
      Mbuf.pool r (va-s.regionVA).toNat=Mbuf.pool s.region (va-s.regionVA).toNat

def Home (s : Port) : Event → Prop
  | .call i c => ∀ x, s.sides[i]? = some x → x.Home c
  | _ => True

def Run : Port → Port → Prop :=
  Relation.ReflTransGen fun s s' => ∃ ev, s.Allows k ev ∧ s.step k ev=some s'

def HomeRun : Port → Port → Prop :=
  Relation.ReflTransGen fun s s' => ∃ ev, s.Allows k ev ∧ s.Home ev ∧ s.step k ev=some s'

def Roomy (s : Port) : Prop := ∀ x∈s.sides, x.away.card≤x.q.base.returned.cap

def HasRoom (s : Port) : Event → Prop
  | .free i _ => ∀ x, s.sides[i]? = some x → x.q.base.returned.len<x.q.base.returned.cap
  | _ => True

def Wide (s : Port) : Prop := ∀ x∈s.sides, x.q.most≤x.q.base.returned.cap

variable {k} in
theorem Roomy.hasRoom {s : Port} (h : s.Roomy) (ha : s.Allows k ev) : s.HasRoom ev := by
  cases ev with
  | free i va =>
    obtain ⟨x,hi,hva⟩ := ha
    intro y hy
    rw [hi,some_inj] at hy
    subst hy
    exact Side.room (h x (mem_of_getElem? hi)) hva
  | call | take | write => trivial

def pools (s : Port) : List (Multiset UInt64) := s.sides.map Side.free

def everywhere (s : Port) : Multiset UInt64 := (s.sides.map Side.holdings).sum+s.held+s.refused

structure Made (k total : Nat) (s : Port) (x x₀ : Side) : Prop where
  sound : x.Sound k total s.region
  fixed : x.q.base.toFixed=x₀.q.base.toFixed
  most : x.q.most=x₀.q.most
  cap : x.q.base.returned.cap=x₀.q.base.returned.cap
  va : x.q.base.regionVA=s.regionVA
  opened : x₀.free = ↑(frameStarts x₀.q.base.firstFrame x₀.q.base.frames (2^k))

structure Sound (k total : Nat) (s s₀ : Port) : Prop where
  len : s.region.len=total*2^k
  sides : List.Forall₂ (s.Made k total) s.sides s₀.sides
  names : (s₀.sides.map fun x => x.q.base.poolVA).Nodup
  all : s.everywhere=s₀.pools.sum
  nodup : s₀.pools.sum.Nodup
  drops : s.drops=0
  clean : s.refused=0 → ∀ x∈s.sides, x.q.base.pool.rejected=0

section
variable {k total : Nat} {s s₀ : Port} (h : s.Sound k total s₀)
include h

theorem Sound.nodup_all : s.everywhere.Nodup := h.all ▸ h.nodup

theorem Sound.nodup_side (hx : x∈s.sides) : (x.holdings+s.held).Nodup := by
  refine nodup_of_le ?_ h.nodup_all
  exact (add_le_add (List.le_sum_of_mem (mem_map_of_mem hx)) (le_refl _)).trans
    (le_add_right _ _)

theorem Sound.apart {j : Nat} {y : Side} (hij : i≠j) (hx : s.sides[i]? = some x)
    (hy : s.sides[j]? = some y) : Disjoint (y.framesOf y.away) (x.free+s.held) := by
  have hpair : x.holdings+y.holdings≤(s.sides.map Side.holdings).sum := by
    refine pair_le_sum hij ?_ ?_
    · rw [getElem?_map,hx,map_some]
    · rw [getElem?_map,hy,map_some]
  have hle : y.holdings+(x.holdings+s.held) ≤ s.everywhere := by
    rw [← add_assoc,add_comm y.holdings]
    exact (add_le_add hpair (le_refl _)).trans (le_add_right _ _)
  have hdis := (nodup_add.mp (nodup_of_le hle h.nodup_all)).2.2
  exact hdis.mono (le_add_left _ _) (add_le_add (le_add_right _ _) (le_refl _))

theorem Sound.apply (hi : s.sides[i]? = some x)
    (hm : Moved k total s.region x s.held e) : (s.apply k i e).Sound k total s₀ := by
  obtain ⟨x₀,hx0,hmade⟩ := forall₂_get h.sides hi
  obtain ⟨fs,hfs,hF,ht⟩ := hm.touches
  refine ⟨ht.len.trans h.len,forall₂_set_imp h.sides hx0 ?_ ?_,h.names,?_,h.nodup,h.drops,?_⟩
  · exact ⟨hm.sound,hm.fixed.trans hmade.fixed,hm.most.trans hmade.most,hm.cap.trans hmade.cap,
      by rw [hm.fixed,hmade.va]; rfl,hmade.opened⟩
  · intro j y y0 hji hy hy0
    have hdis := (h.apart (Ne.symm hji) hi hy).mono (le_refl _) hfs
    exact { hy0 with sound := hy0.sound.elsewhere ht hF hdis }
  · have hmove : e.side.holdings+(bases k e.descs+e.refused)=x.holdings+e.takes := by
      rw [← add_assoc,hm.frames]
    have htrade := sum_map_set_trade Side.holdings hi hmove (s.held-e.takes+s.refused)
    rw [add_right_comm (s.held-e.takes) s.refused e.takes,
      Multiset.sub_add_cancel hm.takes] at htrade
    rw [← h.all]
    change ((s.sides.set i e.side).map Side.holdings).sum+(s.held-e.takes+bases k e.descs)+
      (s.refused+e.refused)=(s.sides.map Side.holdings).sum+s.held+s.refused
    rw [add_assoc (List.sum _) s.held,← htrade]
    generalize s.held-e.takes=rest
    abel
  · intro h0 y hy
    have h0' := add_eq_zero.mp h0
    cases mem_or_eq_of_mem_set hy with
    | inl hy => exact h.clean h0'.1 y hy
    | inr hy =>
      rw [hy,hm.clean h0'.2]
      exact h.clean h0'.1 x (mem_of_getElem? hi)

theorem Sound.names_eq :
    (s.sides.map fun x => x.q.base.poolVA)=s₀.sides.map fun x => x.q.base.poolVA := by
  refine map_eq_of_forall₂ h.sides fun x x₀ hx => ?_
  rw [hx.fixed]

theorem Sound.freed (hi : s.sides[i]? = some x)
    (hroom : x.q.base.returned.len<x.q.base.returned.cap) (hva : va∈x.held) :
    s.step k (.free i va) =
      some (s.apply k i ⟨⟨(x.q.putReturned va).1,x.held.erase va⟩,s.region,[],0,0,0⟩) := by
  obtain ⟨x₀,-,hmade⟩ := forall₂_get h.sides hi
  have hzero := (hmade.sound.freed hroom hva).1
  have hpool := hmade.sound.stamped va (Multiset.mem_add.mpr (.inl hva))
  rw [hmade.va] at hpool
  let x' : Side := { x with held := x.held.erase va }
  have hlt := (List.getElem?_eq_some_iff.mp hi).1
  have hi' : (s.sides.set i x')[i]? = some x' := getElem?_set_self hlt
  have hfind : ((s.sides.set i x').findIdx? fun y => y.q.base.poolVA == x'.q.base.poolVA) =
    some i := by
    refine findIdx?_name (f := fun y : Side => y.q.base.poolVA) ?_ hi'
    have hname : x'.q.base.poolVA=x.q.base.poolVA := rfl
    rw [map_set_eq hi hname,h.names_eq]
    exact h.names
  simp only [Port.step,hi,Port.put,hpool]
  simp only [x'] at hfind hi'
  simp only [hfind,hi',hzero,set_set,Nat.add_zero]
  simp only [Port.apply,Multiset.sub_zero,bases_nil,add_zero]

theorem Sound.step (ha : s.Allows k ev) (hroom : s.HasRoom ev) :
    ∃ s', s.step k ev=some s' ∧ s'.Sound k total s₀ := by
  cases ev with
  | call i c =>
    obtain ⟨x,hi,hc⟩ := ha
    obtain ⟨x₀,-,hmade⟩ := forall₂_get h.sides hi
    obtain ⟨e,he,hm⟩ := hmade.sound.run h.len (h.nodup_side (mem_of_getElem? hi)) c hc
    exact ⟨_,by simp [Port.step,Port.call,hi,he],h.apply hi hm⟩
  | free i va =>
    obtain ⟨x,hi,hva⟩ := ha
    obtain ⟨x₀,-,hmade⟩ := forall₂_get h.sides hi
    have hfits := hmade.sound.freed (hroom x hi) hva
    exact ⟨_,h.freed hi (hroom x hi) hva,h.apply hi (hfits.2 s.held)⟩
  | take i n =>
    obtain ⟨q,held,hi⟩ := ha
    obtain ⟨x₀,-,hmade⟩ := forall₂_get h.sides hi
    simp only [Port.step,Port.take,hi]
    cases hd : q.supply.dequeue n with
    | none => exact ⟨s,rfl,h⟩
    | some x =>
      refine ⟨_,rfl,?_⟩
      have hset := h.apply hi (hmade.sound.taken hd)
      simpa only [Port.apply,Multiset.sub_zero,bases_nil,add_zero] using hset
  | write r =>
    obtain ⟨hlen,hpool⟩ := ha
    refine ⟨_,rfl,hlen.trans h.len,?_,h.names,h.all,h.nodup,h.drops,h.clean⟩
    have hsides := forall₂_iff_get.mp h.sides
    refine forall₂_iff_get.mpr ⟨hsides.1,fun i hi hi0 => ?_⟩
    have hmade := hsides.2 i hi hi0
    have hx := hmade.sound
    refine { hmade with sound :=
      ⟨hx.shape,hx.pool,hx.alive,hx.returned,hx.count,hx.mbufs,fun va hva => ?_,hx.limits⟩ }
    have hst := hx.stamped va hva
    rw [hmade.va] at hst ⊢
    exact (hpool _ (get_mem _ _) va hva).trans hst

theorem Sound.roomy (hwide : s₀.Wide) : s.Roomy := by
  intro x hx
  obtain ⟨i,hi⟩ := mem_iff_getElem?.mp hx
  obtain ⟨x₀,hx0,hmade⟩ := forall₂_get h.sides hi
  have hmost := hmade.sound.away_le_most (nodup_add.mp (h.nodup_side hx)).1
  rw [hmade.cap]
  exact (hmost.trans hmade.most.le).trans (hwide x₀ (mem_of_getElem? hx0))

theorem Sound.run (hwide : s₀.Wide) (hrun : Port.Run k s s') : s'.Sound k total s₀ := by
  induction hrun with
  | refl => exact h
  | tail _ hstep ih =>
    obtain ⟨ev,ha,hs⟩ := hstep
    obtain ⟨s'',hs'',hsound⟩ := ih.step ha ((ih.roomy hwide).hasRoom ha)
    rw [hs,some_inj] at hs''
    exact hs'' ▸ hsound

theorem Sound.refused_eq (ha : s.Allows k ev) (hroom : s.HasRoom ev) (hh : s.Home ev)
    (hs : s.step k ev=some s') : s'.refused=s.refused := by
  cases ev with
  | call i c =>
    obtain ⟨x,hi,hc⟩ := ha
    obtain ⟨x₀,-,hmade⟩ := forall₂_get h.sides hi
    simp only [Port.step,Port.call,hi] at hs
    cases he : x.run k s.region c with
    | none => simp [he] at hs
    | some e =>
      simp only [he,map_some,some_inj] at hs
      rw [← hs,Port.apply,hmade.sound.home he (hh x hi),add_zero]
  | free i va =>
    obtain ⟨x,hi,hva⟩ := ha
    rw [h.freed hi (hroom x hi) hva,some_inj] at hs
    rw [← hs,Port.apply,add_zero]
  | take i n =>
    obtain ⟨q,held,hi⟩ := ha
    simp only [Port.step,Port.take,hi] at hs
    cases hd : q.supply.dequeue n with
    | none =>
      rw [hd,some_inj] at hs
      rw [hs]
    | some x =>
      rw [hd,some_inj] at hs
      rw [← hs]
  | write r =>
    cases hs
    rfl

theorem Sound.homeRun (hwide : s₀.Wide) (hrun : Port.HomeRun k s s') (h0 : s.refused=0) :
    s'.Sound k total s₀ ∧ s'.refused=0 := by
  induction hrun with
  | refl => exact ⟨h,h0⟩
  | tail _ hstep ih =>
    obtain ⟨ev,ha,hh,hs⟩ := hstep
    obtain ⟨h1,h0⟩ := ih
    have hroom := (h1.roomy hwide).hasRoom ha
    obtain ⟨s2,hs2,hsound⟩ := h1.step ha hroom
    have hrefused := h1.refused_eq ha hroom hh hs
    rw [hs,some_inj] at hs2
    exact ⟨hs2 ▸ hsound,hrefused.trans h0⟩

end

end Port

end Packetio.Dpdk

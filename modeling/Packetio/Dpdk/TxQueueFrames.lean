import Mathlib.Data.Multiset.Bind
import Packetio.Dpdk.TxQueue

/-! Frames of a transmit queue with several rings: they stay with the ring whose slice
they are of, as long as each batch is of the ring that Transmit is at. -/
namespace Packetio.Dpdk
open Lib Pool Multiset Option

def Fixed.slice (b : Fixed) (k : Nat) : List UInt64 := frameStarts b.firstFrame b.frames (2^k)

def TxCall.given : TxCall → List Desc
  | .transmit descs _ _ => descs
  | .free descs => descs
  | _ => []

def TxCall.Own (k : Nat) (b : Fixed) (c : TxCall) : Prop := ∀ d∈c.given, frameOf k d∈b.slice k

variable {a : UInt64} {held : Multiset UInt64} {i : Nat} {t : Tx}

section
variable {k total : Nat} {r : Region} {t : Tx} {held : Multiset UInt64} {c : TxCall} {e : Effect}

theorem TxCall.run_some (he : c.run k r t held=some e) :
    (∃ t', e.side.q = .tx t') ∧ e.takes≤bases k c.given ∧
      (e.refused=0 ∨ e.refused=foreign t.pool (c.given.map (frameOf k)) ∨
        ∃ max, e.refused=foreign t.pool (t.drain max).2) := by
  cases c with
  | poke | reclaim _ _ =>
    cases he
    exact ⟨⟨_,rfl⟩,zero_le _,.inl rfl⟩
  | alloc n =>
    obtain ⟨_,-,rfl⟩ := map_eq_some_iff.mp he
    exact ⟨⟨_,rfl⟩,zero_le _,.inl rfl⟩
  | transmit descs offs sent =>
    obtain ⟨_,-,rfl⟩ := map_eq_some_iff.mp he
    exact ⟨⟨_,rfl⟩,bases_take_le k _ descs,.inl rfl⟩
  | free descs =>
    obtain ⟨_,-,rfl⟩ := map_eq_some_iff.mp he
    exact ⟨⟨_,rfl⟩,le_refl _,.inr (.inl rfl)⟩
  | complete max =>
    obtain ⟨_,-,rfl⟩ := map_eq_some_iff.mp he
    exact ⟨⟨_,rfl⟩,zero_le _,.inr (.inr ⟨max,rfl⟩)⟩

theorem TxCall.Own.mem {b : Fixed} (hc : c.Own k b) (ha : a∈bases k c.given) : a∈b.slice k := by
  obtain ⟨d,hd,rfl⟩ := List.mem_map.mp (mem_coe.mp ha)
  exact hc d hd

theorem Side.Sound.refuses_none (h : Side.Sound k total r ⟨.tx t,held⟩)
    (hown : ∀ a∈Side.holdings ⟨.tx t,held⟩, a∈t.slice k) (hc : c.Own k t.toFixed)
    (he : c.run k r t held=some e) : e.refused=0 := by
  have howns : ∀ a∈t.slice k, t.pool.owns a=true := by
    intro a ha
    exact (h.pool.shape.owns_iff (h.shape.frame_aligned (h.shape.own_mem ha))).mpr ha
  rcases (TxCall.run_some he).2.2 with hnone | hgiven | ⟨max,hback⟩
  · exact hnone
  · rw [hgiven]
    exact foreign_eq_zero fun a ha => howns a (hc.mem (mem_coe.mpr ha))
  obtain ⟨ring,st,fs,hd,-,-,-,hall⟩ := h.drain max
  rw [hback,hd]
  refine foreign_eq_zero fun a ha => howns a (hown a ?_)
  exact hall ▸ mem_add.mpr (.inr (mem_coe.mpr ha))

theorem Tx.drain_inFlight (t : Tx) (max : Int) :
    (t.drain max).1.inFlight=t.inFlight-(t.drain max).2.length := by
  rw [Tx.drain]
  split
  case isTrue => simp
  case isFalse => rfl

theorem Side.Sound.completed (h : Side.Sound k total r ⟨.tx t,held⟩) {max : Int}
    {caller : Multiset UInt64} (he : (TxCall.complete max).run k r t held=some e)
    (hm : Moved k total r ⟨.tx t,held⟩ caller e) (hrefused : e.refused=0) :
    e.takes=0 ∧ e.descs = [] ∧ e.side.q.base.pool.len=t.pool.len+e.count := by
  obtain ⟨⟨t',n⟩,hc,rfl⟩ := map_eq_some_iff.mp he
  refine ⟨rfl,rfl,?_⟩
  have hflight : t'.inFlight=t.inFlight-n := by
    rw [Tx.complete] at hc
    rcases hp : (t.drain max).1.pool.pushAll (t.drain max).2 with _ | p
    · simp [hp] at hc
    simp only [hp,some_inj] at hc
    injection hc with ht hn
    rw [← ht,← hn]
    exact t.drain_inFlight max
  have hcount : t.inFlight=(Side.away ⟨.tx t,held⟩).card := h.count
  have hcount' : t'.inFlight=(Side.away ⟨.tx t',held⟩).card := hm.sound.count
  have hall : Side.holdings ⟨.tx t',held⟩=Side.holdings ⟨.tx t,held⟩ := by
    have hframes := hm.frames
    rw [hrefused,add_zero] at hframes
    exact (add_zero _).symm.trans (hframes.trans (add_zero _))
  have hcard := congrArg Multiset.card hall
  rw [Side.holdings,Side.holdings,card_add,card_add,Side.framesOf,
    Side.framesOf,card_map,card_map] at hcard
  change t'.pool.free.length=t.pool.free.length+n
  have hfree : (Side.free ⟨.tx t',held⟩).card=t'.pool.free.length := coe_card _
  have hfree' : (Side.free ⟨.tx t,held⟩).card=t.pool.free.length := coe_card _
  omega

end

namespace TxQueue

structure Sound (k total : Nat) (q q₀ : TxQueue) : Prop where
  port : q.port.Sound k total q₀.port
  clean : q.port.refused=0
  rings : ∀ x∈q.port.sides, ∃ t, x.q = .tx t
  own : ∀ x∈q.port.sides, ∀ a∈x.holdings, a∈x.q.base.slice k
  next : q.next<q.port.sides.length

/-- The queue after a call of ring `i`. -/
def after (k : Nat) (q : TxQueue) (i : Nat) (e : Effect) : TxQueue :=
  { q with port := q.port.apply k i e }

structure Ran (k total : Nat) (q₀ q : TxQueue) (i : Nat) (t : Tx) (held : Multiset UInt64)
    (c : TxCall) (e : Effect) : Prop where
  run : c.run k q.port.region t held=some e
  moved : Moved k total q.port.region ⟨.tx t,held⟩ q.port.held e
  refused : e.refused=0
  on : q.on k i c=some (q.after k i e,e)
  sound : (q.after k i e).Sound k total q₀
  ring : ∃ t' held', (q.after k i e).port.sides[i]? = some ⟨.tx t',held'⟩ ∧ t'.toFixed=t.toFixed
  gives : ∀ d∈e.descs, frameOf k d∈t.slice k

theorem writable_some {k total : Nat} {b : Fixed} (h : b.Shape k total) (r : Region) (d : Desc) :
    ∃ s, writable b.l r d=some s := by
  refine r.writableTo_some d fun hin => ?_
  have hlen := r.len_lt
  have hpow : 2^k<2^63 := Nat.pow_lt_pow_right (by decide) h.small
  have hpos := Nat.two_pow_pos k
  have hle : d.addr.toNat/2^k*2^k≤d.addr.toNat := Nat.div_mul_le_self _ _
  have hlt : d.addr.toNat<d.addr.toNat/2^k*2^k+2^k := Nat.lt_div_mul_add hpos
  have hmask : (UInt64.ofNat (2^k-1)).toNat=2^k-1 := toNat_small64 _ (by omega)
  have hsize : (UInt64.ofNat (2^k)).toNat=2^k := toNat_small64 _ (by omega)
  rw [h.frameSize,and_not_mask hmask,← frameOf,UInt64.toNat_add,frameOf_toNat,hsize]
  omega

section
variable {k total : Nat} {q q₀ : TxQueue} (h : q.Sound k total q₀)
include h

theorem Sound.ring (hi : i<q.port.sides.length) :
    ∃ t held, q.port.sides[i]? = some ⟨.tx t,held⟩ := by
  have hx := List.getElem?_eq_getElem hi
  generalize q.port.sides[i]=x at hx
  obtain ⟨t,ht⟩ := h.rings x (List.mem_of_getElem? hx)
  obtain ⟨y,held⟩ := x
  exact ⟨t,held,ht ▸ hx⟩

theorem Sound.apply {x : Side} (hi : q.port.sides[i]? = some x) {e : Effect}
    (hm : Moved k total q.port.region x q.port.held e) (hrefused : e.refused=0)
    (htx : ∃ t, e.side.q = .tx t) (htakes : ∀ a∈e.takes, a∈x.q.base.slice k) :
    (q.after k i e).Sound k total q₀ := by
  have hx := List.mem_of_getElem? hi
  refine ⟨h.port.apply hi hm,?_,?_,?_,?_⟩
  · change q.port.refused+e.refused=0
    rw [h.clean,hrefused,add_zero]
  · intro y hy
    cases List.mem_or_eq_of_mem_set hy with
    | inl hy => exact h.rings y hy
    | inr hy => exact hy ▸ htx
  · intro y hy a ha
    rcases List.mem_or_eq_of_mem_set hy with hy | hy
    · exact h.own y hy a ha
    subst hy
    rw [hm.fixed]
    have hle : e.side.holdings≤x.holdings+e.takes := by
      rw [← hm.frames,add_assoc]
      exact le_add_right _ _
    cases mem_add.mp (mem_of_le hle ha) with
    | inl ha => exact h.own x hx a ha
    | inr ha => exact htakes a ha
  · change q.next<(q.port.sides.set i e.side).length
    rw [List.length_set]
    exact h.next

theorem Sound.on
    (hi : q.port.sides[i]? = some ⟨.tx t,held⟩) {c : TxCall} (ha : c.Allowed k q.port.held)
    (hc : c.Own k t.toFixed) : ∃ e, Ran k total q₀ q i t held c e := by
  obtain ⟨x₀,-,hmade⟩ := forall₂_get h.port.sides hi
  have hmem := List.mem_of_getElem? hi
  obtain ⟨e,he,hm⟩ := hmade.sound.run h.port.len (h.port.nodup_side hmem) (.tx c) ha
  have hrun := he
  obtain ⟨htx,htakes,-⟩ := TxCall.run_some hrun
  have hrefused := hmade.sound.refuses_none (h.own _ hmem) hc hrun
  have htakes : ∀ a∈e.takes, a∈t.slice k := fun a ha => hc.mem (mem_of_le htakes ha)
  refine ⟨e,hrun,hm,hrefused,?_,h.apply hi hm hrefused htx htakes,?_,fun d hd => ?_⟩
  · simp only [TxQueue.on,Port.call,hi,he]
    rfl
  · obtain ⟨t',ht'⟩ := htx
    have hlt := (List.getElem?_eq_some_iff.mp hi).1
    have hset : (q.port.sides.set i e.side)[i]? = some e.side := List.getElem?_set_self hlt
    have hside : e.side=⟨.tx t',e.side.held⟩ := by rw [← ht']
    have hfixed := hm.fixed
    rw [ht'] at hfixed
    exact ⟨t',e.side.held,hset.trans (congrArg some hside),hfixed⟩
  · have hle : bases k e.descs≤Side.holdings ⟨.tx t,held⟩+e.takes := by
      rw [← hm.frames,hrefused,add_zero]
      exact le_add_left _ _
    have hd' : frameOf k d∈bases k e.descs := mem_coe.mpr (List.mem_map_of_mem hd)
    cases mem_add.mp (mem_of_le hle hd') with
    | inl hx => exact h.own _ hmem _ hx
    | inr hx => exact htakes _ hx

theorem Sound.advance : q.advance.Sound k total q₀ := by
  refine { h with next := ?_ }
  have hnext := h.next
  rw [TxQueue.advance]
  dsimp only
  split
  case isTrue | isFalse => omega

theorem Sound.roomy (hcap : ∀ x∈q₀.port.sides, x.q.base.frames≤x.q.base.returned.cap) :
    q.port.Roomy := by
  intro x hx
  obtain ⟨i,hi⟩ := List.mem_iff_getElem?.mp hx
  obtain ⟨x₀,hx0,hmade⟩ := forall₂_get h.port.sides hi
  have hle := Side.away_le_frames (k := k) (nodup_add.mp (h.port.nodup_side hx)).1
    fun a ha => h.own x hx a (mem_add.mpr (.inr ha))
  rw [hmade.fixed] at hle
  rw [hmade.cap]
  exact hle.trans (hcap x₀ (List.mem_of_getElem? hx0))

section
variable (max : Int) (is : List Nat) (his : ∀ i∈is, i<q.port.sides.length)
include his

theorem Sound.completeRings (total' : Nat) :
    ∃ q' n, completeRings k max is q total'=some (q',total'+n) ∧ q'.Sound k total q₀ ∧
      q'.port.held=q.port.held ∧ q'.numFreeFrames=q.numFreeFrames+n := by
  induction is generalizing q total' with
  | nil => exact ⟨q,0,rfl,h,rfl,rfl⟩
  | cons i is ih =>
    rw [TxQueue.completeRings]
    split
    case isTrue => exact ⟨q,0,rfl,h,rfl,rfl⟩
    obtain ⟨t,held,hi⟩ := h.ring (his i List.mem_cons_self)
    obtain ⟨x₀,-,hmade⟩ := forall₂_get h.port.sides hi
    obtain ⟨e,hran⟩ := h.on hi (c := .complete (max-total')) trivial
      fun d hd => absurd hd List.not_mem_nil
    obtain ⟨htakes,hdescs,hlen⟩ := hmade.sound.completed hran.run hran.moved hran.refused
    obtain ⟨q',n,hq',hs',hheld,hfree⟩ := ih hran.sound
      (fun j hj => by
        change j<(q.port.sides.set i e.side).length
        rw [List.length_set]
        exact his j (List.mem_cons_of_mem i hj)) (total'+e.count)
    refine ⟨q',e.count+n,?_,hs',?_,?_⟩
    · simp only [hran.on,hq',Nat.add_assoc]
    · rw [hheld]
      change q.port.held-e.takes+bases k e.descs=q.port.held
      rw [htakes,hdescs,bases_nil,Multiset.sub_zero,add_zero]
    · have hsum := sum_map_set (b := e.side) (fun x : Side => x.q.base.pool.len) hi
      rw [hlen] at hsum
      rw [hfree]
      change ((q.port.sides.set i e.side).map fun x : Side => x.q.base.pool.len).sum+n =
        (q.port.sides.map fun x : Side => x.q.base.pool.len).sum+(e.count+n)
      have hring : (Side.mk (.tx t) held).q.base.pool.len=t.pool.len := rfl
      omega

theorem Sound.reclaimRings (got : List Desc) :
    ∃ q' got', reclaimRings k max is q got=some (q',got') ∧ q'.Sound k total q₀ := by
  induction is generalizing q got with
  | nil => exact ⟨q,got,rfl,h⟩
  | cons i is ih =>
    rw [TxQueue.reclaimRings]
    split
    case isTrue => exact ⟨q,got,rfl,h⟩
    obtain ⟨t,held,hi⟩ := h.ring (his i List.mem_cons_self)
    obtain ⟨e,hran⟩ := h.on hi (c := .reclaim (max-got.length) []) trivial
      fun d hd => absurd hd List.not_mem_nil
    rw [hran.on]
    refine ih hran.sound (fun j hj => ?_) _
    change j<(q.port.sides.set i e.side).length
    rw [List.length_set]
    exact his j (List.mem_cons_of_mem i hj)

end

theorem Sound.owner {d : Desc} (hd : frameOf k d∈q.port.held) :
    ∃ t held, q.port.sides[q.owner d.addr]? = some ⟨.tx t,held⟩ ∧ frameOf k d∈t.slice k := by
  have hall : frameOf k d∈q₀.port.pools.sum := by
    rw [← h.port.all]
    exact mem_add.mpr (.inl (mem_add.mpr (.inr hd)))
  rw [← sum_coe] at hall
  obtain ⟨m,hm,hframe⟩ := mem_join.mp hall
  obtain ⟨x₀,hx0,rfl⟩ := List.mem_map.mp (mem_coe.mp hm)
  obtain ⟨j,hj⟩ := List.mem_iff_getElem?.mp hx0
  obtain ⟨x,hx,hmade⟩ := forall₂_get h.port.sides.flip hj
  have howns : x.q.base.owns d.addr=true := by
    rw [hmade.sound.shape.owns_iff d,hmade.fixed]
    rwa [hmade.opened] at hframe
  rcases hf : q.port.sides.findIdx? fun y => y.q.base.owns d.addr with _ | i
  · have hno := List.findIdx?_eq_none_iff.mp hf x (List.mem_of_getElem? hx)
    rw [howns] at hno
    cases hno
  obtain ⟨hi,hfound,-⟩ := List.findIdx?_eq_some_iff_getElem.mp hf
  obtain ⟨t,held,hside⟩ := h.ring hi
  obtain ⟨y0,-,hmade'⟩ := forall₂_get h.port.sides hside
  rw [List.getElem?_eq_getElem hi,some_inj] at hside
  rw [hside] at hfound
  refine ⟨t,held,?_,(hmade'.sound.shape.owns_iff d).mp hfound⟩
  rw [TxQueue.owner,hf,getD_some,List.getElem?_eq_getElem hi,hside]

theorem Sound.free (ds : List Desc) (hle : bases k ds≤q.port.held) :
    ∃ q', free k ds q=some q' ∧ q'.Sound k total q₀ := by
  induction ds generalizing q with
  | nil => exact ⟨q,rfl,h⟩
  | cons d ds ih =>
    have hcons : bases k (d::ds)=bases k [d]+bases k ds := rfl
    rw [hcons] at hle
    have hone : bases k [d]≤q.port.held := (le_add_right _ _).trans hle
    obtain ⟨t,held,hi,hown⟩ := h.owner (d := d) (mem_of_le hone (mem_singleton_self _))
    obtain ⟨e,hran⟩ := h.on hi (c := .free [d]) hone fun d' hd' => List.mem_singleton.mp hd' ▸ hown
    simp only [TxQueue.free,hran.on]
    refine ih hran.sound ?_
    obtain ⟨_,-,rfl⟩ := map_eq_some_iff.mp hran.run
    change bases k ds≤q.port.held-bases k [d]+0
    rw [add_zero]
    exact le_tsub_of_add_le_left hle

theorem Sound.sendBuilt (hi : q.port.sides[i]? = some ⟨.tx t,held⟩) {descs built : List Desc}
    (hown : ∀ d∈descs, frameOf k d∈t.slice k) (hle : bases k descs≤q.port.held)
    (hb : built.map Desc.addr=(descs.take built.length).map Desc.addr) (sent : Nat) :
    ∃ q' n, q.sendBuilt k i descs built sent=some (q',n) ∧ q'.Sound k total q₀ := by
  have hbuilt := bases_congr k hb
  have hsplit := bases_split k built.length descs
  rw [← hbuilt] at hsplit
  have hdrop : bases k (descs.drop built.length)≤bases k descs := hsplit ▸ le_add_right _ _
  have hfirst : bases k built≤bases k descs := hsplit ▸ le_add_left _ _
  obtain ⟨e1,h1⟩ := h.on hi (c := .free (descs.drop built.length)) (hdrop.trans hle)
    (own_of_bases_le hown hdrop)
  obtain ⟨t1,held1,hi1,hf1⟩ := h1.ring
  have hheld1 : bases k built≤(q.after k i e1).port.held := by
    obtain ⟨_,-,rfl⟩ := map_eq_some_iff.mp h1.run
    change _≤q.port.held-bases k (descs.drop built.length)+0
    rw [add_zero]
    exact le_tsub_of_add_le_left (hsplit ▸ hle)
  obtain ⟨e2,h2⟩ := h1.sound.on hi1 (c := .transmit built none sent) hheld1
    (hf1 ▸ own_of_bases_le hown hfirst)
  obtain ⟨t2,held2,hi2,hf2⟩ := h2.ring
  have hrest : bases k (built.drop e2.count)≤bases k built :=
    bases_split k e2.count built ▸ le_add_right _ _
  have hheld2 : bases k (built.drop e2.count)≤((q.after k i e1).after k i e2).port.held := by
    obtain ⟨_,-,rfl⟩ := map_eq_some_iff.mp h2.run
    change _≤(q.after k i e1).port.held-bases k (built.take _)+0
    rw [add_zero]
    refine le_tsub_of_add_le_right ?_
    rwa [bases_split]
  obtain ⟨e3,h3⟩ := h2.sound.on hi2 (c := .free (built.drop e2.count)) hheld2
    (hf2 ▸ hf1 ▸ own_of_bases_le hown (hrest.trans hfirst))
  refine ⟨_,e2.count,?_,h3.sound⟩
  simp [TxQueue.sendBuilt,h1.on,h2.on,h3.on]

theorem Sound.sendRing
    (hi : q.port.sides[i]? = some ⟨.tx t,held⟩) (count : Int) (build : Nat → Slice → Int)
    (sent : Nat) :
    ∃ q' res, q.sendRing k i t count build sent=some (q',res) ∧ q'.Sound k total q₀ := by
  obtain ⟨x₀,-,hmade⟩ := forall₂_get h.port.sides hi
  obtain ⟨e1,h1⟩ := h.on hi (c := .complete (addInt count t.numInFlight)) trivial
    fun d hd => absurd hd List.not_mem_nil
  obtain ⟨t1,held1,hi1,hf1⟩ := h1.ring
  obtain ⟨e2,h2⟩ :=
    h1.sound.on hi1 (c := .alloc count) trivial fun d hd => absurd hd List.not_mem_nil
  obtain ⟨t2,held2,hi2,hf2⟩ := h2.ring
  have hown := hf2 ▸ h2.gives
  have hheld : bases k e2.descs≤((q.after k i e1).after k i e2).port.held := le_add_left _ _
  simp only [TxQueue.sendRing,h1.on,h2.on]
  split
  case isTrue => exact ⟨_,_,rfl,h2.sound⟩
  obtain ⟨res,hres,hbuilt⟩ := buildBatch_spec BadLength.mk
    (writable_some hmade.sound.shape ((q.after k i e1).after k i e2).port.region) build 0 e2.descs
  have hres : buildBatch BadLength.mk
    (writable t.l ((q.after k i e1).after k i e2).port.region) build 0 e2.descs=some res := hres
  rw [hres]
  cases res with
  | error bad =>
    obtain ⟨e3,h3⟩ := h2.sound.on hi2 (c := .free e2.descs) hheld hown
    simp only [h3.on]
    exact ⟨_,_,rfl,h3.sound⟩
  | ok built =>
    obtain ⟨q',n,hq',hs'⟩ := h2.sound.sendBuilt hi2 hown hheld (hbuilt built rfl) sent
    simp only [hq']
    exact ⟨_,_,rfl,hs'⟩

end

/-! Runs -/

inductive Event where
  | alloc (n : Int)
  | transmit (descs : List Desc) (sent : Nat)
  | transmitOffload (descs : List Desc) (offs : List Offload) (sent : Nat)
  | complete (max : Int)
  | reclaim (max : Int) (out : List Desc)
  | free (descs : List Desc)
  | sendFunc (count : Int) (build : Nat → Slice → Int) (sent : Nat)
  | poke (i : Nat)
  | freed (i : Nat) (va : UInt64)
  | write (r : Region)

def inFlight (q : TxQueue) : Multiset UInt64 := (q.port.sides.map fun x => x.framesOf x.away).sum

section
variable (k : Nat)

def step (q : TxQueue) : Event → Option TxQueue
  | .alloc n => (q.alloc k n).map Prod.fst
  | .transmit descs sent => (q.transmit k descs sent).map Prod.fst
  | .transmitOffload descs offs sent => (q.transmitOffload k descs offs sent).map Prod.fst
  | .complete max => (q.complete k max).map Prod.fst
  | .reclaim max out => (q.reclaim k max out).map Prod.fst
  | .free descs => TxQueue.free k descs q
  | .sendFunc count build sent => (q.sendFunc k count build sent).map Prod.fst
  | .poke i => (q.on k i .poke).map Prod.fst
  | .freed i va => (q.port.step k (.free i va)).map fun p => { q with port := p }
  | .write r => (q.port.step k (.write r)).map fun p => { q with port := p }

def Allows (q : TxQueue) : Event → Prop
  | .transmit descs _ => bases k descs≤q.port.held
  | .transmitOffload descs _ _ => bases k descs≤q.port.held
  | .free descs => bases k descs≤q.port.held
  | .poke i => i<q.port.sides.length
  | .freed i va => q.port.Allows k (.free i va)
  | .write r => q.port.Allows k (.write r)
  | _ => True

def Dealt (q : TxQueue) : Event → Prop
  | .transmit descs _ => ∀ t, q.ring q.next=some t → ∀ d∈descs, t.owns d.addr=true
  | .transmitOffload descs _ _ => ∀ t, q.ring q.next=some t → ∀ d∈descs, t.owns d.addr=true
  | _ => True

def Run : TxQueue → TxQueue → Prop :=
  Relation.ReflTransGen fun q q' => ∃ ev, q.Allows k ev ∧ q.step k ev=some q'

def DealtRun : TxQueue → TxQueue → Prop :=
  Relation.ReflTransGen fun q q' => ∃ ev, q.Allows k ev ∧ q.Dealt ev ∧ q.step k ev=some q'

structure Opened (q : TxQueue) : Prop where
  port : q.port.Opened k
  rings : ∀ x∈q.port.sides, ∃ t, x.q = .tx t
  some : q.port.sides ≠ []
  next : q.next=0
  room : ∀ x∈q.port.sides, x.q.base.frames≤x.q.base.returned.cap

end

theorem card_free (xs : List Side) :
    (xs.map Side.free).sum.card=(xs.map fun x => x.q.base.pool.len).sum := by
  induction xs with
  | nil => rfl
  | cons x xs ih =>
    rw [List.map_cons,List.map_cons,List.sum_cons,List.sum_cons,card_add,ih]
    rfl

theorem card_holdings {xs : List Side}
    (h : ∀ x∈xs, (x.holdings.card : Int)=x.q.base.pool.len+x.q.count) :
    ((xs.map Side.holdings).sum.card : Int) =
      ((xs.map fun x => x.q.base.pool.len).sum : Nat)+(xs.map fun x => x.q.count).sum := by
  induction xs with
  | nil => rfl
  | cons x xs ih =>
    have hx := h x List.mem_cons_self
    have hxs := ih fun y hy => h y (List.mem_cons_of_mem x hy)
    simp only [List.map_cons,List.sum_cons,card_add]
    omega

section
variable {k total : Nat} {q q₀ : TxQueue} (h : q.Sound k total q₀)
include h

theorem Sound.deal {descs : List Desc} (ha : bases k descs≤q.port.held)
    (hd : ∀ t, q.ring q.next=some t → ∀ d∈descs, t.owns d.addr=true)
    (offs : Option (List Offload)) (sent : Nat) :
    ∃ e, q.on k q.next (.transmit descs offs sent)=some (q.after k q.next e,e) ∧
      (q.after k q.next e).Sound k total q₀ := by
  obtain ⟨t,held,hi⟩ := h.ring h.next
  obtain ⟨x₀,-,hmade⟩ := forall₂_get h.port.sides hi
  have hring : q.ring q.next=some t := by rw [TxQueue.ring,hi]
  obtain ⟨e,hran⟩ := h.on hi (c := .transmit descs offs sent) ha fun d hmem =>
    (hmade.sound.shape.owns_iff d).mp (hd t hring d hmem)
  exact ⟨e,hran.on,hran.sound⟩

section
variable (hcap : ∀ x∈q₀.port.sides, x.q.base.frames≤x.q.base.returned.cap)
include hcap

theorem Sound.step {ev : Event}
    (ha : q.Allows k ev) (hd : q.Dealt ev) : ∃ q', q.step k ev=some q' ∧ q'.Sound k total q₀ := by
  cases ev with
  | alloc n =>
    obtain ⟨t,held,hi⟩ := h.ring h.next
    obtain ⟨e,hran⟩ := h.on hi (c := .alloc n) trivial fun d hd => absurd hd List.not_mem_nil
    exact ⟨_,by simp [TxQueue.step,TxQueue.alloc,hran.on],hran.sound⟩
  | transmit descs sent =>
    obtain ⟨e,hon,hs⟩ := h.deal ha hd none sent
    exact ⟨_,by simp [TxQueue.step,TxQueue.transmit,hon],hs.advance⟩
  | transmitOffload descs offs sent =>
    simp only [TxQueue.step,TxQueue.transmitOffload]
    split
    case isTrue => exact ⟨q,rfl,h⟩
    obtain ⟨e,hon,hs⟩ := h.deal ha hd (some offs) sent
    exact ⟨_,by simp [hon],hs.advance⟩
  | complete max =>
    obtain ⟨q',n,hq',hs,-⟩ := h.completeRings max (List.range q.port.sides.length)
      (fun i hi => List.mem_range.mp hi) 0
    exact ⟨q',by rw [TxQueue.step,TxQueue.complete,hq',map_some],hs⟩
  | reclaim max out =>
    obtain ⟨q',got,hq',hs⟩ := h.reclaimRings max (List.range q.port.sides.length)
      (fun i hi => List.mem_range.mp hi) []
    exact ⟨q',by simp [TxQueue.step,TxQueue.reclaim,hq'],hs⟩
  | free descs => exact h.free descs ha
  | sendFunc count build sent =>
    obtain ⟨t,held,hi⟩ := h.ring h.next
    obtain ⟨q',res,hq',hs⟩ := h.advance.sendRing hi count build sent
    have hring : q.ring q.next=some t := by rw [TxQueue.ring,hi]
    exact ⟨q',by simp [TxQueue.step,TxQueue.sendFunc,hring,hq'],hs⟩
  | poke i =>
    obtain ⟨t,held,hi⟩ := h.ring ha
    obtain ⟨e,hran⟩ := h.on hi (c := .poke) trivial fun d hd => absurd hd List.not_mem_nil
    exact ⟨_,by simp [TxQueue.step,hran.on],hran.sound⟩
  | freed i va =>
    obtain ⟨x,hi,hva⟩ := ha
    have hroom := h.roomy hcap
    have hmem := List.mem_of_getElem? hi
    obtain ⟨x₀,-,hmade⟩ := forall₂_get h.port.sides hi
    have hm := (hmade.sound.freed (Side.room (hroom x hmem) hva) hva).2 q.port.held
    obtain ⟨t,ht⟩ := h.rings x hmem
    refine ⟨_,by rw [TxQueue.step,h.port.freed hi (Side.room (hroom x hmem) hva) hva,map_some]; rfl,
      h.apply hi hm rfl ?_ fun a ha => absurd ha (notMem_zero a)⟩
    rw [ht]
    exact ⟨_,rfl⟩
  | write r =>
    have hw : q.port.Allows k (.write r) := ha
    obtain ⟨p,hp,hs⟩ := h.port.step hw trivial
    cases hp
    exact ⟨_,rfl,hs,h.clean,h.rings,h.own,h.next⟩

theorem Sound.run {q' : TxQueue} (hrun : DealtRun k q q') : q'.Sound k total q₀ := by
  induction hrun with
  | refl => exact h
  | tail _ hstep ih =>
    obtain ⟨ev,ha,hd,hs⟩ := hstep
    obtain ⟨q'',hq'',hsound⟩ := ih.step hcap ha hd
    rw [hs,some_inj] at hq''
    exact hq'' ▸ hsound

end

theorem Sound.numbers :
    ((q.numFreeFrames+q.port.held.card : Nat) : Int)+q.numInFlight=q₀.numFreeFrames := by
  have hcard := congrArg card h.port.all
  have hside : ∀ x∈q.port.sides, (x.holdings.card : Int)=x.q.base.pool.len+x.q.count := by
    intro x hx
    obtain ⟨i,hi⟩ := List.mem_iff_getElem?.mp hx
    obtain ⟨x₀,-,hmade⟩ := forall₂_get h.port.sides hi
    rw [hmade.sound.count,Side.holdings,card_add,Side.framesOf,card_map]
    rfl
  have hsum : ((q.port.sides.map Side.holdings).sum.card : Int)=q.numFreeFrames+q.numInFlight :=
    card_holdings hside
  have hpools : q₀.port.pools.sum.card=q₀.numFreeFrames := card_free q₀.port.sides
  rw [Port.everywhere,card_add,card_add,h.clean,card_zero,hpools] at hcard
  omega

theorem Sound.count_eq_one {x x₀ : Side} (hx : q.port.sides[i]? = some x)
    (hx0 : q₀.port.sides[i]? = some x₀) (ha : a∈x₀.free) :
    (x.free+q.port.held+q.inFlight).count a=1 := by
  have hle : List.Forall₂ (· ≤ ·) q.port.pools q₀.port.pools := by
    rw [Port.pools,Port.pools,List.forall₂_map_left_iff,List.forall₂_map_right_iff]
    exact h.port.sides.imp fun y y0 hy => hy.free_le
  have hi : q.port.pools[i]? = some x.free := by rw [Port.pools,List.getElem?_map,hx,map_some]
  have hi0 : q₀.port.pools[i]? = some x₀.free := by
    rw [Port.pools,List.getElem?_map,hx0,map_some]
  have hall : q.port.everywhere.count a=1 := by
    rw [h.port.all]
    exact count_eq_one_of_mem h.port.nodup
      (mem_of_le (List.le_sum_of_mem (List.mem_of_getElem? hi0)) ha)
  have hsplit : q.port.everywhere=q.port.pools.sum+q.port.held+q.inFlight := by
    have hsum : (q.port.sides.map Side.holdings).sum=q.port.pools.sum+q.inFlight := List.sum_map_add
    rw [Port.everywhere,hsum,h.clean,add_zero,add_right_comm]
  rw [hsplit,count_add,count_add,count_sum_of_share hle h.port.nodup hi hi0 ha] at hall
  rw [count_add,count_add,hall]

end

theorem Opened.sound {k : Nat} {q : TxQueue} (h : q.Opened k) : ∃ total, q.Sound k total q := by
  obtain ⟨total,hs⟩ := h.port.sound
  refine ⟨total,hs,h.port.refused,h.rings,fun x hx a ha => ?_,?_⟩
  · obtain ⟨hmade,haway,-⟩ := (h.port.sides x hx).made hs.len h.port.va
    rwa [Side.holdings,haway,Side.framesOf,map_zero,add_zero,hmade.opened] at ha
  · rw [h.next]
    exact List.length_pos_of_ne_nil h.some

end TxQueue

/-- In every run of a transmit queue whose batches are each of the ring that Transmit is
at: a frame of a ring's slice is on that ring's free list, with the caller or in flight;
the three numbers add up; no push is refused; what Complete reports is what came on the
free lists; and every call returns. -/
theorem rings_keep_frames (k : Nat) (q₀ q : TxQueue) (h₀ : q₀.Opened k)
    (h : TxQueue.DealtRun k q₀ q) :
    (∀ (i : Nat) x x₀, q.port.sides[i]? = some x → q₀.port.sides[i]? = some x₀ → ∀ a ∈ x₀.free,
      (x.free+q.port.held+q.inFlight).count a = 1) ∧
    ((q.numFreeFrames+q.port.held.card : Nat) : Int)+q.numInFlight = q₀.numFreeFrames ∧
    (∀ x ∈ q.port.sides, x.q.base.pool.rejected = 0) ∧
    (∀ max, ∃ q' n, q.complete k max = some (q',n) ∧ q'.numFreeFrames = q.numFreeFrames+n ∧
      q'.port.held = q.port.held) ∧
    ∀ ev, q.Allows k ev → q.Dealt ev → ∃ q', q.step k ev = some q' := by
  obtain ⟨total,hs0⟩ := h₀.sound
  have hs := hs0.run h₀.room h
  refine ⟨fun i x x₀ hx hx0 a ha => hs.count_eq_one hx hx0 ha,hs.numbers,hs.port.clean hs.clean,
    fun max => ?_,fun ev ha hd => ?_⟩
  · obtain ⟨q',n,hq',-,hheld,hfree⟩ := hs.completeRings max (List.range q.port.sides.length)
      (fun i hi => List.mem_range.mp hi) 0
    rw [zero_add] at hq'
    exact ⟨q',n,hq',hfree,hheld⟩
  · obtain ⟨q',hq',-⟩ := hs.step h₀.room ha hd
    exact ⟨q',hq'⟩

def secondTxConfig : Config := { pairTxConfig with poolVA := 2, firstFrame := 2 }

def secondTx : Tx := (newTx true smallRegion secondTxConfig).toOption.get (by decide)

def twoRings : TxQueue where
  port := { pairPort with sides := [⟨.tx pairTx,0⟩,⟨.tx secondTx,0⟩] }

theorem twoRings_opened : twoRings.Opened 9 := by
  have hring : ∀ ring, some (emptyRing 2)=some ring → ring.Fresh := fun ring h =>
    some.inj h ▸ emptyRing_fresh
  have hport : twoRings.port.Opened 9 := by
    refine ⟨by decide,by decide,fun x hx => ?_,by decide,by decide,rfl,rfl,rfl⟩
    cases List.mem_cons.mp hx with
    | inl hx =>
      rw [hx]
      exact ⟨rfl,true,pairTxConfig,rfl,rfl,hring,rfl⟩
    | inr hx =>
      rw [List.mem_singleton.mp hx]
      exact ⟨rfl,true,secondTxConfig,rfl,rfl,hring,rfl⟩
  refine ⟨hport,fun x hx => ?_,by decide,rfl,by decide⟩
  cases List.mem_cons.mp hx with
  | inl hx => exact ⟨pairTx,by rw [hx]⟩
  | inr hx => exact ⟨secondTx,by rw [List.mem_singleton.mp hx]⟩

def twoAlloced : TxQueue := (twoRings.step 9 (.alloc 2)).get (by decide)

def twoSent : TxQueue :=
  (twoAlloced.step 9 (.transmit [⟨832,64,0⟩,⟨320,64,0⟩] 1)).get (by decide)

theorem twoAlloced_held : bases 9 [⟨832,64,0⟩,⟨320,64,0⟩]≤twoAlloced.port.held := by decide

theorem twoSent_run : TxQueue.DealtRun 9 twoRings twoSent := by
  have halloc : TxQueue.DealtRun 9 twoRings twoAlloced := .single ⟨.alloc 2,trivial,trivial,rfl⟩
  refine halloc.tail ⟨.transmit [⟨832,64,0⟩,⟨320,64,0⟩] 1,twoAlloced_held,fun t ht => ?_,rfl⟩
  cases ht
  decide

theorem rings_keep_frames_two :
    TxQueue.DealtRun 9 twoRings twoSent ∧ twoSent.port.held = {0} ∧ twoSent.numInFlight = 1 ∧
      ((twoSent.numFreeFrames+twoSent.port.held.card : Nat) : Int)+twoSent.numInFlight = 4 :=
  ⟨twoSent_run,by decide,by decide,
    (rings_keep_frames 9 twoRings twoSent twoRings_opened twoSent_run).2.1⟩

def twoResent : TxQueue := (twoSent.step 9 (.transmit [⟨320,64,0⟩] 1)).get (by decide)

def twoFreed : TxQueue := (twoResent.step 9 (.freed 1 0x10040)).get (by decide)

def twoCompleted : TxQueue × Nat := (twoFreed.complete 9 2).get (by decide)

theorem resent_frame_lost :
    twoRings.Opened 9 ∧ TxQueue.Run 9 twoRings twoFreed ∧
    twoFreed.complete 9 2 = some (twoCompleted.1,1) ∧
      twoCompleted.1.numFreeFrames = twoFreed.numFreeFrames ∧
      twoCompleted.1.port.sides.map (fun x => x.q.base.pool.rejected) = [0,1] ∧
      ((twoCompleted.1.numFreeFrames+twoCompleted.1.port.held.card : Nat) : Int)+
        twoCompleted.1.numInFlight = 3 ∧ twoRings.numFreeFrames = 4 := by
  have halloc : TxQueue.Run 9 twoRings twoAlloced := .single ⟨.alloc 2,trivial,rfl⟩
  have hsent : TxQueue.Run 9 twoRings twoSent :=
    halloc.tail ⟨.transmit [⟨832,64,0⟩,⟨320,64,0⟩] 1,twoAlloced_held,rfl⟩
  have hheld : bases 9 [⟨320,64,0⟩]≤twoSent.port.held := by decide
  have hresent : TxQueue.Run 9 twoRings twoResent := hsent.tail ⟨.transmit [⟨320,64,0⟩] 1,hheld,rfl⟩
  have hfreed : TxQueue.Run 9 twoRings twoFreed :=
    hresent.tail ⟨.freed 1 0x10040,⟨_,rfl,by decide⟩,rfl⟩
  exact ⟨twoRings_opened,hfreed,rfl,by decide,by decide,by decide,by decide⟩

end Packetio.Dpdk

import Mathlib.Tactic.Abel
import Packetio.Dpdk.QueueMbufs

/-! One queue and the driver: which frames are on the free list, in the rings and with
the driver, and what each call moves between them and the caller. -/
namespace Packetio.Dpdk
open Pool Dpdk.Mbuf List Multiset

inductive Queue where
  | tx (t : Tx)
  | rx (q : Rx)

namespace Queue

def base : Queue → Base
  | .tx t => t.toBase
  | .rx q => q.toBase

def count : Queue → Int
  | .tx t => t.numInFlight
  | .rx q => q.numOutstanding

def supplied : Queue → Multiset UInt64
  | .tx _ => 0
  | .rx q => q.supply.items

def returned (q : Queue) : Multiset UInt64 := q.base.returned.items

def most : Queue → Nat
  | .tx t => t.depth
  | .rx q => q.frames

def putReturned (va : UInt64) : Queue → Queue × Nat
  | .tx t => (.tx { t with returned := (t.returned.enqueue [va]).1 },(t.returned.enqueue [va]).2)
  | .rx q => (.rx { q with returned := (q.returned.enqueue [va]).1 },(q.returned.enqueue [va]).2)

end Queue

structure Side where
  q : Queue
  held : Multiset UInt64 := 0

namespace Side

def away (x : Side) : Multiset UInt64 := x.held+x.q.supplied+x.q.returned

def framesOf (x : Side) (vas : Multiset UInt64) : Multiset UInt64 := vas.map x.q.base.frameAt

def free (x : Side) : Multiset UInt64 := x.q.base.pool.free

def holdings (x : Side) : Multiset UInt64 := x.free+x.framesOf x.away

def Limits (k : Nat) (x : Side) : Prop :=
  match x.q with
  | .tx t => x.away.card≤t.depth
  | .rx q => q.supply.Sized ∧
      ∀ va∈x.away, q.frameAt va∈frameStarts q.firstFrame q.frames (2^k)

structure Sound (k total : Nat) (r : Region) (x : Side) : Prop where
  shape : x.q.base.toFixed.Shape k total
  pool : x.q.base.pool.Inv x.q.base.firstFrame x.q.base.frames k
  alive : x.q.base.dead=none
  returned : x.q.base.returned.Sized
  count : x.q.count=x.away.card
  mbufs : ∀ va∈x.away, ∃ a∈frameStarts 0 total (2^k), va=x.q.base.mbufVA a
  stamped : ∀ va∈x.held+x.q.supplied,
    Mbuf.pool r (va-x.q.base.regionVA).toNat=some x.q.base.poolVA
  limits : x.Limits k

end Side

structure Effect where
  side : Side
  region : Region
  descs : List Desc := []
  count : Nat := 0
  takes : Multiset UInt64 := 0
  refused : Multiset UInt64 := 0

inductive TxCall where
  | alloc (n : Int)
  | transmit (descs : List Desc) (offs : Option (List Offload)) (sent : Nat)
  | free (descs : List Desc)
  | poke
  | complete (max : Int)
  | reclaim (max : Int) (out : List Desc)

inductive RxCall where
  | fill (n : Int)
  | receive (max : Int) (out : List UInt64)
  | recycle (descs : List Desc)
  | drainReturned

def Tx.start (t : Tx) (r : Region) (descs : List Desc) :
    Option (List Offload) → Option (Tx × Region × Tx.Batch)
  | none => t.prepare r (descs.map fun d => (d,none))
  | some offs => t.prepareOffload r descs offs

def foreign (p : Frames) (fs : List UInt64) : Multiset UInt64 := ↑(fs.filter fun a => !p.owns a)

def TxCall.run (k : Nat) (r : Region) (t : Tx) (held : Multiset UInt64) : TxCall → Option Effect
  | .alloc n => (t.alloc n).map fun x => { side := ⟨.tx x.1,held⟩, region := r, descs := x.2 }
  | .transmit descs offs sent => (t.start r descs offs).map fun x =>
      let burst : List UInt64 := x.2.2.mbufs.take sent
      let y := x.1.settle descs x.2.2 burst.length
      { side := ⟨.tx y.1,held+(burst : Multiset UInt64)⟩, region := x.2.1, count := y.2.1,
        takes := bases k (descs.take y.2.1) }
  | .free descs => (t.free descs).map fun t' =>
      { side := ⟨.tx t',held⟩, region := r, takes := bases k descs,
        refused := foreign t.pool (descs.map (frameOf k)) }
  | .poke => some { side := ⟨.tx t.poked,held⟩, region := r }
  | .complete max => (t.complete max).map fun x =>
      { side := ⟨.tx x.1,held⟩, region := r, count := x.2,
        refused := foreign t.pool (t.drain max).2 }
  | .reclaim max out => some
      { side := ⟨.tx (t.reclaim max out).1,held⟩, region := r,
        descs := (t.reclaim max out).2.drop out.length }

def TxCall.Allowed (k : Nat) (caller : Multiset UInt64) : TxCall → Prop
  | .transmit descs _ _ => bases k descs≤caller
  | .free descs => bases k descs≤caller
  | _ => True

def RxCall.run (k : Nat) (r : Region) (q : Rx) (held : Multiset UInt64) : RxCall → Option Effect
  | .fill n => (q.fill r n).map fun x =>
      { side := ⟨.rx x.1,held⟩, region := x.2.1, count := x.2.2.toNat }
  | .receive max out => (q.receive r max out.length out).map fun x =>
      { side := ⟨.rx x.1,held-out⟩, region := r, descs := x.2 }
  | .recycle descs => (q.recycle descs).map fun q' =>
      { side := ⟨.rx q',held⟩, region := r, takes := bases k descs,
        refused := foreign q.pool (descs.map (frameOf k)) }
  | .drainReturned => q.drainReturned.map fun x =>
      { side := ⟨.rx x.1,held⟩, region := r, count := x.2 }

def Rx.Single (q : Rx) (k : Nat) (r : Region) (va : UInt64) : Prop :=
  ∃ f, rxRead r (va-q.regionVA).toNat=some f ∧ f.nbSegs=1 ∧
    q.l.objHeader+q.l.mbufSize+f.dataOff.toNat+f.dataLen.toNat≤2^k

def RxCall.Allowed (k : Nat) (r : Region) (q : Rx) (held caller : Multiset UInt64) : RxCall → Prop
  | .receive max out => ↑out≤held ∧ (out.length : Int) ≤ max ∧ out.length≤q.depth ∧
      ∀ va∈out, q.Single k r va
  | .recycle descs => bases k descs≤caller
  | _ => True

structure Moved (k total : Nat) (r : Region) (x : Side) (caller : Multiset UInt64) (e : Effect) :
    Prop where
  sound : e.side.Sound k total e.region
  fixed : e.side.q.base.toFixed=x.q.base.toFixed
  most : e.side.q.most=x.q.most
  cap : e.side.q.base.returned.cap=x.q.base.returned.cap
  takes : e.takes≤caller
  frames : e.side.holdings+bases k e.descs+e.refused=x.holdings+e.takes
  touches : ∃ fs≤x.free+caller, (∀ a∈fs, a∈frameStarts 0 total (2^k)) ∧ Touches k fs r e.region
  clean : e.refused=0 → e.side.q.base.pool.rejected=x.q.base.pool.rejected

theorem Base.fail_none (b : Base) : b.fail none=b.dead := by
  rw [Base.fail]
  cases b.dead with
  | none | some _ => rfl

structure Started (k total : Nat) (t : Tx) (r : Region) (descs : List Desc) (r' : Region)
    (batch : Tx.Batch) (n : Nat) : Prop where
  room : n≤t.numFreeSlots
  mbufs : batch.mbufs=(descs.take n).map fun d => t.mbufVA (frameOf k d)
  stamped : ∀ d∈descs.take n, frameOf k d∈frameStarts 0 total (2^k) ∧
    Mbuf.pool r' (t.mbufAt (frameOf k d))=some t.poolVA
  touches : ∃ fs≤bases k descs, (∀ a∈fs, a∈frameStarts 0 total (2^k)) ∧ Touches k fs r r'

theorem Started.none (k total : Nat) (t : Tx) (r : Region) (descs : List Desc) {batch : Tx.Batch}
    (hb : batch.mbufs = []) : Started k total t r descs r batch 0 :=
  ⟨Nat.zero_le _,hb,by simp,0,Multiset.zero_le _,by simp,.refl k 0 r⟩

theorem Side.Sound.elsewhere {k total : Nat} {r r' : Region} {x : Side}
    (h : x.Sound k total r) {fs : Multiset UInt64}
    (ht : Touches k fs r r') (hF : ∀ a∈fs, a∈frameStarts 0 total (2^k))
    (hdis : Disjoint (x.framesOf x.away) fs) : x.Sound k total r' := by
  refine { h with stamped := fun va hva => ?_ }
  have haway : va∈x.away := mem_add.mpr (.inl hva)
  have hmem : x.q.base.frameAt va∈x.framesOf x.away := mem_map_of_mem _ haway
  obtain ⟨a,ha,hva'⟩ := h.mbufs va haway
  have hst := h.stamped va hva
  rw [hva',h.shape.frameAt_mbufVA ha] at hmem
  rw [hva',h.shape.mbufVA_sub ha] at hst ⊢
  rw [ht.pool h.shape hF ha (disjoint_left.mp hdis hmem),hst]

theorem frames_aligned (k : Nat) (ds : List Desc) : ∀ a∈ds.map (frameOf k), a.toNat%2^k=0 := by
  intro a ha
  obtain ⟨d,-,rfl⟩ := mem_map.mp ha
  rw [frameOf_toNat,Nat.mul_mod_left]

theorem nodup_free {x : Side} {caller fs : Multiset UInt64} (hnd : (x.holdings+caller).Nodup)
    (hfs : fs≤caller) : (x.free+fs).Nodup :=
  nodup_of_le (add_le_add (le_add_right _ _) hfs) hnd

theorem untouched (k total : Nat) (r : Region) (m : Multiset UInt64) :
    ∃ fs ≤ m, (∀ a∈fs, a∈frameStarts 0 total (2^k)) ∧ Touches k fs r r :=
  ⟨0,zero_le _,by simp,.refl k 0 r⟩

theorem trade {p q m n : Multiset UInt64} (h : p+m=q+n) (rest : Multiset UInt64) :
    p+rest+0+m=q+rest+n := by
  rw [add_zero,add_right_comm,h,add_right_comm]

/-! The calls of a transmit queue -/

section
variable {k total : Nat} {r : Region} {t : Tx} {held caller : Multiset UInt64}
variable (h : Side.Sound k total r ⟨.tx t,held⟩)
include h

theorem Side.Sound.txStats (st : TxStats) :
    Side.Sound k total r ⟨.tx { t with stats := st },held⟩ :=
  { h with }

theorem Side.Sound.txPool {p : Frames} (hp : p.Inv t.firstFrame t.frames k) :
    Side.Sound k total r ⟨.tx { t with pool := p },held⟩ :=
  { h with pool := hp }

theorem Side.Sound.descs_bases {fs : List UInt64} (hF : ∀ a∈fs, a∈frameStarts 0 total (2^k)) :
    bases k (fs.map fun frame => ⟨frame+t.dataStart,0,0⟩) = ↑fs := by
  rw [bases,List.map_map,coe_eq_coe]
  refine Perm.of_eq ((map_congr_left fun a ha => ?_).trans (List.map_id fs))
  exact h.shape.dataStart_inside (hF a ha) 0 0

theorem Side.Sound.alloc (n : Int) :
    ∃ st p descs, t.alloc n=some ({ t with pool := p, stats := st },descs) ∧
      p.Inv t.firstFrame t.frames k ∧ p.rejected=t.pool.rejected ∧
      (t.pool.free : Multiset UInt64)=(p.free : Multiset UInt64)+bases k descs := by
  have hinv : t.pool.Inv t.firstFrame t.frames k := h.pool
  rw [Tx.alloc]
  split
  case isTrue => exact ⟨t.stats,t.pool,[],rfl,hinv,rfl,by simp⟩
  rcases clamp n t.numFreeSlots with _ | n1
  · exact ⟨_,t.pool,[],rfl,hinv,rfl,by simp⟩
  simp only
  rcases clamp n1 t.pool.len with _ | n2
  · exact ⟨_,t.pool,[],rfl,hinv,rfl,by simp⟩
  obtain ⟨p,taken,hpop,hinv',hfree,-,hrej,-⟩ := hinv.pop n2 []
  have hF : ∀ a∈taken, a∈frameStarts 0 total (2^k) := fun a ha =>
    h.shape.own_mem (hinv.own a (hfree ▸ mem_append_right _ ha))
  simp only [hpop,nil_append]
  refine ⟨t.stats,p,_,rfl,hinv',hrej,?_⟩
  rw [h.descs_bases hF,coe_add,hfree]

theorem Side.Sound.drain (max : Int) :
    ∃ ring st fs, t.drain max =
        ({ t with returned := ring, inFlight := t.inFlight-(fs.length : Int), stats := st },fs) ∧
      ring.cap=t.returned.cap ∧ Side.Sound k total r
        ⟨.tx { t with returned := ring, inFlight := t.inFlight-(fs.length : Int), stats :=
          st },held⟩ ∧
      (∀ a∈fs, a∈frameStarts 0 total (2^k)) ∧
      Side.holdings ⟨.tx { t with
          returned := ring, inFlight := t.inFlight-(fs.length : Int), stats := st },held⟩+↑fs =
        Side.holdings ⟨.tx t,held⟩ := by
  have hring : t.returned.Sized := h.returned
  have hshape : t.toFixed.Shape k total := h.shape
  have hmem : ∀ va∈t.returned.items, ∃ a∈frameStarts 0 total (2^k), va=t.mbufVA a :=
    fun va hva => h.mbufs va (Multiset.mem_add.mpr (.inr hva))
  rw [Tx.drain]
  split
  case isTrue =>
    refine ⟨t.returned,t.stats,[],by simp,rfl,?_,by simp,add_zero _⟩
    simpa using h
  obtain ⟨hs,hc,hi,-⟩ := hring.pop (min (t.returned.len : Int) max)
  generalize t.returned.pop (min (t.returned.len : Int) max)=x at hs hc hi ⊢
  obtain ⟨hmap,hnone⟩ := hshape.known fun va hva => hmem va (hi ▸ mem_append_left _ hva)
  simp only [hmap,hnone,head?_nil,Option.map_none,Base.fail_none]
  obtain ⟨ring,vas⟩ := x
  have haway : Side.away ⟨.tx t,held⟩=held+0+(ring.items : Multiset UInt64)+vas := by
    change held+0+(t.returned.items : Multiset UInt64)=_
    rw [hi,← coe_add]
    abel
  have hcount : t.inFlight=(Side.away ⟨.tx t,held⟩).card := h.count
  have hdepth : (Side.away ⟨.tx t,held⟩).card≤t.depth := h.limits
  rw [haway,card_add,coe_card] at hcount hdepth
  refine ⟨ring,_,vas.map t.frameAt,rfl,hc,⟨hshape,h.pool,h.alive,hs,?_,?_,h.stamped,?_⟩,?_,?_⟩
  · change t.inFlight-((vas.map t.frameAt).length : Int) =
      (held+0+(ring.items : Multiset UInt64)).card
    rw [length_map]
    omega
  · intro va hva
    exact h.mbufs va (haway ▸ Multiset.mem_add.mpr (.inl hva))
  · change (held+0+(ring.items : Multiset UInt64)).card≤t.depth
    omega
  · intro a ha
    obtain ⟨va,hva,rfl⟩ := List.mem_map.mp ha
    obtain ⟨a,hF,rfl⟩ := hmem va (hi ▸ mem_append_left _ hva)
    rwa [hshape.frameAt_mbufVA hF]
  · rw [Side.holdings,Side.holdings,Side.framesOf,Side.framesOf,haway,Multiset.map_add,
      ← map_coe,add_assoc]
    rfl

theorem Side.Sound.prepare (hr : r.len=total*2^k) (ds : List (Desc × Option Offload))
    (hnd : (bases k (ds.map Prod.fst)).Nodup) :
    ∃ st r' batch n, t.prepare r ds=some ({ t with stats := st },r',batch) ∧
      Started k total t r (ds.map Prod.fst) r' batch n := by
  have hshape := h.shape
  have halive : t.dead=none := h.alive
  simp only [Tx.prepare,halive]
  split
  case isTrue => exact ⟨t.stats,r,{},0,rfl,.none k total t r _ rfl⟩
  split
  case isTrue => exact ⟨_,r,{},0,rfl,.none k total t r _ rfl⟩
  generalize hm : min (min ds.length t.numFreeSlots) t.depth=m
  have hle := bases_take_le k m (ds.map Prod.fst)
  rw [← map_take] at hle
  obtain ⟨r',batch,n,fs,hb,hn,hmb,hst,hfs,hF,ht⟩ := Tx.build_spec hshape (ds.take m) 0 hr
    (nodup_of_le hle hnd)
  rw [length_take] at hn
  have htake : ((ds.take m).map Prod.fst).take n=(ds.map Prod.fst).take n := by
    rw [map_take,take_take,Nat.min_eq_left (by omega)]
  rw [htake] at hmb hst
  have hstarted : Started k total t r (ds.map Prod.fst) r' batch n :=
    ⟨by omega,hmb,hst,fs,hfs.trans hle,hF,ht⟩
  simp only [hb]
  cases batch.refused with
  | none => exact ⟨_,r',batch,n,rfl,hstarted⟩
  | some e =>
    cases e with
    | lengths _ _ | failed _ | desc _ _ | offload _ _ => exact ⟨_,r',batch,n,rfl,hstarted⟩

theorem Side.Sound.start (hr : r.len=total*2^k) (descs : List Desc) (offs : Option (List Offload))
    (hnd : (bases k descs).Nodup) :
    ∃ st r' batch n, t.start r descs offs=some ({ t with stats := st },r',batch) ∧
      Started k total t r descs r' batch n := by
  rcases offs with _ | offs
  · have hmap : (descs.map fun d => (d,(Option.none : Option Offload))).map Prod.fst=descs := by
      rw [List.map_map]
      exact map_id descs
    have hp := h.prepare hr (descs.map fun d => (d,Option.none)) (hmap.symm ▸ hnd)
    rwa [hmap] at hp
  simp only [Tx.start,Tx.prepareOffload]
  split
  case isTrue => exact ⟨t.stats,r,_,0,rfl,.none k total t r descs rfl⟩
  rename_i hlen
  have hmap : (descs.zip (offs.map some)).map Prod.fst=descs :=
    map_fst_zip (by rw [length_map]; omega)
  have hp := h.prepare hr (descs.zip (offs.map some)) (hmap.symm ▸ hnd)
  rwa [hmap] at hp

omit h in
theorem Tx.settle_eq (t : Tx) (descs : List Desc) (batch : Tx.Batch) {s : Nat}
    (hs : s≤batch.mbufs.length) :
    ∃ st err, t.settle descs batch s=({ t with inFlight := t.inFlight+s, stats := st },s,err) := by
  rw [Tx.settle]
  split
  case isTrue h0 =>
    have hs0 : s=0 := by omega
    subst hs0
    exact ⟨t.stats,_,by simp; rfl⟩
  rename_i h0
  have hno : ¬ ((s : Int)<0 ∨ (s : Int) > batch.mbufs.length) := by omega
  simp only [if_neg hno,Int.toNat_natCast]
  exact ⟨_,_,rfl⟩

theorem Side.Sound.transmit (hr : r.len=total*2^k)
    (hnd : (Side.holdings ⟨.tx t,held⟩+caller).Nodup) (descs : List Desc)
    (offs : Option (List Offload)) (sent : Nat) (hc : bases k descs≤caller) :
    ∃ e, (TxCall.transmit descs offs sent).run k r t held=some e ∧
      Moved k total r ⟨.tx t,held⟩ caller e := by
  have hshape : t.toFixed.Shape k total := h.shape
  obtain ⟨-,hndc,hdis⟩ := Multiset.nodup_add.mp hnd
  obtain ⟨st,r',batch,n,hstart,hst⟩ := h.start hr descs offs (nodup_of_le hc hndc)
  obtain ⟨fs,hfs,hF,ht⟩ := hst.touches
  generalize hburst : batch.mbufs.take sent=burst
  obtain ⟨m,hm⟩ : ∃ m, burst.length=m := ⟨_,rfl⟩
  have hlen : m=min sent (min n descs.length) := by
    rw [← hm,← hburst,hst.mbufs,length_take,length_map,length_take]
  have hle : m≤batch.mbufs.length := by
    rw [hst.mbufs,length_map,length_take]
    omega
  obtain ⟨st',err,hset⟩ := ({ t with stats := st } : Tx).settle_eq descs batch hle
  -- the burst is for the first descriptors
  have hmap : burst=((descs.take m).map (frameOf k)).map t.mbufVA := by
    have htake : descs.take (min sent n)=descs.take m := by
      rw [take_eq_take_iff]
      omega
    rw [List.map_map,← htake,← hburst,hst.mbufs,← map_take,take_take]
    rfl
  have hin : ∀ a∈(descs.take m).map (frameOf k), a∈frameStarts 0 total (2^k) ∧
      Mbuf.pool r' (t.mbufAt a)=some t.poolVA := by
    intro a ha
    obtain ⟨d,hd,rfl⟩ := List.mem_map.mp ha
    refine hst.stamped d (mem_of_mem_take (i := m) ?_)
    rwa [take_take,Nat.min_eq_left (by omega)]
  have hframes : (burst : Multiset UInt64).map t.frameAt=bases k (descs.take m) := by
    rw [hmap,map_coe,hshape.frames_mbufs fun a ha => (hin a ha).1,bases]
  have hgot := hshape.handed hin
  rw [← hmap] at hgot
  -- no frame of the caller is away
  have hapart : Disjoint (Side.framesOf ⟨.tx t,held⟩ (Side.away ⟨.tx t,held⟩)) fs :=
    hdis.mono (Multiset.le_add_left _ _) (hfs.trans hc)
  have hs' := h.elsewhere ht hF hapart
  have hdepth : (Side.away ⟨.tx t,held⟩).card≤t.depth := h.limits
  have hcount : t.inFlight=(Side.away ⟨.tx t,held⟩).card := h.count
  let t' : Tx := { t with inFlight := t.inFlight+m, stats := st' }
  have haway : Side.away ⟨.tx t',held+burst⟩=Side.away ⟨.tx t,held⟩+burst := by
    change held+burst+0+(t.returned.items : Multiset UInt64)=held+0+_+burst
    abel
  refine ⟨⟨⟨.tx t',held+burst⟩,r',[],m,bases k (descs.take m),0⟩,?_,
    ⟨⟨hshape,h.pool,h.alive,h.returned,?_,?_,?_,?_⟩,rfl,rfl,rfl,
      (bases_take_le k m descs).trans hc,?_,
      ⟨fs,(hfs.trans hc).trans (Multiset.le_add_left _ _),hF,ht⟩,fun _ => rfl⟩⟩
  · simp only [TxCall.run,hstart,Option.map_some,hburst,hm,hset]
    rfl
  · change t.inFlight+(m : Int)=_
    rw [haway,card_add,coe_card,hm,hcount]
    rfl
  · intro va hva
    rw [haway,mem_add] at hva
    cases hva with
    | inl hva => exact h.mbufs va hva
    | inr hva => exact (hgot va hva).2.2
  · intro va hva
    rw [add_right_comm,mem_add] at hva
    cases hva with
    | inl hva => exact hs'.stamped va hva
    | inr hva => exact (hgot va hva).2.1
  · have hroom := hst.room
    rw [Tx.numFreeSlots] at hroom
    rw [Side.Limits,haway,card_add,coe_card,hm]
    change _≤t.depth
    omega
  · rw [bases_nil,add_zero,add_zero,Side.holdings,Side.framesOf,haway,Multiset.map_add]
    change _+(_+(burst : Multiset UInt64).map t.frameAt)=_
    rw [hframes,← add_assoc]
    rfl

theorem Side.Sound.free (hnd : (Side.holdings ⟨.tx t,held⟩+caller).Nodup) (descs : List Desc)
    (hc : bases k descs≤caller) :
    ∃ e, (TxCall.free descs).run k r t held=some e ∧ Moved k total r ⟨.tx t,held⟩ caller e := by
  have hinv : t.pool.Inv t.firstFrame t.frames k := h.pool
  obtain ⟨p,hp,hinv',hfree,hrej⟩ := hinv.putBack (descs.map (frameOf k)) (frames_aligned k descs)
    (nodup_free hnd hc)
  refine ⟨⟨⟨.tx { t with pool := p },held⟩,r,[],0,bases k descs,
    foreign t.pool (descs.map (frameOf k))⟩,?_,
    ⟨h.txPool hinv',rfl,rfl,rfl,hc,?_,untouched k total r _,?_⟩⟩
  · simp only [TxCall.run,Tx.free,pushBases_eq hinv.shape.mask,hp,Option.map_some]
  · exact trade hfree _
  · exact fun h0 => hrej (coe_eq_zero _ |>.mp h0)

theorem Side.Sound.runTx (hr : r.len=total*2^k) (hnd : (Side.holdings ⟨.tx t,held⟩+caller).Nodup)
    (c : TxCall) (hc : c.Allowed k caller) :
    ∃ e, c.run k r t held=some e ∧ Moved k total r ⟨.tx t,held⟩ caller e := by
  have hinv : t.pool.Inv t.firstFrame t.frames k := h.pool
  cases c with
  | alloc n =>
    obtain ⟨st,p,descs,ha,hinv',hrej,hfree⟩ := h.alloc n
    refine ⟨⟨⟨.tx { t with pool := p, stats := st },held⟩,r,descs,0,0,0⟩,
      by rw [TxCall.run,ha]; rfl,
      ⟨(h.txPool hinv').txStats st,rfl,rfl,rfl,Multiset.zero_le _,?_,untouched k total r _,
        fun _ => hrej⟩⟩
    have htrade := trade (n := 0) (hfree.symm.trans (add_zero _).symm)
      (Side.framesOf ⟨.tx t,held⟩ (Side.away ⟨.tx t,held⟩))
    rwa [add_zero] at htrade ⊢
  | transmit descs offs sent => exact h.transmit hr hnd descs offs sent hc
  | free descs => exact h.free hnd descs hc
  | poke =>
    refine ⟨_,rfl,
      ⟨h.txStats _,rfl,rfl,rfl,Multiset.zero_le _,?_,untouched k total r _,fun _ => rfl⟩⟩
    exact add_zero _
  | complete max =>
    obtain ⟨ring,st,fs,hd,hcap,hs,hF,hall⟩ := h.drain max
    have hnd' : ((t.pool.free : Multiset UInt64)+fs).Nodup := by
      rw [← hall] at hnd
      exact nodup_free (Multiset.nodup_add.mp hnd).1 (le_refl (fs : Multiset UInt64))
    obtain ⟨p,hp,hinv',hfree,hrej⟩ :=
      hinv.putBack fs (fun a ha => h.shape.frame_aligned (hF a ha)) hnd'
    refine ⟨⟨⟨.tx { t with
        pool := p, returned := ring, inFlight := t.inFlight-(fs.length : Int), stats := st },held⟩,
        r,[],fs.length,0,foreign t.pool fs⟩,?_,
      ⟨hs.txPool hinv',rfl,rfl,hcap,Multiset.zero_le _,?_,untouched k total r _,?_⟩⟩
    · simp only [TxCall.run,Tx.complete,hd,hp,Option.map_some]
    · rw [← hall]
      exact (trade hfree _).trans (add_zero _).symm
    · exact fun h0 => hrej (coe_eq_zero _ |>.mp h0)
  | reclaim max out =>
    obtain ⟨ring,st,fs,hd,hcap,hs,hF,hall⟩ := h.drain max
    refine ⟨_,rfl,?_⟩
    simp only [Tx.reclaim,hd,drop_left]
    refine ⟨hs,rfl,rfl,hcap,Multiset.zero_le _,?_,untouched k total r _,fun _ => rfl⟩
    rw [add_zero,add_zero,h.descs_bases hF,hall]

end

end Packetio.Dpdk

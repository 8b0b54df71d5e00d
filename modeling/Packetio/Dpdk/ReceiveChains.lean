import Packetio.Dpdk.ReceiveArea

/-! A driver that spreads packets over several buffers: the burst has the first mbuf of
each, the others hang on it. Receive looks at the first one only. -/
namespace Packetio.Dpdk
open Lib Pool Dpdk.Mbuf List

structure Chain where
  head : UInt64
  rest : List UInt64

def Chain.mbufs (p : Chain) : List UInt64 := p.head::p.rest

def Chain.buffers (p : Chain) : Nat := p.rest.length+1

def Linked (r : Region) (regionVA : UInt64) : UInt64 → List UInt64 → Prop
  | va, [] => next r (va-regionVA).toNat=some 0
  | va, va'::rest => next r (va-regionVA).toNat=some va' ∧ Linked r regionVA va' rest

structure Rx.Spread (q : Rx) (k : Nat) (r : Region) (p : Chain) : Prop where
  segs : ∃ f, rxRead r (p.head-q.regionVA).toNat=some f ∧ f.nbSegs.toNat=p.buffers
  linked : Linked r q.regionVA p.head p.rest
  fits : q.Fits k r p.head

namespace Port

def Delivers (k : Nat) (s : Port) (i : Nat) (max : Int) (ps : List Chain) : Prop :=
  ∃ q held, s.sides[i]? = some ⟨.rx q,held⟩ ∧ ↑(ps.flatMap Chain.mbufs)≤held ∧
    (ps.length : Int) ≤ max ∧ ps.length≤q.depth ∧ ∀ p∈ps, q.Spread k s.region p

def taking (i : Nat) (max : Int) (ps : List Chain) : Event :=
  .call i (.rx (.receive max (ps.map Chain.head)))

def ChainStep (k : Nat) (s s' : Port) : Prop :=
  (∃ ev, s.Allows k ev ∧ s.HasRoom ev ∧ s.step k ev=some s') ∨
    ∃ i max ps, s.Delivers k i max ps ∧ s.step k (taking i max ps)=some s'

def ChainRun (k : Nat) : Port → Port → Prop := Relation.ReflTransGen (ChainStep k)

end Port

theorem mbufs_eq (ps : List Chain) : (↑(ps.flatMap Chain.mbufs) : Multiset UInt64) =
    ↑(ps.map Chain.head)+↑(ps.flatMap Chain.rest) := by
  induction ps with
  | nil => rfl
  | cons p ps ih =>
    have hcons : (↑(p.head::ps.map Chain.head) : Multiset UInt64) =
      {p.head}+↑(ps.map Chain.head) := rfl
    have hmbufs : (↑(p.head::p.rest) : Multiset UInt64) = {p.head}+↑p.rest := rfl
    rw [flatMap_cons,flatMap_cons,map_cons,← Multiset.coe_add,← Multiset.coe_add,
      ih,hcons,Chain.mbufs,hmbufs]
    abel

theorem buffers_eq (ps : List Chain) :
    (ps.map Chain.buffers).sum=ps.length+(ps.flatMap Chain.rest).length := by
  induction ps with
  | nil => rfl
  | cons p ps ih =>
    rw [map_cons,sum_cons,ih,Chain.buffers,length_cons,flatMap_cons,length_append]
    omega

theorem heads_le (ps : List Chain) :
    (↑(ps.map Chain.head) : Multiset UInt64) ≤ ↑(ps.flatMap Chain.mbufs) := by
  rw [mbufs_eq]
  exact Multiset.le_add_right _ _

variable {k total : Nat} {q : Rx} {r : Region} {held : Multiset UInt64} {va : UInt64}

theorem Rx.delivered_frame (hshape : q.toFixed.Shape k total)
    {a : UInt64} (ha : a∈frameStarts 0 total (2^k)) (hfits : q.Fits k r (q.mbufVA a))
    {x : UInt64 × Desc} (hx : q.delivered r (q.mbufVA a)=some x) : Pool.frameOf k x.2=a := by
  obtain ⟨f,hframe,hread,hseg,hok,hd⟩ := Fixed.delivered_some hx
  rw [hshape.frameOfVA_mbufVA ha,Option.some_inj] at hframe
  rw [← hframe] at hread hok hd
  obtain ⟨f',hread',hin⟩ := hfits
  rw [hshape.mbufVA_sub ha,hread,Option.some_inj] at hread'
  subst hread'
  rw [hshape.frameAt_mbufVA ha] at hin
  have hin := hin hseg hok
  have hpos : 0<f.dataLen.toNat := (hshape.descOK_inside hok).2.2
  rw [hd]
  refine ((hshape.inArea_iff ha hok).mpr ?_).2
  rw [hshape.bufStart,hshape.frameSize]
  omega

theorem Side.Sound.refused_back
    (h : Side.Sound k total r ⟨.rx q,held⟩) {vas : List UInt64} {free : Multiset UInt64}
    (hv : ∀ va∈vas, va∈Side.away ⟨.rx q,held⟩) (hfits : ∀ va∈vas, q.Fits k r va)
    (hfree : free+bases k ((vas.filterMap (q.delivered r)).map Prod.snd) =
      (q.pool.free : Multiset UInt64)+↑(vas.map q.frameAt)) (hva : va∈vas)
      (hnone : q.delivered r va=none) : q.frameAt va∈free := by
  have hmem : q.frameAt va∈free+bases k ((vas.filterMap (q.delivered r)).map Prod.snd) := by
    rw [hfree]
    exact Multiset.mem_add.mpr (.inr (mem_map_of_mem hva))
  rcases Multiset.mem_add.mp hmem with hmem | hmem
  · exact hmem
  -- a descriptor of this frame would be that of its own mbuf
  obtain ⟨d,hd,hframe⟩ := mem_map.mp hmem
  obtain ⟨x,hx,rfl⟩ := mem_map.mp hd
  obtain ⟨va',hva',hx⟩ := mem_filterMap.mp hx
  obtain ⟨a,ha,rfl⟩ := h.mbufs va (hv va hva)
  obtain ⟨a',ha',rfl⟩ := h.mbufs va' (hv va' hva')
  have hown := Rx.delivered_frame h.shape ha' (hfits _ hva') hx
  have hsame : a'=a := hown.symm.trans (hframe.trans (h.shape.frameAt_mbufVA ha))
  subst hsame
  exact absurd (hnone.symm.trans hx) (by simp)

theorem Rx.burst_all (halive : q.dead=none) {max : Int} {out : List UInt64}
    (hmax : (out.length : Int) ≤ max) (hdepth : out.length≤q.depth) :
    q.burst max out.length out=out := by
  rcases out with _ | ⟨va,vas⟩
  · simp [Rx.burst]
  rw [length_cons] at hmax hdepth ⊢
  obtain ⟨hpolls,hgot⟩ := Rx.polls_within halive hmax hdepth
  rw [Rx.burst,hpolls,Bool.not_true,if_neg Bool.false_ne_true,if_neg hgot,Int.toNat_natCast]
  exact take_of_length_le (le_refl _)

theorem Port.Sound.chains {s s₀ : Port} (h : s.Sound k total s₀) {i : Nat} {max : Int}
    {ps : List Chain} {q : Rx} {held : Multiset UInt64} (hi : s.sides[i]? = some ⟨.rx q,held⟩)
    (hle : ↑(ps.flatMap Chain.mbufs)≤held) (hmax : (ps.length : Int) ≤ max)
    (hdepth : ps.length≤q.depth) (hspread : ∀ p∈ps, q.Spread k s.region p) :
    ∃ s' p st ds, s.step k (Port.taking i max ps)=some s' ∧ s'.Sound k total s₀ ∧
      s'.sides[i]? =
      some ⟨.rx { q with pool := p, outstanding := q.outstanding-ps.length, stats := st },
        held-↑(ps.map Chain.head)⟩ ∧
      ds=((ps.map Chain.head).filterMap (q.delivered s.region)).map Prod.snd ∧
      (p.free : Multiset UInt64)+bases k ds =
        (q.pool.free : Multiset UInt64)+↑((ps.map Chain.head).map q.frameAt) := by
  obtain ⟨x0,-,hmade⟩ := forall₂_get h.sides hi
  have hside := hmade.sound
  have hnd := h.nodup_side (mem_of_getElem? hi)
  have hheads := (heads_le ps).trans hle
  have hfits : ∀ va∈ps.map Chain.head, q.Fits k s.region va := by
    intro va hva
    obtain ⟨p,hp,rfl⟩ := mem_map.mp hva
    exact (hspread p hp).fits
  have hlen : (ps.map Chain.head).length=ps.length := length_map Chain.head
  rw [← hlen] at hmax hdepth ⊢
  obtain ⟨p,st,ds,hrun,-,-,hfree⟩ := hside.received hnd hheads hmax hdepth hfits
  obtain ⟨e,he,hm⟩ := hside.receive hnd hheads hmax hdepth hfits
  obtain ⟨-,hds⟩ := Rx.receive_descs hrun
  rw [Rx.burst_all hside.alive hmax hdepth] at hds
  have hstep : s.step k (Port.taking i max ps)=some (s.apply k i e) := by
    have he : Side.run k s.region ⟨.rx q,held⟩ (.rx (.receive max (ps.map Chain.head)))=some e := he
    simp [Port.taking,Port.step,Port.call,hi,he]
  refine ⟨_,p,st,ds,hstep,h.apply hi hm,?_,hds,hfree⟩
  rw [RxCall.run,hrun] at he
  cases he
  exact getElem?_set_self (List.getElem?_eq_some_iff.mp hi).1

theorem Port.Sound.chainRun {s s' s₀ : Port} (h : s.Sound k total s₀)
    (hrun : Port.ChainRun k s s') : s'.Sound k total s₀ := by
  induction hrun with
  | refl => exact h
  | tail _ hstep ih =>
    rcases hstep with hstep | ⟨i,max,ps,⟨q,held,hi,hle,hmax,hdepth,hspread⟩,hs⟩
    · obtain ⟨ev,ha,hroom,hs⟩ := hstep
      obtain ⟨s1,hs1,hsound⟩ := ih.step ha hroom
      rw [hs,Option.some_inj] at hs1
      exact hs1 ▸ hsound
    obtain ⟨s1,-,-,-,hs1,hsound,-⟩ := ih.chains hi hle hmax hdepth hspread
    rw [hs,Option.some_inj] at hs1
    exact hs1 ▸ hsound

theorem Side.held_away {x : Side} (h : va∈x.held) : va∈x.away :=
  Multiset.mem_add.mpr (.inl (Multiset.mem_add.mpr (.inl h)))

theorem Port.Sound.held_apart {s s₀ : Port} (h : s.Sound k total s₀) {i : Nat}
    (hi : s.sides[i]? = some ⟨.rx q,held⟩) (hva : va∈held) : q.frameAt va∉q.pool.free := by
  have hnd := (Multiset.nodup_add.mp (h.nodup_side (mem_of_getElem? hi))).1
  have hdis : Disjoint (q.pool.free : Multiset UInt64)
    ((Side.away ⟨.rx q,held⟩).map q.frameAt) := (Multiset.nodup_add.mp hnd).2.2
  intro hmem
  exact Multiset.disjoint_left.mp hdis hmem (Multiset.mem_map_of_mem q.frameAt (Side.held_away hva))

/-- In every run of a port, and for every burst of packets over one buffer or several:
the buffers of a refused packet are all on the free list after Receive just when there is
one, and the outstanding buffers are counted right just when each packet has one. -/
theorem refused_packet_returned_iff (k : Nat) (s₀ s : Port) (h₀ : s₀.Opened k)
    (hrun : Port.ChainRun k s₀ s) (i : Nat) (max : Int) (ps : List Chain)
    (hd : s.Delivers k i max ps) : ∃ q held s' q', s.sides[i]? = some ⟨.rx q,held⟩ ∧
      s.step k (Port.taking i max ps) = some s' ∧
      s'.sides[i]? = some ⟨.rx q',held-↑(ps.map Chain.head)⟩ ∧
      (∀ p ∈ ps, q.delivered s.region p.head = none →
        ((∀ va ∈ p.mbufs, q.frameAt va ∈ q'.pool.free) ↔ p.rest = [])) ∧
      (q'.numOutstanding = q.numOutstanding-((ps.map Chain.buffers).sum : Nat) ↔
        ∀ p ∈ ps, p.rest = []) := by
  obtain ⟨total,hs0⟩ := h₀.sound
  have hs := hs0.chainRun hrun
  obtain ⟨q,held,hi,hle,hmax,hdepth,hspread⟩ := hd
  obtain ⟨s',p',st,ds,hstep,hs',hi',rfl,hfree⟩ := hs.chains hi hle hmax hdepth hspread
  obtain ⟨x0,-,hmade⟩ := forall₂_get hs.sides hi
  refine ⟨q,held,s',_,hi,hstep,hi',fun p hp hnone => ⟨fun hall => ?_,fun hrest va hva => ?_⟩,?_⟩
  · apply eq_nil_iff_forall_not_mem.mpr
    intro va hva
    have hbehind : va∈held-↑(ps.map Chain.head) := by
      rw [mbufs_eq,add_comm] at hle
      exact Multiset.mem_of_le (le_tsub_of_add_le_right hle)
        (mem_flatMap.mpr ⟨p,hp,hva⟩)
    exact hs'.held_apart hi' hbehind (hall va (mem_cons_of_mem _ hva))
  · rw [Chain.mbufs,hrest,mem_singleton] at hva
    subst hva
    refine Side.Sound.refused_back hmade.sound (fun va hva => ?_) (fun va hva => ?_) hfree
      (mem_map_of_mem hp) hnone
    · exact Side.held_away (Multiset.mem_of_le ((heads_le ps).trans hle) hva)
    · obtain ⟨p,hp,rfl⟩ := mem_map.mp hva
      exact (hspread p hp).fits
  · have hnil : (ps.flatMap Chain.rest).length=0 ↔ ∀ p∈ps, p.rest = [] := by
      rw [length_eq_zero_iff,flatMap_eq_nil_iff]
    rw [← hnil,buffers_eq]
    change q.outstanding-(ps.length : Int)=q.outstanding-_ ↔ _
    omega

theorem refused_packet_returned_iff_one :
    Port.ChainRun 9 pairPort pairTaken ∧ pairTaken.Delivers 9 1 1 [⟨0x10440,[]⟩] ∧
      ∃ q held s' q', pairTaken.sides[1]? = some ⟨.rx q,held⟩ ∧
        pairTaken.step 9 (Port.taking 1 1 [⟨0x10440,[]⟩]) = some s' ∧
        s'.sides[1]? = some ⟨.rx q',held-{0x10440}⟩ ∧
        q.delivered pairTaken.region 0x10440 = none ∧ q.frameAt 0x10440 ∈ q'.pool.free ∧
        q'.numOutstanding = q.numOutstanding-1 := by
  have hrun : Port.ChainRun 9 pairPort pairTaken := by
    have hfill : Port.ChainRun 9 pairPort pairFilled :=
      .single (.inl ⟨.call 1 (.rx (.fill 1)),⟨_,rfl,trivial⟩,trivial,rfl⟩)
    exact hfill.tail (.inl ⟨.take 1 1,⟨_,_,rfl⟩,trivial,rfl⟩)
  have hd : pairTaken.Delivers 9 1 1 [⟨0x10440,[]⟩] := by
    refine ⟨_,_,rfl,by decide,by decide,by decide,fun p hp => ?_⟩
    have hread : rxRead pairTaken.region 0x440=some ⟨128,1,0,0⟩ := by decide
    have hnext : next pairTaken.region 0x440=some 0 := by decide
    rw [mem_singleton.mp hp]
    exact ⟨⟨_,hread,rfl⟩,hnext,⟨_,hread,fun _ _ => by decide⟩⟩
  obtain ⟨q,held,s',q',hi,hs,hi',hback,hcount⟩ := refused_packet_returned_iff 9 pairPort pairTaken
    pairPort_opened hrun 1 1 [⟨0x10440,[]⟩] hd
  have hnone : q.delivered pairTaken.region 0x10440=none := by
    cases hi
    decide
  refine ⟨hrun,hd,q,held,s',q',hi,hs,hi',hnone,?_,?_⟩
  · exact (hback _ (mem_singleton_self _) hnone).mpr rfl _ (mem_singleton_self _)
  · exact hcount.mpr fun p hp => by rw [mem_singleton.mp hp]

def pairLoaded : Port := (pairPort.step 9 (.call 1 (.rx (.fill 2)))).get (by decide)

def pairHolding : Port := (pairLoaded.step 9 (.take 1 2)).get (by decide)

def spreadRegion : Region :=
  ((pairHolding.region.putUint64 (0x440+offRearm) (128+0x200000000)).get (by rfl)).putUint64
    (0x440+offNext) 0x10640 |>.get (by rfl)

def spreadPort : Port := { pairHolding with region := spreadRegion }

/-- Receive refuses the packet: its second buffer is on no list, and still counted. -/
theorem second_buffer_lost : pairPort.Opened 9 ∧ Port.ChainRun 9 pairPort spreadPort ∧
      spreadPort.Delivers 9 1 2 [⟨0x10440,[0x10640]⟩] ∧
      ∃ q held s' q', spreadPort.sides[1]? = some ⟨.rx q,held⟩ ∧ q.numOutstanding = 2 ∧
        q.delivered spreadPort.region 0x10440 = none ∧
        spreadPort.step 9 (Port.taking 1 2 [⟨0x10440,[0x10640]⟩]) = some s' ∧
        s'.sides[1]? = some ⟨.rx q',held-{0x10440}⟩ ∧ q.frameAt 0x10640 = 0x600 ∧
        q'.pool.free = [0x400] ∧ q'.numOutstanding = 1 := by
  have hrun : Port.ChainRun 9 pairPort spreadPort := by
    have hfill : Port.ChainRun 9 pairPort pairLoaded :=
      .single (.inl ⟨.call 1 (.rx (.fill 2)),⟨_,rfl,trivial⟩,trivial,rfl⟩)
    have htake : Port.ChainRun 9 pairPort pairHolding :=
      hfill.tail (.inl ⟨.take 1 2,⟨_,_,rfl⟩,trivial,rfl⟩)
    refine htake.tail (.inl ⟨.write spreadRegion,⟨rfl,fun x hx va hva => ?_⟩,trivial,rfl⟩)
    have hfirst : Mbuf.pool spreadRegion 0x440=Mbuf.pool pairHolding.region 0x440 := by decide
    have hsecond : Mbuf.pool spreadRegion 0x640=Mbuf.pool pairHolding.region 0x640 := by decide
    rcases mem_cons.mp hx with hx | hx
    · subst hx
      exact absurd hva (Multiset.notMem_zero va)
    rw [mem_singleton.mp hx] at hva
    cases mem_cons.mp hva with
    | inl hva =>
      rw [hva]
      exact hsecond
    | inr hva =>
      rw [mem_singleton.mp hva]
      exact hfirst
  have hread : rxRead spreadRegion 0x440=some ⟨128,2,0,0⟩ := by decide
  have hd : spreadPort.Delivers 9 1 2 [⟨0x10440,[0x10640]⟩] := by
    have hnext : next spreadRegion 0x440=some 0x10640 := by decide
    have hlast : next spreadRegion 0x640=some 0 := by decide
    refine ⟨_,_,rfl,by decide,by decide,by decide,fun p hp => ?_⟩
    rw [mem_singleton.mp hp]
    exact ⟨⟨_,hread,rfl⟩,⟨hnext,hlast⟩,⟨_,hread,fun h => absurd h (by decide)⟩⟩
  exact ⟨pairPort_opened,hrun,hd,_,_,_,_,rfl,by decide,by decide,rfl,rfl,by decide,
    by decide,by decide⟩

end Packetio.Dpdk

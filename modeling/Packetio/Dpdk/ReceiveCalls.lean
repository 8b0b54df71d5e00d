import Packetio.Dpdk.QueueCalls

/-! The calls of a receive queue: what each of them moves between the free list, the
supply ring, the driver, the returned ring and the caller. -/
namespace Packetio.Dpdk
open Pool Dpdk.Mbuf List Multiset

section
variable {k total : Nat} {r : Region} {q : Rx} {held caller : Multiset UInt64}
variable (h : Side.Sound k total r ⟨.rx q,held⟩)
include h

theorem Side.Sound.rxLimits : q.supply.Sized ∧ ∀ va∈Side.away ⟨.rx q,held⟩,
    q.frameAt va∈frameStarts q.firstFrame q.frames (2^k) := h.limits

theorem Side.Sound.rxStats (st : RxStats) :
    Side.Sound k total r ⟨.rx { q with stats := st },held⟩ :=
  { h with }

theorem Side.Sound.rxPool {p : Frames} (hp : p.Inv q.firstFrame q.frames k) :
    Side.Sound k total r ⟨.rx { q with pool := p },held⟩ :=
  { h with pool := hp }

theorem Side.Sound.recycle (hnd : (Side.holdings ⟨.rx q,held⟩+caller).Nodup) (descs : List Desc)
    (hc : bases k descs≤caller) :
    ∃ e, (RxCall.recycle descs).run k r q held=some e ∧ Moved k total r ⟨.rx q,held⟩ caller e := by
  have hinv : q.pool.Inv q.firstFrame q.frames k := h.pool
  obtain ⟨p,hp,hinv',hfree,hrej⟩ := hinv.putBack (descs.map (frameOf k)) (frames_aligned k descs)
    (nodup_free hnd hc)
  refine ⟨⟨⟨.rx { q with pool := p },held⟩,r,[],0,bases k descs,
    foreign q.pool (descs.map (frameOf k))⟩,?_,
    ⟨h.rxPool hinv',rfl,rfl,rfl,hc,?_,untouched k total r _,?_⟩⟩
  · simp only [RxCall.run,Rx.recycle,pushBases_eq hinv.shape.mask,hp,Option.map_some]
  · exact trade hfree _
  · exact fun h0 => hrej (coe_eq_zero _ |>.mp h0)

theorem Side.Sound.fill (hr : r.len=total*2^k) (hnd : (Side.holdings ⟨.rx q,held⟩+caller).Nodup)
    (n : Int) :
    ∃ e, (RxCall.fill n).run k r q held=some e ∧ Moved k total r ⟨.rx q,held⟩ caller e := by
  have hinv : q.pool.Inv q.firstFrame q.frames k := h.pool
  have hshape : q.toFixed.Shape k total := h.shape
  obtain ⟨hsup,hown⟩ := h.rxLimits
  have hnone : ∀ st : RxStats, Moved k total r ⟨.rx q,held⟩ caller
      ⟨⟨.rx { q with stats := st },held⟩,r,[],0,0,0⟩ := fun st =>
    ⟨h.rxStats st,rfl,rfl,rfl,Multiset.zero_le _,add_zero _,untouched k total r _,fun _ => rfl⟩
  simp only [RxCall.run,Rx.fill]
  split
  case isTrue => exact ⟨_,rfl,hnone q.stats⟩
  rcases clamp n q.pool.len with _ | n1
  · exact ⟨_,rfl,hnone _⟩
  obtain ⟨p,taken,hpop,hinv',hfree,-,hrej,-⟩ := hinv.pop n1 []
  have hmem : ∀ a∈taken, a∈frameStarts q.firstFrame q.frames (2^k) := fun a ha =>
    hinv.own a (hfree ▸ mem_append_right _ ha)
  have hF : ∀ a∈taken, a∈frameStarts 0 total (2^k) := fun a ha => hshape.own_mem (hmem a ha)
  have hndt : (p.free++taken).Nodup := hfree ▸ hinv.nodup
  obtain ⟨r',hreset,hst,ht⟩ := Rx.reset_spec hshape taken hr hF (List.nodup_append.mp hndt).2.1
  obtain ⟨m,hm,hmin,hs,-,hi⟩ := hsup.push (taken.map q.mbufVA)
  obtain ⟨p',hp',hinv'',hrej',hfree'⟩ := hinv'.pushOwn
    (fun a ha => hmem a (mem_of_mem_drop (i := m) ha))
    (by exact hndt.sublist ((drop_sublist m taken).append_left p.free))
  simp only [hpop,nil_append,hreset,hm,Int.toNat_natCast,hp',Option.map_some]
  have hposted : ∀ a∈taken.take m, a∈taken := fun a ha => mem_of_mem_take ha
  have hgot := hshape.handed fun a ha => ⟨hF a (hposted a ha),hst a (hposted a ha)⟩
  let q' : Rx := { q with
    pool := p'
    supply := (q.supply.push (taken.map q.mbufVA)).1
    outstanding := q.outstanding+m
    stats.filled := q.stats.filled+UInt64.ofNat m }
  have haway : Side.away ⟨.rx q',held⟩ =
      Side.away ⟨.rx q,held⟩+(((taken.take m).map q.mbufVA : List UInt64) : Multiset UInt64) := by
    change held+((q.supply.push (taken.map q.mbufVA)).1.items : Multiset UInt64)+
      (q.returned.items : Multiset UInt64) =
      held+(q.supply.items : Multiset UInt64)+(q.returned.items : Multiset UInt64)+_
    rw [hi,← coe_add,map_take]
    abel
  have hle : (taken : Multiset UInt64)≤Side.free ⟨.rx q,held⟩ := by
    change _≤(q.pool.free : Multiset UInt64)
    rw [hfree,← coe_add]
    exact Multiset.le_add_left _ _
  have hapart : Disjoint (Side.framesOf ⟨.rx q,held⟩ (Side.away ⟨.rx q,held⟩)) ↑taken := by
    have hdis := (Multiset.nodup_add.mp (Multiset.nodup_add.mp hnd).1).2.2
    exact (hdis.mono hle (le_refl _)).symm
  have hs' := h.elsewhere ht hF hapart
  have hcount : q.outstanding=(Side.away ⟨.rx q,held⟩).card := h.count
  have hlen : (taken.take m).length=m := by
    rw [length_map] at hmin
    rw [length_take]
    omega
  refine ⟨⟨⟨.rx q',held⟩,r',[],m,0,0⟩,rfl,
    ⟨⟨hshape,hinv'',h.alive,h.returned,?_,?_,?_,hs,?_⟩,rfl,rfl,rfl,Multiset.zero_le _,?_,
    ⟨↑taken,hle.trans (Multiset.le_add_right _ _),hF,ht⟩,fun _ => hrej'.trans hrej⟩⟩
  · change q.outstanding+(m : Int)=_
    rw [haway,card_add,coe_card,length_map,hlen,hcount]
    rfl
  · intro va hva
    rw [haway,mem_add] at hva
    cases hva with
    | inl hva => exact h.mbufs va hva
    | inr hva => exact (hgot va hva).2.2
  · intro va hva
    change va∈held+((q.supply.push (taken.map q.mbufVA)).1.items : Multiset UInt64) at hva
    rw [hi,← coe_add,← add_assoc,mem_add] at hva
    cases hva with
    | inl hva => exact hs'.stamped va hva
    | inr hva =>
      rw [mem_coe,← map_take] at hva
      exact (hgot va hva).2.1
  · intro va hva
    rw [haway,mem_add] at hva
    cases hva with
    | inl hva => exact hown va hva
    | inr hva => exact hmem _ (hposted _ (hgot va hva).1)
  · have hsplit : (taken : Multiset UInt64) = ↑(taken.take m)+↑(taken.drop m) := by
      rw [coe_add,take_append_drop]
    have hframes : Side.framesOf ⟨.rx q',held⟩ (Side.away ⟨.rx q',held⟩) =
        Side.framesOf ⟨.rx q,held⟩ (Side.away ⟨.rx q,held⟩)+↑(taken.take m) := by
      rw [haway,Side.framesOf,Multiset.map_add]
      change _+Multiset.map q.frameAt _=_
      rw [map_coe,hshape.frames_mbufs fun a ha => hF a (hposted a ha)]
      rfl
    rw [bases_nil,add_zero,add_zero,add_zero,Side.holdings,Side.holdings,hframes]
    change (p'.free : Multiset UInt64)+_=(q.pool.free : Multiset UInt64)+_
    rw [hfree',hfree,← coe_add,hsplit]
    abel

omit h in
theorem Rx.refuse_spec {q : Rx} (hinv : q.pool.Inv q.firstFrame q.frames k) {a : UInt64}
    (ha : a∈frameStarts q.firstFrame q.frames (2^k)) (hnot : a∉q.pool.free) (st : RxStats) :
    ∃ p, Rx.refuse { q with stats := st } a=some { q with pool := p, stats := st } ∧
      p.Inv q.firstFrame q.frames k ∧ p.rejected=q.pool.rejected ∧
      (p.free : Multiset UInt64)=(q.pool.free : Multiset UInt64)+{a} := by
  obtain ⟨ws,hp,hinv'⟩ := hinv.push ha hnot
  refine ⟨_,by simp [Rx.refuse,hp],hinv',rfl,?_⟩
  rw [← coe_singleton,coe_add]

def Rx.Fits (q : Rx) (k : Nat) (r : Region) (va : UInt64) : Prop :=
  ∃ f, rxRead r (va-q.regionVA).toNat=some f ∧ (f.nbSegs=1 →
    q.descOK ⟨q.frameAt va+q.bufStart+f.dataOff.toUInt64,f.dataLen.toUInt32,
      Rx.rxOptions f.olFlags⟩=true →
    q.l.objHeader+q.l.mbufSize+f.dataOff.toNat+f.dataLen.toNat≤2^k)

omit h in
theorem Rx.Single.fits {va : UInt64} (h : q.Single k r va) : q.Fits k r va := by
  obtain ⟨f,hf,-,hfit⟩ := h
  exact ⟨f,hf,fun _ _ => hfit⟩

omit h in
theorem Rx.deliver_spec {q : Rx} (hshape : q.toFixed.Shape k total)
    (hinv : q.pool.Inv q.firstFrame q.frames k) {a : UInt64}
    (ha : a∈frameStarts q.firstFrame q.frames (2^k)) (hnot : a∉q.pool.free)
    (hone : q.Fits k r (q.mbufVA a)) (acc : Rx.Delivery) :
    ∃ p st ds bytes, q.deliver r acc (q.mbufVA a) =
        some ({ q with pool := p, stats := st },⟨acc.descs++ds,bytes,acc.taken+1⟩) ∧
      p.Inv q.firstFrame q.frames k ∧ p.rejected=q.pool.rejected ∧
      (p.free : Multiset UInt64)+bases k ds=(q.pool.free : Multiset UInt64)+{a} := by
  have hF := hshape.own_mem ha
  obtain ⟨f,hf,hfit⟩ := hone
  rw [hshape.mbufVA_sub hF] at hf
  rw [hshape.frameAt_mbufVA hF] at hfit
  simp only [Rx.deliver,hshape.frameOfVA_mbufVA hF,hf]
  split
  case isTrue =>
    obtain ⟨p,hp,hinv',hrej,hfree⟩ := Rx.refuse_spec hinv ha hnot
      { q.stats with chained := q.stats.chained+1 }
    simp only [hp,Bind.bind,Option.bind]
    exact ⟨_,_,[],acc.bytes,by rw [append_nil],hinv',hrej,by rw [bases_nil,add_zero,hfree]⟩
  rename_i hseg
  split
  case isTrue =>
    obtain ⟨p,hp,hinv',hrej,hfree⟩ := Rx.refuse_spec hinv ha hnot
      { q.stats with badLen := q.stats.badLen+1 }
    simp only [hp,Bind.bind,Option.bind]
    exact ⟨_,_,[],acc.bytes,by rw [append_nil],hinv',hrej,by rw [bases_nil,add_zero,hfree]⟩
  rename_i hok
  rw [Bool.not_eq_true',Bool.not_eq_false] at hok
  have hfit := hfit (not_not.mp hseg) hok
  obtain ⟨-,-,hlen⟩ := hshape.descOK_inside hok
  refine ⟨q.pool,q.stats,_,_,rfl,hinv,rfl,?_⟩
  have hle := hshape.frame_le hF
  have hfits := hshape.fits
  have hoff : q.l.objHeader+q.l.mbufSize+f.dataOff.toNat<2^k := by
    have : 0<f.dataLen.toNat := hlen
    omega
  have haddr : (a+q.bufStart+f.dataOff.toUInt64).toNat =
      a.toNat+(q.l.objHeader+q.l.mbufSize+f.dataOff.toNat) := by
    rw [UInt64.toNat_add,UInt64.toNat_add,hshape.bufStart,UInt16.toNat_toUInt64]
    omega
  have hframe := frameOf_inside hshape.fits64 hF (d := ⟨a+q.bufStart+f.dataOff.toUInt64,
    f.dataLen.toUInt32,Rx.rxOptions f.olFlags⟩) hoff haddr
  rw [bases,List.map_singleton,hframe]
  rfl

omit h in
theorem Rx.delivers_spec {q : Rx} (hshape : q.toFixed.Shape k total)
    (hinv : q.pool.Inv q.firstFrame q.frames k) {fs : List UInt64}
    (hown : ∀ a∈fs, a∈frameStarts q.firstFrame q.frames (2^k))
    (hnd : ((q.pool.free : Multiset UInt64)+fs).Nodup)
    (hone : ∀ a∈fs, q.Fits k r (q.mbufVA a)) (acc : Rx.Delivery) :
    ∃ p st ds bytes, (fs.map q.mbufVA).foldlM (fun x va => x.1.deliver r x.2 va) (q,acc) =
        some ({ q with pool := p, stats := st },⟨acc.descs++ds,bytes,acc.taken+fs.length⟩) ∧
      p.Inv q.firstFrame q.frames k ∧ p.rejected=q.pool.rejected ∧
      (p.free : Multiset UInt64)+bases k ds=(q.pool.free : Multiset UInt64)+fs := by
  induction fs generalizing q acc with
  | nil => exact ⟨q.pool,q.stats,[],acc.bytes,by rw [append_nil]; rfl,hinv,rfl,rfl⟩
  | cons a fs ih =>
    have hcons : ((a::fs : List UInt64) : Multiset UInt64) = {a}+↑fs := rfl
    rw [hcons,← add_assoc] at hnd
    have hnot : a∉q.pool.free := fun hmem =>
      Multiset.disjoint_left.mp (Multiset.nodup_add.mp (Multiset.nodup_add.mp hnd).1).2.2 hmem
        (Multiset.mem_singleton_self a)
    obtain ⟨p,st,ds,bytes,hd,hinv',hrej,hfree⟩ := Rx.deliver_spec hshape hinv
      (hown a mem_cons_self) hnot (hone a mem_cons_self) acc
    have hnd' : ((p.free : Multiset UInt64)+fs).Nodup := by
      refine nodup_of_le (add_le_add ?_ (le_refl _)) hnd
      exact hfree ▸ le_add_right _ _
    obtain ⟨p',st',ds',bytes',hds,hinv'',hrej',hfree'⟩ :=
      ih (q := { q with pool := p, stats := st })
      hshape hinv' (fun b hb => hown b (mem_cons_of_mem a hb)) hnd'
      (fun b hb => hone b (mem_cons_of_mem a hb)) ⟨acc.descs++ds,bytes,acc.taken+1⟩
    refine ⟨p',st',ds++ds',bytes',?_,hinv'',hrej'.trans hrej,?_⟩
    · rw [List.map_cons,foldlM_cons,hd,length_cons]
      refine Eq.trans hds ?_
      rw [append_assoc,add_assoc,add_comm 1]
    · calc (p'.free : Multiset UInt64)+bases k (ds++ds')
          = (p'.free : Multiset UInt64)+bases k ds'+bases k ds := by rw [bases_append]; abel
        _=(p.free : Multiset UInt64)+fs+bases k ds := by rw [hfree']
        _=(p.free : Multiset UInt64)+bases k ds+fs := by abel
        _=(q.pool.free : Multiset UInt64)+↑(a::fs) := by rw [hfree,hcons,add_assoc]

theorem Side.Sound.rxBack {p : Frames} {ring : Ring} {n : Int} {held' vas : Multiset UInt64}
    (hp : p.Inv q.firstFrame q.frames k) (hring : ring.Sized)
    (hheld : held'≤held) (hn : n=q.outstanding-vas.card)
    (haway : Side.away ⟨.rx q,held⟩=held'+↑q.supply.items+↑ring.items+vas) (st : RxStats) :
    Side.Sound k total r
        ⟨.rx { q with pool := p, returned := ring, outstanding := n, stats := st },held'⟩ ∧
      Side.holdings
        ⟨.rx { q with pool := p, returned := ring, outstanding := n, stats := st },held'⟩+
          (q.pool.free : Multiset UInt64)+vas.map q.frameAt =
        Side.holdings ⟨.rx q,held⟩+(p.free : Multiset UInt64) := by
  obtain ⟨hsup,hown⟩ := h.rxLimits
  have hcount : q.outstanding=(Side.away ⟨.rx q,held⟩).card := h.count
  have hmem : ∀ va∈held'+↑q.supply.items+↑ring.items, va∈Side.away ⟨.rx q,held⟩ := fun va hva =>
    haway ▸ Multiset.mem_add.mpr (.inl hva)
  refine ⟨⟨h.shape,hp,h.alive,hring,?_,fun va hva => h.mbufs va (hmem va hva),fun va hva => ?_,hsup,
    fun va hva => hown va (hmem va hva)⟩,?_⟩
  · change n=(held'+↑q.supply.items+↑ring.items).card
    rw [haway,card_add] at hcount
    omega
  · exact h.stamped va (mem_of_le (add_le_add hheld (le_refl _)) hva)
  · rw [Side.holdings,Side.holdings,Side.framesOf,Side.framesOf,haway,Multiset.map_add]
    have hsplit : ∀ rest : Multiset UInt64,
        (p.free : Multiset UInt64)+rest.map q.frameAt+q.pool.free+vas.map q.frameAt =
          (q.pool.free : Multiset UInt64)+(rest.map q.frameAt+vas.map q.frameAt)+p.free := by
      intro rest
      abel
    exact hsplit _

theorem Side.Sound.ownMbufs {vas : List UInt64} (hv : ∀ va∈vas, va∈Side.away ⟨.rx q,held⟩) :
    vas=(vas.map q.frameAt).map q.mbufVA ∧
      ∀ a∈vas.map q.frameAt, a∈frameStarts q.firstFrame q.frames (2^k) := by
  obtain ⟨-,hown⟩ := h.rxLimits
  refine ⟨?_,fun a ha => ?_⟩
  · rw [List.map_map]
    refine ((map_congr_left fun va hva => ?_).trans (map_id vas)).symm
    obtain ⟨a,ha,rfl⟩ := h.mbufs va (hv va hva)
    exact congrArg q.mbufVA (h.shape.frameAt_mbufVA ha)
  · obtain ⟨va,hva,rfl⟩ := mem_map.mp ha
    exact hown va (hv va hva)

omit h in
theorem Rx.polls_within {q : Rx} (halive : q.dead=none) {max : Int} {n : Nat}
    (hmax : ((n+1 : Nat) : Int) ≤ max) (hdepth : n+1≤q.depth) :
    q.polls max=true ∧ ¬ (((n+1 : Nat) : Int)≤0 ∨ ((n+1 : Nat) : Int) > min max q.depth) := by
  refine ⟨?_,by omega⟩
  simp only [Rx.polls,halive,Option.isNone_none,Bool.and_true,decide_eq_true_eq]
  omega

omit h in
theorem Rx.receive_eq {q q' : Rx} (halive : q.dead=none) {max : Int} {out : List UInt64}
    (hmax : (out.length : Int) ≤ max) (hdepth : out.length≤q.depth) {acc : Rx.Delivery}
    (hd : out.foldlM (fun x va => x.1.deliver r x.2 va) (q,({} : Rx.Delivery))=some (q',acc)) :
    ∃ st, q.receive r max out.length out =
      some ({ q' with outstanding := q'.outstanding-acc.taken, stats := st },acc.descs) := by
  rw [Rx.receive]
  rcases out with _ | ⟨va,vas⟩
  · cases hd
    refine ⟨q.stats,?_⟩
    simp
  rw [length_cons] at hmax hdepth ⊢
  obtain ⟨hpolls,hgot⟩ := Rx.polls_within halive hmax hdepth
  have htake : (va::vas).take (vas.length+1)=va::vas := take_of_length_le (le_refl _)
  rw [hpolls,Bool.not_true,if_neg Bool.false_ne_true,if_neg hgot,Int.toNat_natCast,htake,hd]
  dsimp only
  split
  case isTrue | isFalse => exact ⟨_,rfl⟩

section
variable (hnd : (Side.holdings ⟨.rx q,held⟩+caller).Nodup) {max : Int} {out : List UInt64}
  (hle : ↑out≤held) (hmax : (out.length : Int) ≤ max) (hdepth : out.length≤q.depth)
  (hone : ∀ va∈out, q.Fits k r va)
include hle

omit h in
theorem Side.away_delivered : Side.away ⟨.rx q,held⟩ =
    held-↑out+(q.supply.items : Multiset UInt64)+(q.returned.items : Multiset UInt64)+↑out := by
  have hcancel := Multiset.sub_add_cancel hle
  change held+(q.supply.items : Multiset UInt64)+(q.returned.items : Multiset UInt64)=_
  generalize held-(out : Multiset UInt64)=rest at hcancel ⊢
  rw [← hcancel]
  abel

include hnd hmax hdepth hone

theorem Side.Sound.received :
    ∃ p st ds, q.receive r max out.length out =
        some ({ q with pool := p, outstanding := q.outstanding-out.length, stats := st },ds) ∧
      p.Inv q.firstFrame q.frames k ∧ p.rejected=q.pool.rejected ∧
      (p.free : Multiset UInt64)+bases k ds =
        (q.pool.free : Multiset UInt64)+↑(out.map q.frameAt) := by
  have hinv := h.pool
  have halive := h.alive
  have haway := Side.away_delivered (q := q) hle
  obtain ⟨hmap,hown⟩ := h.ownMbufs fun va (hva : va∈out) => haway ▸ mem_add.mpr (.inr hva)
  have hndf : ((q.pool.free : Multiset UInt64)+↑(out.map q.frameAt)).Nodup := by
    refine nodup_of_le ?_ (nodup_add.mp hnd).1
    rw [Side.holdings,Side.framesOf,haway,map_add]
    exact add_le_add (le_refl _) (map_coe q.frameAt out ▸ le_add_left _ _)
  obtain ⟨p,st,ds,bytes,hd,hinv',hrej,hfree⟩ := Rx.delivers_spec h.shape hinv hown hndf
    (fun a ha => hone _ (hmap ▸ mem_map_of_mem ha)) {}
  simp only [← hmap,length_map,nil_append,zero_add] at hd
  obtain ⟨st,hrun⟩ := Rx.receive_eq halive hmax hdepth hd
  exact ⟨p,st,ds,hrun,hinv',hrej,hfree⟩

theorem Side.Sound.receive :
    ∃ e, (RxCall.receive max out).run k r q held=some e ∧
    Moved k total r ⟨.rx q,held⟩ caller e := by
  obtain ⟨p,st,ds,hrun,hinv,hrej,hfree⟩ := h.received hnd hle hmax hdepth hone
  obtain ⟨hs,hall⟩ := h.rxBack hinv h.returned (Multiset.sub_le_self _ _) rfl
    (Side.away_delivered hle) st
  refine ⟨⟨⟨.rx _,held-out⟩,r,ds,0,0,0⟩,?_,
    ⟨hs,rfl,rfl,rfl,zero_le _,?_,untouched k total r _,fun _ => hrej⟩⟩
  · rw [RxCall.run,hrun]
    rfl
  · rw [add_zero,add_zero]
    refine add_right_cancel (b := (p.free : Multiset UInt64)) ?_
    rw [← hall,map_coe,add_assoc,add_assoc,add_comm (bases k ds),hfree]

end

theorem Side.Sound.drainReturned (hnd : (Side.holdings ⟨.rx q,held⟩+caller).Nodup) :
    ∃ e, RxCall.drainReturned.run k r q held=some e ∧ Moved k total r ⟨.rx q,held⟩ caller e := by
  have hinv : q.pool.Inv q.firstFrame q.frames k := h.pool
  have hring : q.returned.Sized := h.returned
  have hshape : q.toFixed.Shape k total := h.shape
  simp only [RxCall.run,Rx.drainReturned]
  split
  case isTrue =>
    exact ⟨_,rfl,⟨h,rfl,rfl,rfl,Multiset.zero_le _,add_zero _,untouched k total r _,fun _ => rfl⟩⟩
  obtain ⟨hs,hc,hi,-⟩ := hring.pop q.returned.len
  generalize q.returned.pop q.returned.len=x at hs hc hi ⊢
  obtain ⟨ring,vas⟩ := x
  have haway : Side.away ⟨.rx q,held⟩ =
      held+(q.supply.items : Multiset UInt64)+(ring.items : Multiset UInt64)+vas := by
    change held+(q.supply.items : Multiset UInt64)+(q.returned.items : Multiset UInt64)=_
    rw [hi,← coe_add]
    abel
  have hmem : ∀ va∈vas, va∈Side.away ⟨.rx q,held⟩ := fun va hva =>
    haway ▸ Multiset.mem_add.mpr (.inr hva)
  obtain ⟨-,hown⟩ := h.ownMbufs hmem
  obtain ⟨hmap,hnone⟩ := hshape.known fun va hva => h.mbufs va (hmem va hva)
  have hndf : ((q.pool.free : Multiset UInt64)+↑(vas.map q.frameAt)).Nodup := by
    refine nodup_of_le ?_ (Multiset.nodup_add.mp hnd).1
    rw [Side.holdings,Side.framesOf,haway,Multiset.map_add]
    exact add_le_add (le_refl _) (Multiset.le_add_left _ _)
  obtain ⟨p,hp,hinv',hrej,hfree⟩ := hinv.pushOwn hown hndf
  obtain ⟨hs',hall⟩ := h.rxBack hinv' hs (le_refl held) rfl haway
    { q.stats with foreign := q.stats.foreign+UInt64.ofNat 0 }
  simp only [hmap,hnone,hp,head?_nil,Option.map_none,Base.fail_none,length_map,
    length_nil,Option.map_some]
  refine ⟨_,rfl,⟨hs',rfl,rfl,hc,Multiset.zero_le _,?_,untouched k total r _,fun _ => hrej⟩⟩
  rw [bases_nil,add_zero,add_zero,add_zero]
  refine add_right_cancel (b := (p.free : Multiset UInt64)) ?_
  rw [← hall,hfree,add_assoc]
  rfl

theorem Side.Sound.runRx (hr : r.len=total*2^k) (hnd : (Side.holdings ⟨.rx q,held⟩+caller).Nodup)
    (c : RxCall) (hc : c.Allowed k r q held caller) :
    ∃ e, c.run k r q held=some e ∧ Moved k total r ⟨.rx q,held⟩ caller e := by
  cases c with
  | fill n => exact h.fill hr hnd n
  | receive max out =>
    obtain ⟨hle,hmax,hdepth,hone⟩ := hc
    exact h.receive hnd hle hmax hdepth fun va hva => (hone va hva).fits
  | recycle descs => exact h.recycle hnd descs hc
  | drainReturned => exact h.drainReturned hnd

end

end Packetio.Dpdk

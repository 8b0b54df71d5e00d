import Packetio.Dpdk.Device

/-! The rings of a device that was opened. Both rings of a queue are as long as its share
of the frames asks for, which is enough for a receive queue; a transmit queue may have
more in flight than that, up to its depth. -/
namespace Packetio.Dpdk
open Lib Pool Dpdk.Mbuf List Nat

variable {frames drops first i k : Nat} {c : Options} {mellanox : Bool} {p : Plan} {x : Side}

theorem ringSize_spec {size : Nat} (hle : frames≤2^21) (h : ringSize frames=some size) :
    ∃ j, size=2^j ∧ frames≤2^j ∧ 2^j<2^32 := by
  obtain ⟨j,hp,hn,hleast⟩ := nextPow2From_spec (i := 0) h
  have hj : j≤21 := hleast 21 (zero_le _) (by exact_mod_cast hle)
  refine ⟨j,hp,?_,Nat.pow_lt_pow_right (by decide) (by omega)⟩
  rw [← hp]
  exact_mod_cast hn

/-! The shares -/

theorem deal_eq_spans (perQueue n leftover first : Nat) :
    deal perQueue n leftover first=spans first (topUp leftover (List.replicate n perQueue)) := by
  induction n generalizing leftover first with
  | zero => rfl
  | succ n ih => rw [deal,replicate_succ,topUp,spans,ih]

/-! What Open checked -/

structure Options.Checked (c : Options) : Prop where
  txQueues : 0≤c.txQueues
  rxQueues : 0≤c.rxQueues ∧ c.rxQueues ≤ maxQueues
  some : ¬ (c.txQueues=0 ∧ c.rxQueues=0)
  rings : 0≤c.ringsPerQueue
  txDepth : ∃ d, c.txDepth=((2^d : Nat) : Int)
  frameSize : ∃ k, c.frameSize=((2^k : Nat) : Int)

theorem Options.validate_ok (h : c.validate = .ok ()) : c.Checked := by
  obtain ⟨hsign,h⟩ := passed h nofun
  obtain ⟨hsome,h⟩ := passed h nofun
  obtain ⟨hrings,h⟩ := passed h nofun
  obtain ⟨hmost,h⟩ := passed h nofun
  obtain ⟨htx,h⟩ := passed h nofun
  obtain ⟨-,h⟩ := passed h nofun
  obtain ⟨-,h⟩ := passed h nofun
  obtain ⟨hsize,-⟩ := passed h nofun
  rw [not_or] at hsign hrings hmost htx hsize
  have hpow : ∀ {b : Bool}, ¬ (!b)=true → b=true := by decide
  exact ⟨not_lt.mp hsign.1,⟨not_lt.mp hsign.2,not_lt.mp hmost.2⟩,hsome,not_lt.mp hrings.1,
    isPow2_some htx.1 (hpow htx.2),isPow2_some (by omega) (hpow hsize.2)⟩

theorem Options.Checked.rings_pos (h : c.Checked) (mellanox : Bool) : 0<c.rings mellanox := by
  have := h.rings
  rw [Options.rings]
  split
  case isTrue => split <;> decide
  case isFalse hne => omega

structure Plan.Made (c : Options) (p : Plan) : Prop where
  frames : p.frames≤2^21
  rings : c.txRings p≤64
  queues : 0<c.queues p ∧ c.queues p≤128

theorem Options.plan_made (h : c.plan mellanox=some (.ok p)) :
    c.validate = .ok () ∧ c.txQueues*c.rings mellanox≤64 ∧ p.rings=(c.rings mellanox).toNat ∧
      p.frames≤2^21 ∧
      c.size (c.rings mellanox) (addInt (mulInt (c.txQueues*c.rings mellanox) c.txDepth)
        (mulInt c.rxQueues c.rxDepth))=some (.ok p.frames) := by
  rw [Options.plan] at h
  rcases hv : c.validate with e | u
  · simp [hv] at h
  simp only [hv] at h
  obtain ⟨hmost,h⟩ := passed h nofun
  rw [maxQueues] at hmost
  generalize addInt _ _=need at h ⊢
  rcases hs : c.size (c.rings mellanox) need with _ | x
  · simp [hs] at h
  rcases x with e | frames
  · simp [hs] at h
  simp only [hs] at h
  obtain ⟨hframes,h⟩ := passed h nofun
  rw [maxFrames] at hframes
  have hle : frames≤2^21 := by omega
  cases h
  exact ⟨rfl,by omega,rfl,hle,rfl⟩

theorem Options.Checked.txRings (hc : c.Checked)
    (h : p.rings=(c.rings mellanox).toNat) : (c.txRings p : Int)=c.txQueues*c.rings mellanox := by
  have hpos := hc.rings_pos mellanox
  rw [Options.txRings,h,cast_mul,Int.toNat_of_nonneg hc.txQueues,
    Int.toNat_of_nonneg (le_of_lt hpos)]

theorem Options.plan_ok (h : c.plan mellanox=some (.ok p)) : c.Checked ∧ p.Made c := by
  obtain ⟨hv,hmost,hrings,hframes,-⟩ := c.plan_made h
  have hc := Options.validate_ok hv
  obtain ⟨hrx,hrx'⟩ := hc.rxQueues
  have hpos := hc.rings_pos mellanox
  have htx := hc.txRings hrings
  rw [maxQueues] at hrx'
  refine ⟨hc,hframes,by omega,?_,by rw [Options.queues]; omega⟩
  by_contra hnone
  rw [Options.queues] at hnone
  have hzero : c.txQueues*c.rings mellanox=0 := by omega
  cases mul_eq_zero.mp hzero with
  | inl hq => exact hc.some ⟨hq,by omega⟩
  | inr hr => omega

section
variable {c : Options} {p : Plan} (hp : p.Made c)
include hp

theorem Plan.Made.dealt : p.frames/max (c.queues p) 1*c.queues p+
    min (p.frames%max (c.queues p) 1) (c.queues p)=p.frames := by
  have hq := hp.queues.1
  have hmod := mod_lt p.frames hq
  rw [max_eq_left hq,min_eq_left (le_of_lt hmod),mul_comm,div_add_mod]

theorem Plan.Made.shares_frames (size : Nat) :
    ((c.shares p).map fun x => (↑(frameStarts x.1 x.2 size) : Multiset UInt64)).sum =
      ↑(frameStarts 0 p.frames size) := by
  rw [Options.shares,deal_eq_spans,spans_frames,topUp_sum_replicate,hp.dealt]

theorem Plan.Made.shares_le {x : Nat × Nat} (hx : x∈c.shares p) : x.2≤2^21 := by
  rw [Options.shares,deal_eq_spans] at hx
  have hle := (spans_bounds hx).2
  rw [topUp_sum_replicate,hp.dealt] at hle
  exact (le_add_left _ _).trans (hle.trans ((zero_add _).le.trans hp.frames))

end

/-! The queues -/

section
variable {c : Options} {h : Host} {region : Region} {regionVA : UInt64}

theorem newMempool_ok {frameSize j : Nat} {supply returned : Ring}
    (hframes : frames≤2^j) (hj : 2^j<2^32)
    (hnew : newMempool h region regionVA first frames frameSize (2^j) =
      some (.ok (supply,returned,drops))) :
    supply.Fresh ∧ returned.Fresh ∧ returned.cap=2^j ∧ drops=0 := by
  obtain ⟨-,hnew⟩ := passed hnew nofun
  rcases hs : newRingOver (fun _ => 0) (2^j) (some 0) (some 0) with e | ring
  · simp [hs] at hnew
  simp only [hs] at hnew
  obtain ⟨hsized,hcap,hitems⟩ := Ring.newRingOver_sized hj hs
  have hroom : ring.len+((frameStarts first frames frameSize).map fun a =>
      regionVA+a+UInt64.ofNat h.objHeader).length≤ring.cap := by
    rw [← Ring.items_length,hitems,hcap,length_map,frameStarts,length_map,
      length_range,length_nil,zero_add]
    exact hframes
  rw [hsized.enqueue _ hroom] at hnew
  generalize foldl Ring.put ring _=filled at hnew
  cases hr : newRingOver filled.buf (2^j) (some 0) (some 0) with
  | error e => simp [hr] at hnew
  | ok ring' =>
    simp only [hr] at hnew
    cases hnew
    exact ⟨⟨_,_,0,hj,hs⟩,⟨_,_,0,hj,hr⟩,(Ring.newRingOver_sized hj hr).2.1,rfl⟩

theorem newQueue_ok {make : Ring → Ring → Except String Queue} (hframes : frames≤2^21)
    (hnew : c.newQueue h region regionVA first frames make=some (.ok (x,drops))) :
    drops=0 ∧ ∃ supply returned q j, supply.Fresh ∧ returned.Fresh ∧ returned.cap=2^j ∧
      frames≤2^j ∧ make supply returned = .ok q ∧ x=⟨q,0⟩ := by
  rw [Options.newQueue] at hnew
  rcases hsize : ringSize frames with _ | size
  · simp [hsize] at hnew
  obtain ⟨j,rfl,hle,hj⟩ := ringSize_spec hframes hsize
  simp only [hsize] at hnew
  rcases hm : newMempool h region regionVA first frames c.frameSize.toNat (2^j) with _ | y
  · simp [hm] at hnew
  rcases y with e | ⟨supply,returned,n⟩
  · simp [hm] at hnew
  simp only [hm] at hnew
  obtain ⟨hs,hr,hcap,hn⟩ := newMempool_ok hle hj hm
  cases hq : make supply returned with
  | error e => simp [hq] at hnew
  | ok q =>
    simp only [hq] at hnew
    cases hnew
    exact ⟨hn,supply,returned,q,j,hs,hr,hcap,hle,hq,rfl⟩

structure Options.Queued (c : Options) (h : Host) (region : Region) (regionVA : UInt64) (k : Nat)
    (p : Plan) (x : Side) (y : (Nat × Nat) × Nat) : Prop where
  fresh : ∀ s : Port, s.region=region → s.regionVA=regionVA → x.Fresh k s
  name : x.q.base.poolVA=h.poolVA y.2
  slice : x.q.base.firstFrame=y.1.1 ∧ x.q.base.frames=y.1.2
  wide : (y.2<c.txRings p → c.txDepth<2*y.1.2 ∨ c.txDepth=1) →
    x.q.most≤x.q.base.returned.cap

theorem depth_le {depth : Int} {d j : Nat} (hd : depth=((2^d : Nat) : Int))
    (hj : frames≤2^j) (h : depth<2*frames ∨ depth=1) : depth.toNat≤2^j := by
  have hlt : 2^d<2^(j+1) := by
    have hpos := Nat.two_pow_pos j
    omega
  have hle : d≤j := Nat.lt_succ_iff.mp ((Nat.pow_lt_pow_iff_right (by decide)).mp hlt)
  rw [hd,Int.toNat_natCast]
  exact Nat.pow_le_pow_right (by decide) hle

theorem map_ok {α β : Type} {f : α → β} {x : Except String α} {b : β} (hx : x.map f = .ok b) :
    ∃ a, x = .ok a ∧ f a=b := by
  cases x with
  | error e => cases hx
  | ok a =>
    injection hx with hx
    exact ⟨a,rfl,hx⟩

theorem newTxRing_ok (hc : c.Checked)
    (hk : c.frameSize.toNat=2^k) (hframes : frames≤2^21) (hi : i<c.txRings p)
    (hnew : c.newTxRing h region regionVA i first frames=some (.ok (x,drops))) :
    drops=0 ∧ c.Queued h region regionVA k p x ((first,frames),i) := by
  obtain ⟨hdrops,supply,returned,q,j,-,hr,hcap,hle,hmake,rfl⟩ := newQueue_ok hframes hnew
  obtain ⟨t,ht,rfl⟩ := map_ok hmake
  obtain ⟨b,hb,rfl⟩ := newTx_ok ht
  obtain ⟨-,ring,hring,rfl⟩ := initBase_ok hb
  obtain rfl : returned=ring := Option.some.inj hring
  refine ⟨hdrops,⟨?_,rfl,⟨rfl,rfl⟩,fun hample => ?_⟩⟩
  · rintro s rfl rfl
    refine ⟨rfl,h.checked,_,rfl,hk,?_,ht⟩
    exact fun ring hring => Option.some.inj hring ▸ hr
  · obtain ⟨d,hd⟩ := hc.txDepth
    exact (depth_le hd hle (hample hi)).trans (le_of_eq hcap.symm)

theorem newRxQueue_ok (hk : c.frameSize.toNat=2^k) (hframes : frames≤2^21)
    (hnew : c.newRxQueue h region regionVA i first frames=some (.ok (x,drops))) :
    drops=0 ∧ c.Queued h region regionVA k p x ((first,frames),i) := by
  obtain ⟨hdrops,supply,returned,q,j,hs,hr,hcap,hle,hmake,rfl⟩ := newQueue_ok hframes hnew
  obtain ⟨q,hq,rfl⟩ := map_ok hmake
  obtain ⟨b,supply',hb,hsupply,rfl⟩ := newRx_ok hq
  obtain ⟨-,ring,hring,rfl⟩ := initBase_ok hb
  obtain rfl : returned=ring := Option.some.inj hring
  refine ⟨hdrops,⟨?_,rfl,⟨rfl,rfl⟩,fun _ => hle.trans (le_of_eq hcap.symm)⟩⟩
  rintro s rfl rfl
  refine ⟨rfl,h.checked,_,rfl,hk,?_,hq,?_⟩
  · exact fun ring hring => Option.some.inj hring ▸ hr
  · exact fun ring hring => Option.some.inj hring ▸ hs

theorem openQueues_ok {shares : List (Nat × Nat)} {sides : List Side} (hc : c.Checked)
    (hk : c.frameSize.toNat=2^k) (hle : ∀ x∈shares, x.2≤2^21)
    (hopen : c.openQueues h region regionVA p i shares=some (.ok (sides,drops))) :
    drops=0 ∧ List.Forall₂ (c.Queued h region regionVA k p) sides (shares.zipIdx i) := by
  induction shares generalizing i sides drops with
  | nil =>
    cases hopen
    exact ⟨rfl,.nil⟩
  | cons share shares ih =>
    obtain ⟨first,frames⟩ := share
    have hframes := hle _ mem_cons_self
    rw [Options.openQueues] at hopen
    cases hx : if i<c.txRings p then c.newTxRing h region regionVA i first frames
      else c.newRxQueue h region regionVA i first frames with
    | none => simp [hx] at hopen
    | some y =>
      rcases y with e | ⟨x,n⟩
      · simp [hx] at hopen
      simp only [hx] at hopen
      rcases hrest : c.openQueues h region regionVA p (i+1) shares with _ | z
      · simp [hrest] at hopen
      rcases z with e | ⟨xs,m⟩
      · simp [hrest] at hopen
      simp only [hrest] at hopen
      cases hopen
      obtain ⟨rfl,hxs⟩ := ih (fun x hx => hle x (mem_cons_of_mem _ hx)) hrest
      have hq : n=0 ∧ c.Queued h region regionVA k p x ((first,frames),i) := by
        split at hx
        case isTrue hi => exact newTxRing_ok hc hk hframes hi hx
        case isFalse => exact newRxQueue_ok hk hframes hx
      exact ⟨by omega,.cons hq.2 hxs⟩

theorem openPort_ok {s : Port} (hopen : c.openPort h=some (.ok s)) :
    ∃ p region regionVA sides drops, c.plan h.mellanox=some (.ok p) ∧
      h.reserve (p.frames*c.frameSize.toNat) = .ok (region,regionVA) ∧
      c.openQueues h region regionVA p 0 (c.shares p)=some (.ok (sides,drops)) ∧
      s = { region := region, regionVA := regionVA, sides := sides, drops := drops } := by
  rw [Options.openPort] at hopen
  rcases hplan : c.plan h.mellanox with _ | y
  · simp [hplan] at hopen
  rcases y with e | p
  · simp [hplan] at hopen
  simp only [hplan] at hopen
  obtain ⟨-,hopen⟩ := passed hopen nofun
  rcases hl : (c.layout h).validate with e | u
  · simp [hl] at hopen
  simp only [hl] at hopen
  obtain ⟨-,hopen⟩ := passed hopen nofun
  rcases hr : h.reserve (p.frames*c.frameSize.toNat) with e | ⟨region,regionVA⟩
  · simp [hr] at hopen
  simp only [hr] at hopen
  obtain ⟨-,hopen⟩ := passed hopen nofun
  rcases hq : c.openQueues h region regionVA p 0 (c.shares p) with _ | z
  · simp [hq] at hopen
  rcases z with e | ⟨sides,drops⟩
  · simp [hq] at hopen
  simp only [hq] at hopen
  cases hopen
  exact ⟨p,region,regionVA,sides,drops,rfl,hr,hq,rfl⟩

end

structure Host.Sane (h : Host) : Prop where
  reserved : ∀ n region regionVA, h.reserve n = .ok (region,regionVA) →
    region.len=n ∧ regionVA.toNat+n≤2^64
  names : ∀ i<128, ∀ j<128, h.poolVA i=h.poolVA j → i=j

def Options.Ample (c : Options) (p : Plan) : Prop :=
  ∀ x∈(c.shares p).take (c.txRings p), c.txDepth<2*x.2 ∨ c.txDepth=1

instance (c : Options) (p : Plan) : Decidable (c.Ample p) :=
  inferInstanceAs (Decidable (∀ x∈(c.shares p).take (c.txRings p), c.txDepth<2*x.2 ∨ c.txDepth=1))

theorem openPort_opened {c : Options} {h : Host} {p : Plan} {s : Port} (hsane : h.Sane)
    (hplan : c.plan h.mellanox=some (.ok p)) (hopen : c.openPort h=some (.ok s)) :
    s.Opened (Nat.log2 c.frameSize.toNat) ∧ (c.Ample p → s.Wide) := by
  obtain ⟨p',region,regionVA,sides,drops,hplan',hr,hq,rfl⟩ := openPort_ok hopen
  obtain rfl : p=p' := by
    rw [hplan] at hplan'
    cases hplan'
    rfl
  obtain ⟨hc,hp⟩ := Options.plan_ok hplan
  obtain ⟨k,hk⟩ := hc.frameSize
  have hk : c.frameSize.toNat=2^k := by rw [hk,Int.toNat_natCast]
  obtain ⟨hlen,hva⟩ := hsane.reserved _ _ _ hr
  obtain ⟨rfl,hsides⟩ := openQueues_ok hc hk (fun x hx => hp.shares_le hx) hq
  rw [hk] at hlen hva
  have hqueued : ∀ x∈sides, ∃ y, y∈(c.shares p).zipIdx ∧ c.Queued h region regionVA k p x y := by
    intro x hx
    obtain ⟨i,hi⟩ := mem_iff_getElem?.mp hx
    obtain ⟨y,hy,hxy⟩ := forall₂_get hsides hi
    exact ⟨y,mem_of_getElem? hy,hxy⟩
  rw [hk,log2_two_pow]
  refine ⟨⟨⟨p.frames,by rw [hlen,mul_comm]⟩,?_,?_,?_,?_,rfl,rfl,rfl⟩,fun hample x hx => ?_⟩
  · rwa [hlen]
  · intro x hx
    obtain ⟨y,-,hxy⟩ := hqueued x hx
    exact hxy.fresh _ rfl rfl
  · -- the queues are numbered, and no two of their pools are at one address
    have hnames :
      sides.map (fun x => x.q.base.poolVA)=((c.shares p).zipIdx.map Prod.snd).map h.poolVA := by
      rw [map_map]
      exact map_eq_of_forall₂ hsides fun x y hxy => hxy.name
    rw [hnames,zipIdx_map_snd,Options.shares,deal_eq_spans,spans_length,topUp_length,
      length_replicate]
    have hlt : ∀ i∈range' 0 (c.queues p), i<128 := fun i hi =>
      lt_of_lt_of_le (by simpa using hi) hp.queues.2
    exact Nodup.map_on (fun i hi j hj => hsane.names i (hlt i hi) j (hlt j hj)) nodup_range'
  · have hfree : sides.map Side.free=((c.shares p).zipIdx.map Prod.fst).map fun y =>
        (↑(frameStarts y.1 y.2 (2^k)) : Multiset UInt64) := by
      rw [map_map]
      refine map_eq_of_forall₂ hsides fun x y hxy => ?_
      have hfresh := hxy.fresh { region := region, regionVA := regionVA, sides := sides } rfl rfl
      rw [(hfresh.made hlen (hlen ▸ hva)).1.opened,hxy.slice.1,hxy.slice.2]
      rfl
    have hfit : (0+p.frames)*2^k<2^64 := by
      have := region.len_lt
      rw [zero_add]
      omega
    rw [Port.pools,hfree,zipIdx_map_fst,hp.shares_frames,Multiset.coe_nodup]
    exact nodup_frameStarts hfit
  · obtain ⟨⟨share,i⟩,hmem,hxy⟩ := hqueued x hx
    refine hxy.wide fun hi => hample share ?_
    have hget := mem_zipIdx_iff_getElem?.mp hmem
    exact mem_of_getElem? ((getElem?_take_of_lt hi).trans hget)

/-- In every run of a device whose transmit rings have more than half of their depth in
frames of their own, no free is lost: a returned ring has room for all that the driver
has of its queue, and each frame is somewhere. -/
theorem frees_find_room (c : Options) (h : Host) (p : Plan) (s₀ s : Port) (hsane : h.Sane)
    (hplan : c.plan h.mellanox = some (.ok p)) (hample : c.Ample p)
    (hopen : c.openPort h = some (.ok s₀)) (hrun : Port.Run (Nat.log2 c.frameSize.toNat) s₀ s) :
    s.drops = 0 ∧ (∀ x ∈ s.sides, x.held.card+x.q.base.returned.len ≤ x.q.base.returned.cap) ∧
    ∀ a ∈ s₀.pools.sum, s.everywhere.count a = 1 := by
  obtain ⟨hopened,hwide⟩ := openPort_opened hsane hplan hopen
  obtain ⟨total,hs0⟩ := hopened.sound
  have hs := hs0.run (hwide hample) hrun
  refine ⟨hs.drops,fun x hx => ?_,fun a ha => ?_⟩
  · have hroom := hs.roomy (hwide hample) x hx
    rw [Side.away,Multiset.card_add,Multiset.card_add,Queue.returned,Multiset.coe_card,
      Ring.items_length] at hroom
    omega
  · rw [hs.all]
    exact Multiset.count_eq_one_of_mem hs.nodup ha

def plainHost : Host where
  reserve n := if h : n<2^63 then .ok (⟨fun _ => 0,n,h⟩,0x10000) else .error "no memory"
  poolVA i := UInt64.ofNat (0x1000*(i+1))

theorem plainHost_poolVA (hi : i<128) : (plainHost.poolVA i).toNat=0x1000*(i+1) :=
  toNat_small64 _ (by omega)

theorem plainHost_sane : plainHost.Sane := by
  refine ⟨fun n region regionVA hr => ?_,fun i hi j hj hij => ?_⟩
  · dsimp only [plainHost] at hr
    split at hr
    case isFalse => cases hr
    rename_i hn
    cases hr
    exact ⟨rfl,by change 0x10000+n≤2^64; omega⟩
  · have h := congrArg UInt64.toNat hij
    rw [plainHost_poolVA hi,plainHost_poolVA hj] at h
    omega

def evenOptions : Options :=
  { rxQueues := 1, txDepth := 2, rxDepth := 1, frames := 4, framesSet := true }

def evenPort : Port :=
  ((evenOptions.openPort plainHost).get (by decide)).toOption.get (by decide)

def evenAlloced : Port := (evenPort.step 11 (.call 0 (.tx (.alloc 2)))).get (by decide)

def evenSent : Port := (evenAlloced.step 11
  (.call 0 (.tx (.transmit [⟨320,64,0⟩,⟨2368,64,0⟩] none 2)))).get (by decide)

theorem evenSent_run : Port.Run 11 evenPort evenSent := by
  have halloc : Port.Run 11 evenPort evenAlloced :=
    .single ⟨.call 0 (.tx (.alloc 2)),⟨_,rfl,trivial⟩,rfl⟩
  have hheld : bases 11 [⟨320,64,0⟩,⟨2368,64,0⟩]≤evenAlloced.held := by decide
  exact halloc.tail ⟨.call 0 (.tx (.transmit [⟨320,64,0⟩,⟨2368,64,0⟩] none 2)),⟨_,rfl,hheld⟩,rfl⟩

theorem frees_find_room_even :
    evenOptions.Ample ⟨1,4⟩ ∧ evenOptions.openPort plainHost = some (.ok evenPort) ∧
      Port.Run 11 evenPort evenSent ∧ evenSent.driver = {0,2048} ∧ evenSent.drops = 0 := by
  have hample : evenOptions.Ample ⟨1,4⟩ := by decide
  exact ⟨hample,rfl,evenSent_run,by decide,
    (frees_find_room evenOptions plainHost ⟨1,4⟩ evenPort evenSent plainHost_sane rfl hample rfl
      evenSent_run).1⟩

def forwardOptions : Options :=
  { rxQueues := 2, txDepth := 4, rxDepth := 1, frames := 6, framesSet := true }

def forwardPort : Port :=
  ((forwardOptions.openPort plainHost).get (by decide)).toOption.get (by decide)

def forwardAlloced : Port := (forwardPort.step 11 (.call 0 (.tx (.alloc 2)))).get (by decide)

def forwardFilled : Port := (forwardAlloced.step 11 (.call 1 (.rx (.fill 2)))).get (by decide)

def forwardTaken : Port := (forwardFilled.step 11 (.take 1 1)).get (by decide)

def forwardPacket : Region := (forwardTaken.region.putUint16 (6208+offDataLen) 64).get (by decide)

def forwardArrived : Port := (forwardTaken.step 11 (.write forwardPacket)).get (by decide)

def forwardReceived : Port :=
  (forwardArrived.step 11 (.call 1 (.rx (.receive 1 [0x11840])))).get (by decide)

def forwardSent : Port := (forwardReceived.step 11 (.call 0
  (.tx (.transmit [⟨320,64,0⟩,⟨2368,64,0⟩,⟨6464,64,0⟩] none 3)))).get (by decide)

def forwardFreed : Port := (forwardSent.step 11 (.free 0 0x10040)).get (by decide)

def forwardFull : Port := (forwardFreed.step 11 (.free 0 0x10840)).get (by decide)

def forwardLost : Port := (forwardFull.step 11 (.free 0 0x11840)).get (by decide)

theorem forwardReceived_run : Port.Run 11 forwardPort forwardReceived := by
  have halloc : Port.Run 11 forwardPort forwardAlloced :=
    .single ⟨.call 0 (.tx (.alloc 2)),⟨_,rfl,trivial⟩,rfl⟩
  have hfill : Port.Run 11 forwardPort forwardFilled :=
    halloc.tail ⟨.call 1 (.rx (.fill 2)),⟨_,rfl,trivial⟩,rfl⟩
  have htake : Port.Run 11 forwardPort forwardTaken := hfill.tail ⟨.take 1 1,⟨_,_,rfl⟩,rfl⟩
  have hpools : ∀ x∈forwardTaken.sides, (x.held+x.q.supplied).filter (fun va =>
      Mbuf.pool forwardPacket (va-0x10000).toNat≠Mbuf.pool forwardTaken.region (va-0x10000).toNat) =
        0 := by
    decide
  have harrive : Port.Run 11 forwardPort forwardArrived := by
    refine htake.tail ⟨.write forwardPacket,⟨rfl,fun x hx va hva => ?_⟩,rfl⟩
    exact not_not.mp (Multiset.filter_eq_nil.mp (hpools x hx) va hva)
  refine harrive.tail ⟨.call 1 (.rx (.receive 1 [0x11840])),⟨_,rfl,?_⟩,rfl⟩
  refine ⟨by decide,by decide,by decide,fun va hva => ?_⟩
  rw [mem_singleton.mp hva]
  exact ⟨⟨128,1,64,0⟩,by decide,by decide,by decide⟩

theorem forwarded_free_lost : forwardOptions.openPort plainHost = some (.ok forwardPort) ∧
      Port.Run 11 forwardPort forwardSent ∧
      forwardSent.driver = {0,2048,6144} ∧ Port.Run 11 forwardPort forwardLost ∧
      forwardLost.drops = 1 ∧ 6144 ∈ forwardPort.pools.sum ∧
      forwardLost.everywhere.count 6144 = 0 := by
  have hheld : bases 11 [⟨320,64,0⟩,⟨2368,64,0⟩,⟨6464,64,0⟩]≤forwardReceived.held := by decide
  have hsent : Port.Run 11 forwardPort forwardSent :=
    forwardReceived_run.tail ⟨.call 0 (.tx (.transmit [⟨320,64,0⟩,⟨2368,64,0⟩,⟨6464,64,0⟩] none 3)),
      ⟨_,rfl,hheld⟩,rfl⟩
  have hfreed : Port.Run 11 forwardPort forwardFreed :=
    hsent.tail ⟨.free 0 0x10040,⟨_,rfl,by decide⟩,rfl⟩
  have hfull : Port.Run 11 forwardPort forwardFull :=
    hfreed.tail ⟨.free 0 0x10840,⟨_,rfl,by decide⟩,rfl⟩
  have hlost : Port.Run 11 forwardPort forwardLost :=
    hfull.tail ⟨.free 0 0x11840,⟨_,rfl,by decide⟩,rfl⟩
  exact ⟨rfl,hsent,by decide,hlost,by decide,by decide,by decide⟩

end Packetio.Dpdk

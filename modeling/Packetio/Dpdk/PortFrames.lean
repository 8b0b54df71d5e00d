import Packetio.Dpdk.Port

/-! Frames of a port from when it is opened: under the contract of the calls, and with
any driver that keeps to its own, each frame is in one place. -/
namespace Packetio.Dpdk
open Lib Pool Dpdk.Mbuf List Multiset

def Ring.Fresh (r : Ring) : Prop :=
  ∃ buf len head, len<2^32 ∧ newRingOver buf len (some head) (some head) = .ok r

theorem Layout.validate_ok {l : Layout} (h : l.validate = .ok ()) :
    size≤l.mbufSize ∧ l.dataStart<l.frameSize := by
  obtain ⟨-,h⟩ := passed h nofun
  obtain ⟨hsize,h⟩ := passed h nofun
  obtain ⟨hroom,-⟩ := passed h nofun
  exact ⟨not_lt.mp hsize,not_le.mp hroom⟩

structure Config.Checked (c : Config) (region : Region) : Prop where
  mbufSize : size≤c.layout.mbufSize
  room : c.layout.dataStart<c.layout.frameSize
  whole : region.len%c.layout.frameSize=0
  within : (c.firstFrame+c.frames)*c.layout.frameSize≤region.len
  frames : 0<c.frames

variable {c : Config} {region : Region} {b : Base} {checked : Bool} {x : Side}

theorem Config.validate_ok (h : c.validate region = .ok ()) : c.Checked region := by
  rw [Config.validate] at h
  rcases hl : c.layout.validate with e | u
  · simp [hl] at h
  simp only [hl] at h
  obtain ⟨hsize,hroom⟩ := Layout.validate_ok hl
  obtain ⟨-,h⟩ := passed h nofun
  obtain ⟨hwhole,h⟩ := passed h nofun
  obtain ⟨hframes,h⟩ := passed h nofun
  obtain ⟨hwithin,-⟩ := passed h nofun
  exact ⟨hsize,hroom,not_not.mp hwhole,not_lt.mp hwithin,Nat.pos_of_ne_zero hframes⟩

theorem initBase_ok (h : initBase checked region c = .ok b) :
    c.Checked region ∧ ∃ ring, c.returned=some ring ∧ b =
      { l := c.layout
        regionVA := c.regionVA
        poolVA := c.poolVA
        firstFrame := c.firstFrame
        frames := c.frames
        depth := c.depth
        regionLen := UInt64.ofNat region.len
        frameMask := UInt64.ofNat (c.layout.frameSize-1)
        dataStart := UInt64.ofNat c.layout.dataStart
        bufStart := UInt64.ofNat (c.layout.objHeader+c.layout.mbufSize)
        pool := newFrames checked c.firstFrame c.frames c.layout.frameSize
        returned := ring } := by
  rw [initBase] at h
  rcases hv : c.validate region with e | u
  · simp [hv] at h
  cases hr : c.returned with
  | none => simp [hv,hr] at h
  | some ring =>
    simp only [hv,hr] at h
    injection h with h
    exact ⟨Config.validate_ok hv,ring,rfl,h.symm⟩

section
variable {k total : Nat} {checked : Bool} {region : Region} {c : Config}

theorem newTx_ok {t : Tx} (h : newTx checked region c = .ok t) :
    ∃ b, initBase checked region c = .ok b ∧
    t = { b with checksums := c.checksums, tso := c.tso } := by
  rw [newTx] at h
  cases hb : initBase checked region c with
  | error e => simp [hb] at h
  | ok b =>
    simp only [hb] at h
    injection h with h
    exact ⟨b,rfl,h.symm⟩

theorem newRx_ok {q : Rx} (h : newRx checked region c = .ok q) :
    ∃ b supply, initBase checked region c = .ok b ∧ c.supply=some supply ∧
      q = { b with supply := supply } := by
  rw [newRx] at h
  rcases hs : c.supply with _ | supply
  · simp [hs] at h
  cases hb : initBase checked region c with
  | error e => simp [hs,hb] at h
  | ok b =>
    simp only [hs,hb] at h
    injection h with h
    exact ⟨b,supply,rfl,rfl,h.symm⟩

theorem initBase_sound (h : initBase checked region c = .ok b)
    (hk : c.layout.frameSize=2^k) (hlen : region.len=total*2^k)
    (hva : c.regionVA.toNat+region.len≤2^64) :
    b.toFixed.Shape k total ∧ b.pool.Inv b.firstFrame b.frames k ∧
      (b.pool.free : Multiset UInt64) = ↑(frameStarts b.firstFrame b.frames (2^k)) ∧
      b.pool.rejected=0 ∧ b.dead=none := by
  obtain ⟨hc,ring,-,rfl⟩ := initBase_ok h
  obtain ⟨hsize,hroom,-,hwithin,hframes⟩ := hc
  have hlt := region.len_lt
  rw [hk] at hroom hwithin
  have hpos := Nat.two_pow_pos k
  have hone : 1*2^k≤(c.firstFrame+c.frames)*2^k := Nat.mul_le_mul_right _ (by omega)
  have hsmall : k<63 := (Nat.pow_lt_pow_iff_right (a := 2) (by decide)).mp (by omega)
  have hhead : c.layout.objHeader+c.layout.mbufSize≤c.layout.dataStart := Nat.le_add_right _ _
  have htotal := Nat.le_of_mul_le_mul_right (hlen ▸ hwithin) hpos
  refine ⟨⟨hsmall,hk,?_,?_,by omega,?_,?_,hsize,hroom,hlen ▸ hva,htotal⟩,?_,?_,rfl,rfl⟩
  · simp only [hk]
    exact toNat_small64 _ (by omega)
  · rw [← hlen]
    exact toNat_small64 _ (by omega)
  · exact toNat_small64 _ (by omega)
  · exact toNat_small64 _ (by omega)
  · simp only [hk]
    exact newFrames_inv checked hsmall (by omega)
  · simp only [hk,newFrames_free]
    exact coe_eq_coe.mpr (reverse_perm _)

end

theorem Mbuf.onesCount64_one {n : Nat} (hn : n<2^64) (h : onesCount64 n=1) : ∃ k, n=2^k := by
  rw [onesCount64,countP_eq_length_filter,length_eq_one_iff] at h
  obtain ⟨k,hk⟩ := h
  refine ⟨k,Nat.eq_of_testBit_eq fun j => ?_⟩
  have hmem : n.testBit j=true ↔ j=k := by
    have hj : j=k ↔ j∈List.filter (fun i => n.testBit i) (List.range 64) := by
      rw [hk,List.mem_singleton]
    rw [hj,List.mem_filter,List.mem_range]
    refine ⟨fun hj => ⟨?_,hj⟩,And.right⟩
    by_contra hge
    rw [Nat.testBit_lt_two_pow (Nat.lt_of_lt_of_le hn (Nat.pow_le_pow_right (by decide)
      (not_lt.mp hge)))] at hj
    cases hj
  rw [Nat.testBit_two_pow,Bool.eq_iff_iff,hmem,decide_eq_true_eq,eq_comm]

theorem initBase_validate (h : initBase checked region c = .ok b) : c.layout.validate = .ok () := by
  rw [initBase,Config.validate] at h
  cases hl : c.layout.validate with
  | error e =>
    rw [hl] at h
    cases h
  | ok u => rfl

theorem Config.Checked.pow (hc : c.Checked region)
    (hl : c.layout.validate = .ok ()) : ∃ k, c.layout.frameSize=2^k := by
  obtain ⟨hone,-⟩ := passed hl nofun
  rw [not_or,not_not] at hone
  have hframes : 1*c.layout.frameSize≤(c.firstFrame+c.frames)*c.layout.frameSize :=
    Nat.mul_le_mul_right _ (by have := hc.frames; omega)
  have hwithin := hc.within
  have hlt := region.len_lt
  exact onesCount64_one (by omega) hone.2

theorem initBase_whole {k : Nat}
    (h : initBase checked region c = .ok b) (hk : c.layout.frameSize=2^k) :
    region.len=region.len/2^k*2^k := by
  have hdiv := Nat.div_add_mod' region.len (2^k)
  rw [← hk,(initBase_ok h).1.whole] at hdiv
  rw [← hk]
  omega

theorem initBase_shape
    (h : initBase checked region c = .ok b) (hva : c.regionVA.toNat+region.len≤2^64) :
    ∃ k, c.layout.frameSize=2^k ∧ region.len=region.len/2^k*2^k ∧
      b.toFixed.Shape k (region.len/2^k) ∧ b.pool.Inv b.firstFrame b.frames k := by
  obtain ⟨k,hk⟩ := (initBase_ok h).1.pow (initBase_validate h)
  have hlen := initBase_whole h hk
  obtain ⟨hshape,hinv,-⟩ := initBase_sound h hk hlen hva
  exact ⟨k,hk,hlen,hshape,hinv⟩

theorem Ring.Fresh.sized {r : Ring} (h : r.Fresh) : r.Sized ∧ r.items = [] := by
  obtain ⟨buf,len,head,hlen,hnew⟩ := h
  obtain ⟨hs,-,hitems⟩ := newRingOver_sized hlen hnew
  exact ⟨hs,hitems⟩

def Side.Fresh (k : Nat) (s : Port) (x : Side) : Prop :=
  x.held=0 ∧ ∃ checked c, c.regionVA=s.regionVA ∧ c.layout.frameSize=2^k ∧
    (∀ ring, c.returned=some ring → ring.Fresh) ∧
    match x.q with
    | .tx t => newTx checked s.region c = .ok t
    | .rx q => newRx checked s.region c = .ok q ∧ ∀ ring, c.supply=some ring → ring.Fresh

structure Port.Opened (k : Nat) (s : Port) : Prop where
  whole : 2^k ∣ s.region.len
  va : s.regionVA.toNat+s.region.len≤2^64
  sides : ∀ x∈s.sides, x.Fresh k s
  names : (s.sides.map fun x => x.q.base.poolVA).Nodup
  nodup : s.pools.sum.Nodup
  held : s.held=0
  refused : s.refused=0
  drops : s.drops=0

section
variable {k total : Nat} {s : Port}

theorem Side.Sound.idle {r : Region} (hshape : x.q.base.toFixed.Shape k total)
    (hinv : x.q.base.pool.Inv x.q.base.firstFrame x.q.base.frames k) (hdead : x.q.base.dead=none)
    (hring : x.q.base.returned.Sized) (haway : x.away=0) (hcount : x.q.count=0)
    (hlimits : x.Limits k) : x.Sound k total r := by
  have hnone : ∀ va, va∉x.away := fun va => by
    rw [haway]
    exact notMem_zero va
  refine ⟨hshape,hinv,hdead,hring,?_,fun va hva => absurd hva (hnone va),fun va hva => ?_,hlimits⟩
  · rw [hcount,haway]
    rfl
  · exact absurd (mem_add.mpr (.inl hva)) (hnone va)

theorem Side.Fresh.made (hlen : s.region.len=total*2^k)
    (hva : s.regionVA.toNat+s.region.len≤2^64) (h : x.Fresh k s) :
    s.Made k total x x ∧ x.away=0 ∧ x.q.base.pool.rejected=0 := by
  obtain ⟨q,held⟩ := x
  obtain ⟨hheld,checked,c,hcva,hk,hret,hnew⟩ := h
  subst hheld
  cases q with
  | tx t =>
    obtain ⟨b,hb,rfl⟩ := newTx_ok hnew
    obtain ⟨hshape,hinv,hfree,hrej,hdead⟩ := initBase_sound hb hk hlen (hcva ▸ hva)
    obtain ⟨-,ring,hring,hb⟩ := initBase_ok hb
    obtain ⟨hs,hitems⟩ := (hret ring hring).sized
    have hreturned : b.returned=ring := by rw [hb]
    have haway : Side.away ⟨.tx { b with checksums := c.checksums, tso := c.tso },0⟩=0 := by
      change 0+0+(b.returned.items : Multiset UInt64)=0
      rw [hreturned,hitems]
      rfl
    refine ⟨⟨.idle hshape hinv hdead (hreturned ▸ hs) haway rfl ?_,rfl,rfl,rfl,?_,hfree⟩,haway,hrej⟩
    · rw [Side.Limits,haway]
      exact Nat.zero_le _
    · rw [← hcva]
      change b.regionVA=c.regionVA
      rw [hb]
  | rx q =>
    obtain ⟨hnew,hsup⟩ : newRx checked s.region c = .ok q ∧
      ∀ ring, c.supply=some ring → ring.Fresh :=
      hnew
    obtain ⟨b,supply,hb,hsupply,rfl⟩ := newRx_ok hnew
    obtain ⟨hshape,hinv,hfree,hrej,hdead⟩ := initBase_sound hb hk hlen (hcva ▸ hva)
    obtain ⟨-,ring,hring,hb⟩ := initBase_ok hb
    obtain ⟨hs,hitems⟩ := (hret ring hring).sized
    obtain ⟨hs',hitems'⟩ := (hsup supply hsupply).sized
    have hreturned : b.returned=ring := by rw [hb]
    have haway : Side.away ⟨.rx { b with supply := supply },0⟩=0 := by
      change 0+(supply.items : Multiset UInt64)+(b.returned.items : Multiset UInt64)=0
      rw [hreturned,hitems,hitems']
      rfl
    refine ⟨⟨.idle hshape hinv hdead (hreturned ▸ hs) haway rfl ?_,rfl,rfl,rfl,?_,hfree⟩,haway,hrej⟩
    · rw [Side.Limits,haway]
      exact ⟨hs',by simp⟩
    · rw [← hcva]
      change b.regionVA=c.regionVA
      rw [hb]

theorem Port.Opened.sound (h : s.Opened k) : ∃ total, s.Sound k total s := by
  obtain ⟨total,hlen⟩ := h.whole
  rw [Nat.mul_comm] at hlen
  have hmade := fun x hx => (h.sides x hx).made hlen h.va
  refine ⟨total,hlen,forall₂_same.mpr fun x hx => (hmade x hx).1,h.names,?_,h.nodup,h.drops,
    fun _ x hx => (hmade x hx).2.2⟩
  have hmap : s.sides.map Side.holdings=s.sides.map Side.free := by
    refine map_congr_left fun x hx => ?_
    rw [Side.holdings,(hmade x hx).2.1,Side.framesOf,map_zero,add_zero]
  rw [Port.everywhere,hmap,h.held,h.refused,add_zero,add_zero,Port.pools]

end

/-! Where the frames are -/

namespace Port

def driver (s : Port) : Multiset UInt64 := (s.sides.map fun x => x.framesOf x.held).sum

def supplied (s : Port) : Multiset UInt64 := (s.sides.map fun x => x.framesOf x.q.supplied).sum

def returned (s : Port) : Multiset UInt64 := (s.sides.map fun x => x.framesOf x.q.returned).sum

theorem everywhere_eq (s : Port) :
    s.everywhere=s.pools.sum+s.held+s.supplied+s.driver+s.returned+s.refused := by
  have hsplit : s.sides.map Side.holdings=s.sides.map fun x =>
      x.free+(x.framesOf x.held+x.framesOf x.q.supplied+x.framesOf x.q.returned) := by
    refine map_congr_left fun x _ => ?_
    rw [Side.holdings,Side.away,Side.framesOf,map_add,map_add]
    rfl
  have hsum : (s.sides.map Side.holdings).sum=s.pools.sum+(s.driver+s.supplied+s.returned) := by
    rw [hsplit,List.sum_map_add,List.sum_map_add,List.sum_map_add]
    rfl
  rw [everywhere,hsum]
  abel

variable {k total : Nat} {s s₀ : Port}

theorem Made.free_le {x₀ : Side} (h : s.Made k total x x₀) : x.free≤x₀.free := by
  rw [h.opened,← h.fixed]
  exact (le_iff_subset (coe_nodup.mpr h.sound.pool.nodup)).mpr fun a ha =>
    h.sound.pool.own a ha

end Port

/-- In every run of a port with any number of queues, whose caller returns each frame to
the queue it came from: each frame is in one place, and on no free list but that of its
own queue; the counts are what is away, within their bounds; no push is refused, no queue
dead and no free lost; and every call returns. -/
theorem port_frames_conserved (k : Nat) (s₀ s : Port) (h₀ : s₀.Opened k) (hwide : s₀.Wide)
    (h : Port.HomeRun k s₀ s) :
    (∀ a ∈ s₀.pools.sum, (s.pools.sum+s.held+s.supplied+s.driver+s.returned).count a = 1) ∧
    (∀ (i : Nat) x x₀, s.sides[i]? = some x → s₀.sides[i]? = some x₀ → x.free ≤ x₀.free) ∧
    (∀ t held, ⟨.tx t,held⟩ ∈ s.sides → t.numInFlight = ((held.card+t.returned.len : Nat) : Int) ∧
      0 ≤ t.numInFlight ∧ t.numInFlight ≤ t.depth) ∧ (∀ q held, ⟨.rx q,held⟩ ∈ s.sides →
    q.numOutstanding = ((q.supply.len+held.card+q.returned.len : Nat) : Int) ∧
      0 ≤ q.numOutstanding ∧ q.numOutstanding ≤ q.frames) ∧
    (∀ x ∈ s.sides, x.q.base.pool.rejected = 0 ∧ x.q.base.dead = none) ∧ s.drops = 0 ∧
    ∀ ev, s.Allows k ev → ∃ s', s.step k ev = some s' := by
  obtain ⟨total,hs0⟩ := h₀.sound
  obtain ⟨hs,hrefused⟩ := hs0.homeRun hwide h h₀.refused
  have hside : ∀ x∈s.sides, x.Sound k total s.region := by
    intro x hx
    obtain ⟨i,hi⟩ := mem_iff_getElem?.mp hx
    obtain ⟨x₀,-,hmade⟩ := forall₂_get hs.sides hi
    exact hmade.sound
  have hmost : ∀ x∈s.sides, x.away.card≤x.q.most := fun x hx =>
    (hside x hx).away_le_most (nodup_add.mp (hs.nodup_side hx)).1
  refine ⟨fun a ha => ?_,fun i x x₀ hi hi0 => ?_,fun t held hx => ?_,fun q held hx => ?_,
    fun x hx => ⟨hs.clean hrefused x hx,(hside x hx).alive⟩,hs.drops,fun ev hev => ?_⟩
  · have hcount := count_eq_one_of_mem hs.nodup ha
    rwa [← hs.all,Port.everywhere_eq,hrefused,add_zero] at hcount
  · obtain ⟨x1,hx1,hmade⟩ := forall₂_get hs.sides hi
    rw [hi0,Option.some_inj] at hx1
    exact hx1 ▸ hmade.free_le
  · have hcount : t.inFlight=(held+0+(t.returned.items : Multiset UInt64)).card :=
      (hside _ hx).count
    have hle : (held+0+(t.returned.items : Multiset UInt64)).card≤t.depth := hmost _ hx
    rw [add_zero,card_add,coe_card,Ring.items_length] at hcount hle
    rw [Tx.numInFlight]
    omega
  · have hcount : q.outstanding=(held+(q.supply.items : Multiset UInt64)+
      (q.returned.items : Multiset UInt64)).card := (hside _ hx).count
    have hle : (held+(q.supply.items : Multiset UInt64)+(q.returned.items : Multiset UInt64)).card ≤
      q.frames := hmost _ hx
    rw [card_add,card_add,coe_card,coe_card,Ring.items_length,Ring.items_length] at hcount hle
    rw [Rx.numOutstanding]
    omega
  · obtain ⟨s',hs',-⟩ := hs.step hev ((hs.roomy hwide).hasRoom hev)
    exact ⟨s',hs'⟩

def smallLayout : Layout := ⟨512,64,128,128⟩

def smallRegion : Region := ⟨fun _ => 0,4*512,by decide⟩

def emptyRing (len : Nat) : Ring := ⟨fun _ => 0,len,UInt32.ofNat (len-1),0,0⟩

def pairTxConfig : Config where
  layout := smallLayout
  regionVA := 0x10000
  poolVA := 1
  firstFrame := 0
  frames := 2
  depth := 2
  returned := some (emptyRing 2)

def pairRxConfig : Config :=
  { pairTxConfig with poolVA := 2, firstFrame := 2, supply := some (emptyRing 2) }

def pairTx : Tx := (newTx true smallRegion pairTxConfig).toOption.get (by decide)

def pairRx : Rx := (newRx true smallRegion pairRxConfig).toOption.get (by decide)

def pairPort : Port where
  region := smallRegion
  regionVA := 0x10000
  sides := [⟨.tx pairTx,0⟩,⟨.rx pairRx,0⟩]

def pairFilled : Port := (pairPort.step 9 (.call 1 (.rx (.fill 1)))).get (by decide)

def pairTaken : Port := (pairFilled.step 9 (.take 1 1)).get (by decide)

theorem emptyRing_fresh : (emptyRing 2).Fresh := ⟨fun _ => 0,2,0,by decide,rfl⟩

theorem pairPort_opened : pairPort.Opened 9 := by
  have hring : ∀ ring, some (emptyRing 2)=some ring → ring.Fresh := fun ring h =>
    Option.some.inj h ▸ emptyRing_fresh
  refine ⟨by decide,by decide,fun x hx => ?_,by decide,by decide,rfl,rfl,rfl⟩
  cases mem_cons.mp hx with
  | inl hx =>
    rw [hx]
    exact ⟨rfl,true,pairTxConfig,rfl,rfl,hring,rfl⟩
  | inr hx =>
    rw [List.mem_singleton.mp hx]
    exact ⟨rfl,true,pairRxConfig,rfl,rfl,hring,rfl,hring⟩

theorem pairPort_wide : pairPort.Wide := by
  rw [Port.Wide]
  decide

theorem pairTaken_run : Port.HomeRun 9 pairPort pairTaken := by
  have hfill : Port.HomeRun 9 pairPort pairFilled := by
    refine .single ⟨.call 1 (.rx (.fill 1)),⟨_,rfl,trivial⟩,fun x hx => ?_,rfl⟩
    cases hx
    exact trivial
  exact hfill.tail ⟨.take 1 1,⟨_,_,rfl⟩,trivial,rfl⟩

theorem port_frames_conserved_pair :
    pairPort.Wide ∧ Port.HomeRun 9 pairPort pairTaken ∧ pairTaken.driver = {1024} ∧
      ∀ a ∈ pairPort.pools.sum, (pairTaken.pools.sum+pairTaken.held+pairTaken.supplied+
        pairTaken.driver+pairTaken.returned).count a = 1 :=
  ⟨pairPort_wide,pairTaken_run,by decide,
    (port_frames_conserved 9 pairPort pairTaken pairPort_opened pairPort_wide pairTaken_run).1⟩

def deepRxConfig : Config :=
  { pairRxConfig with depth := 1, returned := some (emptyRing 1) }

def deepRx : Rx := (newRx true smallRegion deepRxConfig).toOption.get (by decide)

def deepPort : Port := { pairPort with sides := [⟨.rx deepRx,0⟩] }

def deepFilled : Port := (deepPort.step 9 (.call 0 (.rx (.fill 2)))).get (by decide)

def deepTaken : Port := (deepFilled.step 9 (.take 0 2)).get (by decide)

def deepFreed : Port := (deepTaken.step 9 (.free 0 0x10440)).get (by decide)

def deepLost : Port := (deepFreed.step 9 (.free 0 0x10640)).get (by decide)

theorem deepPort_opened : deepPort.Opened 9 := by
  refine ⟨by decide,by decide,fun x hx => ?_,by decide,by decide,rfl,rfl,rfl⟩
  rw [List.mem_singleton.mp hx]
  refine ⟨rfl,true,deepRxConfig,rfl,rfl,fun ring h => ?_,rfl,fun ring h => ?_⟩
  · exact Option.some.inj h ▸ ⟨fun _ => 0,1,0,by decide,rfl⟩
  · exact Option.some.inj h ▸ emptyRing_fresh

theorem supply_past_depth : deepPort.Opened 9 ∧ deepRx.depth = 1 ∧ deepRx.returned.cap = 1 ∧
      Port.HomeRun 9 deepPort deepFilled ∧ deepFilled.sides.map (fun x => x.q.count) = [2] ∧
      Port.HomeRun 9 deepPort deepLost ∧ deepLost.drops = 1 ∧ 0x600 ∈ deepPort.pools.sum ∧
      (deepLost.pools.sum+deepLost.held+deepLost.supplied+deepLost.driver+
        deepLost.returned).count 0x600 = 0 := by
  have hfill : Port.HomeRun 9 deepPort deepFilled := by
    refine .single ⟨.call 0 (.rx (.fill 2)),⟨_,rfl,trivial⟩,fun x hx => ?_,rfl⟩
    cases hx
    exact trivial
  have hlost : Port.HomeRun 9 deepPort deepLost := by
    have htake : Port.HomeRun 9 deepPort deepTaken := hfill.tail ⟨.take 0 2,⟨_,_,rfl⟩,trivial,rfl⟩
    have hfree : Port.HomeRun 9 deepPort deepFreed :=
      htake.tail ⟨.free 0 0x10440,⟨_,rfl,by decide⟩,trivial,rfl⟩
    exact hfree.tail ⟨.free 0 0x10640,⟨_,rfl,by decide⟩,trivial,rfl⟩
  exact ⟨deepPort_opened,rfl,rfl,hfill,by decide,hlost,by decide,by decide,by decide⟩

end Packetio.Dpdk

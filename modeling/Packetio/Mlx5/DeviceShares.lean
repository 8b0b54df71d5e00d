import Mathlib.Algebra.BigOperators.Ring.Finset
import Packetio.Mlx5.Device

/-! The frames of the queues of a ConnectX device. Each queue gets a multiple of what it can
have outstanding, the same for all of them, and what is left goes to the first queues, one
frame each: enough for every queue, and none in two, but not always all of the region. -/
namespace Packetio.Mlx5
open Lib Pool List Multiset Int

/-! What Open checked -/

structure Options.Checked (c : Options) : Prop where
  txQueues : 0≤c.txQueues
  rxQueues : 0≤c.rxQueues ∧ c.rxQueues≤64
  some : ¬ (c.txQueues=0 ∧ c.rxQueues=0)
  txDepth : 0<c.txDepth
  rxDepth : 0<c.rxDepth
  frameSize : ∃ k, c.frameSize=((2^k : Nat) : Int)
  frames : 0<c.frames ∧ c.frames≤2^21
  rings : 0≤c.ringsPerQueue ∧ c.ringsPerQueue≤16

variable {c : Options} {region : Region} {enhancedMPW : Bool} {frames : Nat} {ibdev : String}
  {p : Plan} {rings : Int}

theorem Options.validateSizes_ok (h : c.validateSizes = .ok ()) : c.Checked := by
  obtain ⟨hsign,h⟩ := passed h nofun
  obtain ⟨hsome,h⟩ := passed h nofun
  obtain ⟨hmost,h⟩ := passed h nofun
  obtain ⟨htx,h⟩ := passed h nofun
  obtain ⟨hrx,h⟩ := passed h nofun
  obtain ⟨hsize,h⟩ := passed h nofun
  obtain ⟨-,h⟩ := passed h nofun
  obtain ⟨hframes,h⟩ := passed h nofun
  obtain ⟨hlarge,h⟩ := passed h nofun
  obtain ⟨-,h⟩ := passed h nofun
  obtain ⟨-,h⟩ := passed h nofun
  obtain ⟨-,h⟩ := passed h nofun
  obtain ⟨-,h⟩ := passed h nofun
  obtain ⟨hrings,-⟩ := passed h nofun
  rw [not_or] at hsign hmost htx hrx hsize hrings
  rw [maxQueues] at hmost
  rw [maxFrames] at hlarge
  have hpow : ∀ {b : Bool}, ¬ (!b)=true → b=true := by decide
  exact ⟨by omega,⟨by omega,by omega⟩,hsome,by omega,by omega,isPow2_some (by omega) (hpow hsize.2),
    ⟨by omega,by omega⟩,by omega,by omega⟩

theorem Options.validate_ok {dev : String} (h : c.validate dev = .ok ()) : c.Checked := by
  rw [Options.validate] at h
  cases hv : c.validateSizes with
  | error e => simp [hv] at h
  | ok u => exact Options.validateSizes_ok hv

structure Plan.Made (c : Options) (h : Host) (enhancedMPW : Bool) (required : Int) (p : Plan) :
    Prop where
  device : h.device = .ok enhancedMPW
  minInline : h.minInline = .ok required
  queues : c.txQueues*c.rings enhancedMPW≤64
  frames : c.size (c.rings enhancedMPW)=some (.ok p.frames)
  region : p.region.len=(mulInt p.frames c.frameSize).toNat
  rings : p.rings=c.finalRings enhancedMPW required
  slices : p.tx=(c.slices p.rings p.frames).take c.txQueues.toNat ∧
    p.rx=(c.slices p.rings p.frames).drop c.txQueues.toNat

theorem newRegion_len {h : Host} {frames frameSize : Int}
    (hr : newRegion h frames frameSize = .ok region) :
    region.len=(mulInt frames frameSize).toNat := by
  obtain ⟨-,hr⟩ := passed hr nofun
  cases hm : h.mmap (mulInt frames frameSize) with
  | error e => simp [hm] at hr
  | ok mem =>
    simp only [hm] at hr
    cases hr
    rfl

theorem Options.settle_ok {h : Host} (hs : c.settle h ibdev enhancedMPW region frames = .ok p) :
    ∃ required, h.minInline = .ok required ∧ p.region=region ∧ p.frames=frames ∧
      p.rings=c.finalRings enhancedMPW required ∧
      p.tx=(c.slices p.rings frames).take c.txQueues.toNat ∧
      p.rx=(c.slices p.rings frames).drop c.txQueues.toNat := by
  rw [Options.settle] at hs
  rcases hi : h.minInline with e | required
  · simp [hi] at hs
  rcases hm : c.mode ibdev enhancedMPW required with e | x
  · simp [hi,hm] at hs
  rcases hl : c.inline ibdev required x.1 with e | inline
  · simp [hi,hm,hl] at hs
  cases hp : h.placement with
  | error e => simp [hi,hm,hl,hp] at hs
  | ok u =>
    simp only [hi,hm,hl,hp] at hs
    cases hs
    exact ⟨required,rfl,rfl,rfl,rfl,rfl,rfl⟩

theorem Options.planRegion_ok {h : Host} (hdev : h.device = .ok enhancedMPW)
    (hp : c.planRegion h ibdev enhancedMPW=some (.ok p)) :
    ∃ required, p.Made c h enhancedMPW required := by
  obtain ⟨hmost,hp⟩ := passed hp nofun
  rw [maxQueues] at hmost
  rcases hs : c.size (c.rings enhancedMPW) with _ | x
  · simp [hs] at hp
  rcases x with e | frames
  · simp [hs] at hp
  rcases hr : newRegion h frames c.frameSize with e | region
  · simp [hs,hr] at hp
  rcases hg : h.register with e | u
  · simp [hs,hr,hg] at hp
  rcases ht : c.settle h ibdev enhancedMPW region frames with e | p'
  · simp [hs,hr,hg,ht] at hp
  simp only [hs,hr,hg,ht] at hp
  obtain ⟨-,hp⟩ := passed hp nofun
  cases hp
  obtain ⟨required,hi,rfl,rfl,hrings,hslices⟩ := Options.settle_ok ht
  exact ⟨required,hdev,hi,by omega,hs,newRegion_len hr,hrings,hslices⟩

theorem Options.plan_ok {h : Host} (hp : c.plan h=some (.ok p)) :
    c.Checked ∧ ∃ enhancedMPW required, p.Made c h enhancedMPW required := by
  rw [Options.plan] at hp
  rcases hv : c.validate h.ifname with e | u
  · simp [hv] at hp
  rcases hr : h.resolve with e | ibdev
  · simp [hv,hr] at hp
  rcases hv' : c.validate ibdev with e | u'
  · simp [hv,hr,hv'] at hp
  cases hd : h.device with
  | error e => simp [hv,hr,hv',hd] at hp
  | ok enhancedMPW =>
    simp only [hv,hr,hv',hd] at hp
    exact ⟨Options.validate_ok hv,enhancedMPW,Options.planRegion_ok hd hp⟩

/-! The sizes as numbers -/

def Options.outstanding (c : Options) (rings : Int) : Int :=
  c.txQueues*rings*c.txDepth+c.rxQueues*c.rxDepth

theorem Options.rings_pos (hc : c.Checked) (enhancedMPW : Bool) :
    0<c.rings enhancedMPW ∧ c.rings enhancedMPW≤16 := by
  have := hc.rings
  rw [Options.rings,ringsPerCopiedQueue]
  split
  case isTrue => split <;> decide
  case isFalse => omega

theorem Options.size_le (hc : c.Checked) (hs : c.size rings=some (.ok frames)) : frames≤2^21 := by
  have hframes := hc.frames
  rw [Options.size] at hs
  split at hs
  case isTrue =>
    obtain ⟨-,hs⟩ := passed hs nofun
    injection hs with hs
    injection hs with hs
    omega
  split at hs
  case isTrue =>
    rcases hn : nextPow2 (mulInt 2 (c.need rings)) with _ | f
    · simp [hn] at hs
    simp only [hn] at hs
    obtain ⟨hle,hs⟩ := passed hs nofun
    injection hs with hs
    injection hs with hs
    rw [maxFrames] at hle
    omega
  case isFalse =>
    injection hs with hs
    injection hs with hs
    omega

theorem Options.finalRings_le (hc : c.Checked) (enhancedMPW : Bool) (required : Int) :
    0<c.finalRings enhancedMPW required ∧
    c.finalRings enhancedMPW required≤c.rings enhancedMPW := by
  have := c.rings_pos hc enhancedMPW
  rw [Options.finalRings]
  split <;> omega

section
variable {c : Options} (hc : c.Checked) (htx : 0<c.txQueues → c.txDepth<2^32)
  (hrx : 0<c.rxQueues → c.rxDepth<2^32)
include hc htx hrx

section
variable (hpos : 0<rings) (hmost : c.txQueues*rings≤64)
include hpos hmost

theorem Options.need_outstanding :
    0≤c.txQueues*rings*c.txDepth ∧ 0≤c.rxQueues*c.rxDepth ∧ c.outstanding rings<2^40 ∧
      c.need rings=c.outstanding rings :=
  Packetio.need_eq ⟨mul_nonneg hc.txQueues (le_of_lt hpos),hmost⟩ hc.txDepth
    (fun h => htx ((mul_pos_iff_of_pos_right hpos).mp h)) hc.rxQueues hc.rxDepth hrx

theorem Options.outstanding_bounds :
    0≤c.txQueues*rings*c.txDepth ∧ 0≤c.rxQueues*c.rxDepth ∧ 0<c.outstanding rings ∧
      c.outstanding rings<2^40 := by
  have hdt := hc.txDepth
  have hdr := hc.rxDepth
  obtain ⟨ht,hr,hlt,-⟩ := c.need_outstanding hc htx hrx hpos hmost
  refine ⟨ht,hr,?_,hlt⟩
  by_contra hzero
  rw [Options.outstanding] at hzero
  have htz : c.txQueues*rings*c.txDepth=0 := by omega
  have hrz : c.rxQueues*c.rxDepth=0 := by omega
  rw [mul_eq_zero,mul_eq_zero] at htz
  rw [mul_eq_zero] at hrz
  exact hc.some ⟨by omega,by omega⟩

theorem Options.size_ok (hs : c.size rings=some (.ok frames)) :
    frames=regionFrames c.framesSet c.frames (c.outstanding rings) ∧
    c.outstanding rings≤frames := by
  obtain ⟨-,-,hpos',hlt⟩ := c.outstanding_bounds hc htx hrx hpos hmost
  have hframes := hc.frames
  rw [Options.size,(c.need_outstanding hc htx hrx hpos hmost).2.2.2,
    mulInt_eq (by omega) (by omega)] at hs
  rw [regionFrames]
  split at hs
  case isTrue hset =>
    obtain ⟨hle,hs⟩ := passed hs nofun
    injection hs with hs
    injection hs with hs
    rw [if_pos (.inl hset)]
    omega
  rename_i hset
  split at hs
  case isTrue hless =>
    rw [nextPow2_eq (by omega)] at hs
    obtain ⟨-,hs⟩ := passed hs nofun
    injection hs with hs
    injection hs with hs
    rw [if_neg (by rw [not_or]; exact ⟨hset,by omega⟩)]
    have hcover := Nat.le_pow_clog (b := 2) (by decide) (2*c.outstanding rings).toNat
    omega
  case isFalse hless =>
    injection hs with hs
    injection hs with hs
    rw [if_pos (.inr (by omega))]
    omega

end

end

/-! The shares and the slices -/

def toInts (x : Nat × Nat) : Int × Int := (x.1,x.2)

theorem deal_eq_spans {bases : List Nat} {rem : Nat} (first : Nat)
    (h : first+bases.sum+bases.length<2^63) :
    deal (bases.map Int.ofNat) rem first=(spans first (topUp rem bases)).map toInts := by
  induction bases generalizing rem first with
  | nil => rfl
  | cons base bases ih =>
    rw [List.sum_cons,length_cons] at h
    have hn : (if (rem : Int) > 0 then addInt base 1 else base) =
        ((if 0<rem then base+1 else base : Nat) : Int) := by
      rw [addInt_eq (by omega) (by omega)]
      split <;> split <;> omega
    have hrem : (if (rem : Int) > 0 then (rem : Int)-1 else rem)=((rem-1 : Nat) : Int) := by
      split <;> omega
    have hfirst : addInt first ((if 0<rem then base+1 else base : Nat) : Int) =
        ((first+if 0<rem then base+1 else base : Nat) : Int) := by
      rw [addInt_eq (by omega) (by split <;> omega),natCast_add]
    change (_,if (rem : Int) > 0 then addInt base 1 else base)::_=_
    rw [ofNat_eq_natCast,hn,hrem,hfirst,ih _ (by split <;> omega)]
    rfl

section
variable {c : Options} (hc : c.Checked) (htx : 0<c.txQueues → c.txDepth<2^32)
  (hrx : 0<c.rxQueues → c.rxDepth<2^32)
  {rings : Int} (hpos : 0<rings) (hfew : rings≤16) (hmost : c.txQueues*rings≤64)
  {frames : Nat} (hle : c.outstanding rings≤frames) (hframes : frames≤2^21)
include hc htx hrx hpos hfew hmost hle hframes

theorem Options.weighted_eq : 1≤frames/c.outstanding rings ∧
    (c.weighted rings frames).1=mulInt (frames/c.outstanding rings*rings) c.txDepth ∧
    (0<c.txQueues → (c.weighted rings frames).1=frames/c.outstanding rings*(rings*c.txDepth)) ∧
    (0<c.rxQueues → (c.weighted rings frames).2=frames/c.outstanding rings*c.rxDepth) := by
  obtain ⟨ht,hr,hW,hlt⟩ := c.outstanding_bounds hc htx hrx hpos hmost
  have hdt := hc.txDepth
  have hdr := hc.rxDepth
  have hone : 1≤(frames : Int)/c.outstanding rings := Int.le_ediv_of_mul_le hW (by omega)
  have hquot : (frames : Int)/c.outstanding rings≤2^21 :=
    (ediv_le_self _ (by omega)).trans (by omega)
  have htot : max (c.need rings) 1=c.outstanding rings := by
    rw [(c.need_outstanding hc htx hrx hpos hmost).2.2.2]
    omega
  rw [Options.need,← mulInt_mulInt] at htot
  rw [Options.weighted,htot]
  generalize (frames : Int)/c.outstanding rings=quot at hone hquot
  refine ⟨hone,mulInt_mulInt .., fun hq => ?_,fun hq => ?_⟩
  · have htxW : 0≤rings*c.txDepth := mul_nonneg (le_of_lt hpos) (le_of_lt hdt)
    have htxW' : rings*c.txDepth≤16*2^32 :=
      mul_le_mul hfew (le_of_lt (htx hq)) (le_of_lt hdt) (by decide)
    have htx' : quot*(rings*c.txDepth)≤2^21*(16*2^32) := mul_le_mul hquot htxW' htxW (by decide)
    have htx0 : 0≤quot*(rings*c.txDepth) := mul_nonneg (by omega) htxW
    dsimp only
    rw [mulInt_eq (a := rings) (by omega) (by omega),mulInt_eq (by omega) (by omega)]
  · have hrx' : quot*c.rxDepth≤2^21*2^32 :=
      mul_le_mul hquot (le_of_lt (hrx hq)) (le_of_lt hdr) (by decide)
    have hrx0 : 0≤quot*c.rxDepth := mul_nonneg (by omega) (le_of_lt hdr)
    exact mulInt_eq (by omega) (by omega)

theorem Options.share_eq (hfed : c.txQueues=0 → (c.weighted rings frames).1≠0) :
    ¬ c.starved (c.weighted rings frames) ∧ c.share rings frames=c.weighted rings frames ∧
    c.rem rings frames=frames%c.outstanding rings := by
  obtain ⟨ht,hr,hW,hlt⟩ := c.outstanding_bounds hc htx hrx hpos hmost
  obtain ⟨hone,-,htxs,hrxs⟩ := c.weighted_eq hc htx hrx hpos hfew hmost hle hframes
  have htxW : 0<rings*c.txDepth := mul_pos hpos hc.txDepth
  have hsplit : c.txQueues*(frames/c.outstanding rings*(rings*c.txDepth))+
      c.rxQueues*(frames/c.outstanding rings*c.rxDepth) =
      frames/c.outstanding rings*c.outstanding rings := by
    rw [Options.outstanding]
    ring
  have hmod := mul_ediv_add_emod frames (c.outstanding rings)
  have hmod0 := emod_nonneg frames (ne_of_gt hW)
  rw [mul_comm] at hmod
  have htx0 : 0≤c.txQueues*(frames/c.outstanding rings*(rings*c.txDepth)) :=
    mul_nonneg hc.txQueues (mul_nonneg (by omega) (le_of_lt htxW))
  have hrx0 : 0≤c.rxQueues*(frames/c.outstanding rings*c.rxDepth) :=
    mul_nonneg hc.rxQueues.1 (mul_nonneg (by omega) (le_of_lt hc.rxDepth))
  have hfed' : ¬ c.starved (c.weighted rings frames) := by
    rw [Options.starved,not_or,not_and]
    refine ⟨?_,fun hq => (hrxs hq).symm ▸ ne_of_gt (mul_pos (by omega) hc.rxDepth)⟩
    rcases eq_or_lt_of_le hc.txQueues with hzero | hq
    · exact hfed hzero.symm
    · exact (htxs hq).symm ▸ ne_of_gt (mul_pos (by omega) htxW)
  have hpart {n x y : Int} (hn : 0≤n) (hxy : 0<n → x=y) : mulInt n x=mulInt n y := by
    rcases eq_or_lt_of_le hn with rfl | hn
    · rw [mulInt,mulInt,zero_mul,zero_mul]
    · rw [hxy hn]
  refine ⟨hfed',if_neg hfed',?_⟩
  rw [Options.rem,Options.share,if_neg hfed',hpart hc.txQueues htxs,hpart hc.rxQueues.1 hrxs,
    mulInt_eq (by omega) (by omega),
    mulInt_eq (by omega) (by omega),addInt_eq (a := frames) (by omega) (by omega),
    addInt_eq (by omega) (by omega)]
  omega

theorem Options.slices_eq (hfed : c.txQueues=0 → (c.weighted rings frames).1≠0) :
    ∃ quot : Nat, 1≤quot ∧
    quot*(c.txQueues.toNat*(rings.toNat*c.txDepth.toNat)+c.rxQueues.toNat*c.rxDepth.toNat)+
      frames%(c.outstanding rings).toNat=frames ∧
    c.slices rings frames=(spans 0 (topUp (frames%(c.outstanding rings).toNat)
      (List.replicate c.txQueues.toNat (quot*(rings.toNat*c.txDepth.toNat))++
        List.replicate c.rxQueues.toNat (quot*c.rxDepth.toNat)))).map toInts := by
  obtain ⟨-,-,hW,-⟩ := c.outstanding_bounds hc htx hrx hpos hmost
  obtain ⟨hone,-,htxs,hrxs⟩ := c.weighted_eq hc htx hrx hpos hfew hmost hle hframes
  obtain ⟨-,hshare,hrem⟩ := c.share_eq hc htx hrx hpos hfew hmost hle hframes hfed
  have hdt := hc.txDepth
  have hdr := hc.rxDepth
  have htq := hc.txQueues
  have hrq := hc.rxQueues.1
  obtain ⟨W,hWeq⟩ := eq_ofNat_of_zero_le (le_of_lt hW)
  obtain ⟨r,rfl⟩ := eq_ofNat_of_zero_le (le_of_lt hpos)
  obtain ⟨dt,hdteq⟩ := eq_ofNat_of_zero_le (le_of_lt hdt)
  obtain ⟨dr,hdreq⟩ := eq_ofNat_of_zero_le (le_of_lt hdr)
  obtain ⟨nt,hnt⟩ := eq_ofNat_of_zero_le htq
  obtain ⟨nr,hnr⟩ := eq_ofNat_of_zero_le hrq
  have hWsum : W=nt*(r*dt)+nr*dr := by
    rw [Options.outstanding,hdteq,hdreq,hnt,hnr,mul_assoc] at hWeq
    exact_mod_cast hWeq.symm
  rw [hWeq] at hone htxs hrxs hrem ⊢
  rw [hdteq,hnt] at htxs
  rw [hdreq,hnr] at hrxs
  rw [hdteq,hdreq,hnt,hnr]
  simp only [toNat_natCast]
  have hdiv := Nat.div_add_mod frames W
  refine ⟨frames/W,by exact_mod_cast hone,?_,?_⟩
  · rwa [← hWsum,mul_comm]
  · have hpart {n : Nat} {x y : Int} (hxy : 0<(n : Int) → x=y) :
        List.replicate n x=List.replicate n y := by
      cases n with
      | zero => rfl
      | succ n => rw [hxy (by omega)]
    have htxW : (frames : Int)/W*(r*dt)=ofNat (frames/W*(r*dt)) := by
      rw [ofNat_eq_natCast,natCast_mul,natCast_mul,natCast_ediv]
    have hrxW : (frames : Int)/W*dr=ofNat (frames/W*dr) := by
      rw [ofNat_eq_natCast,natCast_mul,natCast_ediv]
    rw [Options.slices,hshare,hrem,hnt,hnr]
    simp only [toNat_natCast]
    rw [hpart htxs,hpart hrxs,htxW,hrxW,← natCast_emod,← List.map_replicate (f := Int.ofNat),
      ← List.map_replicate (f := Int.ofNat),← map_append]
    refine deal_eq_spans 0 ?_
    have hsum : nt*(frames/W*(r*dt))+nr*(frames/W*dr)=W*(frames/W) := by
      rw [hWsum]
      ring
    have hnt' : nt≤nt*r := Nat.le_mul_of_pos_right nt (by omega)
    have hnr' := hc.rxQueues.2
    rw [hnt,← natCast_mul] at hmost
    rw [sum_append,sum_replicate_nat,sum_replicate_nat,length_append,
      length_replicate,length_replicate,hsum]
    omega

end

section
variable {c : Options} {h : Host} {enhancedMPW : Bool} {required : Int} {p : Plan} (hc : c.Checked)
  (hp : p.Made c h enhancedMPW required) (htx : 0<c.txQueues → c.txDepth<2^32)
  (hrx : 0<c.rxQueues → c.rxDepth<2^32)
include hc hp htx hrx

theorem Plan.Made.enough : 0<p.rings ∧ p.rings≤16 ∧ c.txQueues*p.rings≤64 ∧
    c.outstanding p.rings≤p.frames ∧ p.frames≤2^21 ∧
    p.frames=regionFrames c.framesSet c.frames (c.outstanding (c.rings enhancedMPW)) := by
  obtain ⟨hpos,hfew⟩ := c.rings_pos hc enhancedMPW
  obtain ⟨hpos',hle⟩ := c.finalRings_le hc enhancedMPW required
  obtain ⟨hframes,hneed⟩ := c.size_ok hc htx hrx hpos hp.queues hp.frames
  rw [← hp.rings] at hpos' hle
  have hrings := mul_le_mul_of_nonneg_left hle hc.txQueues
  have hless : c.outstanding p.rings≤c.outstanding (c.rings enhancedMPW) :=
    add_le_add_left (mul_le_mul_of_nonneg_right hrings (le_of_lt hc.txDepth)) _
  exact ⟨hpos',by omega,hrings.trans hp.queues,hless.trans hneed,c.size_le hc hp.frames,hframes⟩

theorem Plan.Made.dealt (hfed : c.txQueues=0 → (c.weighted p.rings p.frames).1≠0) : ∃ quot :
    Nat, 1≤quot ∧
    quot*(c.txQueues.toNat*(p.rings.toNat*c.txDepth.toNat)+c.rxQueues.toNat*c.rxDepth.toNat)+
      p.frames%(c.outstanding p.rings).toNat=p.frames ∧
    p.tx++p.rx=(spans 0 (topUp (p.frames%(c.outstanding p.rings).toNat)
      (List.replicate c.txQueues.toNat (quot*(p.rings.toNat*c.txDepth.toNat))++
        List.replicate c.rxQueues.toNat (quot*c.rxDepth.toNat)))).map toInts ∧
    (∃ extra first, p.tx=(spans first (topUp extra (List.replicate c.txQueues.toNat
      (quot*(p.rings.toNat*c.txDepth.toNat))))).map toInts) ∧
    ∃ extra first, p.rx=(spans first (topUp extra (List.replicate c.rxQueues.toNat
      (quot*c.rxDepth.toNat)))).map toInts := by
  obtain ⟨hpos,hfew,hmost,hle,hframes,-⟩ := hp.enough hc htx hrx
  obtain ⟨quot,hquot,hsum,heq⟩ := c.slices_eq hc htx hrx hpos hfew hmost hle hframes hfed
  obtain ⟨htxs,hrxs⟩ := hp.slices
  refine ⟨quot,hquot,hsum,?_,?_,?_⟩
  · rw [htxs,hrxs,take_append_drop,heq]
  · rw [topUp_append,spans_append,map_append] at heq
    rw [htxs,heq,take_left' (by rw [length_map, spans_length, topUp_length, length_replicate])]
    exact ⟨_,_,rfl⟩
  · rw [topUp_append,spans_append,map_append] at heq
    rw [hrxs,heq,drop_left' (by rw [length_map, spans_length, topUp_length, length_replicate])]
    exact ⟨_,_,rfl⟩

end

theorem slices_of_replicate {first extra count n : Nat} {xs : List (Int × Int)}
    (hxs : xs=(spans first (topUp extra (List.replicate count n))).map toInts) :
    xs.length=count ∧ ∀ x∈xs, (n : Int)≤x.2 := by
  constructor
  · rw [hxs,length_map,spans_length,topUp_length,length_replicate]
  · intro x hx
    rw [hxs] at hx
    obtain ⟨y,hy,rfl⟩ := mem_map.mp hx
    have hlen := mem_map_of_mem (f := Prod.snd) hy
    rw [spans_lengths] at hlen
    exact ofNat_le.mpr (le_of_mem_topUp hlen)

/-- Sizes with which nothing wraps for a direction that has queues, and the weight of a transmit
queue is not zero where there is none. -/
structure Options.Fits (c : Options) (frames rings : Int) : Prop where
  tx : 0<c.txQueues → c.txDepth<2^32
  rx : 0<c.rxQueues → c.rxDepth<2^32
  weight : c.txQueues=0 → frames/c.outstanding rings*rings*c.txDepth%2^64≠0
  bytes : frames*c.frameSize<2^63

def Options.sized (c : Options) (enhancedMPW : Bool) : Nat :=
  regionFrames c.framesSet c.frames (c.outstanding (c.rings enhancedMPW))

theorem Plan.Made.fed {h : Host} {required : Int} (hc : c.Checked)
    (hp : p.Made c h enhancedMPW required)
    (hfits : c.Fits (c.sized enhancedMPW) (c.finalRings enhancedMPW required)) :
    p.frames=c.sized enhancedMPW ∧ (c.txQueues=0 → (c.weighted p.rings p.frames).1≠0) := by
  obtain ⟨hpos,hfew,hmost,hle,hframes,heq⟩ := hp.enough hc hfits.tx hfits.rx
  obtain ⟨-,hw,-⟩ := c.weighted_eq hc hfits.tx hfits.rx hpos hfew hmost hle hframes
  refine ⟨heq,fun hq => ?_⟩
  rw [hw,ne_eq,mulInt_eq_zero,hp.rings,heq]
  exact hfits.weight hq

structure Plan.Partitions (c : Options) (p : Plan) : Prop where
  apart : (p.tx++p.rx).Pairwise fun x y => x.1+x.2≤y.1
  inside : ∀ x∈p.tx++p.rx, 0≤x.1 ∧ 0≤x.2 ∧ x.1+x.2≤p.frames
  region : p.frames*c.frameSize=p.region.len
  tx : p.tx.length=c.txQueues ∧ ∀ x∈p.tx, p.rings*c.txDepth≤x.2
  rx : p.rx.length=c.rxQueues ∧ ∀ x∈p.rx, c.rxDepth≤x.2
  weighted : ¬ c.starved (c.weighted p.rings p.frames)

section
variable {c : Options} {h : Host} {enhancedMPW : Bool} {required : Int} {p : Plan} (hc : c.Checked)
  (hp : p.Made c h enhancedMPW required)
include hc hp

theorem Plan.Made.partitions
    (hfits : c.Fits (c.sized enhancedMPW) (c.finalRings enhancedMPW required)) :
    p.Partitions c := by
  obtain ⟨hpos,hfew,hmost,hle,hframes,-⟩ := hp.enough hc hfits.tx hfits.rx
  obtain ⟨heq,hfed⟩ := hp.fed hc hfits
  obtain ⟨quot,hquot,hsum,hslices,⟨e,f,htxs⟩,e',f',hrxs⟩ := hp.dealt hc hfits.tx hfits.rx hfed
  obtain ⟨htlen,htle⟩ := slices_of_replicate htxs
  obtain ⟨hrlen,hrle⟩ := slices_of_replicate hrxs
  have hdt := hc.txDepth
  have hdr := hc.rxDepth
  have hsize0 : 0≤c.frameSize := by
    obtain ⟨k,hk⟩ := hc.frameSize
    exact hk ▸ natCast_nonneg _
  refine ⟨?_,?_,?_,⟨?_,?_⟩,⟨?_,?_⟩,
    (c.share_eq hc hfits.tx hfits.rx hpos hfew hmost hle hframes hfed).1⟩
  · rw [hslices,pairwise_map]
    exact (spans_apart _ _).imp fun {x y} hxy => ofNat_le.mpr hxy
  · intro x hx
    rw [hslices] at hx
    obtain ⟨y,hy,rfl⟩ := mem_map.mp hx
    have hin := (spans_bounds hy).2
    have hbase : c.txQueues.toNat*(quot*(p.rings.toNat*c.txDepth.toNat))+
        c.rxQueues.toNat*(quot*c.rxDepth.toNat) =
        quot*(c.txQueues.toNat*(p.rings.toNat*c.txDepth.toNat)+
          c.rxQueues.toNat*c.rxDepth.toNat) := by
      ring
    rw [topUp_sum,sum_append,sum_replicate_nat,sum_replicate_nat,hbase] at hin
    refine ⟨natCast_nonneg _,natCast_nonneg _,?_⟩
    change (y.1 : Int)+(y.2 : Int)≤_
    omega
  · have hnonneg : 0≤(p.frames : Int)*c.frameSize := mul_nonneg (by omega) hsize0
    rw [hp.region,mulInt_eq (by omega) (heq ▸ hfits.bytes)]
    omega
  · rw [htlen,toNat_of_nonneg hc.txQueues]
  · intro x hx
    refine le_trans ?_ (htle x hx)
    rw [natCast_mul,natCast_mul,toNat_of_nonneg (le_of_lt hpos),toNat_of_nonneg (le_of_lt hdt)]
    exact le_mul_of_one_le_left (le_of_lt (mul_pos hpos hdt)) (by exact_mod_cast hquot)
  · rw [hrlen,toNat_of_nonneg hc.rxQueues.1]
  · intro x hx
    refine le_trans ?_ (hrle x hx)
    rw [natCast_mul,toNat_of_nonneg (le_of_lt hdr)]
    exact le_mul_of_one_le_left (le_of_lt hdr) (by exact_mod_cast hquot)

theorem Plan.Made.depth_le {xs : List (Int × Int)} {n depth : Int} (hlen : xs.length=n)
    (hin : ∀ x∈xs, 0≤x.1 ∧ x.1+x.2≤p.frames) (hle : ∀ x∈xs, depth≤x.2) (hn : 0<n) : depth≤2^21 := by
  have hframes := c.size_le hc hp.frames
  obtain ⟨x,hx⟩ := length_pos_iff_exists_mem.mp (by omega : 0<xs.length)
  have := hin x hx
  have := hle x hx
  omega

end

/-- The slices of all queues are apart and inside of the region, each has the frames for all that
its queue can have outstanding, and the even split is not reached, just if the sizes fit. -/
theorem region_partition_iff (c : Options) (h : Host) (p : Plan) (enhancedMPW : Bool)
    (required : Int) (hplan : c.plan h = some (.ok p)) (hdev : h.device = .ok enhancedMPW)
    (hinl : h.minInline = .ok required) :
    p.Partitions c ↔ c.Fits (c.sized enhancedMPW) (c.finalRings enhancedMPW required) := by
  obtain ⟨hc,enhancedMPW',required',hp⟩ := c.plan_ok hplan
  obtain rfl : enhancedMPW'=enhancedMPW := Except.ok.inj (hp.device.symm.trans hdev)
  obtain rfl : required'=required := Except.ok.inj (hp.minInline.symm.trans hinl)
  refine ⟨fun hall => ?_,hp.partitions hc⟩
  have hin {x : Int × Int} (hx : x∈p.tx++p.rx) : 0≤x.1 ∧ x.1+x.2≤p.frames :=
    ⟨(hall.inside x hx).1,(hall.inside x hx).2.2⟩
  have hpos := (c.finalRings_le hc enhancedMPW' required').1
  rw [← hp.rings] at hpos
  have htx : 0<c.txQueues → c.txDepth<2^32 := fun hq => by
    have hle := hp.depth_le hc hall.tx.1 (fun x hx => hin (mem_append_left _ hx)) hall.tx.2 hq
    have hone : c.txDepth≤p.rings*c.txDepth := le_mul_of_one_le_left (le_of_lt hc.txDepth) hpos
    omega
  have hrx : 0<c.rxQueues → c.rxDepth<2^32 := fun hq => by
    have hle := hp.depth_le hc hall.rx.1 (fun x hx => hin (mem_append_right _ hx)) hall.rx.2 hq
    omega
  obtain ⟨-,hfew,hmost,hle,hframes,heq⟩ := hp.enough hc htx hrx
  obtain ⟨-,hw,-⟩ := c.weighted_eq hc htx hrx hpos hfew hmost hle hframes
  refine ⟨htx,hrx,fun _ => ?_,?_⟩
  · have hne := (not_or.mp hall.weighted).1
    rwa [hw,mulInt_eq_zero,hp.rings,heq] at hne
  · have hbytes := hall.region
    have hlt := p.region.len_lt
    rw [heq] at hbytes
    rw [Options.sized]
    omega

def somePort (required : Int) : Host :=
  { resolve := .ok "mlx5_0", device := .ok true, mmap := fun _ => .ok fun _ => 0
    register := .ok (), minInline := .ok required, placement := .ok () }

def zeros (len : Nat) (h : len<2^63) : Region := ⟨fun _ => 0,len,h⟩

def pairOptions : Options := { txQueues := 2 }

theorem pair_len : 33554432<2^63 := by decide

def pairPlan : Plan :=
  { region := zeros 33554432 pair_len, frames := 16384, rings := 1, inline :=
    18, multiPacket := false
    mpwPointer := true, tx := [(0,8192),(8192,8192)], rx := [] }

theorem region_partition_pair : pairOptions.plan (somePort 18) = some (.ok pairPlan) ∧
    pairPlan.Partitions pairOptions := by
  have hplan : pairOptions.plan (somePort 18)=some (.ok pairPlan) := rfl
  exact ⟨hplan,(region_partition_iff pairOptions (somePort 18) pairPlan true 18 hplan rfl rfl).mpr
    ⟨by decide,by decide,by decide,by decide⟩⟩

/-- No transmit queue, and a depth of 2^62 for them: four times that is zero. -/
def loneOptions : Options := { txQueues := 0, txDepth := 2^62, rxQueues := 1 }

theorem lone_queue_split : ∃ p, loneOptions.plan (somePort 0) = some (.ok p) ∧
    loneOptions.starved (loneOptions.weighted p.rings p.frames) ∧ p.rx = [(0,4096)] :=
  ⟨_,rfl,by decide,rfl⟩

def sliceFrames (c : Options) (checked : Bool) (x : Int × Int) : Multiset UInt64 :=
  ↑(newFrames checked x.1.toNat x.2.toNat c.frameSize.toNat).free

theorem sliceFrames_toInts (c : Options) (checked : Bool) (x : Nat × Nat) :
    sliceFrames c checked (toInts x) = ↑(frameStarts x.1 x.2 c.frameSize.toNat) := by
  change ((newFrames checked x.1 x.2 c.frameSize.toNat).free : Multiset UInt64)=_
  rw [newFrames_free,coe_reverse]

def Options.spare (c : Options) (enhancedMPW : Bool) (required : Int) : Int :=
  c.sized enhancedMPW%c.outstanding (c.finalRings enhancedMPW required)

theorem Plan.Made.covered {h : Host} {required : Int}
    (hc : c.Checked) (hp : p.Made c h enhancedMPW required)
    (hfits : c.Fits (c.sized enhancedMPW) (c.finalRings enhancedMPW required)) (checked : Bool) :
    ∃ n : Nat, n≤p.frames ∧ (n=p.frames ↔ c.spare enhancedMPW required≤c.txQueues+c.rxQueues) ∧
      ((p.tx++p.rx).map Prod.snd).sum=n ∧
      ((p.tx++p.rx).map (sliceFrames c checked)).sum = ↑(frameStarts 0 n c.frameSize.toNat) := by
  obtain ⟨hpos,-,hmost,-,-,-⟩ := hp.enough hc hfits.tx hfits.rx
  obtain ⟨hframes,hfed⟩ := hp.fed hc hfits
  obtain ⟨-,-,hW,-⟩ := c.outstanding_bounds hc hfits.tx hfits.rx hpos hmost
  obtain ⟨quot,-,hsum,hslices,-⟩ := hp.dealt hc hfits.tx hfits.rx hfed
  have htq := hc.txQueues
  have hrq := hc.rxQueues
  have hspare : c.spare enhancedMPW required=(p.frames%(c.outstanding p.rings).toNat : Nat) := by
    rw [Options.spare,← hframes,← hp.rings,natCast_emod,toNat_of_nonneg (le_of_lt hW)]
  generalize hns : List.replicate c.txQueues.toNat (quot*(p.rings.toNat*c.txDepth.toNat))++
    List.replicate c.rxQueues.toNat (quot*c.rxDepth.toNat)=ns at hslices
  have hlen : ns.length=c.txQueues.toNat+c.rxQueues.toNat := by
    rw [← hns,length_append,length_replicate,length_replicate]
  have hbase : ns.sum+p.frames%(c.outstanding p.rings).toNat=p.frames := by
    have hmul : ns.sum=quot*(c.txQueues.toNat*(p.rings.toNat*c.txDepth.toNat)+
        c.rxQueues.toNat*c.rxDepth.toNat) := by
      rw [← hns,sum_append,sum_replicate_nat,sum_replicate_nat]
      ring
    rwa [hmul]
  generalize p.frames%(c.outstanding p.rings).toNat=extra at hslices hspare hbase
  refine ⟨(topUp extra ns).sum,?_,?_,?_,?_⟩
  · rw [topUp_sum]
    omega
  · rw [topUp_sum,hspare,hlen]
    omega
  · have hcast : Prod.snd ∘ toInts=Nat.cast ∘ Prod.snd := rfl
    rw [hslices,List.map_map,hcast,← List.map_map,spans_lengths,Nat.cast_list_sum]
  · have hframe : sliceFrames c checked ∘ toInts =
        fun x => (↑(frameStarts x.1 x.2 c.frameSize.toNat) : Multiset UInt64) :=
      funext (sliceFrames_toInts c checked)
    rw [hslices,List.map_map,hframe,spans_frames]

end Packetio.Mlx5

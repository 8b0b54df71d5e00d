import Packetio.Dpdk.DeviceFrames

/-! The frames of the queues of a DPDK device. The region is sized by the sum of all depths
and then split evenly, so that a queue deeper than the average may get less than its
depth. -/
namespace Packetio.Dpdk
open Lib Pool List

namespace Options
variable (c : Options) (mellanox : Bool)

def outstanding : Int := c.txQueues*c.rings mellanox*c.txDepth+c.rxQueues*c.rxDepth

def frameCount : Nat := regionFrames c.framesSet c.frames (c.outstanding mellanox)

def queueCount : Nat := (c.txQueues*c.rings mellanox+c.rxQueues).toNat

def evenShare : Nat := c.frameCount mellanox/c.queueCount mellanox

def leftover : Nat := c.frameCount mellanox%c.queueCount mellanox

structure Shallow : Prop where
  tx : 0<c.txQueues → c.txDepth ≤ if c.txQueues*c.rings mellanox≤c.leftover mellanox
    then (c.evenShare mellanox : Int)+1 else c.evenShare mellanox
  rx : 0<c.rxQueues → c.rxDepth≤c.evenShare mellanox

end Options

theorem Options.validate_sizes {c : Options} (h : c.validate = .ok ()) : 0<c.rxDepth := by
  obtain ⟨-,h⟩ := passed h nofun
  obtain ⟨-,h⟩ := passed h nofun
  obtain ⟨-,h⟩ := passed h nofun
  obtain ⟨-,h⟩ := passed h nofun
  obtain ⟨-,h⟩ := passed h nofun
  obtain ⟨hrx,-⟩ := passed h nofun
  omega

section
variable {c : Options} {mellanox : Bool} {p : Plan} (hplan : c.plan mellanox=some (.ok p))
  (htx : 0<c.txQueues → c.txDepth<2^32) (hrx : 0<c.rxQueues → c.rxDepth<2^32)
include hplan

theorem Options.txRings_eq : (c.txRings p : Int)=c.txQueues*c.rings mellanox ∧
    c.queues p=c.queueCount mellanox := by
  obtain ⟨-,-,hrings,-,-⟩ := c.plan_made hplan
  obtain ⟨hc,-⟩ := c.plan_ok hplan
  have htxRings := hc.txRings hrings
  refine ⟨htxRings,?_⟩
  have hrxq := hc.rxQueues.1
  rw [Options.queues,Options.queueCount,← htxRings]
  omega

include htx hrx

theorem Options.frameCount_eq : p.frames=c.frameCount mellanox := by
  obtain ⟨hv,hmost,-,-,hs⟩ := c.plan_made hplan
  have hdr := c.validate_sizes hv
  obtain ⟨hc,-⟩ := c.plan_ok hplan
  have hpos := hc.rings_pos mellanox
  have hdt : 0<c.txDepth := by
    obtain ⟨d,hd⟩ := hc.txDepth
    rw [hd]
    exact Int.natCast_pos.mpr (Nat.two_pow_pos d)
  have ht0 := mul_nonneg hc.txQueues (le_of_lt hpos)
  obtain ⟨ht,hr,hneed,heq⟩ := need_eq ⟨ht0,hmost⟩ hdt
    (fun h => htx ((mul_pos_iff_of_pos_right hpos).mp h)) hc.rxQueues hdr hrx
  have hneed0 := add_nonneg ht hr
  rw [heq,← Options.outstanding,Options.size] at hs
  rw [← Options.outstanding] at hneed hneed0
  rw [mulInt_eq (by omega) (by omega)] at hs
  rw [Options.frameCount,regionFrames]
  split at hs
  case isTrue hset =>
    obtain ⟨-,hs⟩ := passed hs nofun
    injection hs with hs
    injection hs with hs
    rw [if_pos (.inl hset),hs]
  rename_i hset
  split at hs
  case isTrue hless =>
    rw [nextPow2_eq (by omega)] at hs
    injection hs with hs
    injection hs with hs
    rw [if_neg (by rw [not_or]; exact ⟨hset,by omega⟩),hs]
  case isFalse hless =>
    injection hs with hs
    injection hs with hs
    rw [if_pos (.inr (by omega)),hs]

end

theorem shares_reach {first extra count n : Nat} {depth : Int} :
    (∀ x∈spans first (topUp extra (List.replicate count n)), depth≤(x.2 : Int)) ↔
      (0<count → depth ≤ if (count : Int)≤extra then (n : Int)+1 else n) := by
  rcases Nat.eq_zero_or_pos count with hzero | hpos
  · subst hzero
    exact ⟨fun _ h => absurd h (lt_irrefl 0),fun _ => nofun⟩
  have hall : (∀ x∈spans first (topUp extra (replicate count n)), depth≤(x.2 : Int)) ↔
      ∀ m∈topUp extra (replicate count n), depth≤(m : Int) := by
    nth_rewrite 2 [← spans_lengths first (topUp extra (replicate count n))]
    rw [forall_mem_map]
  have hgrow : depth≤(n : Int) → depth≤((n+1 : Nat) : Int) := by omega
  rw [hall,forall_topUp hgrow hpos]
  simp only [Int.ofNat_le,hpos,true_imp_iff]
  split <;> rfl

/-- The slices of a device are apart and take up all of its region. Each queue has as many
frames as its depth just if an even share is enough for it. -/
theorem queues_reach_depth_iff (c : Options) (mellanox : Bool) (p : Plan)
    (hplan : c.plan mellanox = some (.ok p)) (htx : 0 < c.txQueues → c.txDepth < 2^32)
    (hrx : 0 < c.rxQueues → c.rxDepth < 2^32) : ((c.shares p).Pairwise fun x y => x.1+x.2 ≤ y.1) ∧
    ((c.shares p).map fun x => (↑(frameStarts x.1 x.2 c.frameSize.toNat) : Multiset UInt64)).sum =
      ↑(frameStarts 0 p.frames c.frameSize.toNat) ∧ ((c.shares p).map Prod.snd).sum = p.frames ∧
    (((∀ x ∈ (c.shares p).take (c.txRings p), c.txDepth ≤ (x.2 : Int)) ∧
      ∀ x ∈ (c.shares p).drop (c.txRings p), c.rxDepth ≤ (x.2 : Int)) ↔ c.Shallow mellanox) := by
  obtain ⟨hc,hp⟩ := c.plan_ok hplan
  obtain ⟨htxRings,hqueues⟩ := c.txRings_eq hplan
  have hframes := c.frameCount_eq hplan htx hrx
  have hpos := hc.rings_pos mellanox
  have hq := hp.queues.1
  refine ⟨?_,hp.shares_frames _,?_,?_⟩
  · rw [Options.shares,deal_eq_spans]
    exact spans_apart _ _
  · rw [Options.shares,deal_eq_spans,spans_lengths,topUp_sum_replicate,hp.dealt]
  · have hsplit : c.queues p=c.txRings p+c.rxQueues.toNat := rfl
    have hless := Nat.mod_lt p.frames hq
    have hrep : replicate (c.queues p) (p.frames/c.queues p) =
        replicate (c.txRings p) (p.frames/c.queues p)++
          replicate c.rxQueues.toNat (p.frames/c.queues p) := replicate_add _ _ _
    have hlen (first extra n : Nat) :
        (spans first (topUp extra (replicate (c.txRings p) n))).length=c.txRings p := by
      rw [spans_length,topUp_length,length_replicate]
    rw [Options.shares,deal_eq_spans,max_eq_left hq,hrep,topUp_append,spans_append,
      take_left' (hlen _ _ _),drop_left' (hlen _ _ _),shares_reach,shares_reach,
      length_replicate,htxRings,hframes,hqueues]
    rw [hframes,hqueues] at hless
    have htxPos : 0<c.txRings p ↔ 0<c.txQueues := by
      rw [← Int.natCast_pos,htxRings]
      exact mul_pos_iff_of_pos_right hpos
    constructor
    · rintro ⟨ht,hr⟩
      refine ⟨fun h => ht (htxPos.mpr h),fun h => ?_⟩
      have hlast := hr (by omega)
      rwa [if_neg (by omega)] at hlast
    · rintro ⟨ht,hr⟩
      refine ⟨fun h => ht (htxPos.mp h),fun h => ?_⟩
      rw [if_neg (by omega)]
      exact hr (by omega)

def mixedOptions : Options := { txDepth := 8192, rxQueues := 15, rxDepth := 64 }

theorem mixed_queue_starved : mixedOptions.plan false = some (.ok ⟨1,32768⟩) ∧
    mixedOptions.outstanding false ≤ 32768 ∧
    ((mixedOptions.shares ⟨1,32768⟩).take (mixedOptions.txRings ⟨1,32768⟩)) = [(0,2048)] := by
  refine ⟨rfl,by decide,by decide⟩

def levelOptions : Options := { rxQueues := 1 }

theorem queues_reach_depth_level : levelOptions.plan false = some (.ok ⟨1,4096⟩) ∧
    (∀ x ∈ (levelOptions.shares ⟨1,4096⟩).take 1, levelOptions.txDepth ≤ (x.2 : Int)) ∧
    ∀ x ∈ (levelOptions.shares ⟨1,4096⟩).drop 1, levelOptions.rxDepth ≤ (x.2 : Int) := by
  have hplan : levelOptions.plan false=some (.ok ⟨1,4096⟩) := rfl
  exact ⟨hplan,(queues_reach_depth_iff levelOptions false ⟨1,4096⟩ hplan (by decide)
    (by decide)).2.2.2.mpr ⟨by decide,by decide⟩⟩

end Packetio.Dpdk

import Mathlib.Algebra.Order.Group.Nat
import Mathlib.Data.List.Chain
import Mathlib.Data.Nat.Bitwise
import Packetio.Mlx5.Clock

/-! The laps of a narrow tick counter against the true count of ticks. A reading is the true count
modulo the period; the wraps that are carried follow it upwards, and never back. -/
namespace Packetio.Mlx5.Clock
open List Nat UInt64

/-- The conversion of a count of ticks, as `ns` ends. -/
def Info.scale (i : Info) (x : UInt64) : UInt64 :=
  let prod := x.toNat*i.mult.toNat
  if i.shift=0 then UInt64.ofNat prod
  else shl (UInt64.ofNat (prod/2^64)) (64-i.shift) ||| shr (UInt64.ofNat prod) i.shift

def Info.time (i : Info) (v : Nat) : UInt64 := UInt64.ofNat (v%2^64*i.mult.toNat/2^i.shift.toNat)

theorem shifted_halves {p s : Nat} (hs : s≤64) : p/2^64*2^(64-s)%2^64+p%2^64/2^s=p/2^s%2^64 := by
  have hpow : 2^64=2^s*2^(64-s) := by rw [← pow_add]; congr 1; omega
  have hlow : p%2^64/2^s=p/2^s%2^(64-s) := by rw [hpow,mod_mul_right_div_self]
  have hhigh : p/2^64*2^(64-s)%2^64=p/2^64%2^s*2^(64-s) := by rw [hpow,mul_mod_mul_right]
  have hdiv : p/2^64=p/2^s/2^(64-s) := by rw [hpow,Nat.div_div_eq_div_mul]
  rw [hlow,hhigh,hdiv,hpow,mul_comm (2^s),mod_mul,add_comm,mul_comm]

variable {n : UInt32} {w t₀ : Nat} {ts : List Nat}

theorem shl_toNat (x : UInt64) (h : n.toNat<64) : (shl x n).toNat=x.toNat*2^n.toNat%2^64 := by
  rw [shl,if_pos (UInt32.lt_iff_toNat_lt.mpr h),UInt64.toNat_shiftLeft,UInt32.toNat_toUInt64,
    Nat.mod_eq_of_lt h,shiftLeft_eq]

theorem shr_toNat (x : UInt64) (h : n.toNat≤64) : (shr x n).toNat=x.toNat/2^n.toNat := by
  rw [shr]
  split
  case isTrue hlt =>
    change n.toNat<64 at hlt
    rw [UInt64.toNat_shiftRight,UInt32.toNat_toUInt64,Nat.mod_eq_of_lt hlt,shiftRight_eq_div_pow]
  rename_i hge
  change ¬ n.toNat<64 at hge
  have h64 : n.toNat=64 := by omega
  rw [h64,div_eq_of_lt x.toNat_lt]
  rfl

theorem scale_eq {i : Info} (h : i.shift.toNat≤64) (x : UInt64) :
    i.scale x=UInt64.ofNat (x.toNat*i.mult.toNat/2^i.shift.toNat) := by
  obtain ⟨p,hp⟩ : ∃ p, p=x.toNat*i.mult.toNat := ⟨_,rfl⟩
  simp only [Info.scale,← hp]
  split
  case isTrue hz => rw [hz,UInt32.toNat_zero,pow_zero,Nat.div_one]
  rename_i hz
  have hpos : 0 < i.shift.toNat := pos_of_ne_zero fun h0 => hz (UInt32.toNat_inj.mp h0)
  have hhi : p/2^64<2^64 := by
    have hx := x.toNat_lt
    have hm := i.mult.toNat_lt
    have hle : p≤2^64*2^32 := hp ▸ Nat.mul_le_mul hx.le hm.le
    omega
  have hsub : (64-i.shift).toNat=64-i.shift.toNat :=
    UInt32.toNat_sub_of_le _ _ (UInt32.le_iff_toNat_le.mpr h)
  have hlow : p%2^64/2^i.shift.toNat<2^(64-i.shift.toNat) := by
    apply Nat.div_lt_of_lt_mul
    rw [← pow_add,Nat.add_sub_cancel' h]
    exact mod_lt _ (by decide)
  have hdvd : 2^(64-i.shift.toNat) ∣ p/2^64*2^(64-i.shift.toNat)%2^64 :=
    (dvd_mod_iff (pow_dvd_pow 2 (sub_le _ _))).mpr (dvd_mul_left _ _)
  rw [← UInt64.toNat_inj,UInt64.toNat_or,shl_toNat _ (by omega),shr_toNat _ h,hsub,
    toNat_ofNat_of_lt' hhi,toNat_ofNat',toNat_ofNat',← shifted_halves h]
  -- the low half does not reach the bits of the high one
  obtain ⟨q,hq⟩ := hdvd
  rw [hq,mul_comm,← shiftLeft_eq,← shiftLeft_add_eq_or_of_lt hlow]

structure Counter.At (w : Nat) (c : Counter) (a n : Nat) : Prop where
  begun : c.begun=true
  last : c.last.toNat=a%2^w
  wraps : c.wraps=UInt64.ofNat n

def Near (w a b : Nat) : Prop := a≤b+(2^w-1)/2 ∧ b≤a+(2^w-1)/2

def lapsBack (w : Nat) : List Nat → Nat
  | a::b::ts => (if b/2^w<a/2^w then 1 else 0)+lapsBack w (b::ts)
  | _ => 0

theorem near_laps {a b : Nat} (h : Near w a b) :
    (if b%2^w<a%2^w ∧ a%2^w-b%2^w > (2^w-1)/2 then 1 else 0)+a/2^w =
      b/2^w+if b/2^w<a/2^w then 1 else 0 := by
  obtain ⟨W,hW⟩ : ∃ W, W=2^w := ⟨_,rfl⟩
  have hpos : 0<W := hW ▸ Nat.two_pow_pos w
  rw [Near,← hW] at h
  rw [← hW]
  have ha := div_add_mod a W
  have hb := div_add_mod b W
  have hup : b/W≤a/W+1 := by
    rw [← add_div_right a hpos]
    exact Nat.div_le_div_right (by omega)
  have hdown : a/W≤b/W+1 := by
    rw [← add_div_right b hpos]
    exact Nat.div_le_div_right (by omega)
  rcases lt_trichotomy (b/W) (a/W) with hlt | heq | hgt
  · have hq : a/W=b/W+1 := by omega
    rw [hq,Nat.mul_add,Nat.mul_one] at ha
    rw [if_neg (by omega),if_pos hlt]
    omega
  · rw [heq] at hb
    rw [if_neg (by omega),if_neg (by omega)]
    omega
  · have hq : b/W=a/W+1 := by omega
    rw [hq,Nat.mul_add,Nat.mul_one] at hb
    rw [if_pos (by omega),if_neg (by omega)]
    omega

section
variable {c : Counter} {w a b n : Nat} (hw : w≤64) (hmask : c.info.mask.toNat=2^w-1)
include hw hmask

theorem raw_toNat (b : Nat) : (UInt64.ofNat b &&& c.info.mask).toNat=b%2^w := by
  rw [UInt64.toNat_and,hmask,and_two_pow_sub_one_eq_mod,toNat_ofNat']
  exact mod_mod_of_dvd b (Nat.pow_dvd_pow 2 hw)

theorem carried (n b : Nat) :
    UInt64.ofNat n*(c.info.mask+1)+(UInt64.ofNat b &&& c.info.mask)=UInt64.ofNat (n*2^w+b%2^w) := by
  have hperiod : c.info.mask+1=ofNat (2^w) := by
    rw [← Nat.sub_add_cancel (Nat.two_pow_pos w),ofNat_add,← hmask,UInt64.ofNat_toNat]
    rfl
  have hraw : ofNat b &&& c.info.mask=ofNat (b%2^w) := by
    rw [← raw_toNat hw hmask b,UInt64.ofNat_toNat]
  rw [hperiod,hraw,ofNat_add,ofNat_mul]

theorem Counter.At.ns (h : c.At w a n) (hab : Near w a b) : ∃ n',
    n'+a/2^w=n+b/2^w+(if b/2^w<a/2^w then 1 else 0) ∧ (c.ns (UInt64.ofNat b)).1.At w b n' ∧
      (c.ns (UInt64.ofNat b)).2=c.info.scale (UInt64.ofNat (n'*2^w+b%2^w)) := by
  have hraw := raw_toNat hw hmask b
  have hlaps := near_laps hab
  have htest : (c.begun && (ofNat b &&& c.info.mask)<c.last &&
      c.last-(ofNat b &&& c.info.mask) > c.info.mask/2)=true ↔
      b%2^w<a%2^w ∧ a%2^w-b%2^w > (2^w-1)/2 := by
    rw [h.begun,Bool.true_and,Bool.and_eq_true,decide_eq_true_iff,decide_eq_true_iff,
      lt_iff_toNat_lt,hraw,h.last]
    apply and_congr_right
    intro hlt
    have hle : (ofNat b &&& c.info.mask)≤c.last := by
      rw [le_iff_toNat_le,hraw,h.last]
      exact hlt.le
    rw [gt_iff_lt,lt_iff_toNat_lt,UInt64.toNat_sub_of_le _ _ hle,UInt64.toNat_div,hraw,
      h.last,hmask]
    exact Iff.rfl
  have hwraps : (if (c.begun && (ofNat b &&& c.info.mask)<c.last &&
      c.last-(ofNat b &&& c.info.mask) > c.info.mask/2)=true then c.wraps+1 else c.wraps) =
      ofNat (n+if b%2^w<a%2^w ∧ a%2^w-b%2^w > (2^w-1)/2 then 1 else 0) := by
    by_cases hcross : b%2^w<a%2^w ∧ a%2^w-b%2^w > (2^w-1)/2
    · rw [if_pos (htest.mpr hcross),if_pos hcross,h.wraps,ofNat_add]
      rfl
    · rw [if_neg (fun ht => hcross (htest.mp ht)),if_neg hcross,h.wraps,add_zero]
  refine ⟨n+if b%2^w<a%2^w ∧ a%2^w-b%2^w > (2^w-1)/2 then 1 else 0,by omega,
    ⟨rfl,hraw,hwraps⟩,?_⟩
  change c.info.scale (_*(c.info.mask+1)+(ofNat b &&& c.info.mask))=_
  rw [hwraps,carried hw hmask]

theorem Counter.At.nsAll (h : c.At w a n) (hts : List.IsChain (Near w) (a::ts)) (k t : Nat)
    (hk : ts[k]? = some t) : ∃ n', n'+a/2^w=n+t/2^w+lapsBack w (a::ts.take (k+1)) ∧
      (c.nsAll (ts.map UInt64.ofNat)).2[k]? =
        some (c.info.scale (UInt64.ofNat (n'*2^w+t%2^w))) := by
  induction ts generalizing c a n k with
  | nil => simp at hk
  | cons b ts ih =>
    rw [isChain_cons_cons] at hts
    obtain ⟨n1,hn1,hat,hres⟩ := h.ns hw hmask hts.1
    cases k with
    | zero =>
      rw [getElem?_cons_zero,Option.some_inj] at hk
      subst hk
      refine ⟨n1,?_,?_⟩
      · rw [hn1]
        rfl
      · rw [← hres]
        rfl
    | succ k =>
      have hmask' : (c.ns (ofNat b)).1.info.mask.toNat=2^w-1 := hmask
      obtain ⟨n',hn',hres'⟩ := ih hmask' hat hts.2 k hk
      refine ⟨n',?_,hres'⟩
      rw [take_succ_cons,lapsBack]
      omega

end

theorem nsAll_laps {i : Info} (hw : w≤64) (hmask : i.mask.toNat=2^w-1)
    (hts : List.IsChain (Near w) (t₀::ts)) (k t : Nat) (hk : (t₀::ts)[k]? = some t) :
    ∃ n, n+t₀/2^w=t/2^w+lapsBack w ((t₀::ts).take (k+1)) ∧
      (Counter.nsAll { info := i } ((t₀::ts).map UInt64.ofNat)).2[k]? =
        some (i.scale (UInt64.ofNat (n*2^w+t%2^w))) := by
  have hmask' : ({ info := i } : Counter).info.mask.toNat=2^w-1 := hmask
  have hfirst : (({ info := i } : Counter).ns (ofNat t₀)).1.At w t₀ 0 :=
    ⟨rfl,raw_toNat hw hmask' t₀,rfl⟩
  cases k with
  | zero =>
    rw [getElem?_cons_zero,Option.some_inj] at hk
    subst hk
    refine ⟨0,add_comm _ _,?_⟩
    rw [← carried hw hmask' 0]
    rfl
  | succ k =>
    obtain ⟨n,hn,hres⟩ := hfirst.nsAll hw hmask hts k t hk
    rw [zero_add] at hn
    exact ⟨n,hn,hres⟩

def readings (i : Info) (ts : List Nat) : List UInt64 :=
  (Counter.nsAll { info := i } (ts.map UInt64.ofNat)).2

theorem lapsBack_rising (h : List.IsChain (· ≤ ·) ts) : lapsBack w ts=0 := by
  induction ts with
  | nil => rfl
  | cons a ts ih =>
    cases ts with
    | nil => rfl
    | cons b ts =>
      rw [isChain_cons_cons] at h
      have hle : a/2^w≤b/2^w := Nat.div_le_div_right h.1
      rw [lapsBack,if_neg (by omega),ih h.2]

theorem rising_le (h : List.IsChain (· ≤ ·) ts) {j k s t : Nat} (hjk : j≤k)
    (hj : ts[j]? = some s) (hk : ts[k]? = some t) : s≤t := by
  obtain ⟨hjl,rfl⟩ := List.getElem?_eq_some_iff.mp hj
  obtain ⟨hkl,rfl⟩ := List.getElem?_eq_some_iff.mp hk
  rcases eq_or_lt_of_le hjk with heq | hlt
  · subst heq
    exact le_refl _
  · exact pairwise_iff_getElem.mp (isChain_iff_pairwise.mp h) j k hjl hkl hlt

theorem laps_elapsed {n t : Nat} (hle : t₀≤t) (hn : n+t₀/2^w=t/2^w) : n*2^w+t%2^w=t-t₀+t₀%2^w := by
  have ht := div_add_mod t (2^w)
  have ht0 := div_add_mod t₀ (2^w)
  rw [← hn,mul_add,mul_comm _ n] at ht
  omega

/-- Rising readings convert to the true time since the lap of the first one, and so never fall. -/
theorem readings_exact {i : Info} {w : Nat} (hw : 2 ≤ w ∧ w ≤ 64) (hmask : i.mask.toNat = 2^w-1)
    (hshift : i.shift.toNat ≤ 63) {t₀ : Nat} {ts : List Nat}
    (hts : List.IsChain (fun a b : Nat => a ≤ b ∧ b-a ≤ i.mask.toNat/2) (t₀::ts)) :
    (∀ k t : Nat, (t₀::ts)[k]? = some t → t-t₀+t₀ % 2^w < 2^64 → (readings i (t₀::ts))[k]? =
      some (UInt64.ofNat ((t-t₀+t₀ % 2^w)*i.mult.toNat/2^i.shift.toNat))) ∧
    ∀ (j k t : Nat) (a b : UInt64), j ≤ k → (t₀::ts)[k]? = some t → t-t₀+t₀ % 2^w < 2^64 →
      (t-t₀+t₀ % 2^w)*i.mult.toNat/2^i.shift.toNat < 2^64 →
      (readings i (t₀::ts))[j]? = some a → (readings i (t₀::ts))[k]? = some b → a ≤ b := by
  have hnear : List.IsChain (Near w) (t₀::ts) := hts.imp fun a b h => by exact ⟨by omega,by omega⟩
  have hrise : List.IsChain (· ≤ ·) (t₀::ts) := hts.imp fun a b h => h.1
  have hmono {j k s t : Nat} (hjk : j≤k) (hj : (t₀::ts)[j]? = some s) (hk : (t₀::ts)[k]? = some t) :
      s≤t := rising_le hrise hjk hj hk
  have hall : ∀ k t : Nat, (t₀::ts)[k]? = some t → t-t₀+t₀%2^w<2^64 → (readings i (t₀::ts))[k]? =
      some (ofNat ((t-t₀+t₀%2^w)*i.mult.toNat/2^i.shift.toNat)) := by
    intro k t hk hlt
    obtain ⟨n,hn,hres⟩ := nsAll_laps hw.2 hmask hnear k t hk
    rw [lapsBack_rising (hrise.take (k+1)),add_zero] at hn
    rw [readings,hres,scale_eq (by omega),laps_elapsed (hmono (zero_le k) rfl hk) hn,
      toNat_ofNat_of_lt' hlt]
  refine ⟨hall,fun j k t a b hjk hk hlt hfit ha hb => ?_⟩
  obtain ⟨s,hj⟩ : ∃ s, (t₀::ts)[j]? = some s :=
    ⟨_,getElem?_eq_getElem (Nat.lt_of_le_of_lt hjk (List.getElem?_eq_some_iff.mp hk).1)⟩
  have hst := hmono hjk hj hk
  have hle : (s-t₀+t₀%2^w)*i.mult.toNat/2^i.shift.toNat ≤
      (t-t₀+t₀%2^w)*i.mult.toNat/2^i.shift.toNat :=
    Nat.div_le_div_right (Nat.mul_le_mul_right _ (by omega))
  rw [hall j s hj (by omega),Option.some_inj] at ha
  rw [hall k t hk hlt,Option.some_inj] at hb
  rw [← ha,← hb,le_iff_toNat_le,toNat_ofNat_of_lt' (lt_of_le_of_lt hle hfit),
    toNat_ofNat_of_lt' hfit]
  exact hle

/-- Over the wrap of a counter of 8 bits, at three ticks for two nanoseconds. -/
theorem readings_exact_wrap : List.IsChain (fun a b : Nat => a ≤ b ∧ b-a ≤ 255/2) [250,300,400] ∧
    (readings ⟨3,1,255⟩ [250,300,400])[2]? = some 600 := by
  have hts : List.IsChain (fun a b : Nat => a≤b ∧ b-a≤255/2) [250,300,400] := by decide
  exact ⟨hts,(readings_exact (w := 8) (i := ⟨3,1,255⟩) (by decide) rfl (by decide) hts).1 2 400 rfl
    (by decide)⟩

theorem lapsBack_take (h : lapsBack w ts=0) (k : Nat) : lapsBack w (ts.take k)=0 := by
  induction ts generalizing k with
  | nil => rw [take_nil]; rfl
  | cons a ts ih =>
    rcases ts with _ | ⟨b,ts⟩
    · cases k with
      | zero => rfl
      | succ k => rw [take_succ_cons,take_nil]; rfl
    rw [lapsBack,Nat.add_eq_zero_iff] at h
    cases k with
    | zero => rfl
    | succ k =>
      cases k with
      | zero => rfl
      | succ k =>
        have hrest := ih h.2 (k+1)
        rw [take_succ_cons] at hrest
        rw [take_succ_cons,take_succ_cons,lapsBack,h.1,hrest]

/-- Readings out of order: a step back into an earlier lap leaves the wraps as they are, and the
step up again counts one more. So the results are right just when the laps that were counted
twice vanish in the conversion, as they do when there are none. -/
theorem readings_reordered_iff {i : Info} {w : Nat} (hw : w ≤ 64) (hmask : i.mask.toNat = 2^w-1)
    {t₀ : Nat} {ts : List Nat}
    (hts : List.IsChain (fun a b : Nat => 4*(a-b) < 2^w ∧ 4*(b-a) < 2^w) (t₀::ts)) :
    ((∀ k t : Nat, (t₀::ts)[k]? = some t → t₀/2^w ≤ t/2^w →
        (readings i (t₀::ts))[k]? = some (i.time (t-t₀/2^w*2^w))) ↔
      ∀ k t : Nat, (t₀::ts)[k]? = some t → t₀/2^w ≤ t/2^w →
        i.scale (UInt64.ofNat (t-t₀/2^w*2^w+lapsBack w ((t₀::ts).take (k+1))*2^w)) =
          i.time (t-t₀/2^w*2^w)) ∧ (i.shift.toNat ≤ 64 → lapsBack w (t₀::ts) = 0 →
      ∀ k t : Nat, (t₀::ts)[k]? = some t → t₀/2^w ≤ t/2^w →
        (readings i (t₀::ts))[k]? = some (i.time (t-t₀/2^w*2^w))) := by
  have hnear : List.IsChain (Near w) (t₀::ts) := hts.imp fun a b h => ⟨by omega,by omega⟩
  have hres : ∀ k t : Nat, (t₀::ts)[k]? = some t → t₀/2^w≤t/2^w → (readings i (t₀::ts))[k]? =
      some (i.scale (ofNat
        (t-t₀/2^w*2^w+lapsBack w ((t₀::ts).take (k+1))*2^w))) := by
    intro k t hk hlap
    obtain ⟨n,hn,hres⟩ := nsAll_laps hw hmask hnear k t hk
    have hcount : n*2^w+t%2^w=t-t₀/2^w*2^w+lapsBack w ((t₀::ts).take (k+1))*2^w := by
      have ht := div_add_mod t (2^w)
      have hsum := congrArg (fun x => x*2^w) hn
      simp only [add_mul] at hsum
      have hle := mul_le_mul_right (2^w) hlap
      rw [mul_comm] at ht
      omega
    rw [readings,hres,hcount]
  refine ⟨⟨fun h k t hk hlap => ?_,fun h k t hk hlap => ?_⟩,fun hshift hback k t hk hlap => ?_⟩
  · exact Option.some_inj.mp ((hres k t hk hlap).symm.trans (h k t hk hlap))
  · rw [hres k t hk hlap,h k t hk hlap]
  · rw [hres k t hk hlap,lapsBack_take hback,Nat.zero_mul,Nat.add_zero,scale_eq hshift,Info.time,
      toNat_ofNat']

/-- A packet of before the wrap comes after one of behind it: it is a period late, and so is every
packet after it. -/
theorem readings_reordered_late :
    List.IsChain (fun a b : Nat => 4*(a-b) < 2^8 ∧ 4*(b-a) < 2^8) [250,260,254,262] ∧
    readings ⟨1,0,255⟩ [250,260,254,262] = [250,260,510,518] ∧
    [250,260,254,262].map (Info.time ⟨1,0,255⟩) = [250,260,254,262] := by
  decide

/-- Out of order within a lap. -/
theorem readings_reordered_in_lap :
    List.IsChain (fun a b : Nat => 4*(a-b) < 2^8 ∧ 4*(b-a) < 2^8) [10,30,20,40] ∧
    (readings ⟨1,0,255⟩ [10,30,20,40])[2]? = some 20 := by
  have hts : List.IsChain (fun a b : Nat => 4*(a-b)<2^8 ∧ 4*(b-a)<2^8) [10,30,20,40] := by decide
  exact ⟨hts,(readings_reordered_iff (i := ⟨1,0,255⟩) (by decide) rfl hts).2 (by decide) (by decide)
    2 20 rfl (by decide)⟩

end Packetio.Mlx5.Clock

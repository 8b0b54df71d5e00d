import Mathlib.Data.Nat.Digits.Lemmas

/-! One's complement sums of 16-bit words. A sum is known up to multiples of `2^16-1`; of
the two ways to write such a multiple, a sum that is not zero is never written as zero. -/
namespace Packetio.Lib
open List Nat

def ones (n : Nat) : Nat := if n=0 then 0 else (n-1)%65535+1

theorem ones_le (n : Nat) : ones n≤65535 := by
  rw [ones]
  split
  case isTrue | isFalse => omega

theorem ones_of_le {n : Nat} (h : n≤65535) : ones n=n := by
  rw [ones]
  split
  case isTrue h0 => exact h0.symm
  case isFalse h0 => omega

theorem ones_around {m n : Nat} (q : Nat) (h : m=n+q*65535) (h0 : n=0 → m=0) : ones m=ones n := by
  rw [ones,ones]
  split
  case isTrue hm => rw [if_pos (by omega)]
  rename_i hm
  have hn : n≠0 := fun hn => hm (h0 hn)
  have hsub : m-1=n-1+q*65535 := by omega
  rw [if_neg hn,hsub,add_mul_mod_self_right]

theorem ones_add_ones (m n : Nat) : ones (ones m+n)=ones (m+n) := by
  rcases Nat.eq_zero_or_pos m with h | h
  · rw [h]; rfl
  have hm : m=ones m+(m-1)/65535*65535 := by
    rw [ones,if_neg (by omega)]
    omega
  exact (ones_around ((m-1)/65535) (by omega) (by omega)).symm

theorem ones_add {a b c d : Nat} (h : ones a=ones b) (h' : ones c=ones d) :
    ones (a+c)=ones (b+d) := by
  rw [← ones_add_ones a c,h,ones_add_ones,add_comm b c,← ones_add_ones c b,h',
    ones_add_ones,add_comm d b]

theorem ones_mul (k : Nat) {a b : Nat} (h : ones a=ones b) : ones (k*a)=ones (k*b) := by
  induction k with
  | zero => rw [zero_mul,zero_mul]
  | succ k ih =>
    rw [succ_mul,succ_mul]
    exact ones_add ih h

/-! Bytes -/

def wordSum : List UInt8 → Nat
  | [] => 0
  | [a] => a.toNat*256
  | a::b::bytes => a.toNat*256+b.toNat+wordSum bytes

theorem halves_toNat (v : UInt16) : (v >>> 8).toUInt8.toNat*256+v.toUInt8.toNat=v.toNat := by
  have hv := v.toNat_lt
  have hhi : (v >>> 8).toUInt8.toNat=v.toNat/256 := by
    rw [UInt16.toNat_toUInt8,UInt16.toNat_shiftRight,shiftRight_eq_div_pow]
    exact mod_eq_of_lt (by change v.toNat/256<256; omega)
  rw [hhi,UInt16.toNat_toUInt8]
  omega

theorem wordSum_append {xs : List UInt8} (ys : List UInt8) (h : xs.length%2=0) :
    wordSum (xs++ys)=wordSum xs+wordSum ys := by
  induction xs using wordSum.induct with
  | case1 => rw [nil_append,wordSum,zero_add]
  | case2 a => simp at h
  | case3 a b xs ih =>
    have hlen : xs.length%2=0 := by
      rw [length_cons,length_cons] at h
      omega
    rw [cons_append,cons_append,wordSum,wordSum,ih hlen]
    omega

theorem wordSum_le (bytes : List UInt8) : 2*wordSum bytes≤65535*(bytes.length+1) := by
  induction bytes using wordSum.induct with
  | case1 => exact zero_le _
  | case2 a =>
    have ha := a.toNat_lt
    rw [wordSum,length_singleton]
    omega
  | case3 a b bytes ih =>
    have ha := a.toNat_lt
    have hb := b.toNat_lt
    rw [wordSum,length_cons,length_cons]
    omega

theorem ones_wordSum_cons (a : UInt8) (bytes : List UInt8) :
    ones (wordSum (a::bytes))=ones (256*(a.toNat+wordSum bytes)) := by
  induction bytes using wordSum.induct generalizing a with
  | case1 => rw [wordSum,wordSum,mul_comm,add_zero]
  | case2 b =>
    rw [wordSum,wordSum,wordSum]
    exact (ones_around b.toNat (by omega) (by omega)).symm
  | case3 b c bytes ih =>
    rw [wordSum,wordSum]
    have hc : ones (b.toNat+wordSum (c::bytes)) =
        ones (65536*b.toNat+256*(c.toNat+wordSum bytes)) :=
      ones_add (ones_around b.toNat (by omega) (by omega)).symm (ih c)
    have hsum := ones_add (rfl : ones (a.toNat*256)=ones (a.toNat*256)) hc
    rw [add_assoc,hsum]
    congr 1
    omega

def littleNat (bytes : List UInt8) : Nat := Nat.ofDigits 256 (bytes.map UInt8.toNat)

def bigNat (bytes : List UInt8) : Nat := littleNat bytes.reverse

theorem littleNat_cons (a : UInt8) (bytes : List UInt8) :
    littleNat (a::bytes)=a.toNat+256*littleNat bytes := by
  rw [littleNat,map_cons,ofDigits_cons,littleNat]

theorem littleNat_lt (bytes : List UInt8) : littleNat bytes<256^bytes.length := by
  rw [littleNat,← length_map UInt8.toNat]
  refine ofDigits_lt_base_pow_length (by decide) fun d hd => ?_
  obtain ⟨b,-,rfl⟩ := mem_map.mp hd
  exact b.toNat_lt

theorem bigNat_lt (bytes : List UInt8) : bigNat bytes<256^bytes.length := by
  have hlt := littleNat_lt bytes.reverse
  rwa [length_reverse] at hlt

theorem ones_littleNat {bytes : List UInt8} (h : bytes.length%2=0) :
    ones (littleNat bytes)=ones (256*wordSum bytes) := by
  induction bytes using wordSum.induct with
  | case1 => rfl
  | case2 a => simp at h
  | case3 a b bytes ih =>
    have hlen : bytes.length%2=0 := by
      rw [length_cons,length_cons] at h
      omega
    have hrest : ones (65536*littleNat bytes)=ones (256*wordSum bytes) := by
      rw [← ih hlen]
      exact ones_around (littleNat bytes) (by omega) (by omega)
    have hword : ones (a.toNat+256*b.toNat)=ones (65536*a.toNat+256*b.toNat) :=
      (ones_around a.toNat (by omega) (by omega)).symm
    have hsum := ones_add hword hrest
    rw [littleNat_cons,littleNat_cons,wordSum]
    convert hsum using 2 <;> omega

theorem ones_pow {n : Nat} (v : Nat) (h : n%2=0) : ones (256^n*v)=ones v := by
  induction n using Nat.twoStepInduction with
  | zero => rw [pow_zero,one_mul]
  | one => simp at h
  | more n ih _ =>
    have htwo : 256^(n+2)*v=65536*(256^n*v) := by ring
    rw [← ih (by omega),htwo]
    exact ones_around (256^n*v) (by omega) (by omega)

theorem ones_bigNat {bytes : List UInt8} (h : bytes.length%2=0) :
    ones (bigNat bytes)=ones (wordSum bytes) := by
  induction bytes using wordSum.induct with
  | case1 => rfl
  | case2 a => simp at h
  | case3 a b bytes ih =>
    have hlen : bytes.length%2=0 := by
      rw [length_cons,length_cons] at h
      omega
    have hsplit : bigNat (a::b::bytes) = 256^bytes.length*(a.toNat*256+b.toNat)+bigNat bytes := by
      rw [bigNat,bigNat,littleNat,littleNat,reverse_cons,reverse_cons,
        append_assoc,map_append,ofDigits_append,length_map,
        length_reverse]
      simp [ofDigits_cons]
      ring
    rw [hsplit,wordSum]
    exact ones_add (ones_pow _ hlen) (ih hlen)

def littleBytes : Nat → Nat → List UInt8
  | 0, _ => []
  | n+1, v => UInt8.ofNat v::littleBytes n (v/256)

theorem littleBytes_length (n v : Nat) : (littleBytes n v).length=n := by
  induction n generalizing v with
  | zero => rfl
  | succ n ih => rw [littleBytes,length_cons,ih]

theorem littleNat_littleBytes (n v : Nat) (h : v<256^n) : littleNat (littleBytes n v)=v := by
  induction n generalizing v with
  | zero =>
    rw [littleBytes,lt_one_iff.mp h]
    rfl
  | succ n ih =>
    have hrest : v/256<256^n := by exact Nat.div_lt_of_lt_mul (by omega)
    rw [littleBytes,littleNat_cons,ih _ hrest,UInt8.toNat_ofNat']
    omega

theorem ones_swap {n v : Nat} (h : v<256^n) (he : n%2=0) :
    ones (bigNat (littleBytes n v))=ones (256*v) := by
  have heven : (littleBytes n v).length%2=0 := by rwa [littleBytes_length]
  have hl := ones_littleNat heven
  rw [littleNat_littleBytes n v h] at hl
  rw [ones_bigNat heven,ones_mul 256 hl]
  exact (ones_around (wordSum (littleBytes n v)) (by omega) (by omega)).symm

end Packetio.Lib

import Packetio.Lib.Cyclic

/-! Little-endian fields: the bytes of a number, lowest first, and the number that
bytes make. -/
namespace Packetio.Lib
open Nat

def leByte (v i : Nat) : UInt8 := UInt8.ofNat (v/256^i)

/-- The number made by the first `n` bytes. -/
def leNat : Nat → (Nat → UInt8) → Nat
  | 0, _ => 0
  | n+1, f => (f 0).toNat+256*leNat n fun i => f (i+1)

theorem leNat_congr (n : Nat) (f g : Nat → UInt8) (h : ∀ i, i<n → f i=g i) :
    leNat n f=leNat n g := by
  induction n generalizing f g with
  | zero => rfl
  | succ n ih => rw [leNat,leNat,h 0 (by omega),ih _ _ fun i hi => h (i+1) (by omega)]

theorem leNat_leByte (n v : Nat) : leNat n (leByte v)=v%256^n := by
  induction n generalizing v with
  | zero => rw [leNat,pow_zero,mod_one]
  | succ n ih =>
    have hrest : (fun i => leByte v (i+1))=leByte (v/256) := by
      funext i
      rw [leByte,leByte,Nat.pow_succ',Nat.div_div_eq_div_mul]
    have hlow : (leByte v 0).toNat=v%256 := by
      rw [leByte,pow_zero,Nat.div_one,UInt8.toNat_ofNat']
    rw [leNat,hrest,ih,hlow,Nat.pow_succ',Nat.mod_mul]

theorem leByte_add (v i j : Nat) : leByte v (i+j)=leByte (v/256^i) j := by
  rw [leByte,leByte,pow_add,Nat.div_div_eq_div_mul]

theorem leNat_blit_part (mem : Nat → UInt8) {pos n v at' k : Nat} (hlo : pos≤at')
    (hhi : at'+k≤pos+n) :
    leNat k (fun i => blit mem pos n (leByte v) (at'+i))=v/256^(at'-pos)%256^k := by
  rw [← leNat_leByte]
  refine leNat_congr k _ _ fun i hi => ?_
  rw [blit_inside _ _ _ _ _ (by omega) (by omega),Nat.sub_add_comm hlo,leByte_add]

theorem leNat_mod {n k : Nat} (f : Nat → UInt8) (h : k≤n) : leNat k f=leNat n f%256^k := by
  induction k generalizing n f with
  | zero => rw [leNat,pow_zero,mod_one]
  | succ k ih =>
    obtain ⟨n, rfl⟩ : ∃ m, n=m+1 := ⟨n-1, by omega⟩
    have hb := (f 0).toNat_lt
    rw [leNat,leNat,ih (fun i => f (i+1)) (le_of_succ_le_succ h),pow_succ',
      mod_mul,add_mul_mod_self_left,add_mul_div_left _ _ (by decide),
      mod_eq_of_lt hb,div_eq_of_lt hb,zero_add]

theorem leNat_part {n j k : Nat} (f : Nat → UInt8) (h : j+k≤n) :
    leNat k (fun i => f (j+i))=leNat n f/256^j%256^k := by
  induction j generalizing n f with
  | zero =>
    rw [pow_zero,Nat.div_one,← leNat_mod f (zero_add k ▸ h)]
    exact leNat_congr k _ _ fun i _ => by rw [zero_add]
  | succ j ih =>
    obtain ⟨n, rfl⟩ : ∃ m, n=m+1 := ⟨n-1, by omega⟩
    have hrest := ih (fun i => f (i+1)) (n := n) (by omega)
    rw [leNat,Nat.pow_succ',← Nat.div_div_eq_div_mul,Nat.add_mul_div_left _ _ (by decide),
      div_eq_of_lt (f 0).toNat_lt,zero_add,← hrest]
    exact leNat_congr k _ _ fun i _ => by rw [add_right_comm]

theorem leNat_blit (mem : Nat → UInt8) (pos n v : Nat) :
    leNat n (fun i => blit mem pos n (leByte v) (pos+i))=v%256^n := by
  rw [← leNat_leByte]
  refine leNat_congr n _ _ fun i hi => ?_
  rw [blit_inside _ _ _ _ _ (by omega) (by omega),Nat.add_sub_cancel_left]

end Packetio.Lib

import Packetio.Lib.Counter
import Mathlib.Tactic.Ring

/-! Cyclic memory and the big-endian fields laid out in it. A buffer of `size`
cells is a function on cell numbers; a reader that starts at `base` and follows
the wrap sees `window size mem base`. Writes are stated in window coordinates,
so that an object written across the end of the buffer reads like any other. -/
namespace Packetio.Lib
open Nat
variable {α : Type*}

/-- Overwrite the `n` cells from `start` with `src 0`, `src 1`, and so on. -/
def blit (mem : Nat → α) (start n : Nat) (src : Nat → α) : Nat → α :=
  fun j => if start≤j ∧ j<start+n then src (j-start) else mem j

/-- `blit` at a cell of a buffer of `size`, continuing at its start. What would
run over the second copy as well is cut off there. -/
def wrapBlit (size : Nat) (mem : Nat → α) (start n : Nat) (src : Nat → α) : Nat → α :=
  let k := min (size-start) n
  if k<n then blit (blit mem start k src) 0 (min size (n-k)) (fun i => src (k+i))
  else blit mem start k src

def window (size : Nat) (mem : Nat → α) (base : Nat) : Nat → α :=
  fun a => mem ((base+a)%size)

theorem blit_inside (mem src : Nat → α) (start n j : Nat) (h : start≤j) (h' : j<start+n) :
    blit mem start n src j=src (j-start) := if_pos ⟨h,h'⟩

theorem blit_outside (mem src : Nat → α) (start n j : Nat) (h : j<start ∨ start+n≤j) :
    blit mem start n src j=mem j := if_neg (by omega)

theorem blit_congr {mem mem' src src' : Nat → α} {start n j : Nat}
    (hm : mem j=mem' j) (hs : ∀ i, i<n → src i=src' i) :
    blit mem start n src j=blit mem' start n src' j := by
  by_cases h : start≤j ∧ j<start+n
  · rw [blit_inside _ _ _ _ _ h.1 h.2,blit_inside _ _ _ _ _ h.1 h.2,hs _ (by omega)]
  · rw [blit_outside _ _ _ _ _ (by omega),blit_outside _ _ _ _ _ (by omega),hm]

section
variable (size base c n a : Nat) (mem src : Nat → α)

theorem window_blit (hfit : (base+c)%size+n ≤ size) (hc : c+n ≤ size) (ha : a<size) :
    window size (blit mem ((base+c)%size) n src) base a =
      blit (window size mem base) c n src a := by
  unfold window
  by_cases h : c≤a ∧ a<c+n
  · have he : (base+a)%size=(base+c)%size+(a-c) := by
      have hs : base+a=base+c+(a-c) := by omega
      rw [hs,add_mod,mod_eq_of_lt (by omega : a-c<size),mod_eq_of_lt (by omega)]
    rw [blit_inside _ _ _ _ _ h.1 h.2,he,blit_inside _ _ _ _ _ (by omega) (by omega)]
    congr 1
    omega
  rw [blit_outside (fun a => mem ((base+a)%size)) _ _ _ _ (by omega)]
  apply blit_outside
  by_contra hin
  obtain ⟨i,hi⟩ : ∃ i, (base+a)%size=(base+c)%size+i := ⟨(base+a)%size-(base+c)%size, by omega⟩
  have hm : (base+a)%size=(base+(c+i))%size := by
    have hlt : (base+c)%size+i<size := by omega
    rw [← add_assoc base c i,add_mod (base+c) i,
      mod_eq_of_lt (by omega : i<size),mod_eq_of_lt hlt,hi]
  have := mod_inj_of_window size base (base+a) (base+(c+i)) (by omega) (by omega)
    (by omega) (by omega) hm
  omega

theorem window_wrapBlit (hc : c+n ≤ size) (ha : a<size) :
    window size (wrapBlit size mem ((base+c)%size) n src) base a =
      blit (window size mem base) c n src a := by
  have hlt : (base+c)%size<size := mod_lt _ (by omega)
  by_cases hw : (base+c)%size+n ≤ size
  · have hk : min (size-(base+c)%size) n=n := by omega
    simp only [wrapBlit,hk,lt_irrefl,if_false]
    exact window_blit size base c n a mem src hw hc ha
  -- the object ends past the last cell: its tail is the second copy, at cell 0
  obtain ⟨k,hk⟩ : ∃ k, size-(base+c)%size=k := ⟨_,rfl⟩
  have hmin : min (size-(base+c)%size) n=k := by omega
  have hcap : min size (n-k)=n-k := by omega
  have hzero : (base+(c+k))%size=0 := by
    have hs : base+(c+k)=base+c+k := by omega
    rw [hs,add_mod,mod_eq_of_lt (by omega : k<size)]
    have he : (base+c)%size+k=size := by omega
    rw [he,mod_self]
  have hif : k<n := by omega
  simp only [wrapBlit,hmin,hif,if_true,hcap]
  have h2 := window_blit size base (c+k) (n-k) a (blit mem ((base+c)%size) k src)
    (fun i => src (k+i)) (by rw [hzero]; omega) (by omega) ha
  rw [hzero] at h2
  rw [h2]
  by_cases hin : c+k≤a ∧ a<c+k+(n-k)
  · rw [blit_inside _ _ _ _ _ hin.1 hin.2,blit_inside _ _ _ _ _ (by omega) (by omega)]
    congr 1
    omega
  rw [blit_outside _ _ _ _ _ (by omega)]
  rw [window_blit size base c k a mem src (by omega) (by omega) ha]
  by_cases hfirst : c≤a ∧ a<c+k
  · rw [blit_inside _ _ _ _ _ hfirst.1 hfirst.2,blit_inside _ _ _ _ _ (by omega) (by omega)]
  · rw [blit_outside _ _ _ _ _ (by omega),blit_outside _ _ _ _ _ (by omega)]

end

theorem window_frame (size base n p : Nat) (mem mem' : Nat → α)
    (hframe : ∀ a, n≤a → a<size → window size mem' base a=window size mem base a)
    (hp : p<base) (hlap : base+n≤p+size) : mem' (p%size)=mem (p%size) := by
  have h := hframe (p+size-base) (by omega) (by omega)
  unfold window at h
  have he : base+(p+size-base)=p+size := by omega
  rwa [he,add_mod_right] at h

/-- Byte `i` of the `n`-byte big-endian form of `v`. -/
def beByte (n v i : Nat) : UInt8 := UInt8.ofNat (v/256^(n-1-i))

/-- The number a big-endian reader makes of `n` bytes. -/
def beNat : Nat → (Nat → UInt8) → Nat
  | 0, _ => 0
  | n+1, f => 256*beNat n f+(f n).toNat

theorem beNat_congr (n : Nat) (f g : Nat → UInt8) (h : ∀ i, i<n → f i=g i) :
    beNat n f=beNat n g := by
  induction n with
  | zero => rfl
  | succ n ih => rw [beNat,beNat,ih (fun i hi => h i (by omega)),h n (by omega)]

theorem beNat_leading (n k v : Nat) (hk : k≤n) : beNat k (beByte n v)=v/256^(n-k)%256^k := by
  induction k with
  | zero => simp [beNat,mod_one]
  | succ k ih =>
    have hs : n-k=(n-(k+1))+1 := by omega
    have hb : n-1-k=n-(k+1) := by omega
    rw [beNat,ih (by omega),hs,pow_succ,← Nat.div_div_eq_div_mul]
    simp only [beByte,UInt8.toNat_ofNat',hb]
    have hp : 256^(k+1)=256*256^k := by ring
    rw [hp,mod_mul]
    omega

theorem beNat_beByte (n v : Nat) : beNat n (beByte n v)=v%256^n := by
  simpa using beNat_leading n n v (le_refl n)

def beList (bs : List UInt8) : Nat := bs.foldl (fun acc b => 256*acc+b.toNat) 0

theorem beList_range (n : Nat) (f : Nat → UInt8) : beList ((List.range n).map f)=beNat n f := by
  induction n with
  | zero => rfl
  | succ n ih =>
    unfold beList at ih ⊢
    rw [List.range_succ,List.map_append,List.foldl_append,ih]
    rfl

end Packetio.Lib

import Packetio.Mlx5.Wqe

/-! How large work queue entries are, and how many packets fit one. -/
namespace Packetio.Mlx5
open Lib UInt32 List

theorem toNat_ethSegOctowords (n : UInt32) (h : n.toNat+29<2^32) :
    (ethSegOctowords n).toNat=(n.toNat+29)/16 := by
  simp only [ethSegOctowords,ethSegHeaderSize,octoword,UInt32.toNat_div,UInt32.toNat_sub,
    UInt32.toNat_add,UInt32.reduceToNat]
  omega

theorem toNat_mpwPacketOctowords (n : UInt32) (h : n.toNat+19<2^32) :
    (mpwPacketOctowords n).toNat=(n.toNat+19)/16 := by
  simp only [mpwPacketOctowords,octoword,UInt32.toNat_div,UInt32.toNat_sub,
    UInt32.toNat_add,UInt32.reduceToNat]
  omega

theorem toNat_blocksFor (ds : UInt32) (h : ds.toNat<2^20) :
    (blocksFor ds).toNat=(ds.toNat+3)/4 := by
  simp only [blocksFor,wqebb,octoword,UInt32.toNat_div,UInt32.toNat_sub,UInt32.toNat_add,
    UInt32.toNat_mul,UInt32.reduceToNat]
  omega

/-- The octowords of an ordinary entry for a packet of `len` bytes. -/
def Sender.octowords (s : Sender) (len : Nat) : Nat :=
  1+(min len s.inlineLen.toNat+29)/16+(if s.inlineLen.toNat<len then 1 else 0)

section
variable (s : Sender)

theorem Sender.toNat_inlined (n : UInt32) : (s.inlined n).toNat=min n.toNat s.inlineLen.toNat := by
  rw [Sender.inlined]
  split_ifs with h
  · rw [gt_iff_lt,lt_iff_toNat_lt] at h
    omega
  · rw [gt_iff_lt,lt_iff_toNat_lt] at h
    omega

theorem Sender.rest_pos (n : UInt32) : n-s.inlined n > 0 ↔ s.inlineLen.toNat<n.toNat := by
  have hi := s.toNat_inlined n
  have hle : s.inlined n≤n := by
    rw [UInt32.le_iff_toNat_le,hi]
    omega
  rw [gt_iff_lt,UInt32.lt_iff_toNat_lt,UInt32.toNat_sub_of_le _ _ hle,hi]
  change 0 < _ ↔ _
  omega

theorem Sender.toNat_ds (hs : s.inlineLen.toNat≤914) (n : UInt32) :
    (s.ds n).toNat=s.octowords n.toNat := by
  have hi := s.toNat_inlined n
  have he := toNat_ethSegOctowords (s.inlined n) (by omega)
  rw [Sender.ds,Sender.octowords]
  simp only [s.rest_pos n]
  split_ifs with h
  · rw [UInt32.toNat_add,UInt32.toNat_add,he,hi]
    change (((1+_)%2^32)+1)%2^32=_
    omega
  · rw [UInt32.toNat_add,he,hi]
    change (1+_)%2^32=_
    omega

theorem Sender.octowords_le (len : Nat) : s.octowords len≤2+(s.inlineLen.toNat+29)/16 := by
  rw [Sender.octowords]
  split_ifs <;> omega

theorem Sender.toNat_put_bbs (hs : s.inlineLen.toNat≤914) (buf : Nat → UInt8)
    (idx : UInt16) (frame : Slice) (hf : frame.len<2^32) (addr : UInt64) (signaled : Bool) :
    (s.put buf idx frame addr signaled).bbs.toNat=(s.octowords frame.len+3)/4 := by
  have hds := s.toNat_ds hs (ofNat frame.len)
  have hle := s.octowords_le frame.len
  rw [toNat_small _ hf] at hds
  change (blocksFor (s.ds (ofNat frame.len))).toNat=_
  rw [toNat_blocksFor _ (by omega),hds]

end

theorem mpwPacketOctowords_lt (n : UInt32) : (mpwPacketOctowords n).toNat<2^28 := by
  simp only [mpwPacketOctowords,octoword,UInt32.toNat_div,UInt32.reduceToNat]
  exact Nat.div_lt_of_lt_mul (toNat_lt _)

section
variable (maxLen : Int) (ds : UInt32) (fs : List Slice)

theorem fitsFrom_le_length : fitsFrom maxLen ds fs≤fs.length := by
  induction fs generalizing ds with
  | nil => simp [fitsFrom]
  | cons f fs ih =>
    simp only [fitsFrom]
    split_ifs
    · simp
    · have := ih (ds+mpwPacketOctowords (ofNat f.len))
      simp only [length_cons]
      omega

theorem fitsFrom_take :
    fitsFrom maxLen ds (fs.take (fitsFrom maxLen ds fs))=fitsFrom maxLen ds fs := by
  induction fs generalizing ds with
  | nil => simp [fitsFrom]
  | cons f fs ih =>
    simp only [fitsFrom]
    split_ifs with h
    · simp [fitsFrom]
    · rw [add_comm 1,take_succ_cons]
      simp only [fitsFrom,if_neg h,ih]
      omega

end

theorem fitsFrom_eq_length {maxLen : Int} {ds : UInt32} {fs : List Slice}
    (h : fitsFrom maxLen ds fs=fs.length) (hds : ds.toNat≤60) :
    (∀ f∈fs, 0<f.len ∧ (f.len : Int) ≤ maxLen) ∧
    ds.toNat≤(fs.foldl (fun ds f => ds+mpwPacketOctowords (UInt32.ofNat f.len)) ds).toNat ∧
    (fs.foldl (fun ds f => ds+mpwPacketOctowords (UInt32.ofNat f.len)) ds).toNat≤60 := by
  induction fs generalizing ds with
  | nil => simpa using hds
  | cons f fs ih =>
    simp only [fitsFrom,length_cons] at h
    split_ifs at h with hno
    rw [not_or,not_or,not_lt,gt_iff_lt,lt_iff_toNat_lt] at hno
    obtain ⟨h0,hmax,hroom⟩ := hno
    have hsum : (ds+mpwPacketOctowords (ofNat f.len)).toNat =
        ds.toNat+(mpwPacketOctowords (ofNat f.len)).toNat := by
      have := mpwPacketOctowords_lt (ofNat f.len)
      rw [UInt32.toNat_add]
      omega
    obtain ⟨hall,hlo,hhi⟩ := ih (by omega) (not_lt.mp hroom)
    rw [foldl_cons]
    refine ⟨?_,by omega,hhi⟩
    intro g hg
    cases hg with
    | head => exact ⟨pos_of_ne_zero h0,hmax⟩
    | tail _ hg => exact hall g hg

def packetOctowords (f : Slice) : Nat := (f.len+19)/16

theorem toNat_foldl_octowords {maxLen : Int} {ds : UInt32} {fs : List Slice}
    (h : fitsFrom maxLen ds fs=fs.length) (hds : ds.toNat≤60) (hlen : ∀ f∈fs, f.len+19<2^32) :
    (fs.foldl (fun ds f => ds+mpwPacketOctowords (UInt32.ofNat f.len)) ds).toNat =
      ds.toNat+(fs.map packetOctowords).sum := by
  induction fs generalizing ds with
  | nil => simp
  | cons f fs ih =>
    simp only [fitsFrom,length_cons] at h
    split_ifs at h with hno
    rw [not_or,not_or,gt_iff_lt,gt_iff_lt,lt_iff_toNat_lt] at hno
    have hf := hlen f (by simp)
    have hl : (ofNat f.len).toNat=f.len := toNat_small _ (by omega)
    have hsum : (ds+mpwPacketOctowords (ofNat f.len)).toNat=ds.toNat+packetOctowords f := by
      rw [UInt32.toNat_add,toNat_mpwPacketOctowords _ (by omega),hl,packetOctowords]
      omega
    rw [foldl_cons,ih (by omega) (not_lt.mp hno.2.2) fun g hg => hlen g (by simp [hg]),hsum,
      map_cons,sum_cons,add_assoc]

theorem leadingNonEmpty_le_length (fs : List Slice) : leadingNonEmpty fs≤fs.length := by
  induction fs with
  | nil => exact le_refl _
  | cons f fs ih =>
    rw [leadingNonEmpty,length_cons]
    split <;> omega

theorem leadingNonEmpty_of_pos {fs : List Slice} (h : ∀ f∈fs, 0<f.len) :
    leadingNonEmpty fs=fs.length := by
  induction fs with
  | nil => rfl
  | cons f fs ih =>
    have hf := h f (by simp)
    rw [leadingNonEmpty,if_neg (by omega),ih fun g hg => h g (by simp [hg])]
    simp [add_comm]

end Packetio.Mlx5

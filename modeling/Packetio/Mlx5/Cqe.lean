import Packetio.Lib.Cyclic
import Packetio.Lib.Ring

/-! Completion queue entries (cqe.go). The buffer is kept entry by entry, cell `i`
holding the bytes from `64*i` on. -/
namespace Packetio.Mlx5
open Lib UInt32

def cqeSize : Nat := 64

def cqeReq : UInt8 := 0
def cqeRespSend : UInt8 := 2
def cqeReqErr : UInt8 := 13
def cqeRespErr : UInt8 := 14
def cqeInvalid : UInt8 := 15
def cqeFormatNoData : UInt8 := 0
def cqeL3OK : UInt8 := (1 : UInt8) <<< 1
def cqeL4OK : UInt8 := (1 : UInt8) <<< 2

abbrev CQE := Nat → UInt8

def header (e : CQE) : UInt32 := UInt32.ofNat (beNat 4 fun i => e (60+i))

def owner (header : UInt32) : UInt32 := header &&& 1
def format (header : UInt32) : UInt8 := (header >>> 2).toUInt8 &&& 3
def opcode (header : UInt32) : UInt8 := (header >>> 4).toUInt8 &&& 0xf
def wqeCounter (header : UInt32) : UInt16 := (header >>> 16).toUInt16
def byteCount (e : CQE) : UInt32 := UInt32.ofNat (beNat 4 fun i => e (44+i))
def checksumFlags (e : CQE) : UInt8 := e 28
def timestamp (e : CQE) : UInt64 := UInt64.ofNat (beNat 8 fun i => e (48+i))

structure ErrorInfo where
  syndrome : UInt8
  vendorSyndrome : UInt8
  qpn : UInt32
  wqeCounter : UInt16
  deriving DecidableEq, Repr

def errorInfo (e : CQE) : ErrorInfo where
  syndrome := e 55
  vendorSyndrome := e 54
  qpn := UInt32.ofNat (beNat 4 fun i => e (56+i)) &&& 0xffffff
  wqeCounter := UInt16.ofNat (beNat 2 fun i => e (60+i))

structure CQ where
  buf : Nat → CQE
  entries : UInt32
  mask : UInt32
  log2 : UInt32

def trailingZeros32 (n : UInt32) : UInt32 :=
  UInt32.ofNat (((List.range 32).find? fun i => n.toNat.testBit i).getD 32)

def newCQ (len : Nat) (buf : Nat → CQE) (size : Nat) : Except String CQ :=
  if size≠cqeSize then .error s!"wqe: completion queue entry size {size}, want {cqeSize}"
  else if len%cqeSize≠0 ∨ len=0 then
    .error (s!"wqe: completion queue buffer of {len} bytes is not a whole number of "++
      s!"{cqeSize}-byte entries")
  else
    let n := UInt32.ofNat (len/cqeSize)
    if n &&& (n-1)≠0 then .error s!"wqe: completion queue of {n} entries is not a power of two"
    else .ok ⟨buf,n,n-1,trailingZeros32 n⟩

def CQ.entry (c : CQ) (ci : UInt32) : CQE :=
  c.buf (((ci &&& c.mask)*UInt32.ofNat cqeSize).toNat/cqeSize)

def CQ.header (c : CQ) (ci : UInt32) : UInt32 := Mlx5.header (c.entry ci)

def CQ.expectedOwner (c : CQ) (ci : UInt32) : UInt32 :=
  if c.log2<32 then (ci >>> c.log2) &&& 1 else 0

def CQ.owned (c : CQ) (ci header : UInt32) : Bool :=
  owner header == c.expectedOwner ci && opcode header != cqeInvalid

structure CQ.Sized (c : CQ) (k : Nat) : Prop where
  lt : k<26
  entries : c.entries.toNat=2^k
  mask : c.mask.toNat=2^k-1
  log2 : c.log2.toNat=k

theorem trailingZeros32_two_pow :
    ∀ k, k<32 → (trailingZeros32 (UInt32.ofNat (2^k))).toNat=k := by decide

theorem pow_of_and_pred (n : UInt32) (h0 : n≠0) (h : n &&& (n-1)=0) :
    ∃ k, k<32 ∧ n.toNat=2^k ∧ (n-1).toNat=2^k-1 := by
  have hn : n.toNat≠0 := fun he => h0 (UInt32.toNat_inj.mp he)
  have hlt := n.toNat_lt
  have h1 : (n-1).toNat=n.toNat-1 := by
    rw [UInt32.toNat_sub_of_le]
    · rfl
    · change 1≤n.toNat
      omega
  have ha := congrArg UInt32.toNat h
  rw [UInt32.toNat_and,h1] at ha
  obtain ⟨k,hk⟩ := (Nat.and_sub_one_eq_zero_iff_isPowerOfTwo hn).mp ha
  refine ⟨k,?_,hk,by rw [h1,hk]⟩
  rw [hk] at hlt
  exact (Nat.pow_lt_pow_iff_right (by decide)).mp hlt

theorem newCQ_buf {len size : Nat} {buf : Nat → CQE} {c : CQ} (h : newCQ len buf size = .ok c) :
    c.buf=buf := by
  simp only [newCQ] at h
  split_ifs at h
  injection h with h
  rw [← h]

theorem newCQ_sized {len size : Nat} {buf : Nat → CQE} {c : CQ}
    (h : newCQ len buf size = .ok c) (hlt : len<2^32) : ∃ k, c.Sized k := by
  simp only [newCQ] at h
  split_ifs at h with hsize hlen hand
  cases h
  rw [cqeSize] at hlen
  have hval : (ofNat (len/cqeSize)).toNat=len/64 := toNat_small _ (by rw [cqeSize]; omega)
  have hne : ofNat (len/cqeSize)≠0 := by
    rw [← UInt32.toNat_inj.ne,hval]
    change _≠0
    omega
  obtain ⟨k,hk,hn,hm⟩ := pow_of_and_pred _ hne (not_not.mp hand)
  have hk26 : 2^k<2^26 := by omega
  refine ⟨k,(Nat.pow_lt_pow_iff_right (by decide)).mp hk26,hn,hm,?_⟩
  have he : UInt32.ofNat (len/cqeSize)=UInt32.ofNat (2^k) := by rw [← hn,UInt32.ofNat_toNat]
  simp only [he]
  exact trailingZeros32_two_pow k hk

theorem CQ.Sized.over {c : CQ} {k : Nat} (h : c.Sized k) (buf : Nat → CQE) :
    ({ c with buf := buf } : CQ).Sized k := { h with }

section
variable {c : CQ} {k : Nat} (h : c.Sized k)
include h

theorem CQ.Sized.entry_ofNat (j : Nat) : c.entry (UInt32.ofNat j)=c.buf (j%2^k) := by
  have hk := h.lt
  have hlt : j%2^k<2^26 :=
    (Nat.mod_lt j (Nat.two_pow_pos k)).trans (Nat.pow_lt_pow_right (by decide) hk)
  rw [CQ.entry,UInt32.toNat_mul,ofNat_and_mask j k c.mask (by omega) h.mask]
  congr 1
  change j%2^k*64%2^32/64=_
  omega

theorem CQ.Sized.expectedOwner_ofNat (j : Nat) :
    (c.expectedOwner (UInt32.ofNat j)).toNat=j/2^k%2 := by
  have hlt : c.log2<32 := by
    rw [lt_iff_toNat_lt,h.log2]
    exact h.lt.trans (by decide)
  rw [CQ.expectedOwner,if_pos hlt,ofNat_lap_parity j k c.log2 (h.lt.trans (by decide)) h.log2]

theorem CQ.Sized.owned_iff (j : Nat) : c.owned (UInt32.ofNat j) (c.header (UInt32.ofNat j))=true ↔
      Ready (2^k) (fun e : CQE => opcode (Mlx5.header e)≠cqeInvalid)
        (fun e => (owner (Mlx5.header e)).toNat) j (c.buf (j%2^k)) := by
  rw [Ready,← h.expectedOwner_ofNat j,← h.entry_ofNat j]
  simp only [CQ.owned,CQ.header,Bool.and_eq_true,beq_iff_eq,bne_iff_ne,UInt32.toNat_inj]
  exact and_comm

end

abbrev CQ.Holds (c : CQ) (k rd wr : Nat) (items : List CQE) : Prop :=
  LapRing (2^k) (fun e : CQE => opcode (Mlx5.header e)≠cqeInvalid)
    (fun e => (owner (Mlx5.header e)).toNat) c.buf rd wr items

theorem CQ.Holds.next {c : CQ} {k rd wr : Nat} {x : CQE} {xs : List CQE} (hs : c.Sized k)
    (h : c.Holds k rd wr (x::xs)) :
    c.entry (UInt32.ofNat rd)=x ∧ c.owned (UInt32.ofNat rd) (c.header (UInt32.ofNat rd))=true := by
  have hcell := h.cell 0 (by simp)
  have hready := h.ready 0 (by simp)
  simp only [add_zero,List.getElem_cons_zero] at hcell hready
  refine ⟨(hs.entry_ofNat rd).trans hcell,(hs.owned_iff rd).mpr ?_⟩
  rwa [hcell]

theorem CQ.Holds.stop {c : CQ} {k rd wr : Nat} (hs : c.Sized k) (h : c.Holds k rd wr []) :
    c.owned (UInt32.ofNat rd) (c.header (UInt32.ofNat rd))=false := by
  have hstop := LapRing.stop h (Nat.two_pow_pos k)
  rwa [← Bool.not_eq_true,hs.owned_iff rd]

end Packetio.Mlx5

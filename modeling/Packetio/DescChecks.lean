import Packetio.Afpacket.TxPackets
import Packetio.Afxdp.TxQueue
import Packetio.Dpdk.QueueMbufs
import Packetio.Mlx5.Ring.TxTurn

/-! Which descriptors each backend will send: each checks them in its own way, and all mean the
same. -/
namespace Packetio

theorem Afxdp.TxQueue.descOK_iff {q : TxQueue} {k total : Nat} (hsize : q.frameSize.toNat=2^k)
    (hlen : q.regionLen.toNat=total) (hwhole : 2^k ∣ total) (d : Desc) :
    q.descOK d=true ↔ InFrame (2^k) total 0 d.addr.toNat d.len.toNat := by
  have hpos := Nat.two_pow_pos k
  have hmod := Nat.mod_lt d.addr.toNat hpos
  have hne : q.frameSize≠0 := fun h => by
    rw [h] at hsize
    exact hpos.ne hsize
  have hle : d.addr%q.frameSize≤q.frameSize := by
    rw [UInt64.le_iff_toNat_le,UInt64.toNat_mod,hsize]
    omega
  rw [descOK,if_neg hne,Bool.and_eq_true,decide_eq_true_iff,decide_eq_true_iff,pred_lt_iff,
    UInt64.lt_iff_toNat_lt,hlen,UInt64.toNat_sub_of_le _ _ hle,UInt64.toNat_mod,hsize,
    inFrame_iff hpos hwhole,and_iff_right (Nat.zero_le _)]

section
variable {k n : Nat} (hk : k<63) {m : Mlx5.Ring.TxFixed} (hm : m.frameMask.toNat=2^k-1)
  (hml : m.region.len=n*2^k) {q : Afxdp.TxQueue} (hq : q.frameSize.toNat=2^k)
  (hql : q.regionLen.toNat=n*2^k) {r : Afpacket.FrameMemory} (hr : r.Made k) (hrl : r.b.len=n*2^k)
  {b : Dpdk.Fixed} (hb : b.frameMask.toNat=2^k-1) (hbl : b.regionLen.toNat=n*2^k)

include hk hm hml hq hql hr hrl hb hbl in
/-- On a region of `n` frames the four checks accept what lies in one frame; DPDK's, behind its
mbuf. -/
theorem descOK_agree (d : Desc) :
    (m.descOK d=true ↔ InFrame (2^k) (n*2^k) 0 d.addr.toNat d.len.toNat) ∧
    (q.descOK d=true ↔ InFrame (2^k) (n*2^k) 0 d.addr.toNat d.len.toNat) ∧
    (∃ w, r.writable d=some w ∧
      (Afpacket.outside w d=false ↔ InFrame (2^k) (n*2^k) 0 d.addr.toNat d.len.toNat)) ∧
    (b.descOK d=true ↔ InFrame (2^k) (n*2^k) b.bufStart.toNat d.addr.toNat d.len.toNat) := by
  have hwhole : 2^k ∣ n*2^k := Nat.dvd_mul_left _ _
  refine ⟨?_,Afxdp.TxQueue.descOK_iff hq hql hwhole d,?_,?_⟩
  · rw [Mlx5.Ring.TxFixed.descOK_iff (by omega) hm (hml ▸ hwhole),hml]
  · obtain ⟨w,hw,hin⟩ := Afpacket.writable_spec hr d
    refine ⟨w,hw,hin.trans ?_⟩
    rw [Afpacket.FrameMemory.InFrame,hr.size,hrl]
    rfl
  · rw [Dpdk.Fixed.descOK_iff (by omega) hb,hbl,inFrame_iff (Nat.two_pow_pos k) hwhole]

end

theorem descOK_agree_second : InFrame (2^6) (2*2^6) 0 64 64 :=
  (descOK_agree (k := 6) (n := 2) (by decide)
    (m := ⟨⟨⟨64,63,1⟩,0,0,0,0,1,1⟩,none,⟨fun _ => 0,128,by decide⟩,0,63,64,1,0,1,1,0,1⟩) rfl rfl
    (q := ⟨[],0,128,64⟩) rfl rfl
    (r := ⟨⟨fun _ => 0,128,by decide⟩,64,63⟩) ⟨rfl,by decide,rfl,by decide⟩ rfl
    (b := ⟨⟨64,0,0,0⟩,0,0,0,2,1,128,63,0,0⟩) rfl rfl ⟨64,64,0⟩).1.mp (by decide)

end Packetio

import Packetio.Mlx5.WqeSize
import Packetio.Mlx5.Ring.TxLedger

/-! What NewTx establishes once and every later step relies on: the shapes of the
queue, of the slot ring and of the frame memory, and the limits of the senders. -/
namespace Packetio.Mlx5.Ring
open Lib Nat

theorem bind_ok {ε α β : Type} {x : Except ε α} {g : α → Except ε β} {b : β}
    (h : (x >>= g) = .ok b) : ∃ a, x = .ok a ∧ g a = .ok b := by
  cases x with
  | error e => cases h
  | ok a => exact ⟨a,rfl,h⟩

variable {cfg : TxConfig} {t : Tx} {sq : SQ} {csFlags : UInt8} {lkey qpn : UInt32}

theorem newTx_ok (h : newTx cfg = .ok t) :
    ∃ sq sender, newSQ cfg.sqLen = .ok sq ∧ newCQ cfg.cqLen cfg.cq cqeSize = .ok t.cq ∧
      newSender sq cfg.qpn cfg.lkey cfg.inlineLen cfg.csFlags = .ok sender ∧
      newMPW cfg sq = .ok t.mpw ∧ sq.bbs≤t.cq.entries ∧ 0<cfg.frameSize ∧
      onesCount 64 (UInt64.ofInt cfg.frameSize).toNat=1 ∧
      (cfg.region.len : Int)%cfg.frameSize=0 ∧
      ∃ sqDbrec cqDbrec, t =
        { sender := sender, mpw := t.mpw, region := cfg.region, regionVA := cfg.regionVA
          frameMask := UInt64.ofInt cfg.frameSize-1, sqLen := cfg.sqLen, bbs := sq.bbs
          bbMask := sq.bbs-1, maxBBs := sender.maxBBs
          numSlots := nextPow2 (sq.bbs*slotsPerBlock cfg.multiPacket)
          slotMask := nextPow2 (sq.bbs*slotsPerBlock cfg.multiPacket)-1
          signalEvery := UInt32.ofInt cfg.signalEvery, cq := t.cq
          sqDbrec := sqDbrec, cqDbrec := cqDbrec, sqBytes := cfg.sq } := by
  obtain ⟨sq,hsq,h⟩ := bind_ok h
  obtain ⟨cq,hcq,h⟩ := bind_ok h
  obtain ⟨sender,hs,h⟩ := bind_ok h
  split at h
  · by_cases hlt : cq.entries<sq.bbs
    · rw [if_pos hlt] at h
      cases h
    rw [if_neg hlt] at h
    obtain ⟨mpw,hm,h⟩ := bind_ok h
    simp only at h
    split_ifs at h with h1 h2 h3
    cases h
    rw [not_or,not_le,not_not] at h2
    exact ⟨sq,sender,hsq,hcq,hs,hm,UInt32.not_lt.mp hlt,h2.1,h2.2,not_not.mp h3,_,_,rfl⟩
  · cases h

theorem onesCount_eq_one {w n : Nat} (hn : n<2^w) (h : onesCount w n=1) : ∃ m<w, n=2^m := by
  rw [onesCount,List.countP_eq_length_filter,List.length_eq_one_iff] at h
  obtain ⟨m,hm⟩ := h
  have hbit : ∀ i, (i<w ∧ n.testBit i=true) ↔ i=m := by
    intro i
    have hi : i∈(List.range w).filter (fun i => n.testBit i) ↔ i ∈ [m] := by rw [hm]
    simpa using hi
  refine ⟨m,((hbit m).mpr rfl).1,eq_of_testBit_eq fun i => ?_⟩
  rw [testBit_two_pow]
  by_cases hi : m=i
  · simpa [hi] using ((hbit i).mpr hi.symm).2
  by_cases hw : i<w
  · have hne := mt (hbit i).mp (Ne.symm hi)
    simp only [hw,true_and,Bool.not_eq_true] at hne
    simp [hi,hne]
  have hpow := Nat.pow_le_pow_right (show 0<2 by decide) (not_lt.mp hw)
  rw [testBit_lt_two_pow (by omega)]
  simp [hi]

theorem nextPow2_two_pow : ∀ k, k<32 →
    nextPow2 (UInt32.ofNat (2^k)*1)=UInt32.ofNat (2^k) := by decide

theorem nextPow2_four_mul : ∀ k, k<32 →
    (nextPow2 (UInt32.ofNat (2^k)*4)).toNat=2^(if k<30 then k+2 else 0) := by decide

theorem newSQ_ok {n : Nat} (h : newSQ n = .ok sq) (hne : sq.bbs≠0) :
    sq=⟨n,UInt32.ofNat (n-1),sq.bbs⟩ ∧ n=64*sq.bbs.toNat ∧ ∃ k<32, sq.bbs.toNat=2^k := by
  simp only [newSQ] at h
  split_ifs at h with h0 hmod hpow
  cases h
  obtain ⟨a,ha⟩ := (and_sub_one_eq_zero_iff_isPowerOfTwo h0).mp (not_not.mp hpow)
  have ha6 : 6≤a := by
    have hdvd : 2^6 ∣ 2^a := ha ▸ dvd_of_mod_eq_zero (not_not.mp hmod)
    exact (pow_dvd_pow_iff_le_right (by decide)).mp hdvd
  obtain ⟨k,rfl⟩ := Nat.exists_eq_add_of_le ha6
  have hdiv : n/64=2^k := by
    rw [ha,pow_add]
    simp
  have hk : k<32 := by
    by_contra hge
    apply hne
    simp only [hdiv]
    rw [← UInt32.toNat_inj,UInt32.toNat_ofNat']
    exact mod_eq_zero_of_dvd (pow_dvd_pow 2 (not_lt.mp hge))
  have hb : (UInt32.ofNat (n/64)).toNat=2^k := by
    rw [hdiv,toNat_small]
    exact Nat.pow_lt_pow_right (by decide) hk
  refine ⟨rfl,?_,k,hk,hb⟩
  simp only [hb]
  rw [ha,pow_add]
  rfl

theorem newSender_ok {inlineLen : Int} {s : Sender}
    (h : newSender sq qpn lkey inlineLen csFlags = .ok s)
    (hin : 0 ≤ inlineLen → inlineLen%2^32+29<2^32) :
    s.sq=sq ∧ s.qpn=qpn ∧ s.lkey=lkey ∧ s.inlineLen=UInt32.ofInt inlineLen ∧
      s.inlineLen.toNat≤914 ∧ s.maxBBs ≤ sq.bbs ∧
      s.maxBBs.toNat=((s.inlineLen.toNat+29)/16+5)/4 := by
  simp only [newSender] at h
  split_ifs at h with hneg hds hbbs
  cases h
  have hinl : (UInt32.ofInt inlineLen).toNat=(inlineLen%2^32).toNat := by
    rw [UInt32.ofInt,toNat_small _ (by omega)]
  have heth := toNat_ethSegOctowords (UInt32.ofInt inlineLen) (by omega)
  have hds' : (1+ethSegOctowords (UInt32.ofInt inlineLen)+1).toNat =
      2+((UInt32.ofInt inlineLen).toNat+29)/16 := by
    rw [UInt32.toNat_add,UInt32.toNat_add,heth]
    change ((1+_)%2^32+1)%2^32=_
    omega
  have hmax : 2+((UInt32.ofInt inlineLen).toNat+29)/16≤60 := by
    rw [gt_iff_lt,UInt32.lt_iff_toNat_lt,hds'] at hds
    exact not_lt.mp hds
  refine ⟨rfl,rfl,rfl,rfl,by simp only; omega,UInt32.not_lt.mp hbbs,?_⟩
  simp only [toNat_blocksFor _ (show _<2^20 by rw [hds']; omega),hds']
  omega

structure TxFixed.Multi (f : TxFixed) (m : MPWSender) : Prop where
  sq : m.sq=f.sender.sq
  qpn : m.qpn=f.sender.qpn
  lkey : m.lkey=f.sender.lkey
  inlineLen : f.sender.inlineLen=0
  pointer : m.pointer=true → m.maxPackets=min 58 (4*f.bbs.toNat-2) ∧ 2 ≤ m.maxPackets
  copied : m.pointer=false → 0 < m.maxLen ∧
    (mpwPacketOctowords (UInt32.ofInt m.maxLen)).toNat≤58

structure TxFixed.Built (f : TxFixed) : Prop where
  rings : f.Rings
  sq : f.sender.sq=⟨f.sqLen,UInt32.ofNat (f.sqLen-1),f.bbs⟩
  sqLen : f.sqLen=64*f.bbs.toNat
  inlineLen : f.sender.inlineLen.toNat≤914
  maxBBs : f.maxBBs.toNat=((f.sender.inlineLen.toNat+29)/16+5)/4
  maxBBs_le : f.maxBBs.toNat≤f.bbs.toNat
  frame : ∃ m<63, f.frameMask.toNat=2^m-1 ∧ 2^m ∣ f.region.len
  single : f.mpw=none → f.numSlots=f.bbs
  multi : ∀ m, f.mpw=some m → f.Multi m
  slots : f.numSlots.toNat≤4*f.bbs.toNat

theorem newMPWSender_multi {maxLen : Int} {pointer : Bool} {m : MPWSender}
    (h : newMPWSender sq qpn csFlags maxLen pointer lkey = .ok m) :
    m.sq=sq ∧ m.qpn=qpn ∧ m.lkey=lkey ∧ m.pointer=pointer ∧ m.maxLen=maxLen ∧
      (m.pointer=true → m.maxPackets=min 58 (4*sq.bbs.toNat-2) ∧ 2 ≤ m.maxPackets) ∧
      (m.pointer=false → 0 < m.maxLen ∧ (mpwPacketOctowords (UInt32.ofInt m.maxLen)).toNat≤58) := by
  simp only [newMPWSender] at h
  split_ifs at h with hp h2 hlen hds h0 hk hroom
  · cases h
    refine ⟨rfl,rfl,rfl,rfl,rfl,fun _ => ?_,fun hf => by cases hp.symm.trans hf⟩
    simp only
    omega
  · cases h
    refine ⟨rfl,rfl,rfl,rfl,rfl,fun ht => absurd ht hp,fun _ => ⟨not_le.mp hlen,?_⟩⟩
    simp only
    rw [gt_iff_lt,UInt32.lt_iff_toNat_lt,UInt32.toNat_add] at hds
    change ¬ 60<(2+_)%2^32 at hds
    have hlt := mpwPacketOctowords_lt (UInt32.ofInt maxLen)
    omega

theorem newMPW_multi {mpw : Option MPWSender} (h : newMPW cfg sq = .ok mpw) :
    (mpw=none → cfg.multiPacket=false) ∧ ∀ m, mpw=some m → cfg.inlineLen=0 ∧
      newMPWSender sq cfg.qpn cfg.csFlags cfg.multiPacketMaxLen cfg.multiPacketPointer
        cfg.lkey = .ok m := by
  simp only [newMPW] at h
  split_ifs at h with hm h1 h2
  · cases hs : newMPWSender sq cfg.qpn cfg.csFlags cfg.multiPacketMaxLen
        cfg.multiPacketPointer cfg.lkey with
    | error e => rw [hs] at h; cases h
    | ok m =>
      rw [hs] at h
      cases h
      exact ⟨nofun,fun _ hm' => ⟨not_not.mp h2,by injection hm' with hm'; rw [hm']⟩⟩
  · cases h
    exact ⟨fun _ => by simpa using hm,nofun⟩

theorem frame_of_config {frameSize : Int} (hpos : 0<frameSize) (hlt : frameSize<2^63)
    (hone : onesCount 64 (UInt64.ofInt frameSize).toNat=1) {len : Nat}
    (hdiv : (len : Int)%frameSize=0) :
    ∃ m<63, (UInt64.ofInt frameSize-1).toNat=2^m-1 ∧ 2^m ∣ len := by
  have hval : (UInt64.ofInt frameSize).toNat=frameSize.toNat := by
    rw [UInt64.ofInt,UInt64.toNat_ofNat']
    omega
  obtain ⟨m,-,hpow⟩ := onesCount_eq_one (UInt64.toNat_lt _) hone
  rw [hval] at hpow
  have hm : m<63 := by
    have hle : 2^m<2^63 := by rw [← hpow]; omega
    exact (Nat.pow_lt_pow_iff_right (by decide)).mp hle
  have hint : frameSize=((2^m : Nat) : Int) := by omega
  refine ⟨m,hm,?_,?_⟩
  · rw [UInt64.toNat_sub_of_le,hval,hpow]
    · rfl
    · rw [UInt64.le_iff_toNat_le,hval]
      change 1≤_
      omega
  · rw [hint] at hdiv
    exact Int.natCast_dvd_natCast.mp (Int.dvd_of_emod_eq_zero hdiv)

theorem toNat_pred {n : UInt32} (h : 0<n.toNat) : (n-1).toNat=n.toNat-1 := by
  rw [UInt32.toNat_sub_of_le]
  · rfl
  · rwa [UInt32.le_iff_toNat_le]

theorem newTx_built (h : newTx cfg = .ok t) (hin : cfg.inlineLen≤960) : t.toTxFixed.Built := by
  obtain ⟨sq,sender,hsq,-,hs,hmpw,-,hpos,hone,hdiv,_,_,ht⟩ := newTx_ok h
  obtain ⟨hssq,hqpn,hkey,hinl,hin',hle,hmax⟩ := newSender_ok hs (by omega)
  have hle' := UInt32.le_iff_toNat_le.mp hle
  have hne : sq.bbs≠0 := by
    intro h0
    rw [h0] at hle'
    change _≤0 at hle'
    omega
  obtain ⟨hsqe,hlen,k,hk,hpow⟩ := newSQ_ok hsq hne
  have hbbs : sq.bbs=UInt32.ofNat (2^k) := by rw [← hpow,UInt32.ofNat_toNat]
  obtain ⟨hnone,hsome⟩ := newMPW_multi hmpw
  have hslots : ∃ j<32, (nextPow2 (sq.bbs*slotsPerBlock cfg.multiPacket)).toNat=2^j := by
    cases hmp : cfg.multiPacket with
    | false =>
      refine ⟨k,hk,?_⟩
      change (nextPow2 (sq.bbs*1)).toNat=_
      rw [hbbs,nextPow2_two_pow k hk,← hbbs,hpow]
    | true =>
      refine ⟨if k<30 then k+2 else 0,by split_ifs <;> omega,?_⟩
      change (nextPow2 (sq.bbs*4)).toNat=_
      rw [hbbs,nextPow2_four_mul k hk]
  have hfour : (nextPow2 (sq.bbs*slotsPerBlock cfg.multiPacket)).toNat≤4*sq.bbs.toNat := by
    rw [hpow]
    rcases hmp : cfg.multiPacket with _ | _
    · change (nextPow2 (sq.bbs*1)).toNat≤_
      rw [hbbs,nextPow2_two_pow k hk,← hbbs,hpow]
      omega
    change (nextPow2 (sq.bbs*4)).toNat≤_
    rw [hbbs,nextPow2_four_mul k hk]
    split_ifs
    · rw [pow_add]
      omega
    · have := Nat.two_pow_pos k
      omega
  rw [ht]
  constructor
  · exact ⟨⟨k,hk,hpow⟩,toNat_pred (pos_of_pow ⟨k,hk,hpow⟩),hslots,toNat_pred (pos_of_pow hslots)⟩
  · exact hssq.trans hsqe
  · exact hlen
  · exact hin'
  · exact hmax
  · exact hle'
  · exact frame_of_config hpos cfg.frameSize_lt hone hdiv
  · intro hn
    simp only [hnone hn]
    change nextPow2 (sq.bbs*1)=_
    rw [hbbs,nextPow2_two_pow k hk]
  · intro m hm
    obtain ⟨hz,hnew⟩ := hsome m hm
    obtain ⟨h1,h2,h3,-,-,h4,h5⟩ := newMPWSender_multi hnew
    refine ⟨h1.trans hssq.symm,h2.trans hqpn.symm,h3.trans hkey.symm,?_,h4,h5⟩
    simp only [hinl,hz]
    rfl
  · exact hfour

theorem newTx_start (h : newTx cfg = .ok t) : t.sqLen=cfg.sqLen ∧ t.ci=0 ∧ t.sinceSignal=0 ∧
    t.signalEvery=UInt32.ofInt cfg.signalEvery := by
  obtain ⟨_,_,-,-,-,-,-,-,-,-,_,_,ht⟩ := newTx_ok h
  rw [ht]
  exact ⟨rfl,rfl,rfl,rfl⟩

theorem newTx_owns (h : newTx cfg = .ok t) : t.toLedger.Owns t.toTxFixed [] [] := by
  obtain ⟨_,_,-,-,-,-,-,-,-,-,_,_,ht⟩ := newTx_ok h
  rw [ht]
  exact Ledger.Owns.empty

end Packetio.Mlx5.Ring

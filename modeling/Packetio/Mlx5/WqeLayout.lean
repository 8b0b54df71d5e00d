import Packetio.Lib.Layout
import Packetio.Mlx5.WqeSize

/-! The bytes of a work queue entry, field by field. Each builder of package wqe
leaves the fields of its entry in the send queue and nothing else, wherever the
entry starts and whether or not it wraps. -/
namespace Packetio.Mlx5
open Lib List UInt32 Nat

structure SQ.Sized (q : SQ) (L : Nat) : Prop where
  len : q.len=L
  pow : ∃ m, 6 ≤ m ∧ m<32 ∧ L=2^m
  mask : q.mask.toNat=L-1

/-- The offset `x` is that of byte `c` of an object at `base`. -/
def At (L base : Nat) (x : UInt32) (c : Nat) : Prop := x.toNat%L=(base+c)%L

section
variable {q : SQ} {L base c : Nat} {x : UInt32} {old new : Nat → UInt8} {fs : List (Piece UInt8)}

section
variable (h : q.Sized L)
include h

theorem SQ.Sized.dvd : 64 ∣ L ∧ L ∣ 2^32 ∧ 0<L ∧ L<2^32 := by
  obtain ⟨m,h6,h32,rfl⟩ := h.pow
  exact ⟨Nat.pow_dvd_pow 2 h6,Nat.pow_dvd_pow 2 (by omega),Nat.two_pow_pos m,
    Nat.pow_lt_pow_right (by decide) h32⟩

theorem At.add (hx : At L base x c) (a : UInt32) : At L base (x+a) (c+a.toNat) := by
  obtain ⟨-,hd,-⟩ := h.dvd
  rw [At] at hx ⊢
  rw [UInt32.toNat_add,mod_mod_of_dvd _ hd,add_mod,hx,← add_mod,add_assoc]

theorem At.cell (hx : At L base x c) : (x &&& q.mask).toNat=(base+c)%L := by
  obtain ⟨m,-,-,rfl⟩ := h.pow
  rwa [toNat_and_mask x q.mask m h.mask]

theorem SQ.Sized.offset (idx : UInt16) : At L (64*idx.toNat) (q.offset idx.toUInt32) 0 := by
  have hx : At L (64*idx.toNat) (idx.toUInt32*wqebb) 0 := by
    have hlt := idx.toNat_lt
    rw [At,UInt32.toNat_mul,UInt16.toNat_toUInt32]
    change idx.toNat*64%2^32%L=_
    rw [mod_eq_of_lt (by omega : idx.toNat*64<2^32),mul_comm,add_zero]
  rw [SQ.offset,At,hx.cell h,mod_mod]

theorem putBE_shows (hs : Shows L base old new fs) (hx : At L base x c) (n : Nat)
    (hn : n ∣ 64) (hal : n ∣ base+c) (hle : c+n≤L) (v : Nat) :
    Shows L base old (q.putBE n new x v) (fs++[⟨c,n,beByte n v⟩]) := by
  rw [SQ.putBE,At.cell h hx]
  refine hs.blit ⟨c,n,beByte n v⟩ ?_ hle
  -- an aligned field ends at the end of the buffer at the latest
  obtain ⟨h64,-,hpos,-⟩ := h.dvd
  have hL : n ∣ L := hn.trans h64
  have hmod : n ∣ (base+c)%L := (dvd_mod_iff hL).mpr hal
  obtain ⟨a,ha⟩ := hmod
  obtain ⟨b,hb⟩ := hL
  have hlt : (base+c)%L<L := mod_lt _ hpos
  simp only
  rw [ha,hb] at hlt
  have hab : a<b := Nat.lt_of_mul_lt_mul_left hlt
  calc (base+c)%L+n=n*(a+1) := by rw [ha]; ring
    _≤n*b := mul_le_mul_left n hab
    _=L := hb.symm

theorem putBytes_shows (hs : Shows L base old new fs) (hx : At L base x c)
    (src : Slice) (hle : c+src.len≤L) :
    Shows L base old (q.putBytes new x src) (fs++[⟨c,src.len,src.get⟩]) := by
  rw [SQ.putBytes,At.cell h hx,h.len]
  exact hs.wrapBlit ⟨c,src.len,src.get⟩ hle

theorem zero_eq_wrapBlit (x n : UInt32) (hn : n.toNat≤L) :
    q.zero new x n=wrapBlit L new (x &&& q.mask).toNat n.toNat fun _ => 0 := by
  obtain ⟨-,-,hpos,hlt⟩ := h.dvd
  have hoff : (x &&& q.mask).toNat<L := by
    have hx : At L x.toNat x 0 := rfl
    rw [At.cell h hx]
    exact mod_lt _ hpos
  have hroom : (UInt32.ofNat q.len-(x &&& q.mask)).toNat=L-(x &&& q.mask).toNat := by
    have hl : (UInt32.ofNat q.len).toNat=L := by rw [h.len,toNat_small _ hlt]
    rw [UInt32.toNat_sub_of_le,hl]
    rw [le_iff_toNat_le,hl]
    omega
  simp only [SQ.zero,wrapBlit]
  by_cases hw : UInt32.ofNat q.len-(x &&& q.mask) > n
  · have hw' := hw
    rw [gt_iff_lt,lt_iff_toNat_lt,hroom] at hw'
    have hk : min (L-(x &&& q.mask).toNat) n.toNat=n.toNat := by omega
    simp only [if_pos hw,hk,UInt32.lt_irrefl,lt_irrefl,if_false]
  have hw' := hw
  rw [gt_iff_lt,lt_iff_toNat_lt,hroom,not_lt] at hw'
  have hk : min (L-(x &&& q.mask).toNat) n.toNat=L-(x &&& q.mask).toNat := by omega
  simp only [if_neg hw]
  simp only [hk,hroom,lt_iff_toNat_lt]
  split_ifs with hlt'
  · have hsub : (n-(UInt32.ofNat q.len-(x &&& q.mask))).toNat =
        n.toNat-(L-(x &&& q.mask).toNat) := by
      rw [UInt32.toNat_sub_of_le,hroom]
      rw [le_iff_toNat_le,hroom]
      omega
    have hmin : min L (n.toNat-(L-(x &&& q.mask).toNat))=n.toNat-(L-(x &&& q.mask).toNat) := by
      omega
    rw [hsub,hmin]
  · rfl

section
variable (hs : Shows L base old new fs) (hx : At L base x c) (n : UInt32) (hle : c+n.toNat≤L)
include hs hx hle

theorem zero_shows : Shows L base old (q.zero new x n) (fs++[⟨c,n.toNat,fun _ => 0⟩]) := by
  rw [zero_eq_wrapBlit h x n (by omega),At.cell h hx]
  exact hs.wrapBlit ⟨c,n.toNat,fun _ => 0⟩ hle

theorem pad_shows :
    Shows L base old (if n > 0 then q.zero new x n else new) (fs++[⟨c,n.toNat,fun _ => 0⟩]) := by
  split_ifs with hn
  · exact zero_shows h hs hx n hle
  · rw [gt_iff_lt,lt_iff_toNat_lt] at hn
    exact hs.nothing _ (Nat.eq_zero_of_not_pos hn)

end

end

end

def bePiece (pos n v : Nat) : Piece UInt8 := ⟨pos,n,beByte n v⟩

def ctrlPieces (idx : UInt16) (opcode qpn ds : UInt32) (signaled : Bool) : List (Piece UInt8) :=
  [bePiece 0 4 (idx.toUInt32 <<< 8 ||| opcode).toNat, bePiece 4 4 (qpn <<< 8 ||| ds).toNat,
    bePiece 8 4 (if signaled then ctrlCQUpdate else 0).toNat, bePiece 12 4 0]

def dsegPieces (c : Nat) (count lkey : UInt32) (addr : UInt64) : List (Piece UInt8) :=
  [bePiece c 4 count.toNat, bePiece (c+4) 4 lkey.toNat, bePiece (c+8) 8 addr.toNat]

def ethPieces (csFlags : UInt8) : List (Piece UInt8) :=
  [bePiece 16 4 0, bePiece 20 4 (csFlags.toUInt32 <<< 24).toNat, bePiece 24 4 0]

section
variable {q : SQ} {L base c : Nat} {x : UInt32} {old new : Nat → UInt8} {fs : List (Piece UInt8)}
  (h : q.Sized L) (hbase : 64 ∣ base)
include h hbase

section
variable (hs : Shows L base old new fs)
include hs

theorem putCtrl_shows (hx : At L base x 0) (idx : UInt16)
    (opcode qpn ds : UInt32) (signaled : Bool) :
    Shows L base old (q.putCtrl new x idx opcode qpn ds signaled)
      (fs++ctrlPieces idx opcode qpn ds signaled) := by
  obtain ⟨b,rfl⟩ := hbase
  obtain ⟨⟨l,hl⟩,-,hpos,-⟩ := h.dvd
  have h1 := putBE_shows h hs (hx.add h ctrlOpmodIdxOpcode) 4 (by decide)
    (by change 4 ∣ 64*b+0; omega) (by change 0+4≤L; omega) (idx.toUInt32 <<< 8 ||| opcode).toNat
  have h2 := putBE_shows h h1 (hx.add h ctrlQPNDS) 4 (by decide)
    (by change 4 ∣ 64*b+4; omega) (by change 4+4≤L; omega) (qpn <<< 8 ||| ds).toNat
  have h3 := putBE_shows h h2 (hx.add h ctrlSignature) 4 (by decide)
    (by change 4 ∣ 64*b+8; omega) (by change 8+4≤L; omega)
    (if signaled then ctrlCQUpdate else 0).toNat
  have h4 := putBE_shows h h3 (hx.add h ctrlImm) 4 (by decide)
    (by change 4 ∣ 64*b+12; omega) (by change 12+4≤L; omega) 0
  simp only [append_assoc] at h4
  exact h4

theorem putDataSeg_shows (hx : At L base x c) (hc : 16 ∣ c)
    (hle : c+16≤L) (count lkey : UInt32) (addr : UInt64) :
    Shows L base old (q.putDataSeg new x count lkey addr) (fs++dsegPieces c count lkey addr) := by
  obtain ⟨b,rfl⟩ := hbase
  obtain ⟨c,rfl⟩ := hc
  have h1 := putBE_shows h hs (hx.add h dsegByteCount) 4 (by decide)
    (by change 4 ∣ 64*b+(16*c+0); omega) (by change 16*c+0+4≤L; omega) count.toNat
  have h2 := putBE_shows h h1 (hx.add h dsegLKey) 4 (by decide)
    (by change 4 ∣ 64*b+(16*c+4); omega) (by change 16*c+4+4≤L; omega) lkey.toNat
  have h3 := putBE_shows h h2 (hx.add h dsegAddr) 8 (by decide)
    (by change 8 ∣ 64*b+(16*c+8); omega) (by change 16*c+8+8≤L; omega) addr.toNat
  simp only [append_assoc] at h3
  exact h3

theorem putEth_shows (hx : At L base x 0) (csFlags : UInt8) :
    Shows L base old (q.putU32BE (q.putU32BE (q.putU32BE new (x+ethRsvd0) 0) (x+ethCSFlags)
      (csFlags.toUInt32 <<< 24)) (x+ethRsvd2) 0) (fs++ethPieces csFlags) := by
  obtain ⟨b,rfl⟩ := hbase
  obtain ⟨⟨l,hl⟩,-,hpos,-⟩ := h.dvd
  have h1 := putBE_shows h hs (hx.add h ethRsvd0) 4 (by decide)
    (by change 4 ∣ 64*b+16; omega) (by change 16+4≤L; omega) 0
  have h2 := putBE_shows h h1 (hx.add h ethCSFlags) 4 (by decide)
    (by change 4 ∣ 64*b+20; omega) (by change 20+4≤L; omega) (csFlags.toUInt32 <<< 24).toNat
  have h3 := putBE_shows h h2 (hx.add h ethRsvd2) 4 (by decide)
    (by change 4 ∣ 64*b+24; omega) (by change 24+4≤L; omega) 0
  simp only [append_assoc] at h3
  exact h3

end

end

def Sender.ethEnd (s : Sender) (len : Nat) : Nat := 16+16*((min len s.inlineLen.toNat+29)/16)

def Sender.pieces (s : Sender) (idx : UInt16) (frame : Slice) (addr : UInt64) (signaled : Bool) :
    List (Piece UInt8) :=
  let length := UInt32.ofNat frame.len
  let inl := s.inlined length
  ctrlPieces idx opcodeSend s.qpn (s.ds length) signaled++ethPieces s.csFlags++
    [bePiece 28 2 inl.toUInt16.toNat,⟨30,inl.toNat,frame.get⟩,
      ⟨30+inl.toNat,s.ethEnd frame.len-(30+inl.toNat),fun _ => 0⟩]++
    (if s.inlineLen.toNat<frame.len then
      dsegPieces (s.ethEnd frame.len) (length-inl) s.lkey (addr+inl.toUInt64)
    else [])

theorem Sender.put_shows {s : Sender} {L base : Nat} (h : s.sq.Sized L) (hbase : 64 ∣ base)
    (hin : s.inlineLen.toNat≤914) {idx : UInt16} (hx : At L base (s.sq.offset idx.toUInt32) 0)
    {frame : Slice} (hlen : frame.len<2^32) (hle : 16*s.octowords frame.len≤L)
    (buf : Nat → UInt8) (addr : UInt64) (signaled : Bool) :
    Shows L base buf (s.put buf idx frame addr signaled).buf
      (s.pieces idx frame addr signaled) := by
  have hlen' : (ofNat frame.len).toNat=frame.len := toNat_small _ hlen
  have hinl := s.toNat_inlined (ofNat frame.len)
  have hrest := s.rest_pos (ofNat frame.len)
  rw [hlen'] at hinl hrest
  simp only [Sender.put,Sender.pieces,hrest]
  generalize s.inlined (ofNat frame.len)=inl at *
  have hocts := toNat_ethSegOctowords inl (by omega)
  have hend : 16*s.octowords frame.len=s.ethEnd frame.len+
      (if s.inlineLen.toNat<frame.len then 16 else 0) := by
    rw [Sender.octowords,Sender.ethEnd]
    split_ifs <;> omega
  have hmul : (ethSegOctowords inl*octoword).toNat =
      16*((min frame.len s.inlineLen.toNat+29)/16) := by
    rw [UInt32.toNat_mul,hocts,hinl]
    change _*16%2^32=_
    omega
  have heth : ethInlineHdr+inl = ofNat (30+inl.toNat) := by
    rw [ofNat_add,UInt32.ofNat_toNat]
    rfl
  have hpad : (ctrlSegSize+ethSegOctowords inl*octoword-(ethInlineHdr+inl)).toNat =
      s.ethEnd frame.len-(30+inl.toNat) := by
    have h1 : (ethInlineHdr+inl).toNat = 30+inl.toNat := by
      rw [heth,toNat_small _ (by omega)]
    have h2 : (ctrlSegSize+ethSegOctowords inl*octoword).toNat = s.ethEnd frame.len := by
      rw [UInt32.toNat_add,hmul,Sender.ethEnd]
      change (16+_)%2^32=_
      omega
    rw [UInt32.toNat_sub_of_le,h1,h2]
    rw [le_iff_toNat_le,h1,h2,hinl,Sender.ethEnd]
    omega
  have hroom : 30+inl.toNat ≤ s.ethEnd frame.len := by
    rw [hinl,Sender.ethEnd]
    omega
  have h64 : 64≤L := le_of_dvd h.dvd.2.2.1 h.dvd.1
  have h1 := putCtrl_shows h hbase (.refl : Shows L base buf buf []) hx idx opcodeSend s.qpn
    (s.ds (ofNat frame.len)) signaled
  have h2 := putEth_shows h hbase h1 hx s.csFlags
  have h3 := putBE_shows h h2 (hx.add h ethInlineHdrSz) 2 (by decide)
    (by obtain ⟨b,rfl⟩ := hbase; change 2 ∣ 64*b+28; omega) (by change 28+2≤L; omega)
    inl.toUInt16.toNat
  have h4 := putBytes_shows h h3 (hx.add h ethInlineHdr) (frame.upTo inl.toNat)
    (by change 30+inl.toNat≤L; omega)
  have hxi := (hx.add h ethInlineHdr).add h inl
  have h5 := pad_shows h h4 hxi _ (by rw [hpad]; change 30+inl.toNat+_≤L; omega)
  rw [hpad] at h5
  by_cases hr : s.inlineLen.toNat<frame.len
  · rw [if_pos hr] at hend
    simp only [hr,if_true]
    have hxd := (hx.add h ctrlSegSize).add h (ethSegOctowords inl*octoword)
    rw [hmul] at hxd
    have h6 := putDataSeg_shows h hbase h5 hxd
      (by change 16 ∣ 16+_; omega) (by change s.ethEnd frame.len+16≤L; omega)
      (ofNat frame.len-inl) s.lkey (addr+inl.toUInt64)
    simp only [append_assoc,nil_append,cons_append] at h6 ⊢
    exact h6
  · simp only [hr,if_false,append_assoc,nil_append,cons_append,append_nil] at h5 ⊢
    exact h5

def packetPieces (c : Nat) (f : Slice) : List (Piece UInt8) :=
  [bePiece c 4 (UInt32.ofNat f.len ||| mpwInlineFlag).toNat,⟨c+4,f.len,f.get⟩,
    ⟨c+4+f.len,16*packetOctowords f-4-f.len,fun _ => 0⟩]

def packetsPieces : Nat → List Slice → List (Piece UInt8)
  | _, [] => []
  | c, f::fs => packetPieces c f++packetsPieces (c+16*packetOctowords f) fs

def pointerPieces (lkey : UInt32) : Nat → List (Slice × UInt64) → List (Piece UInt8)
  | _, [] => []
  | c, (f,addr)::fs => dsegPieces c (UInt32.ofNat f.len) lkey addr++pointerPieces lkey (c+16) fs

def MPWSender.headPieces (s : MPWSender) (idx : UInt16) (ds : UInt32) (signaled : Bool) :
    List (Piece UInt8) :=
  ctrlPieces idx opcodeEnhancedMPSW s.qpn ds signaled++ethPieces s.csFlags++[bePiece 28 4 0]

section
variable {q : SQ} {L base c : Nat} {x : UInt32} {old new : Nat → UInt8} {ps : List (Piece UInt8)}
  (h : q.Sized L) (hbase : 64 ∣ base)
include h hbase

theorem putPacket_shows (hs : Shows L base old new ps) (hx : At L base x c) (hc : 16 ∣ c)
    (f : Slice) (hf : f.len+19<2^32) (hle : c+16*packetOctowords f≤L) :
    Shows L base old (q.putPacket new x f) (ps++packetPieces c f) := by
  have hlen : (UInt32.ofNat f.len).toNat=f.len := toNat_small _ (by omega)
  have hocts := toNat_mpwPacketOctowords (UInt32.ofNat f.len) (by omega)
  rw [packetOctowords] at hle
  have hpad : (mpwPacketOctowords (UInt32.ofNat f.len)*octoword-4-UInt32.ofNat f.len).toNat =
      16*((f.len+19)/16)-4-f.len := by
    simp only [UInt32.toNat_sub,UInt32.toNat_mul,hocts,hlen,octoword,UInt32.reduceToNat]
    omega
  have h1 := putBE_shows h hs hx 4 (by decide)
    (by obtain ⟨b,rfl⟩ := hbase; obtain ⟨d,rfl⟩ := hc; omega) (by omega)
    (UInt32.ofNat f.len ||| mpwInlineFlag).toNat
  have h2 := putBytes_shows h h1 (hx.add h 4) f (by change c+4+f.len≤L; omega)
  have hx3 := (hx.add h 4).add h (UInt32.ofNat f.len)
  have h3 := pad_shows h h2 hx3 _ (by rw [hpad,hlen]; change c+4+f.len+_≤L; omega)
  rw [hpad,hlen] at h3
  simp only [append_assoc] at h3
  exact h3

theorem putPackets_shows (fs : List Slice) (hs : Shows L base old new ps) (hx : At L base x c)
    (hc : 16 ∣ c) (hf : ∀ f∈fs, f.len+19<2^32) (hle : c+16*(fs.map packetOctowords).sum≤L) :
    Shows L base old (q.putPackets new x fs) (ps++packetsPieces c fs) := by
  induction fs generalizing new x c ps with
  | nil => simpa [SQ.putPackets,packetsPieces] using hs
  | cons f fs ih =>
    rw [map_cons,sum_cons] at hle
    have hlen := hf f (by simp)
    have hsize : (mpwPacketOctowords (ofNat f.len)*octoword).toNat = 16*packetOctowords f := by
      have hl : (ofNat f.len).toNat=f.len := toNat_small _ (by omega)
      rw [UInt32.toNat_mul,toNat_mpwPacketOctowords _ (by omega),hl,packetOctowords]
      change _*16%2^32=_
      omega
    have h1 := putPacket_shows h hbase hs hx hc f hlen (by omega)
    have hx' := hx.add h (mpwPacketOctowords (ofNat f.len)*octoword)
    rw [hsize] at hx'
    have h2 := ih h1 hx' (by obtain ⟨d,rfl⟩ := hc; omega) (fun g hg => hf g (by simp [hg]))
      (by omega)
    rwa [append_assoc] at h2

theorem putPointerSegs_shows (lkey : UInt32) (fs : List (Slice × UInt64))
    (hs : Shows L base old new ps) (hx : At L base x c) (hc : 16 ∣ c) (hle : c+16*fs.length≤L) :
    Shows L base old (q.putPointerSegs lkey new x fs) (ps++pointerPieces lkey c fs) := by
  induction fs generalizing new x c ps with
  | nil => simpa [SQ.putPointerSegs,pointerPieces] using hs
  | cons f fs ih =>
    rw [length_cons] at hle
    have h1 := putDataSeg_shows h hbase hs hx hc (by omega) (ofNat f.1.len) lkey f.2
    have h2 := ih h1 (hx.add h octoword) (by obtain ⟨d,rfl⟩ := hc; change 16 ∣ 16*d+16; omega)
      (by change c+16+_≤L; omega)
    rwa [append_assoc] at h2

end

section
variable {s : MPWSender} {L base : Nat} (h : s.sq.Sized L) (hbase : 64 ∣ base) {idx : UInt16}
  (hx : At L base (s.sq.offset idx.toUInt32) 0) (buf : Nat → UInt8)
include h hbase hx

theorem MPWSender.head_shows (ds : UInt32) (signaled : Bool) :
    Shows L base buf (s.putEth (s.sq.putCtrl buf (s.sq.offset idx.toUInt32) idx
      opcodeEnhancedMPSW s.qpn ds signaled) (s.sq.offset idx.toUInt32))
      (s.headPieces idx ds signaled) := by
  have h64 : 64≤L := le_of_dvd h.dvd.2.2.1 h.dvd.1
  have h1 := putCtrl_shows h hbase (.refl : Shows L base buf buf []) hx idx opcodeEnhancedMPSW
    s.qpn ds signaled
  have h2 := putEth_shows h hbase h1 hx s.csFlags
  have h3 := putBE_shows h h2 (hx.add h ethInlineHdrSz) 4 (by decide)
    (by obtain ⟨b,rfl⟩ := hbase; change 4 ∣ 64*b+28; omega) (by change 28+4≤L; omega) 0
  exact h3

theorem MPWSender.put_shows {fs : List Slice} (hf : ∀ f∈fs, f.len+19<2^32)
    (hle : 32+16*(fs.map packetOctowords).sum≤L) (signaled : Bool) :
    Shows L base buf (s.put buf idx fs signaled).buf
      (s.headPieces idx (mpwOctowords fs) signaled++packetsPieces 32 fs) :=
  putPackets_shows h hbase fs (MPWSender.head_shows h hbase hx buf _ signaled)
    ((hx.add h ctrlSegSize).add h mpwEthSegSize) (by decide) hf hle

theorem MPWSender.putPointers_shows {fs : List (Slice × UInt64)} (hle : 32+16*fs.length≤L)
    (signaled : Bool) : Shows L base buf (s.putPointers buf idx fs signaled).buf
      (s.headPieces idx (UInt32.ofNat (2+fs.length)) signaled++pointerPieces s.lkey 32 fs) :=
  putPointerSegs_shows h hbase s.lkey fs (MPWSender.head_shows h hbase hx buf _ signaled)
    ((hx.add h ctrlSegSize).add h mpwEthSegSize) (by decide) hle

end

structure Between (lo hi : Nat) (ps : List (Piece UInt8)) : Prop where
  increasing : Increasing ps
  lower : ∀ f∈ps, lo≤f.pos
  upper : ∀ f∈ps, f.pos+f.len≤hi

theorem Between.of_tiles {lo hi : Nat} {ps : List (Piece UInt8)} (h : Tiles lo hi ps) :
    Between lo hi ps :=
  ⟨h.increasing,fun f hf => (h.inside.2 f hf).1,fun f hf => (h.inside.2 f hf).2⟩

theorem ctrlPieces_tiles (idx : UInt16) (opcode qpn ds : UInt32) (signaled : Bool) :
    Tiles 0 16 (ctrlPieces idx opcode qpn ds signaled) := ⟨rfl,rfl,rfl,rfl,rfl⟩

theorem ethPieces_tiles (csFlags : UInt8) : Tiles 16 28 (ethPieces csFlags) := ⟨rfl,rfl,rfl,rfl⟩

theorem dsegPieces_tiles (c : Nat) (count lkey : UInt32) (addr : UInt64) :
    Tiles c (c+16) (dsegPieces c count lkey addr) := ⟨rfl,rfl,rfl,rfl⟩

theorem Sender.pieces_tiles (s : Sender) (idx : UInt16) {frame : Slice} (hlen : frame.len<2^32)
    (addr : UInt64) (signaled : Bool) :
    Tiles 0 (16*s.octowords frame.len) (s.pieces idx frame addr signaled) := by
  have hinl := s.toNat_inlined (ofNat frame.len)
  rw [toNat_small _ hlen] at hinl
  have hend : s.ethEnd frame.len=16+16*((min frame.len s.inlineLen.toNat+29)/16) := rfl
  have hocts : 16*s.octowords frame.len=s.ethEnd frame.len+
      (if s.inlineLen.toNat<frame.len then 16 else 0) := by
    rw [Sender.octowords,hend]
    split_ifs <;> omega
  simp only [Sender.pieces]
  generalize s.inlined (ofNat frame.len)=inl at *
  have h1 := (ctrlPieces_tiles idx opcodeSend s.qpn (s.ds (ofNat frame.len)) signaled).append
    (ethPieces_tiles s.csFlags)
  have h2 : Tiles 28 (s.ethEnd frame.len) [bePiece 28 2 inl.toUInt16.toNat,
      ⟨30,inl.toNat,frame.get⟩,⟨30+inl.toNat,s.ethEnd frame.len-(30+inl.toNat),fun _ => 0⟩] :=
    ⟨rfl,rfl,rfl,by change 30+inl.toNat+(_-(30+inl.toNat))=_; omega⟩
  have h3 := h1.append h2
  rw [hocts]
  split_ifs
  · exact h3.append (dsegPieces_tiles _ _ _ _)
  · exact h3.append rfl

theorem packetsPieces_tiles (c : Nat) (fs : List Slice) :
    Tiles c (c+16*(fs.map packetOctowords).sum) (packetsPieces c fs) := by
  induction fs generalizing c with
  | nil => rfl
  | cons f fs ih =>
    have hdef : packetOctowords f=(f.len+19)/16 := rfl
    have h1 : Tiles c (c+16*packetOctowords f) (packetPieces c f) :=
      ⟨rfl,rfl,rfl,by change c+4+f.len+(16*packetOctowords f-4-f.len)=_; omega⟩
    rw [map_cons,sum_cons,mul_add,← add_assoc]
    exact h1.append (ih _)

theorem pointerPieces_tiles (lkey : UInt32) (c : Nat) (fs : List (Slice × UInt64)) :
    Tiles c (c+16*fs.length) (pointerPieces lkey c fs) := by
  induction fs generalizing c with
  | nil => rfl
  | cons f fs ih =>
    rw [length_cons,mul_add,add_comm (16*fs.length),← add_assoc]
    exact (dsegPieces_tiles c (ofNat f.1.len) lkey f.2).append (ih _)

theorem MPWSender.headPieces_tiles (s : MPWSender) (idx : UInt16) (ds : UInt32)
    (signaled : Bool) : Tiles 0 32 (s.headPieces idx ds signaled) :=
  ((ctrlPieces_tiles idx opcodeEnhancedMPSW s.qpn ds signaled).append
    (ethPieces_tiles s.csFlags)).append ⟨rfl,rfl⟩

end Packetio.Mlx5

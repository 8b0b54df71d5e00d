import Packetio.Mlx5.Ring.TxBuilt

/-! What Post does, said once for both loops: a series of turns, each of which
writes one entry for the next few descriptors. Here are the turn, the three ways
to write an entry, and the single-packet loop. -/
namespace Packetio.Mlx5.Ring
open Lib List

/-- The bytes from `addr` on, `len` of them, lie in one frame of the region. -/
def TxFixed.InFrame (f : TxFixed) (addr len : Nat) : Prop :=
  0<len ∧ ∃ i, i*(f.frameMask.toNat+1)≤addr ∧ addr+len≤(i+1)*(f.frameMask.toNat+1) ∧
    (i+1)*(f.frameMask.toNat+1)≤f.region.len

def TxFixed.segment (f : TxFixed) (d : Desc) : Slice × UInt64 :=
  (f.region.frame d,f.regionVA+d.addr)

theorem TxFixed.descOK_iff {f : TxFixed} {k : Nat} (hk : k<64) (hmask : f.frameMask.toNat=2^k-1)
    (hwhole : 2^k ∣ f.region.len) (d : Desc) :
    f.descOK d=true ↔ Packetio.InFrame (2^k) f.region.len 0 d.addr.toNat d.len.toNat := by
  have hlen := f.region.len_lt
  have hrl : (UInt64.ofNat f.region.len).toNat=f.region.len := toNat_small64 _ (by omega)
  rw [TxFixed.descOK,Bool.and_eq_true,decide_eq_true_iff,decide_eq_true_iff,pred_lt_iff,
    UInt64.lt_iff_toNat_lt,hrl,toNat_frame_rest hmask hk,inFrame_iff (Nat.two_pow_pos k) hwhole,
    and_iff_right (Nat.zero_le _)]

section
variable {f : TxFixed} (hb : f.Built)
include hb

theorem TxFixed.Built.descOK_iff (d : Desc) :
    f.descOK d=true ↔ f.InFrame d.addr.toNat d.len.toNat := by
  obtain ⟨m,hm,hmask,hdvd⟩ := hb.frame
  rw [TxFixed.descOK_iff (by omega) hmask hdvd,TxFixed.InFrame,hmask,
    Nat.sub_add_cancel (Nat.two_pow_pos m)]
  rfl

theorem TxFixed.Built.slice_eq {d : Desc} (hd : f.descOK d=true) :
    f.region.slice d.addr (d.addr+d.len.toUInt64)=some (f.region.frame d) := by
  obtain ⟨-,i,-,hhi,hend⟩ := (hb.descOK_iff d).mp hd
  exact f.region.slice_eq d (hhi.trans hend)

end

inductive Writes (t : Tx) : List Desc → Put → Prop
  | single (d : Desc) (signal : Bool) :
    Writes t [d]
      (t.sender.put t.sqBytes t.pi.toUInt16 (t.region.frame d) (t.regionVA+d.addr) signal)
  | pointers (m : MPWSender) (ds : List Desc) (hm : t.mpw=some m) (hp : m.pointer=true)
    (h2 : 2≤ds.length) (hk : ds.length ≤ m.maxPackets) :
    Writes t ds (m.putPointers t.sqBytes t.pi.toUInt16 (ds.map t.segment) false)
  | copied (m : MPWSender) (ds : List Desc) (hm : t.mpw=some m) (hp : m.pointer=false)
    (h2 : 2≤ds.length) (hk : fitsFrom m.maxLen 2 (ds.map t.region.frame)=ds.length) :
    Writes t ds (m.put t.sqBytes t.pi.toUInt16 (ds.map t.region.frame) false)

def Tx.Agree (t t' : Tx) : Prop :=
  ∃ c s st, t' = { t with c := c, sinceSignal := s, stats := st } ∧
    c.packets=t.c.packets ∧ c.bytes=t.c.bytes

structure Turn (t : Tx) (ds : List Desc) (p : Put) (t' : Tx) : Prop where
  writes : Writes t ds p
  ok : ∀ d∈ds, t.descOK d=true
  fits : p.bbs.toNat≤t.free.toNat
  room : t.mpw≠none → t.inFlight+ds.length≤t.numSlots.toNat
  next : Tx.Agree ((t.write p).record ds p.bbs) t'

inductive Turns : Tx → List Entry → Tx → Prop
  | done {t t' : Tx} (h : t.Agree t') : Turns t [] t'
  | turn {t t₁ t' : Tx} {ds : List Desc} {p : Put} {es : List Entry} (h : Turn t ds p t₁)
    (hs : Turns t₁ es t') : Turns t (⟨p.bbs.toNat,ds⟩::es) t'

theorem Tx.Agree.refl (t : Tx) : t.Agree t := ⟨t.c,t.sinceSignal,t.stats,rfl,rfl,rfl⟩

theorem Tx.Agree.trans {t u v : Tx} (h : t.Agree u) (h' : u.Agree v) : t.Agree v := by
  obtain ⟨c,s,st,rfl,hp,hb⟩ := h
  obtain ⟨c',s',st',rfl,hp',hb'⟩ := h'
  exact ⟨c',s',st',rfl,hp'.trans hp,hb'.trans hb⟩

section
variable {t t' : Tx} {ds : List Desc} {p : Put}

theorem Writes.bbs (hb : t.toTxFixed.Built) (h : Writes t ds p) :
    ds ≠ [] ∧ 1≤p.bbs.toNat ∧ p.bbs.toNat≤15 := by
  cases h with
  | single d signal =>
    have hin := hb.inlineLen
    have hds := t.sender.octowords_le (t.region.frame d).len
    have hpos : 1≤t.sender.octowords (t.region.frame d).len := by
      rw [Sender.octowords]
      omega
    rw [t.sender.toNat_put_bbs hin _ _ _ (UInt32.toNat_lt _)]
    exact ⟨by simp,by omega,by omega⟩
  | pointers m ds hm hp h2 hk =>
    obtain ⟨hmax,-⟩ := (hb.multi m hm).pointer hp
    have hlen : (UInt32.ofNat (2+(ds.map t.segment).length)).toNat=2+ds.length := by
      rw [length_map,toNat_small _ (by omega)]
    change _ ∧ 1≤(blocksFor _).toNat ∧ (blocksFor _).toNat≤15
    rw [toNat_blocksFor _ (by omega),hlen]
    exact ⟨fun h0 => by simp [h0] at h2,by omega,by omega⟩
  | copied m ds hm hp h2 hk =>
    obtain ⟨-,hlo,hhi⟩ := fitsFrom_eq_length (hk.trans (length_map _).symm) (by decide)
    change _ ∧ 1≤(blocksFor (mpwOctowords _)).toNat ∧ (blocksFor (mpwOctowords _)).toNat≤15
    rw [← mpwOctowords] at hlo hhi
    change 2≤_ at hlo
    rw [toNat_blocksFor _ (by omega)]
    exact ⟨fun h0 => by simp [h0] at h2,by omega,by omega⟩

theorem single_bbs_le (hb : t.toTxFixed.Built) (d : Desc) (buf : Nat → UInt8) (idx : UInt16)
    (addr : UInt64) (signal : Bool) :
    (t.sender.put buf idx (t.region.frame d) addr signal).bbs.toNat≤t.maxBBs.toNat := by
  have hds := t.sender.octowords_le (t.region.frame d).len
  rw [t.sender.toNat_put_bbs hb.inlineLen _ _ _ (UInt32.toNat_lt _),hb.maxBBs]
  omega

end

theorem Turn.fixed {t t' : Tx} {ds : List Desc} {p : Put} (h : Turn t ds p t') :
    t'.toTxFixed=t.toTxFixed := by
  obtain ⟨_,_,_,rfl,-,-⟩ := h.next
  rfl

structure Single (t : Tx) (last : Bool) (d : Desc) (p : Put) (t' : Tx) : Prop where
  put : p=t.sender.put t.sqBytes t.pi.toUInt16 (t.region.frame d) (t.regionVA+d.addr)
    (t.signals last)
  turn : Turn t [d] p t'
  sinceSignal : t'.sinceSignal=if t.signals last then 0 else t.sinceSignal+1
  free : t.free.toNat≤t'.free.toNat+t.maxBBs.toNat

theorem postOne_single {t : Tx} (hb : t.toTxFixed.Built) (hm : t.mpw=none) {d : Desc}
    (hd : t.descOK d=true) (last : Bool) (hroom : t.maxBBs.toNat≤t.free.toNat) :
    ∃ p t', t.postOne last d=some t' ∧ Single t last d p t' := by
  set p := t.sender.put t.sqBytes t.pi.toUInt16 (t.region.frame d) (t.regionVA+d.addr)
    (t.signals last)
  have hle : p.bbs.toNat≤t.maxBBs.toNat := single_bbs_le hb d _ _ _ _
  refine ⟨p,_,by simp only [Tx.postOne,hb.slice_eq hd]; rfl,rfl,?_,rfl,?_⟩
  · refine ⟨.single d _,?_,by omega,fun h => absurd hm h,⟨_,_,_,rfl,rfl,rfl⟩⟩
    intro d' hd'
    rwa [mem_singleton.mp hd']
  · have hfree := free_record t.toLedger [d] p.bbs (by change _≤t.free.toNat; omega)
    change _=t.free.toNat-_ at hfree
    change _≤(Ledger.free t.toTxFixed (Ledger.record t.toTxFixed t.toLedger [d] p.bbs)).toNat+_
    omega

theorem postLoop_turns (n : Nat) (ds : List Desc) (st : PostState) (hb : st.tx.toTxFixed.Built)
    (hm : st.tx.mpw=none) (hroom : ds.length*st.tx.maxBBs.toNat ≤ st.tx.free.toNat) :
    ∃ st' es, postLoop n ds st=some st' ∧ Turns st.tx es st'.tx ∧
      frames es=ds.takeWhile st.tx.descOK ∧ st'.posted=st.posted+packets es ∧
      st'.bytes=sumLens st.bytes (frames es) := by
  induction ds generalizing st with
  | nil => exact ⟨st,[],rfl,.done (.refl _),rfl,rfl,rfl⟩
  | cons d ds ih =>
    cases hd : st.tx.descOK d with
    | false =>
      refine ⟨{ st with tx := st.tx.countBadDesc },[],by rw [postLoop,hd]; rfl,
        .done ⟨_,_,_,rfl,rfl,rfl⟩,?_,rfl,rfl⟩
      rw [takeWhile_cons,hd]
      rfl
    | true =>
      rw [length_cons,add_mul,one_mul] at hroom
      obtain ⟨p,t₁,hone,h1⟩ := postOne_single hb hm hd (st.posted+1 == n) (by omega)
      have hfix := h1.turn.fixed
      have hfree := h1.free
      obtain ⟨st',es,hloop,hts,hfr,hpost,hbytes⟩ := ih ⟨t₁,st.bytes+d.len.toUInt64,st.posted+1⟩
        (hfix ▸ hb) (by rw [hfix]; exact hm) (by rw [hfix]; change _≤t₁.free.toNat; omega)
      rw [hfix] at hfr
      refine ⟨st',_,?_,.turn h1.turn hts,?_,?_,?_⟩
      · rw [postLoop,hd]
        simp only [hone,Bool.not_true,Bool.false_eq_true,if_false]
        exact hloop
      · rw [frames_cons,hfr,takeWhile_cons,hd]
        rfl
      · rw [hpost,packets_cons]
        simp only [length_singleton]
        omega
      · rw [hbytes,frames_cons]
        rfl

end Packetio.Mlx5.Ring

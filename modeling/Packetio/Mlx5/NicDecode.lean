import Mathlib.Algebra.BigOperators.Group.List.Basic
import Mathlib.Data.Nat.Bitwise
import Packetio.Mlx5.Nic
import Packetio.Mlx5.WqeLayout

/-! The NIC reads back what the senders write. A memory that holds the pieces of an
entry is decoded to the packets the entry was made of. -/
namespace Packetio.Mlx5
open Lib List Nat UInt32

/-- The memory holds the pieces from `base` on, but for the byte that asks for a
completion, which may be set after the entry was written. -/
def Holds (L base : Nat) (mem : Nat → UInt8) (ps : List (Piece UInt8)) : Prop :=
  ∀ f∈ps, ∀ i<f.len, f.pos+i≠11 → window L mem base (f.pos+i)=f.src i

variable {k c v b a fuel : Nat} {x pos ds : UInt32} {m : MPWSender} {signaled : Bool}

theorem Holds.congr {L base : Nat} {mem mem' : Nat → UInt8} {ps : List (Piece UInt8)}
    (h : Holds L base mem ps) (hin : Between 0 k ps)
    (hsame : ∀ a<k, a≠11 → mem' ((base+a)%L)=mem ((base+a)%L)) : Holds L base mem' ps := by
  intro g hg i hi h11
  have hle := hin.upper g hg
  rw [← h g hg i hi h11]
  exact hsame _ (by omega) h11

structure Nic.Sized (n : Nic) (L : Nat) : Prop where
  sqLen : n.sqLen=L
  pow : ∃ m, 6 ≤ m ∧ m<32 ∧ L=2^m

section
variable {n : Nic} {L base : Nat} (h : n.Sized L) {mem : Nat → UInt8}
include h

theorem Nic.Sized.bounds : 64≤L ∧ L≤2^31 ∧ 0<L := by
  obtain ⟨m,h6,h32,rfl⟩ := h.pow
  have h1 : 2^6≤2^m := Nat.pow_le_pow_right (by decide) h6
  have h2 : 2^m≤2^31 := Nat.pow_le_pow_right (by decide) (by omega)
  omega

theorem Nic.Sized.mask : (UInt32.ofNat n.sqLen-1).toNat=L-1 := by
  obtain ⟨h64,h31,-⟩ := h.bounds
  rw [h.sqLen,UInt32.toNat_sub,toNat_small _ (by omega)]
  change (2^32-1+L)%2^32=_
  omega

theorem Nic.Sized.and_mask (x : UInt32) : (x &&& (UInt32.ofNat n.sqLen-1)).toNat=x.toNat%L := by
  have hmask := h.mask
  obtain ⟨m,-,-,rfl⟩ := h.pow
  rw [UInt32.toNat_and,hmask,and_two_pow_sub_one_eq_mod]

theorem readSQ_eq (hx : x.toNat=base%L+c) (k : UInt32) (hk : k.toNat≤L) :
    n.readSQ mem x k=(List.range k.toNat).map fun i => window L mem base (c+i) := by
  obtain ⟨h64,h31,hpos⟩ := h.bounds
  have hoff : (x &&& (ofNat n.sqLen-1)).toNat=(base+c)%L := by rw [h.and_mask,hx,mod_add_mod]
  have hlt := mod_lt (base+c) hpos
  have hsize : (ofNat n.sqLen).toNat=L := by rw [h.sqLen,toNat_small _ (by omega)]
  rw [Nic.readSQ]
  generalize x &&& (ofNat n.sqLen-1)=off at hoff
  have hsum : (off+k).toNat=off.toNat+k.toNat := by
    rw [UInt32.toNat_add]
    omega
  have hcell : ∀ i, (base+(c+i))%L=((base+c)%L+i)%L := by
    intro i
    rw [← add_assoc,mod_add_mod]
  by_cases hle : off+k≤ofNat n.sqLen
  · rw [if_pos hle]
    rw [le_iff_toNat_le,hsum,hsize,hoff] at hle
    refine map_congr_left fun i hi => ?_
    have hi' := mem_range.mp hi
    rw [window,hcell,mod_eq_of_lt (by omega),hoff]
  rw [if_neg hle]
  rw [le_iff_toNat_le,hsum,hsize,hoff] at hle
  have hfirst : (ofNat n.sqLen-off).toNat=L-(base+c)%L := by
    rw [UInt32.toNat_sub_of_le _ _ (by rw [le_iff_toNat_le]; omega),hsize,hoff]
  have hrest : (k-(ofNat n.sqLen-off)).toNat=k.toNat-(L-(base+c)%L) := by
    rw [UInt32.toNat_sub_of_le _ _ (by rw [le_iff_toNat_le, hfirst]; omega),hfirst]
  obtain ⟨a,ha⟩ : ∃ a, L-(base+c)%L=a := ⟨_,rfl⟩
  obtain ⟨b,hb⟩ : ∃ b, k.toNat=a+b := ⟨k.toNat-a,by omega⟩
  rw [hfirst,hrest,ha,hb,Nat.add_sub_cancel_left,range_add,map_append,map_map]
  congr 1
  · refine map_congr_left fun i hi => ?_
    have hi' := mem_range.mp hi
    rw [window,hcell,mod_eq_of_lt (by omega),hoff]
  · refine map_congr_left fun i hi => ?_
    have hi' := mem_range.mp hi
    rw [Function.comp,window,hcell]
    have hwrap : (base+c)%L+(a+i)=i+L := by omega
    rw [hwrap,add_mod_right,mod_eq_of_lt (by omega)]

variable {ps : List (Piece UInt8)} (hps : Holds L base mem ps)
include hps

theorem Holds.read {x k : UInt32} {f : Piece UInt8} (hf : f∈ps) (h11 : 11<f.pos)
    (hx : x.toNat=base%L+f.pos) (hk : k.toNat=f.len) (hle : f.len≤L) :
    n.readSQ mem x k=(List.range f.len).map f.src := by
  rw [readSQ_eq h hx k (by omega),hk]
  exact map_congr_left fun i hi => hps f hf i (mem_range.mp hi) (by omega)

theorem Holds.be32 (hf : bePiece c 4 v∈ps) (h11 : 11<c)
    (hx : x.toNat=base%L+c) : bigEndian32 (n.readSQ mem x 4)=UInt32.ofNat v := by
  have hb := h.bounds
  have hread : n.readSQ mem x 4=(List.range 4).map (beByte 4 v) :=
    Holds.read h hps hf h11 hx rfl (by change 4≤L; omega)
  rw [bigEndian32,hread,beList_range,beNat_beByte,← UInt32.toNat_inj,toNat_ofNat',toNat_ofNat']
  omega

theorem Holds.be64 (hf : bePiece c 8 v∈ps) (h11 : 11<c)
    (hx : x.toNat=base%L+c) : bigEndian64 (n.readSQ mem x 8)=UInt64.ofNat v := by
  have hb := h.bounds
  have hread : n.readSQ mem x 8=(range 8).map (beByte 8 v) :=
    Holds.read h hps hf h11 hx rfl (by change 8≤L; omega)
  rw [bigEndian64,hread,beList_range,beNat_beByte,← UInt64.toNat_inj,UInt64.toNat_ofNat',
    UInt64.toNat_ofNat']
  omega

end

theorem toNat_add_small (x a : UInt32) (hx : x.toNat=b) (hle : b+a.toNat<2^32) :
    (x+a).toNat=b+a.toNat := by
  rw [UInt32.toNat_add,hx,Nat.mod_eq_of_lt hle]

theorem readSegment_eq {n : Nic} {L base : Nat} (h : n.Sized L) {mem : Nat → UInt8}
    {ps : List (Piece UInt8)} (hps : Holds L base mem ps)
    (hva : n.regionVA.toNat+n.region.len<2^64) {count : UInt32} (hx : x.toNat=base%L+c) (h11 : 11<c)
    (hc : c≤1024) (hmem : ∀ f∈dsegPieces c count n.lkey (n.regionVA+UInt64.ofNat a), f∈ps)
    (hcount : count≠0) (hin : a+count.toNat≤n.region.len) :
    n.readSegment mem x count=some (n.regionVA+UInt64.ofNat a,
      (List.range count.toNat).map fun i => n.region.mem (a+i)) := by
  obtain ⟨h64,h31,hpos⟩ := h.bounds
  have hlt := Nat.mod_lt base hpos
  have h4 : (x+4).toNat=base%L+(c+4) := by
    rw [toNat_add_small x 4 hx (by change _+4 < _; omega)]
    rfl
  have h8 : (x+8).toNat=base%L+(c+8) := by
    rw [toNat_add_small x 8 hx (by change _+8 < _; omega)]
    rfl
  have hkey :=
    Holds.be32 h hps (hmem (bePiece (c+4) 4 n.lkey.toNat) (by simp [dsegPieces])) (by omega) h4
  have haddr := Holds.be64 h hps (hmem (bePiece (c+8) 8 (n.regionVA+UInt64.ofNat a).toNat)
    (by simp [dsegPieces])) (by omega) h8
  rw [UInt32.ofNat_toNat] at hkey
  rw [UInt64.ofNat_toNat] at haddr
  have ha : (UInt64.ofNat a).toNat=a := toNat_small64 _ (by omega)
  have hend : (UInt64.ofNat n.region.len).toNat=n.region.len := toNat_small64 _ (by omega)
  have hsum : (n.regionVA+UInt64.ofNat a).toNat=n.regionVA.toNat+a := by
    rw [UInt64.toNat_add,ha,Nat.mod_eq_of_lt (by omega)]
  have hbounds :
    ¬ (n.regionVA+UInt64.ofNat a<n.regionVA ∨ n.regionVA+UInt64.ofNat a+count.toUInt64 >
      n.regionVA+UInt64.ofNat n.region.len) := by
    rw [gt_iff_lt,UInt64.lt_iff_toNat_lt,UInt64.lt_iff_toNat_lt,UInt64.toNat_add _ count.toUInt64,
      hsum,UInt64.toNat_add n.regionVA,hend,toNat_toUInt64]
    omega
  have hstart : (n.regionVA+UInt64.ofNat a-n.regionVA).toNat=a := by
    rw [UInt64.add_comm,UInt64.add_sub_cancel,ha]
  simp only [Nic.readSegment,hkey,haddr,hcount,ne_eq,not_true,or_self,if_false,hbounds,hstart]

section
variable {x : UInt32} (h : x.toNat<2^31)
include h

theorem flag_clear : x &&& mpwInlineFlag=0 := by
  rw [← UInt32.toNat_inj,UInt32.toNat_and]
  change x.toNat &&& 2^31=0
  rw [and_two_pow,testBit_lt_two_pow h]
  rfl

theorem toNat_flagged : (x ||| mpwInlineFlag).toNat=x.toNat+2^31 := by
  exact or_two_pow_eq_add_of_lt h

theorem flag_set : (x ||| mpwInlineFlag) &&& mpwInlineFlag≠0 := by
  intro h0
  have ha := congrArg UInt32.toNat h0
  rw [UInt32.toNat_and,toNat_flagged h] at ha
  change (x.toNat+2^31) &&& 2^31=0 at ha
  rw [and_two_pow,Nat.add_comm,testBit_two_pow_add_eq,testBit_lt_two_pow h] at ha
  cases ha

theorem flag_strip : (x ||| mpwInlineFlag) &&& ~~~mpwInlineFlag=x := by
  rw [← UInt32.toNat_inj,UInt32.toNat_and,toNat_flagged h]
  change (x.toNat+2^31) &&& (2^31-1)=_
  rw [and_two_pow_sub_one_eq_mod]
  omega

end

section
variable {n : Nic} {L base : Nat} (h : n.Sized L) {mem : Nat → UInt8} {ps : List (Piece UInt8)}
  (hps : Holds L base mem ps) {block stop pos : UInt32} {c E : Nat}
  (hpos : pos.toNat=base%L+c) (hstop : stop.toNat=base%L+E) (hE : E≤1024) (h11 : 11<c)
include h hps hpos hstop hE h11

theorem readPackets_pointer (hva : n.regionVA.toNat+n.region.len<2^64) {len : Nat}
    (hmem : ∀ f∈dsegPieces c (UInt32.ofNat len) n.lkey (n.regionVA+UInt64.ofNat a), f∈ps)
    (hlen : 0<len) (hlt : len<2^31) (hin : a+len≤n.region.len) (hle : c+16≤E) (fuel : Nat) :
    n.readPackets mem block stop (fuel+1) pos =
      (n.readPackets mem block stop fuel (pos+octoword)).map
        (⟨(List.range len).map fun i => n.region.mem (a+i),n.regionVA+UInt64.ofNat a,block,
        0⟩::·) := by
  obtain ⟨h64,h31,hL⟩ := h.bounds
  have hmod := Nat.mod_lt base hL
  have hcount : (UInt32.ofNat len).toNat=len := toNat_small _ (by omega)
  have hlt' : pos<stop := by
    rw [lt_iff_toNat_lt,hpos,hstop]
    omega
  have hword :=
    Holds.be32 h hps (hmem (bePiece c 4 (UInt32.ofNat len).toNat) (by simp [dsegPieces]))
    h11 hpos
  rw [UInt32.ofNat_toNat] at hword
  have hfit : ¬ pos+octoword > stop := by
    rw [gt_iff_lt,lt_iff_toNat_lt,toNat_add_small pos octoword hpos
      (by change _+16 < _; omega),hstop]
    change ¬ _ < _+16
    omega
  have hne : UInt32.ofNat len≠0 := by
    intro h0
    rw [h0] at hcount
    change 0=len at hcount
    omega
  have hseg := readSegment_eq h hps hva hpos h11 (by omega) hmem hne (by rw [hcount]; exact hin)
  rw [hcount] at hseg
  rw [Nic.readPackets]
  simp only [hlt',not_true,if_false,hword,flag_clear (by rw [hcount]; exact hlt),if_true,hfit,
    hseg]

theorem readPackets_copied {f : Slice} (hmem : ∀ g∈packetPieces c f, g∈ps) (hlen : 0<f.len)
    (hle : c+16*packetOctowords f≤E) (hcap : f.len≤L) (fuel : Nat) :
    ∃ pos', pos'.toNat=base%L+(c+16*packetOctowords f) ∧ n.readPackets mem block stop (fuel+1) pos =
        (n.readPackets mem block stop fuel pos').map (⟨f.toList,0,block,f.len⟩::·) := by
  obtain ⟨h64,h31,hL⟩ := h.bounds
  have hmod := Nat.mod_lt base hL
  rw [packetOctowords] at hle
  have hsize : (UInt32.ofNat f.len).toNat=f.len := toNat_small _ (by omega)
  have hshort : (UInt32.ofNat f.len).toNat<2^31 := by omega
  have hlt' : pos<stop := by
    rw [lt_iff_toNat_lt,hpos,hstop]
    omega
  have hword := Holds.be32 h hps (hmem (bePiece c 4 (UInt32.ofNat f.len ||| mpwInlineFlag).toNat)
    (by simp [packetPieces])) h11 hpos
  rw [UInt32.ofNat_toNat] at hword
  have h4 : (pos+4).toNat=base%L+(c+4) := by
    rw [toNat_add_small pos 4 hpos (by change _+4 < _; omega)]
    rfl
  have hend : (pos+4+UInt32.ofNat f.len).toNat=base%L+(c+4+f.len) := by
    rw [toNat_add_small _ _ h4 (by rw [hsize]; omega),hsize]
    omega
  have hno : ¬ (UInt32.ofNat f.len=0 ∨ pos+4+UInt32.ofNat f.len > stop) := by
    rw [gt_iff_lt,lt_iff_toNat_lt,hend,hstop,← UInt32.toNat_inj,hsize]
    change ¬ (f.len=0 ∨ _)
    omega
  have hread := Holds.read h hps (x := pos+4) (k := UInt32.ofNat f.len)
    (hmem ⟨c+4,f.len,f.get⟩ (by simp [packetPieces])) (by change 11<c+4; omega) h4 hsize hcap
  have hstep : ((4+UInt32.ofNat f.len+octoword-1)/octoword*octoword).toNat =
    16*packetOctowords f := by
    have hsum : (4+UInt32.ofNat f.len+octoword-1).toNat=f.len+19 := by
      rw [UInt32.toNat_sub,UInt32.toNat_add,UInt32.toNat_add,hsize]
      change (2^32-1+((4+f.len)%2^32+16)%2^32)%2^32=_
      omega
    rw [UInt32.toNat_mul,UInt32.toNat_div,hsum,packetOctowords]
    change (f.len+19)/16*16%2^32=_
    omega
  refine ⟨pos+(4+UInt32.ofNat f.len+octoword-1)/octoword*octoword,?_,?_⟩
  · rw [toNat_add_small _ _ hpos (by rw [hstep, packetOctowords]; omega),hstep]
    omega
  · rw [Nic.readPackets]
    simp only [hlt',not_true,if_false,hword,flag_set hshort,flag_strip hshort,hno,hread,hsize]
    rfl

end

theorem toList_split (f : Slice) (h : a+b=f.len) :
    f.toList=(List.range a).map f.get++(List.range b).map fun i => f.mem (f.off+a+i) := by
  rw [Slice.toList,← h,range_add,map_append,map_map]
  congr 1
  refine map_congr_left fun i _ => ?_
  rw [Function.comp,Slice.get,add_assoc]

theorem region_addr (v : UInt64) (a : Nat) (k : UInt32) :
    v+UInt64.ofNat a+k.toUInt64=v+UInt64.ofNat (a+k.toNat) := by
  have hk := k.toNat_lt
  rw [UInt64.ofNat_add,← UInt64.add_assoc]
  congr 1
  rw [← UInt64.toNat_inj,toNat_toUInt64,toNat_small64 _ (by omega)]

structure Nic.Points (n : Nic) (p : Slice × UInt64) : Prop where
  mem : p.1.mem=n.region.mem
  addr : p.2=n.regionVA+UInt64.ofNat p.1.off
  pos : 0<p.1.len
  le : p.1.off+p.1.len≤n.region.len

section
variable {n : Nic} {L base : Nat} (h : n.Sized L) {mem : Nat → UInt8} {ps : List (Piece UInt8)}
  (hps : Holds L base mem ps) {block stop : UInt32} {E : Nat} (hstop : stop.toNat=base%L+E)
  (hE : E≤1024)
include hstop

theorem readPackets_end (hpos : pos.toNat=base%L+E) (fuel : Nat) :
    n.readPackets mem block stop fuel pos=some [] := by
  have hno : ¬ pos<stop := by
    rw [lt_iff_toNat_lt,hpos,hstop]
    omega
  cases fuel with
  | zero => rw [Nic.readPackets,if_neg hno]
  | succ fuel => rw [Nic.readPackets,if_pos hno]

include h hps hE

theorem readPackets_pointers (hva : n.regionVA.toNat+n.region.len<2^64) (fs : List (Slice × UInt64))
    (hpos : pos.toNat=base%L+c) (h11 : 11<c)
    (hmem : ∀ g∈pointerPieces n.lkey c fs, g∈ps) (hfs : ∀ p∈fs, n.Points p ∧ p.1.len<2^31)
    (hend : E=c+16*fs.length) (hfuel : fs.length≤fuel) :
    n.readPackets mem block stop fuel pos=some (fs.map fun p => ⟨p.1.toList,p.2,block,0⟩) := by
  induction fs generalizing pos c fuel with
  | nil => exact readPackets_end hstop (by rw [hpos,hend]; rfl) fuel
  | cons p fs ih =>
    obtain ⟨f,addr⟩ := p
    obtain ⟨hp,hlt⟩ := hfs (f,addr) (by simp)
    obtain ⟨fuel,rfl⟩ : ∃ k, fuel=k+1 := ⟨fuel-1,by rw [length_cons] at hfuel; omega⟩
    obtain ⟨-,h31,hL⟩ := h.bounds
    have hmod := Nat.mod_lt base hL
    have haddr : addr=n.regionVA+UInt64.ofNat f.off := hp.addr
    rw [length_cons] at hend hfuel
    have hbytes : f.toList=(List.range f.len).map fun i => n.region.mem (f.off+i) := by
      rw [Slice.toList,← hp.mem]
      rfl
    have hseg :
      ∀ g∈dsegPieces c (UInt32.ofNat f.len) n.lkey (n.regionVA+UInt64.ofNat f.off), g∈ps :=
      fun g hg => hmem g (by rw [pointerPieces,haddr]; exact mem_append_left _ hg)
    have hnext : (pos+octoword).toNat=base%L+(c+16) := by
      rw [toNat_add_small pos octoword hpos (by change _+16 < _; omega)]
      rfl
    rw [readPackets_pointer h hps hpos hstop hE h11 hva hseg hp.pos hlt hp.le (by omega),
      ih hnext (by omega) (fun g hg => hmem g (mem_append_right _ hg))
        (fun q hq => hfs q (by simp [hq])) (by omega) (by omega),map_cons,hbytes,haddr]
    rfl

theorem readPackets_packets (fs : List Slice)
    (hpos : pos.toNat=base%L+c) (h11 : 11<c) (hmem : ∀ g∈packetsPieces c fs, g∈ps)
    (hfs : ∀ f∈fs, 0<f.len) (hend : E=c+16*(fs.map packetOctowords).sum) (hcap : E≤L)
    (hfuel : fs.length≤fuel) :
    n.readPackets mem block stop fuel pos=some (fs.map fun f => ⟨f.toList,0,block,f.len⟩) := by
  induction fs generalizing pos c fuel with
  | nil => exact readPackets_end hstop (by rw [hpos,hend]; rfl) fuel
  | cons f fs ih =>
    obtain ⟨fuel,rfl⟩ : ∃ k, fuel=k+1 := ⟨fuel-1,by rw [length_cons] at hfuel; omega⟩
    rw [map_cons,sum_cons] at hend
    rw [length_cons] at hfuel
    have hlen : f.len≤16*packetOctowords f := by
      rw [packetOctowords]
      omega
    obtain ⟨pos',hpos',hstep⟩ : ∃ pos', _ ∧ n.readPackets mem block stop (fuel+1) pos=_ :=
      readPackets_copied h hps hpos hstop hE h11 (fun g hg => hmem g (mem_append_left _ hg))
        (hfs f (by simp)) (by omega) (by omega) fuel
    rw [hstep,ih hpos' (by omega) (fun g hg => hmem g (mem_append_right _ hg))
      (fun q hq => hfs q (by simp [hq])) (by omega) (by omega)]
    rfl

end

theorem toNat_index_opcode (idx : UInt16) (op : UInt32) (hop : op.toNat<256) :
    (idx.toUInt32 <<< 8 ||| op).toNat=idx.toNat*256+op.toNat := by
  have hidx := idx.toNat_lt
  change (idx.toNat <<< 8%2^32 ||| op.toNat)=_
  rw [shiftLeft_eq,mod_eq_of_lt (by omega),← shiftLeft_eq,
    ← shiftLeft_add_eq_or_of_lt (by omega : op.toNat<2^8),shiftLeft_eq]

theorem toNat_qpn_ds (qpn ds : UInt32) (hds : ds.toNat<256) :
    (qpn <<< 8 ||| ds).toNat=qpn.toNat%2^24*256+ds.toNat := by
  have hshift : (qpn <<< 8).toNat=(qpn.toNat%2^24) <<< 8 := by
    rw [UInt32.toNat_shiftLeft,shiftLeft_eq,shiftLeft_eq]
    change qpn.toNat*2^8%2^32=_
    omega
  rw [UInt32.toNat_or,hshift,← shiftLeft_add_eq_or_of_lt (by omega : ds.toNat<2^8),
    shiftLeft_eq]

section
variable {n : Nic} {L : Nat} (h : n.Sized L) {mem : Nat → UInt8} {P : Nat}
include h

theorem Nic.Sized.offset : ((UInt32.ofNat P &&& (n.blocks-1))*wqebb).toNat=64*P%L := by
  obtain ⟨m,h6,h32,hL⟩ := h.pow
  obtain ⟨j,rfl⟩ : ∃ j, m=j+6 := ⟨m-6,by omega⟩
  have hdiv : n.sqLen/64=2^j := by
    rw [h.sqLen,hL,pow_add]
    omega
  have hj : 2^j<2^26 := Nat.pow_lt_pow_right (by decide) (by omega)
  have hj0 := Nat.two_pow_pos j
  have hmask : (n.blocks-1).toNat=2^j-1 := by
    rw [Nic.blocks,hdiv,UInt32.toNat_sub,toNat_small _ (by omega)]
    change (2^32-1+2^j)%2^32=_
    omega
  have hmod : 64*P%L=64*(P%2^j) := by
    rw [hL,pow_add,Nat.mul_comm (2^j)]
    exact mul_mod_mul_left 64 P (2^j)
  rw [UInt32.toNat_mul,ofNat_and_mask P j (n.blocks-1) (by omega) hmask,hmod]
  change P%2^j*64%2^32=_
  omega

theorem Nic.Sized.first (a : Nat) (ha : a<64) : mem (64*P%L+a)=window L mem (64*P) a := by
  obtain ⟨m,h6,-,rfl⟩ := h.pow
  obtain ⟨j,rfl⟩ : ∃ j, m=j+6 := ⟨m-6,by omega⟩
  have hmod : 64*P%2^(j+6)=64*(P%2^j) := by
    rw [pow_add,mul_comm (2^j)]
    exact mul_mod_mul_left 64 P (2^j)
  have ha' : a%2^(j+6)=a := mod_eq_of_lt (by rw [pow_add]; omega)
  have hsum : (64*(P%2^j)+a)%2^(j+6)=64*(P%2^j)+a := mod_eq_of_lt (by rw [pow_add]; omega)
  rw [window,add_mod,hmod,ha',hsum]

variable {ps : List (Piece UInt8)} (hps : Holds L (64*P) mem ps)
include hps

theorem Holds.byte (hf : bePiece c k v∈ps) (i : Nat) (hi : i<k) (ha : c+i<64)
    (h11 : c+i≠11) : mem (64*P%L+(c+i))=beByte k v i :=
  (h.first _ ha).trans (hps _ hf i hi h11)

theorem Holds.word (hf : bePiece c k v∈ps) (ha : c+k≤64) (h11 : c+k≤11 ∨ 11<c)
    (hx : x.toNat=64*P%L+c) : beNat k (fun i => mem (x.toNat+i))=v%256^k := by
  rw [← beNat_beByte]
  refine beNat_congr _ _ _ fun i hi => ?_
  rw [hx,add_assoc]
  exact Holds.byte h hps hf i hi (by omega) (by omega)

theorem processOne_eq {opcode qpn : UInt32}
    (hmem : ∀ f∈ctrlPieces (UInt32.ofNat P).toUInt16 opcode qpn ds signaled, f∈ps)
    (hop : opcode=opcodeSend ∨ opcode=opcodeEnhancedMPSW) (hqpn : n.qpn=qpn &&& 0xffffff)
    (hds : 1≤ds.toNat) (hds' : ds.toNat≤60) :
    ∃ off : UInt32, off.toNat=64*P%L ∧ n.processOne mem (UInt32.ofNat P) =
      (if opcode=opcodeEnhancedMPSW then n.processMultiPacket mem (UInt32.ofNat P) off ds
        else n.processSingle mem (UInt32.ofNat P) off ds).map fun pkts => (pkts,blocksFor ds) := by
  obtain ⟨h64,h31,hL⟩ := h.bounds
  have hoff := h.offset (P := P)
  refine ⟨_,hoff,?_⟩
  have hlt := mod_lt (64*P) hL
  have hop256 : opcode.toNat<256 := by
    cases hop with
    | inl he | inr he => rw [he]; decide
  have hword : bePiece 0 4 ((ofNat P).toUInt16.toUInt32 <<< 8 ||| opcode).toNat∈ps :=
    hmem _ (by simp [ctrlPieces])
  have hqd : bePiece 4 4 (qpn <<< 8 ||| ds).toNat∈ps := hmem _ (by simp [ctrlPieces])
  rw [toNat_index_opcode _ _ hop256] at hword
  rw [toNat_qpn_ds _ _ (by omega)] at hqd
  rw [Nic.processOne]
  generalize (ofNat P &&& (n.blocks-1))*wqebb=off at hoff
  have hat : ∀ a : UInt32, a.toNat<64 → (off+a).toNat=64*P%L+a.toNat := fun a ha =>
    toNat_add_small off a hoff (by omega)
  have h3 : (mem (off+3).toNat).toUInt32=opcode := by
    have hb := Holds.byte h hps hword 3 (by decide) (by decide) (by decide)
    rw [hat 3 (by decide)]
    change (mem (64*P%L+(0+3))).toUInt32=_
    rw [hb,← UInt32.toNat_inj,UInt8.toNat_toUInt32,beByte,UInt8.toNat_ofNat']
    omega
  have h12 : (mem (off+1).toNat).toUInt32 <<< 8 ||| (mem (off+2).toNat).toUInt32 =
      ofNat P &&& 0xffff := by
    have hb1 := Holds.byte h hps hword 1 (by decide) (by decide) (by decide)
    have hb2 := Holds.byte h hps hword 2 (by decide) (by decide) (by decide)
    rw [hat 1 (by decide),hat 2 (by decide)]
    change (mem (64*P%L+(0+1))).toUInt32 <<< 8 ||| (mem (64*P%L+(0+2))).toUInt32=_
    have hsplit :=
      toNat_index_opcode (beByte 4 ((ofNat P).toUInt16.toNat*256+opcode.toNat) 1).toUInt16
      (beByte 4 ((ofNat P).toUInt16.toNat*256+opcode.toNat) 2).toUInt32
      (by rw [UInt8.toNat_toUInt32]; exact UInt8.toNat_lt _)
    rw [UInt8.toUInt32_toUInt16] at hsplit
    rw [hb1,hb2,← UInt32.toNat_inj,hsplit,ofNat_and_mask P 16 0xffff (by decide) rfl,
      UInt8.toNat_toUInt16,UInt8.toNat_toUInt32,beByte,beByte,UInt8.toNat_ofNat',
      UInt8.toNat_ofNat',toUInt16_ofNat',UInt16.toNat_ofNat']
    omega
  have hqpnds : (beNat 4 fun i => mem ((off+4).toNat+i))=qpn.toNat%2^24*256+ds.toNat := by
    rw [Holds.word h hps hqd (by decide) (by decide) (hat 4 (by decide))]
    omega
  have hq : (ofNat (qpn.toNat%2^24*256+ds.toNat)).toNat=qpn.toNat%2^24*256+ds.toNat :=
    toNat_small _ (by omega)
  have hhigh : ofNat (qpn.toNat%2^24*256+ds.toNat) >>> 8=n.qpn := by
    rw [hqpn,← UInt32.toNat_inj,UInt32.toNat_shiftRight,hq,
      toNat_and_mask qpn 0xffffff 24 rfl,shiftRight_eq_div_pow]
    change (_)/2^8=_
    omega
  have hlow : ofNat (qpn.toNat%2^24*256+ds.toNat) &&& 0xff=ds := by
    rw [← UInt32.toNat_inj,toNat_and_mask _ 0xff 8 rfl,hq]
    omega
  have hno : ¬ (ds=0 ∨ ds > maxDS) := by
    rw [gt_iff_lt,lt_iff_toNat_lt,← UInt32.toNat_inj]
    change ¬ (ds.toNat=0 ∨ 60<ds.toNat)
    omega
  have hkind : ¬ (opcode≠opcodeSend ∧ opcode≠opcodeEnhancedMPSW) := fun hn => hop.elim hn.1 hn.2
  simp only [h3,h12,hqpnds,hhigh,hlow,hkind,hno,ne_eq,not_true,or_self,if_false]
  by_cases hm : opcode=opcodeEnhancedMPSW
  · rw [if_pos hm,if_pos hm]
    rfl
  · rw [if_neg hm,if_neg hm]
    rfl

theorem processOne_multi {pkts : List Packet}
    (hmem : ∀ f∈m.headPieces (UInt32.ofNat P).toUInt16 ds signaled, f∈ps)
    (hqpn : n.qpn=m.qpn &&& 0xffffff) (hds : 2≤ds.toNat) (hds' : ds.toNat≤60)
    (hread : ∀ pos stop : UInt32, pos.toNat=64*P%L+32 → stop.toNat=64*P%L+16*ds.toNat →
      n.readPackets mem (UInt32.ofNat P) stop 64 pos=some pkts) (hne : pkts ≠ []) :
    n.processOne mem (UInt32.ofNat P)=some (pkts,blocksFor ds) := by
  obtain ⟨h64,h31,hL⟩ := h.bounds
  have hlt := mod_lt (64*P) hL
  obtain ⟨off,hoff,hone⟩ := processOne_eq h hps
    (fun f hf => hmem f (mem_append_left _ (mem_append_left _ hf))) (.inr rfl) hqpn
    (by omega) hds'
  have hhdr : beList (n.readSQ mem (off+ethInlineHdrSz) 2)=0 := by
    have hx : (off+ethInlineHdrSz).toNat=64*P%L+28 :=
      toNat_add_small off ethInlineHdrSz hoff (by change _+28 < _; omega)
    rw [readSQ_eq h hx 2 (by change 2≤L; omega)]
    have hz : ∀ i∈range (2 : UInt32).toNat, window L mem (64*P) (28+i)=0 := by
      intro i hi
      have hi' : i<2 := mem_range.mp hi
      have hb := hps (bePiece 28 4 0) (hmem _ (by simp [MPWSender.headPieces])) i
        (by change i<4; omega) (by change 28+i≠11; omega)
      rw [show window L mem (64*P) (28+i)=beByte 4 0 i from hb,beByte,Nat.zero_div]
      rfl
    rw [map_congr_left hz]
    decide
  have hpos : (off+ctrlSegSize+mpwEthSegSize).toNat=64*P%L+32 := by
    have h16 : (off+ctrlSegSize).toNat=64*P%L+16 :=
      toNat_add_small off ctrlSegSize hoff (by change _+16 < _; omega)
    exact toNat_add_small _ mpwEthSegSize h16 (by change _+16 < _; omega)
  have hmul : (ds*octoword).toNat=16*ds.toNat := by
    change ds.toNat*16%2^32=_
    omega
  have hstop : (off+ds*octoword).toNat=64*P%L+16*ds.toNat := by
    rw [toNat_add_small off _ hoff (by rw [hmul]; omega),hmul]
  rw [hone,if_pos rfl,Nic.processMultiPacket]
  simp only [hhdr,ne_eq,not_true,if_false,hread _ _ hpos hstop]
  cases pkts with
  | nil => exact absurd rfl hne
  | cons p pkts => rfl

theorem processOne_pointers {fs : List (Slice × UInt64)}
    (hmem : ∀ f∈m.headPieces (UInt32.ofNat P).toUInt16 (UInt32.ofNat (2+fs.length)) signaled++
      pointerPieces m.lkey 32 fs, f∈ps) (hqpn : n.qpn=m.qpn &&& 0xffffff) (hkey : n.lkey=m.lkey)
    (hva : n.regionVA.toNat+n.region.len<2^64) (hfs : ∀ p∈fs, n.Points p ∧ p.1.len<2^31)
    (hne : fs ≠ []) (hlen : fs.length≤58) :
    n.processOne mem (UInt32.ofNat P)=some (fs.map fun p => ⟨p.1.toList,p.2,UInt32.ofNat P,0⟩,
      blocksFor (UInt32.ofNat (2+fs.length))) := by
  have hds : (ofNat (2+fs.length)).toNat=2+fs.length := toNat_small _ (by omega)
  refine processOne_multi h hps (fun f hf => hmem f (mem_append_left _ hf)) hqpn (by omega)
    (by omega) (fun pos stop hpos hstop => ?_) (by simpa using hne)
  exact readPackets_pointers h hps hstop (by omega) hva fs hpos (by decide)
    (fun g hg => hmem g (mem_append_right _ (hkey ▸ hg))) hfs (by omega) (by omega)

theorem processOne_packets {fs : List Slice}
    (hmem : ∀ f∈m.headPieces (UInt32.ofNat P).toUInt16 (mpwOctowords fs) signaled++
      packetsPieces 32 fs, f∈ps)
    (hqpn : n.qpn=m.qpn &&& 0xffffff) (hfs : ∀ f∈fs, 0<f.len) (hne : fs ≠ [])
    (hds : (mpwOctowords fs).toNat=2+(fs.map packetOctowords).sum)
    (hds' : (mpwOctowords fs).toNat≤60) (hcap : 16*(mpwOctowords fs).toNat≤L) :
    n.processOne mem (UInt32.ofNat P)=some (fs.map fun f => ⟨f.toList,0,UInt32.ofNat P,f.len⟩,
      blocksFor (mpwOctowords fs)) := by
  have hlen : fs.length≤(fs.map packetOctowords).sum := by
    rw [← length_map packetOctowords]
    refine length_le_sum_of_one_le _ fun o ho => ?_
    obtain ⟨f,hf,rfl⟩ := mem_map.mp ho
    rw [packetOctowords]
    omega
  refine processOne_multi h hps (fun f hf => hmem f (mem_append_left _ hf)) hqpn (by omega)
    hds' (fun pos stop hpos hstop => ?_) (by simpa using hne)
  exact readPackets_packets h hps hstop (by omega) fs hpos (by decide)
    (fun g hg => hmem g (mem_append_right _ hg)) hfs (by omega) (by omega) (by omega)

omit h hps in
theorem processSingle_eq {block off inl : UInt32}
    (hhdr : UInt32.ofNat (beNat 2 fun i => mem ((off+ethInlineHdrSz).toNat+i))=inl) :
    n.processSingle mem block off ds =
      if ¬ ds=1+ethSegOctowords inl+1 ∧ ds≠1+ethSegOctowords inl then none
      else if ds=1+ethSegOctowords inl+1 then
        match n.readSegment mem (off+ctrlSegSize+ethSegOctowords inl*octoword)
          (bigEndian32 (n.readSQ mem (off+ctrlSegSize+ethSegOctowords inl*octoword) 4)) with
        | none => none
        | some (addr,bytes) =>
          some [⟨n.readSQ mem (off+ethInlineHdr) inl++bytes,addr,block,inl.toNat⟩]
      else if n.readSQ mem (off+ethInlineHdr) inl = [] then none
      else some [⟨n.readSQ mem (off+ethInlineHdr) inl,0,block,inl.toNat⟩] := by
  rw [Nic.processSingle]
  simp only [hhdr]
  rfl

theorem processOne_single {s : Sender} (hin : s.inlineLen.toNat≤914) {f : Slice} {addr : UInt64}
    (hmem : ∀ g∈s.pieces (UInt32.ofNat P).toUInt16 f addr signaled, g∈ps)
    (hqpn : n.qpn=s.qpn &&& 0xffffff) (hkey : n.lkey=s.lkey)
    (hva : n.regionVA.toNat+n.region.len<2^64) (hf : n.Points (f,addr)) (hlen : f.len<2^32)
    (hcap : 16*s.octowords f.len≤L) : ∃ pkt, n.processOne mem (UInt32.ofNat P) =
      some ([pkt],blocksFor (s.ds (UInt32.ofNat f.len))) ∧ pkt.bytes=f.toList := by
  obtain ⟨h64,h31,hL⟩ := h.bounds
  have hlt := Nat.mod_lt (64*P) hL
  have hlen' : (UInt32.ofNat f.len).toNat=f.len := toNat_small _ hlen
  have hds := s.toNat_ds hin (UInt32.ofNat f.len)
  have hinl := s.toNat_inlined (UInt32.ofNat f.len)
  have hrest := s.rest_pos (UInt32.ofNat f.len)
  have hocts := toNat_ethSegOctowords (s.inlined (UInt32.ofNat f.len)) (by omega)
  have hle := s.octowords_le f.len
  rw [hlen'] at hds hinl hrest
  obtain ⟨off,hoff,hone⟩ := processOne_eq h hps
    (fun g hg => hmem g (by simp only [Sender.pieces,append_assoc]; exact mem_append_left _ hg))
    (.inl rfl) hqpn (by rw [hds,Sender.octowords]; omega) (by omega)
  rw [hone,if_neg (by decide)]
  set inl := s.inlined (UInt32.ofNat f.len) with hinldef
  have hhdr : UInt32.ofNat (beNat 2 fun i => mem ((off+ethInlineHdrSz).toNat+i))=inl := by
    have hx : (off+ethInlineHdrSz).toNat=64*P%L+28 :=
      toNat_add_small off ethInlineHdrSz hoff (by change _+28 < _; omega)
    have h16 : inl.toUInt16.toNat=inl.toNat := by
      rw [toNat_toUInt16]
      omega
    rw [Holds.word h hps (hmem (bePiece 28 2 inl.toUInt16.toNat) (by simp [Sender.pieces, hinldef]))
      (by decide) (by decide) hx,h16,Nat.mod_eq_of_lt (by omega),UInt32.ofNat_toNat]
  have hbuf : n.readSQ mem (off+ethInlineHdr) inl=(List.range inl.toNat).map f.get := by
    have hx : (off+ethInlineHdr).toNat=64*P%L+30 :=
      toNat_add_small off ethInlineHdr hoff (by change _+30 < _; omega)
    rw [Sender.octowords] at hcap
    exact Holds.read h hps (hmem ⟨30,inl.toNat,f.get⟩ (by simp [Sender.pieces,hinldef]))
      (by change 11<30; decide) hx rfl (by change inl.toNat≤L; omega)
  have hsize : (1+ethSegOctowords inl).toNat=1+(inl.toNat+29)/16 := by
    rw [UInt32.toNat_add,hocts]
    change (1+_)%2^32=_
    omega
  have hsize' : (1+ethSegOctowords inl+1).toNat=2+(inl.toNat+29)/16 := by
    rw [UInt32.toNat_add,hsize]
    change (_+1)%2^32=_
    omega
  have hpos : 0<f.len := hf.pos
  have hle' : f.off+f.len≤n.region.len := hf.le
  rw [processSingle_eq hhdr,hbuf]
  by_cases hr : s.inlineLen.toNat<f.len
  · have hd : s.ds (UInt32.ofNat f.len)=1+ethSegOctowords inl+1 := by
      exact if_pos (hrest.mpr hr)
    have hcount : (UInt32.ofNat f.len-inl).toNat=f.len-inl.toNat := by
      rw [UInt32.toNat_sub_of_le _ _ (by rw [le_iff_toNat_le]; omega),hlen']
    have hend : s.ethEnd f.len=16+16*((inl.toNat+29)/16) := by rw [Sender.ethEnd,hinl]
    have hx : (off+ctrlSegSize+ethSegOctowords inl*octoword).toNat=64*P%L+s.ethEnd f.len := by
      have h16 : (off+ctrlSegSize).toNat=64*P%L+16 :=
        toNat_add_small off ctrlSegSize hoff (by change _+16 < _; omega)
      have hmul : (ethSegOctowords inl*octoword).toNat=16*((inl.toNat+29)/16) := by
        rw [UInt32.toNat_mul,hocts]
        change (_)*16%2^32=_
        omega
      rw [toNat_add_small _ _ h16 (by rw [hmul]; omega),hmul,hend]
      omega
    have hsegs : ∀ g∈dsegPieces (s.ethEnd f.len) (UInt32.ofNat f.len-inl) n.lkey
        (n.regionVA+UInt64.ofNat (f.off+inl.toNat)), g∈ps := by
      intro g hg
      refine hmem g ?_
      rw [hkey,← region_addr,← hf.addr] at hg
      simp only [Sender.pieces,hr,if_true]
      exact mem_append_right _ hg
    have hword := Holds.be32 h hps (hsegs (bePiece _ 4 (UInt32.ofNat f.len-inl).toNat)
      (by simp [dsegPieces])) (by omega) hx
    rw [UInt32.ofNat_toNat] at hword
    have hne : UInt32.ofNat f.len-inl≠0 := by
      intro h0
      rw [h0] at hcount
      change 0=_ at hcount
      omega
    have hseg := readSegment_eq h hps hva hx (by omega) (by omega) hsegs hne (by rw [hcount]; omega)
    rw [hcount] at hseg
    simp only [hd,not_true,false_and,if_false,if_true,hword,hseg,Option.map_some]
    refine ⟨_,rfl,?_⟩
    rw [← hf.mem,toList_split f (by omega : inl.toNat+(f.len-inl.toNat)=f.len)]
  · have hd : s.ds (UInt32.ofNat f.len)=1+ethSegOctowords inl := by
      exact if_neg fun hp => hr (hrest.mp hp)
    have hne : ¬ 1+ethSegOctowords inl=1+ethSegOctowords inl+1 := by
      intro he
      rw [← UInt32.toNat_inj,hsize,hsize'] at he
      omega
    have hfull : (List.range inl.toNat).map f.get=f.toList := by
      congr 2
      omega
    have hnil : f.toList ≠ [] := by
      rw [Slice.toList,ne_eq,map_eq_nil_iff,range_eq_nil]
      omega
    simp only [hd,hne,not_false_eq_true,ne_eq,not_true,and_false,if_false,hfull,hnil,
      Option.map_some]
    exact ⟨_,rfl,rfl⟩

end

end Packetio.Mlx5

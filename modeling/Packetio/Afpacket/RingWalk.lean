import Packetio.Afpacket.Ring
import Mathlib.Data.List.GetD

/-! What one turn of the walk through a receive ring can do, for any contents of the ring,
and the rule by which what the turns keep is kept by a whole call of read. -/
namespace Packetio.Afpacket
open Lib List Option UInt32 Function Nat

section
variable {mem mem' : Nat → UInt8} {a n k : Nat}

@[simp] theorem bytesAt_length : (bytesAt mem a n).length = n := by
  rw [bytesAt,length_map,length_range]

theorem bytesAt_congr (h : ∀ i, i<n → mem (a+i)=mem' (a+i)) : bytesAt mem a n=bytesAt mem' a n :=
  map_congr_left fun i hi => h i (mem_range.mp hi)

theorem bytesAt_append (mem : Nat → UInt8) (a n k : Nat) :
    bytesAt mem a (n+k)=bytesAt mem a n++bytesAt mem (a+n) k := by
  simp only [bytesAt,range_add,map_append,List.map_map]
  refine congrArg _ (map_congr_left fun i _ => ?_)
  rw [comp_apply,add_assoc]

theorem bytesAt_take (h : k≤n) : (bytesAt mem a n).take k=bytesAt mem a k := by
  obtain ⟨m,rfl⟩ := Nat.exists_eq_add_of_le h
  rw [bytesAt_append,take_left' bytesAt_length]

theorem bytesAt_drop (h : k≤n) : (bytesAt mem a n).drop k=bytesAt mem (a+k) (n-k) := by
  obtain ⟨m,rfl⟩ := Nat.exists_eq_add_of_le h
  rw [bytesAt_append,drop_left' bytesAt_length,Nat.add_sub_cancel_left]

end

section
variable {room pos : Nat} (buf : Nat → UInt8) (bs : List UInt8)

theorem bytesAt_blit : bytesAt (blit buf pos bs.length (bs.getD · 0)) 0 (pos+bs.length) =
    bytesAt buf 0 pos++bs := by
  rw [bytesAt_append]
  congr 1
  · refine bytesAt_congr fun i hi => blit_outside _ _ _ _ _ (by omega)
  · refine ext_getElem (by rw [bytesAt_length]) fun i hi hi' => ?_
    simp only [bytesAt,getElem_map,getElem_range]
    rw [blit_inside _ _ _ _ _ (by omega) (by omega),zero_add,Nat.add_sub_cancel_left,
      getD_eq_getElem _ _ hi']

theorem write_spec (h : pos+bs.length≤room) : ∃ buf', write room buf pos bs=some buf' ∧
    bytesAt buf' 0 (pos+bs.length)=bytesAt buf 0 pos++bs := ⟨_,if_pos h,bytesAt_blit buf bs⟩

theorem copyTo_spec (h : pos≤room) : ∃ buf', copyTo room buf pos bs=some buf' ∧
    bytesAt buf' 0 (pos+min (room-pos) bs.length) =
      bytesAt buf 0 pos++bs.take (min (room-pos) bs.length) := by
  have hlen : (bs.take (room-pos)).length=min (room-pos) bs.length := length_take
  obtain ⟨buf',hw,hb⟩ := write_spec buf (bs.take (room-pos))
    (by omega : pos+(bs.take (room-pos)).length≤room)
  rw [hlen] at hb
  refine ⟨buf',?_,?_⟩
  · rw [copyTo,if_pos h,hw]
  · rw [hb,← take_eq_take_min]

end

def Output.got (o : Output) (i : Nat) : List UInt8 := bytesAt (o.bufs i) 0 (o.lens i)

/-- The bytes received in the `n` slots from `slot` on. -/
def Output.joined (o : Output) : Nat → Nat → List UInt8
  | _, 0 => []
  | slot, n+1 => o.got slot++o.joined (slot+1) n

variable {n slot room : Nat} {r : Ring} {d : UInt32}

theorem joined_congr {o o' : Output}
    (h : ∀ i, i<n → o.got (slot+i)=o'.got (slot+i)) : o.joined slot n=o'.joined slot n := by
  induction n generalizing slot with
  | zero => rfl
  | succ n ih =>
    have hrest : o.joined (slot+1) n=o'.joined (slot+1) n := ih fun i hi => by
      have := h (i+1) (by omega)
      rwa [add_comm i,← add_assoc] at this
    have hfirst : o.got slot=o'.got slot := h 0 (by omega)
    rw [Output.joined,Output.joined,hfirst,hrest]

theorem fillSlot_spec {written : Nat} (segs : List (List UInt8)) (buf : Nat → UInt8)
    (h : written≤room) : ∃ buf' written' rest,
      fillSlot room segs written buf=some (buf',written',rest) ∧ written'≤room ∧
      bytesAt buf' 0 written'++rest.flatten=bytesAt buf 0 written++segs.flatten ∧
      (rest ≠ [] → written'=room) ∧ ((∀ x∈segs, x ≠ []) → ∀ x∈rest, x ≠ []) := by
  induction segs generalizing written buf with
  | nil => exact ⟨buf,written,[],rfl,h,rfl,fun hne => absurd rfl hne,fun _ => by simp⟩
  | cons seg segs ih =>
    rw [fillSlot]
    split
    case isFalse hfull => exact ⟨buf,written,seg::segs,rfl,h,rfl,fun _ => by omega,fun hne => hne⟩
    rename_i hlt
    obtain ⟨buf1,hcopy,hbytes⟩ := copyTo_spec buf seg h
    simp only [hcopy,bind_eq_bind,bind_some]
    split
    case isTrue hall =>
      have hmore : written+min (room-written) seg.length≤room := by omega
      obtain ⟨buf2,written2,rest,hfill,hle,hjoin,hfull,hne⟩ := ih buf1 hmore
      refine ⟨buf2,written2,rest,hfill,hle,?_,hfull,fun hs => hne fun x hx => ?_⟩
      · rw [hjoin,hbytes,hall,take_length,flatten_cons,append_assoc]
      · exact hs x (mem_cons_of_mem _ hx)
    rename_i hpart
    refine ⟨_,_,_,rfl,by omega,?_,fun _ => by omega,fun hs x hx => ?_⟩
    · rw [hbytes,flatten_cons,flatten_cons,append_assoc,← append_assoc (take _ _),take_append_drop]
    · rcases mem_cons.mp hx with rfl | hx
      · rw [ne_eq,drop_eq_nil_iff]
        omega
      · exact hs x (mem_cons_of_mem _ hx)

section
variable {α : Type} {max i n : Nat} {f : Nat → α} {v : α}

theorem put_some (h : i < max) : put max f i v=some (Function.update f i v) := if_pos h

theorem putAll_some (h : i+n ≤ max) : putAll max f v i n=some (blit f i n fun _ => v) := by
  induction n generalizing f i with
  | zero =>
    refine congrArg some (funext fun j => ?_)
    rw [blit_outside _ _ _ _ _ (by omega)]
  | succ n ih =>
    rw [putAll,put_some (by omega),bind_eq_bind,bind_some,ih (by omega)]
    refine congrArg some (funext fun j => ?_)
    by_cases hj : j=i
    · rw [hj,blit_outside _ _ _ _ _ (by omega),blit_inside _ _ _ _ _ (by omega) (by omega),
        update_self]
    by_cases hin : i+1≤j ∧ j < i+1+n
    · rw [blit_inside _ _ _ _ _ hin.1 hin.2,blit_inside _ _ _ _ _ (by omega) (by omega)]
    · rw [blit_outside _ _ _ _ _ (by omega),blit_outside _ _ _ _ _ (by omega),
        update_of_ne hj]

end

section
variable {σ : Type} {dst : Dst σ} {b : Batch} {s s' : Reading σ} {st st' : σ} {o o' : Output}

inductive Asks (dst : Dst σ) : σ → Nat → List Nat → σ → Prop
  | nil {st : σ} {slot : Nat} : Asks dst st slot [] st
  | cons {st st' st'' : σ} {slot room : Nat} {rooms : List Nat}
      (h : dst st slot=(some room,st')) (hs : Asks dst st' (slot+1) rooms st'') :
      Asks dst st slot (room::rooms) st''

structure Laid (dst : Dst σ) (st : σ) (o : Output) (slot : Nat) (rooms : List Nat) (st' : σ)
    (o' : Output) : Prop where
  asks : Asks dst st slot rooms st'
  fit : ∀ i room, rooms[i]? = some room → o'.lens (slot+i)≤room
  other : ∀ j, j<slot ∨ slot+rooms.length≤j → o'.bufs j=o.bufs j ∧ o'.lens j=o.lens j
  offs : o'.offs=o.offs
  tss : o'.tss=o.tss
  cont : o'.cont=o.cont

theorem Laid.nil : Laid dst st o slot [] st o :=
  { asks := .nil, fit := nofun, other := fun _ _ => ⟨rfl,rfl⟩, offs := rfl,
    tss := rfl, cont := rfl }

theorem Laid.cons {st1 : σ} {slot room written : Nat} {rooms : List Nat} (buf : Nat → UInt8)
    (hd : dst st slot=(some room,st1)) (hw : written≤room) (h : Laid dst st1 { o with
      bufs := Function.update o.bufs slot buf, lens := Function.update o.lens slot written }
      (slot+1) rooms st' o') :
    Laid dst st o slot (room::rooms) st' o' ∧ o'.got slot=bytesAt buf 0 written := by
  have hslot := h.other slot (.inl (by omega))
  simp only [update_self] at hslot
  refine ⟨⟨.cons hd h.asks,fun i rm hi => ?_,fun j hj => ?_,h.offs,h.tss,h.cont⟩,
    by rw [Output.got,hslot.1,hslot.2]⟩
  · cases i with
    | zero =>
      rw [getElem?_cons_zero,some_inj] at hi
      rwa [add_zero,hslot.2,← hi]
    | succ i =>
      have := h.fit i rm hi
      rwa [add_assoc,add_comm 1] at this
  · rw [length_cons] at hj
    have hne : j≠slot := by omega
    have := h.other j (by omega)
    simpa only [update_of_ne hne] using this

theorem spreadLoop_spec (dst : Dst σ) {max left : Nat} (segs : List (List UInt8)) (st : σ)
    (o : Output)
    (h : slot+left ≤ max) : ∃ rooms st1 o', Laid dst st o slot rooms st1 o' ∧ rooms.length≤left ∧
      ((spreadLoop max dst left slot segs st o=some (.placed (slot+rooms.length),st1,o') ∧
          o'.joined slot rooms.length=segs.flatten ∧ (segs ≠ [] → rooms ≠ [])) ∨
        (((spreadLoop max dst left slot segs st o=some (.noSlots,st1,o') ∧ rooms.length=left) ∨
          ∃ st', dst st1 (slot+rooms.length)=(none,st') ∧ rooms.length<left ∧
            spreadLoop max dst left slot segs st o=some (.noFrames,st',o')) ∧
          ((∀ x∈segs, x ≠ []) → rooms.sum<segs.flatten.length))) := by
  induction left generalizing slot segs st o with
  | zero =>
    refine ⟨[],st,o,.nil,le_refl _,?_⟩
    rcases segs with _ | ⟨seg,segs⟩
    · exact .inl ⟨rfl,rfl,fun hne => absurd rfl hne⟩
    refine .inr ⟨.inl ⟨rfl,rfl⟩,fun hs => ?_⟩
    have := List.length_pos_iff.mpr (hs seg mem_cons_self)
    simp only [sum_nil,flatten_cons,length_append]
    omega
  | succ left ih =>
    rcases segs with _ | ⟨seg,segs⟩
    · exact ⟨[],st,o,.nil,zero_le _,.inl ⟨rfl,rfl,fun hne => absurd rfl hne⟩⟩
    rw [spreadLoop]
    cases hd : dst st slot with
    | mk buffer st1 =>
      rcases buffer with _ | room
      · refine ⟨[],st,o,.nil,zero_le _,.inr ⟨.inr ⟨st1,hd,succ_pos _,rfl⟩,fun hs => ?_⟩⟩
        have := List.length_pos_iff.mpr (hs seg mem_cons_self)
        simp only [sum_nil,flatten_cons,length_append]
        omega
      obtain ⟨buf,written,rest,hfill,hle,hjoin,hfull,hne⟩ :=
        fillSlot_spec (seg::segs) (o.bufs slot) (zero_le room)
      have hzero : bytesAt (o.bufs slot) 0 0 = [] := rfl
      rw [hzero,nil_append] at hjoin
      simp only [hfill,put_some (by omega : slot < max),bind_eq_bind,bind_some]
      obtain ⟨rooms,st2,o2,hlaid,hlen,hres⟩ := ih rest st1 { o with
        bufs := Function.update o.bufs slot buf, lens := Function.update o.lens slot written }
        (by omega : slot+1+left ≤ max)
      obtain ⟨hall,hgot⟩ := hlaid.cons _ hd hle
      have hstop : slot+(room::rooms).length=slot+1+rooms.length := by
        rw [length_cons]
        omega
      refine ⟨room::rooms,st2,o2,hall,by rw [length_cons]; omega,?_⟩
      rw [hstop]
      rcases hres with ⟨hplaced,hbytes,_⟩ | ⟨hfail,hsum⟩
      · refine .inl ⟨hplaced,?_,fun _ => by simp⟩
        rw [length_cons,Output.joined,hgot,hbytes,hjoin]
      refine .inr ⟨?_,fun hs => ?_⟩
      · rw [length_cons]
        simpa only [add_right_cancel_iff,add_lt_add_iff_right] using hfail
      · have hsum := hsum (hne hs)
        have hwritten : written=room := hfull fun hnil => by
          rw [hnil] at hsum
          simp at hsum
        have hlength := congrArg List.length hjoin
        rw [length_append,bytesAt_length] at hlength
        rw [sum_cons]
        omega

end

structure Ring.Mapped (r : Ring) : Prop where
  hdr : hdrSize≤r.blockSize.toNat
  size : r.blockSize.toNat*r.blockNr.toNat<2^32
  block : r.block.toNat<r.blockNr.toNat

theorem setupRing_mapped (mem : Nat → UInt8) (vnet chain : Bool) :
    (setupRing mem vnet chain).Mapped := by
  cases vnet with
  | false => exact ⟨by change 48≤65536; omega,by change 65536*160<2^32; omega,zero_lt_succ 159⟩
  | true => exact ⟨by change 48≤278528; omega,by change 278528*64<2^32; omega,zero_lt_succ 63⟩

def Ring.tph (r : Ring) : Tpacket3Hdr := frameHdrAt r.mem (r.start+r.frameOff.toNat)

def Ring.dataAt (r : Ring) : Nat := r.start+r.frameOff.toNat+r.tph.tpMac.toNat

def Ring.data (r : Ring) : List UInt8 := bytesAt r.mem r.dataAt r.tph.tpSnaplen.toNat

def Tpacket3Hdr.wire (tph : Tpacket3Hdr) (data : List UInt8) : List UInt8 :=
  if tph.tag.tagLen≠0 then data.take 12++tph.tag.bytes++data.drop 12 else data

def Ring.packet (r : Ring) : List UInt8 := r.tph.wire r.data

def Ring.offload (r : Ring) : Offload :=
  if !r.vnet then {}
  else
    let o := unmarshalOffload (bytesAt r.mem (r.dataAt-offloadHdrLen) offloadHdrLen)
    if r.tph.tag.tagLen=0 then o else shifted o r.tph.tag.tagLen

structure Ring.Fits (r : Ring) : Prop where
  hdr : r.frameOff.toNat+hdrSize≤r.blockSize.toNat
  data : r.frameOff.toNat+r.tph.tpMac.toNat+r.tph.tpSnaplen.toNat≤r.blockSize.toNat
  vnet : r.vnet=true → offloadHdrLen≤r.tph.tpMac.toNat

theorem slice_eq {lo hi : UInt32} {a : Nat} (hlo : lo.toNat=a) (hhi : hi.toNat=a+n)
    (h : r.Inside a n) : r.slice lo hi=some (bytesAt r.mem a n) := by
  have hle : lo≤hi := by rw [le_iff_toNat_le,hlo,hhi]; omega
  have hlen : hi.toNat-lo.toNat=n := by omega
  rw [Ring.slice,hlen,hlo]
  exact if_pos ⟨hle,h⟩

theorem tag_cases (tph : Tpacket3Hdr) :
    tph.tag.tagLen=0 ∨ tph.tag.tagLen=4 ∧ 12≤tph.tpSnaplen.toNat := by
  rw [Tpacket3Hdr.tag]
  split
  case isTrue h => exact .inr ⟨rfl,h.2⟩
  case isFalse => exact .inl rfl

theorem wire_length {tph : Tpacket3Hdr} {data : List UInt8} (h : data.length=tph.tpSnaplen.toNat) :
    (tph.wire data).length=tph.tpSnaplen.toNat+tph.tag.tagLen := by
  rw [Tpacket3Hdr.wire]
  rcases tag_cases tph with hz | ⟨h4,h12⟩
  · rw [if_neg (by omega),hz,h,add_zero]
  have hb : tph.tag.bytes.length=4 := rfl
  rw [if_pos (by omega),length_append,length_append,length_take,
    length_drop,hb,h,h4]
  omega

theorem packet_length (r : Ring) : r.packet.length=r.tph.tpSnaplen.toNat+r.tph.tag.tagLen :=
  wire_length bytesAt_length

theorem toNat_sub {x y : UInt32} (h : y.toNat≤x.toNat) : (x-y).toNat=x.toNat-y.toNat :=
  UInt32.toNat_sub_of_le _ _ (UInt32.le_iff_toNat_le.mpr h)

theorem frameInBlock_iff (h : r.frameOff.toNat+hdrSize≤r.blockSize.toNat) :
    r.frameInBlock r.frameOff r.tph=true ↔ r.Fits := by
  have hk : (ofNat offloadHdrLen).toNat=10 := rfl
  have havail : (r.blockSize-r.frameOff).toNat=r.blockSize.toNat-r.frameOff.toNat :=
    toNat_sub (by omega)
  have hmac : r.tph.tpMac.toUInt32.toNat=r.tph.tpMac.toNat := UInt16.toNat_toUInt32 _
  have hv : (r.vnet && decide (r.tph.tpMac.toUInt32<ofNat offloadHdrLen))=true ↔
      ¬(r.vnet=true → offloadHdrLen≤r.tph.tpMac.toNat) := by
    rw [Bool.and_eq_true,decide_eq_true_eq,lt_iff_toNat_lt,hmac,hk,Classical.not_imp,not_le]
    rfl
  simp only [Ring.frameInBlock]
  split
  case isTrue hbad => exact ⟨nofun,fun hf => absurd hf.vnet (hv.mp hbad)⟩
  rename_i hok
  have hvnet := not_not.mp (mt hv.mpr hok)
  split
  case isTrue hlt =>
    rw [gt_iff_lt,lt_iff_toNat_lt,havail,hmac] at hlt
    exact ⟨nofun,fun hf => by have := hf.data; omega⟩
  rename_i hle
  rw [gt_iff_lt,lt_iff_toNat_lt,havail,hmac,not_lt] at hle
  rw [decide_eq_true_eq,le_iff_toNat_le,toNat_sub (by omega),havail,hmac]
  exact ⟨fun hs => ⟨h,by omega,hvnet⟩,fun hf => by have := hf.data; omega⟩

section
variable {r : Ring} (hm : r.Mapped)
include hm

theorem Ring.Mapped.stop : r.start+r.blockSize.toNat<2^32 := by
  have h : (r.block.toNat+1)*r.blockSize.toNat≤r.blockNr.toNat*r.blockSize.toNat :=
    mul_le_mul_right _ hm.block
  have hs := hm.size
  rw [Nat.add_mul,Nat.one_mul,Nat.mul_comm r.blockNr.toNat] at h
  rw [Ring.start]
  omega

theorem Ring.Mapped.base : (r.block*r.blockSize).toNat=r.start := by
  have := hm.stop
  rw [UInt32.toNat_mul,mod_eq_of_lt (by rw [Ring.start] at this; omega),Ring.start]

theorem blockDesc_some : r.blockDesc=some (blockDescAt r.mem r.start) := by
  have := hm.hdr
  simp only [Ring.blockDesc,hm.base]
  exact if_pos ⟨le_refl _,by omega⟩

theorem storeStatus_some (v : UInt32) :
    r.storeStatus v=some { r with mem := blit r.mem (r.start+8) 4 (leByte v.toNat) } := by
  have := hm.hdr
  rw [hdrSize] at this
  simp only [Ring.storeStatus,hm.base]
  exact if_pos ⟨by omega,by omega⟩

theorem frameHdrFits_iff : r.frameHdrFits r.frameOff=true ↔
    r.frameOff.toNat+hdrSize≤r.blockSize.toNat := by
  have hh := hm.hdr
  have hk : (ofNat hdrSize).toNat=48 := rfl
  rw [hdrSize] at hh ⊢
  rw [Ring.frameHdrFits,decide_eq_true_eq,le_iff_toNat_le,toNat_sub (by omega),hk]
  omega

theorem frameOff_toNat (h : r.frameOff.toNat+hdrSize≤r.blockSize.toNat) :
    (r.block*r.blockSize+r.frameOff).toNat=r.start+r.frameOff.toNat := by
  have := hm.stop
  rw [UInt32.toNat_add,hm.base,mod_eq_of_lt (by omega)]

theorem frameHdr_some (h : r.frameOff.toNat+hdrSize≤r.blockSize.toNat) :
    r.frameHdr (r.block*r.blockSize+r.frameOff)=some r.tph := by
  rw [Ring.frameHdr,frameOff_toNat hm h]
  exact if_pos ⟨by omega,by omega⟩

variable (hf : r.Fits)
include hf

theorem data_toNat : (r.block*r.blockSize+r.frameOff+r.tph.tpMac.toUInt32).toNat=r.dataAt := by
  have := hm.stop
  have := hf.data
  rw [UInt32.toNat_add,frameOff_toNat hm hf.hdr,UInt16.toNat_toUInt32,
    mod_eq_of_lt (by omega),Ring.dataAt]

theorem slice_some (lo hi : UInt32) (hd : d.toNat=r.dataAt) (i n : Nat) (hlo : lo.toNat=i)
    (hhi : hi.toNat=i+n) (hn : i+n≤r.tph.tpSnaplen.toNat) :
    r.slice (d+lo) (d+hi)=some (bytesAt r.mem (r.dataAt+i) n) := by
  have := hm.stop
  have hfd := hf.data
  have hdat : r.dataAt=r.start+r.frameOff.toNat+r.tph.tpMac.toNat := rfl
  refine slice_eq ?_ ?_ ⟨by omega,by omega⟩
  · rw [UInt32.toNat_add,hd,hlo,mod_eq_of_lt (by omega)]
  · rw [UInt32.toNat_add,hd,hhi,mod_eq_of_lt (by omega),add_assoc]

theorem slice_data (hd : d.toNat=r.dataAt) : r.slice d (d+r.tph.tpSnaplen)=some r.data := by
  have h := slice_some hm hf 0 _ hd 0 _ rfl (zero_add _).symm (zero_add _).le
  rwa [UInt32.add_zero] at h

theorem slice_head (hd : d.toNat=r.dataAt) (h : 12≤r.tph.tpSnaplen.toNat) :
    r.slice d (d+12)=some (r.data.take 12) := by
  have hs := slice_some hm hf 0 12 hd 0 12 rfl rfl (by omega)
  rw [UInt32.add_zero] at hs
  rw [hs,Ring.data,bytesAt_take h,add_zero]

theorem slice_rest (hd : d.toNat=r.dataAt) (h : 12≤r.tph.tpSnaplen.toNat) :
    r.slice (d+12) (d+r.tph.tpSnaplen)=some (r.data.drop 12) := by
  rw [slice_some hm hf 12 _ hd 12 (r.tph.tpSnaplen.toNat-12) rfl (by omega) (by omega),
    Ring.data,bytesAt_drop h]

theorem segs_some (hd : d.toNat=r.dataAt) : ∃ segs,
    r.segs d r.tph.tpSnaplen r.tph.tag=some segs ∧ segs.flatten=r.packet ∧ segs ≠ [] ∧
      (12<r.tph.tpSnaplen.toNat → ∀ x∈segs, x ≠ []) := by
  have hlen : r.data.length=r.tph.tpSnaplen.toNat := bytesAt_length
  rcases tag_cases r.tph with hz | ⟨h4,h12⟩
  · have hnz : ¬ r.tph.tag.tagLen≠0 := by omega
    refine ⟨[r.data],?_,?_,by simp,fun h x hx => ?_⟩
    · rw [Ring.segs,if_neg hnz,slice_data hm hf hd]
      rfl
    · rw [Ring.packet,Tpacket3Hdr.wire,if_neg hnz,flatten_singleton]
    · rw [mem_singleton.mp hx,← length_pos_iff]
      omega
  have hnz : r.tph.tag.tagLen≠0 := by omega
  refine ⟨[r.data.take 12,r.tph.tag.bytes,r.data.drop 12],?_,?_,by simp,fun h x hx => ?_⟩
  · rw [Ring.segs,if_pos hnz,slice_head hm hf hd h12,slice_rest hm hf hd h12]
    rfl
  · rw [Ring.packet,Tpacket3Hdr.wire,if_pos hnz]
    simp
  · rw [← length_pos_iff]
    simp only [mem_cons,not_mem_nil,or_false] at hx
    rcases hx with rfl | rfl | rfl
    · rw [length_take]
      omega
    · exact zero_lt_succ 3
    · rw [length_drop]
      omega

omit hm in
theorem offloadFor_some (hd : d.toNat=r.dataAt) :
    r.offloadFor d r.tph.tag.tagLen=some r.offload := by
  rw [Ring.offloadFor,Ring.offload]
  rcases hv : r.vnet with _ | _
  · rfl
  have hmac := hf.vnet hv
  have hfd := hf.data
  have hdat : r.dataAt=r.start+r.frameOff.toNat+r.tph.tpMac.toNat := rfl
  have hk : (ofNat offloadHdrLen).toNat=offloadHdrLen := rfl
  have hlo : (d-ofNat offloadHdrLen).toNat=r.dataAt-offloadHdrLen := by
    rw [toNat_sub (by omega),hd,hk]
  rw [slice_eq (n := offloadHdrLen) hlo (by omega) ⟨by omega,by omega⟩]
  rfl

end

theorem entries_some {α : Type} {max out : Nat} (want : Bool) (f : Nat → α) (v zero : α)
    (h : out+n ≤ max) (hn : 0<n) : ∃ f', entries max want f out n (some v) zero=some f' ∧
      (want=true → f' out=v ∧ ∀ i, 0 < i → i<n → f' (out+i)=zero) ∧
      ∀ j, j<out ∨ out+n≤j → f' j=f j := by
  rcases want with _ | _
  · exact ⟨f,rfl,nofun,fun _ _ => rfl⟩
  simp only [entries,if_true,bind_eq_bind,bind_some,put_some (by omega : out < max),
    putAll_some (by omega : out+1+(n-1) ≤ max)]
  refine ⟨_,rfl,fun _ => ⟨?_,fun i hi hin => ?_⟩,fun j hj => ?_⟩
  · rw [blit_outside _ _ _ _ _ (by omega),update_self]
  · rw [blit_inside _ _ _ _ _ (by omega) (by omega)]
  · rw [blit_outside _ _ _ _ _ (by omega),update_of_ne (by omega)]

theorem markSlots_some (b : Batch) (cont : Nat → Bool) {out : Nat} (h : out+n≤b.max)
    (hn : 0<n) : ∃ cont', markSlots b cont out n=some cont' ∧
      (b.cont=true → ∀ i, i<n → cont' (out+i)=decide (i+1<n)) ∧
      (b.cont=false → cont'=cont) ∧ ∀ j, j<out ∨ out+n≤j → cont' j=cont j := by
  rcases hb : b.cont with _ | _
  · refine ⟨cont,?_,nofun,fun _ => rfl,fun _ _ => rfl⟩
    rw [markSlots,hb]
    rfl
  simp only [markSlots,hb,if_true,bind_eq_bind,bind_some,
    putAll_some (by omega : out+(n-1)≤b.max),put_some (by omega : out+n-1<b.max)]
  refine ⟨_,rfl,fun _ i hi => ?_,nofun,fun j hj => ?_⟩
  · by_cases hlast : i+1<n
    · rw [update_of_ne (by omega),blit_inside _ _ _ _ _ (by omega) (by omega),
        decide_eq_true hlast]
    · have he : out+i=out+n-1 := by omega
      rw [he,update_self,decide_eq_false hlast]
  · rw [update_of_ne (by omega),blit_outside _ _ _ _ _ (by omega)]

structure Output.Same (o o' : Output) (j : Nat) : Prop where
  bufs : o'.bufs j=o.bufs j
  lens : o'.lens j=o.lens j
  offs : o'.offs j=o.offs j
  tss : o'.tss j=o.tss j
  cont : o'.cont j=o.cont j

section
variable {σ : Type} {dst : Dst σ} {b : Batch} {s s' : Reading σ} {st st' : σ} {o o' : Output}

structure Held (b : Batch) (s : Reading σ) (rooms : List Nat) (o' : Output) : Prop where
  slots : rooms ≠ []
  max : s.out+rooms.length≤b.max
  bytes : o'.joined s.out rooms.length=s.ring.packet
  fit : ∀ i room, rooms[i]? = some room → o'.lens (s.out+i)≤room
  other : ∀ j, j<s.out ∨ s.out+rooms.length≤j → s.o.Same o' j
  marks : b.cont=true ∨ rooms.length=1 → s.o.cont s.out=false →
    ∀ i, i<rooms.length → o'.cont (s.out+i)=decide (i+1<rooms.length)
  offs : b.offs=true → o'.offs s.out=s.ring.offload ∧
    ∀ i, 0 < i → i<rooms.length → o'.offs (s.out+i) = {}
  tss : b.tss=true → o'.tss s.out=timestamp s.ring.tph ∧
    ∀ i, 0 < i → i<rooms.length → o'.tss (s.out+i)=0

theorem stamp_held (hf : s.ring.Fits)
    (hd : d.toNat=s.ring.dataAt) {st0 : σ} {rooms : List Nat} (cont : Nat → Bool)
    (hl : Laid dst st0 s.o s.out rooms st o) (hne : rooms ≠ [])
    (hmax : s.out+rooms.length≤b.max) (hbytes : o.joined s.out rooms.length=s.ring.packet)
    (hmarks : b.cont=true ∨ rooms.length=1 → s.o.cont s.out=false →
      ∀ i, i<rooms.length → cont (s.out+i)=decide (i+1<rooms.length))
    (hcont : ∀ j, j<s.out ∨ s.out+rooms.length≤j → cont j=s.o.cont j) :
    ∃ o', { s with st, o := { o with cont } }.stamp b s.ring.tph d rooms.length =
        some { s with st, o := o', out := s.out+rooms.length,
                      ring := s.ring.advance s.ring.tph.tpNextOffset } ∧ Held b s rooms o' := by
  have hn := length_pos_iff.mpr hne
  obtain ⟨offs,hoffs,hov,hoo⟩ := entries_some b.offs o.offs s.ring.offload {} hmax hn
  obtain ⟨tss,htss,htv,hto⟩ := entries_some b.tss o.tss (timestamp s.ring.tph) 0 hmax hn
  refine ⟨{ o with cont, offs, tss },?_,?_⟩
  · simp [Reading.stamp,offloadFor_some hf hd,hoffs,htss]
  · refine { slots := hne, max := hmax, bytes := ?_, fit := hl.fit, other := fun j hj => ?_,
             marks := hmarks, offs := hov, tss := htv }
    · rw [← hbytes]
      exact joined_congr fun i _ => rfl
    · obtain ⟨hbuf,hlen⟩ := hl.other j hj
      exact ⟨hbuf,hlen,(hoo j hj).trans (congrFun hl.offs j),(hto j hj).trans (congrFun hl.tss j),
        hcont j hj⟩

end

section
variable {σ : Type} {dst : Dst σ} {b : Batch} {s s' : Reading σ} {st : σ} {o : Output}

theorem copyFrame_some (hm : r.Mapped) (hf : r.Fits)
    (hd : d.toNat=r.dataAt) (hroom : r.packet.length≤room) (buf : Nat → UInt8) :
    ∃ buf', r.copyFrame r.tph d room buf=some buf' ∧ bytesAt buf' 0 r.packet.length=r.packet := by
  have hlen : r.data.length=r.tph.tpSnaplen.toNat := bytesAt_length
  have hnone : bytesAt buf 0 0 = [] := rfl
  rw [packet_length] at hroom ⊢
  rw [Ring.copyFrame,Ring.packet,Tpacket3Hdr.wire]
  rcases tag_cases r.tph with hz | ⟨h4,h12⟩
  · rw [if_neg (by omega),if_neg (by omega),slice_data hm hf hd]
    obtain ⟨buf',hc,hb⟩ := copyTo_spec buf r.data (zero_le room)
    have hall : min (room-0) r.data.length=r.data.length := by omega
    rw [hall,hnone,take_length,zero_add,nil_append,hlen] at hb
    exact ⟨buf',hc,by rw [hz]; exact hb⟩
  have htag : r.tph.tag.bytes.length=4 := rfl
  have hhead : (r.data.take 12).length=12 := by rw [length_take]; omega
  have hrest : (r.data.drop 12).length=r.tph.tpSnaplen.toNat-12 := by rw [length_drop,hlen]
  rw [if_pos (by omega),if_pos (by omega),slice_head hm hf hd h12,slice_rest hm hf hd h12]
  obtain ⟨buf1,hw1,hb1⟩ := write_spec buf (r.data.take 12)
    (by omega : 0+(r.data.take 12).length≤room)
  obtain ⟨buf2,hw2,hb2⟩ := write_spec buf1 r.tph.tag.bytes
    (by omega : 12+r.tph.tag.bytes.length≤room)
  obtain ⟨buf3,hc,hb3⟩ := copyTo_spec buf2 (r.data.drop 12) (by omega : 16≤room)
  have hall : min (room-16) (r.data.drop 12).length=(r.data.drop 12).length := by omega
  have hstop : 16+(r.data.drop 12).length=r.tph.tpSnaplen.toNat+r.tph.tag.tagLen := by omega
  rw [hhead,zero_add,hnone,nil_append] at hb1
  rw [htag,hb1] at hb2
  rw [hall,take_length,hb2,hstop] at hb3
  refine ⟨buf3,?_,hb3⟩
  simp [hw1,hw2,hc]

theorem single_held (hm : s.ring.Mapped) (hf : s.ring.Fits)
    (hd : d.toNat=s.ring.dataAt) (hdst : dst s.st s.out=(some room,st))
    (hroom : s.ring.packet.length≤room) (hmax : s.out<b.max) :
    ∃ o', { s with st }.single b s.ring.tph d room =
        some ({ s with st, o := o', out := s.out+1,
                       ring := s.ring.advance s.ring.tph.tpNextOffset },.again) ∧
      Held b s [room] o' := by
  obtain ⟨buf,hcopy,hbuf⟩ := copyFrame_some hm hf hd hroom (s.o.bufs s.out)
  obtain ⟨hl,hgot⟩ := Laid.cons (o := s.o) buf hdst hroom .nil
  have hbytes : Output.joined { s.o with
      bufs := update s.o.bufs s.out buf,
      lens := update s.o.lens s.out s.ring.packet.length } s.out 1=s.ring.packet := by
    rw [Output.joined,Output.joined,append_nil,hgot,hbuf]
  obtain ⟨o',hst,hh⟩ := stamp_held (b := b) hf hd s.o.cont hl (by simp) hmax hbytes
    (fun _ hc i hi => by
      have hzero : i=0 := by simpa using hi
      rw [hzero,add_zero,hc]
      rfl) fun _ _ => rfl
  refine ⟨o',?_,hh⟩
  have hlens := put_some (f := s.o.lens) (v := s.ring.packet.length) hmax
  rw [packet_length] at hlens hst
  simp only [Reading.single,hcopy,hlens,bind_eq_bind,bind_some]
  exact congrArg (fun s => s.bind fun s => some (s,Next.again)) hst

end

section
variable {σ : Type} {dst : Dst σ} {b : Batch} {s s' : Reading σ} {st : σ} {nx : Next}

structure Tried (dst : Dst σ) (s : Reading σ) (rooms : List Nat) (st' : σ)
    (o' : Output) : Prop where
  asks : ∃ room st, dst s.st s.out=(some room,st) ∧ Asks dst st s.out rooms st'
  short : 12<s.ring.tph.tpSnaplen.toNat → rooms.sum<s.ring.packet.length
  other : ∀ j, j<s.out ∨ s.out+rooms.length≤j → s.o.Same o' j
  offs : o'.offs=s.o.offs
  tss : o'.tss=s.o.tss
  cont : o'.cont=s.o.cont

inductive Turn (b : Batch) (dst : Dst σ) (s : Reading σ) : Reading σ → Next → Prop
  | refused (h : ¬ s.ring.Fits) : Turn b dst s { s with ring := s.ring.refuse } .leave
  | dry {st' : σ} (h : s.ring.Fits) (hd : dst s.st s.out=(none,st')) :
      Turn b dst s { s with st := st' } .leave
  | clipped {st' : σ} {room : Nat} (h : s.ring.Fits) (hd : dst s.st s.out=(some room,st'))
      (hc : s.ring.tph.tpSnaplen<s.ring.tph.tpLen) :
      Turn b dst s { s with st := st', ring := s.ring.skip s.ring.tph } .again
  | tooBig {st' : σ} {room : Nat} (h : s.ring.Fits) (hd : dst s.st s.out=(some room,st'))
      (hc : ¬ s.ring.tph.tpSnaplen<s.ring.tph.tpLen) (hch : s.ring.chain=false)
      (hroom : room<s.ring.packet.length) :
      Turn b dst s { s with st := st', ring := s.ring.skip s.ring.tph } .again
  | placed {st' : σ} {o' : Output} {rooms : List Nat} (h : s.ring.Fits)
      (hc : ¬ s.ring.tph.tpSnaplen<s.ring.tph.tpLen)
      (hd : Asks dst s.st s.out rooms st' ∧ rooms.length=1 ∨ s.ring.chain=true ∧
        ∃ room st, dst s.st s.out=(some room,st) ∧ Asks dst st s.out rooms st')
      (hh : Held b s rooms o') :
      Turn b dst s { s with
        st := st', o := o', out := s.out+rooms.length,
        ring := s.ring.advance s.ring.tph.tpNextOffset } .again
  | tooLong {st' : σ} {o' : Output} {rooms : List Nat} (h : s.ring.Fits)
      (hc : ¬ s.ring.tph.tpSnaplen<s.ring.tph.tpLen) (hch : s.ring.chain=true)
      (ht : Tried dst s rooms st' o') (hout : s.out=0) (hlen : rooms.length=b.max) :
      Turn b dst s { s with
        st := st', o := o',
        ring := { s.ring with batchTooSmall := s.ring.batchTooSmall+1 }.skip s.ring.tph } .again
  | noSlots {st' : σ} {o' : Output} {rooms : List Nat} (h : s.ring.Fits)
      (hc : ¬ s.ring.tph.tpSnaplen<s.ring.tph.tpLen) (hch : s.ring.chain=true)
      (ht : Tried dst s rooms st' o') (hout : s.out≠0) (hlen : s.out+rooms.length=b.max) :
      Turn b dst s { s with st := st', o := o', ring := { s.ring with pending := true } } .stop
  | noFrames {st' st'' : σ} {o' : Output} {rooms : List Nat} (h : s.ring.Fits)
      (hc : ¬ s.ring.tph.tpSnaplen<s.ring.tph.tpLen) (hch : s.ring.chain=true)
      (ht : Tried dst s rooms st' o') (hd : dst st' (s.out+rooms.length)=(none,st''))
      (hlen : s.out+rooms.length<b.max) :
      Turn b dst s { s with st := st'', o := o', ring := { s.ring with pending := true } } .stop

theorem chained_turn (hm : s.ring.Mapped) (hf : s.ring.Fits)
    (hd : d.toNat=s.ring.dataAt) (hdst : dst s.st s.out=(some room,st))
    (hc : ¬ s.ring.tph.tpSnaplen<s.ring.tph.tpLen) (hch : s.ring.chain=true) (hmax : s.out<b.max) :
    ∃ s' nx, { s with st }.chained b dst s.ring.tph d=some (s',nx) ∧ Turn b dst s s' nx := by
  obtain ⟨segs,hsegs,hflat,hsne,hsnil⟩ := segs_some hm hf hd
  have hleft : s.out+(b.max-s.out)=b.max := by omega
  obtain ⟨rooms,st1,o1,hlaid,hlen,hres⟩ := spreadLoop_spec dst segs st s.o (Nat.le_of_eq hleft)
  rcases hres with ⟨hplaced,hbytes,hne⟩ | ⟨hfail,hsum⟩
  · have hne := hne hsne
    obtain ⟨cont,hmark,hmarks,hun,hcont⟩ := markSlots_some b o1.cont
      (by omega : s.out+rooms.length≤b.max) (List.length_pos_iff.mpr hne)
    rw [hlaid.cont] at hun hcont
    have hsp : s.ring.spread b dst s.out d s.ring.tph.tpSnaplen s.ring.tph.tag st s.o =
        some (.placed rooms.length,st1,{ o1 with cont }) := by
      simp only [Ring.spread,hsegs,hplaced,bind_eq_bind,bind_some,Nat.add_sub_cancel_left,hmark]
    have hmarked : b.cont=true ∨ rooms.length=1 → s.o.cont s.out=false →
        ∀ i, i<rooms.length → cont (s.out+i)=decide (i+1<rooms.length) := by
      intro hw hzero i hi
      cases hb : b.cont with
      | true => exact hmarks hb i hi
      | false =>
        -- without an array of marks a packet in one slot is as unmarked as the slot was
        have hone : rooms.length=1 := by simpa [hb] using hw
        have hi0 : i=0 := by omega
        rw [hun hb,hi0,Nat.add_zero,hzero,hone]
        rfl
    obtain ⟨o',hst,hh⟩ := stamp_held (b := b) hf hd cont hlaid hne (by omega)
      (hbytes.trans hflat) hmarked hcont
    refine ⟨_,_,?_,.placed hf hc (.inr ⟨hch,room,st,hdst,hlaid.asks⟩) hh⟩
    simp only [Reading.chained,hsp,bind_eq_bind,bind_some]
    exact congrArg (fun s => s.bind fun s => some (s,Next.again)) hst
  have htried : Tried dst s rooms st1 o1 :=
    { asks := ⟨room,st,hdst,hlaid.asks⟩
      short := fun h12 => by rw [← hflat]; exact hsum (hsnil h12)
      other := fun j hj => ⟨(hlaid.other j hj).1,(hlaid.other j hj).2,congrFun hlaid.offs j,
        congrFun hlaid.tss j,congrFun hlaid.cont j⟩
      offs := hlaid.offs
      tss := hlaid.tss
      cont := hlaid.cont }
  rcases hfail with ⟨hslots,hfull⟩ | ⟨st2,hdry,hlt,hframes⟩
  · have hsp : s.ring.spread b dst s.out d s.ring.tph.tpSnaplen s.ring.tph.tag st s.o =
        some (.noSlots,st1,o1) := by
      simp only [Ring.spread,hsegs,hslots,bind_eq_bind,bind_some]
    by_cases hout : s.out=0
    · refine ⟨_,_,?_,.tooLong hf hc hch htried hout (by omega)⟩
      simp only [Reading.chained,hsp,bind_eq_bind,bind_some]
      exact if_pos hout
    refine ⟨_,_,?_,.noSlots hf hc hch htried hout (by omega)⟩
    simp only [Reading.chained,hsp,bind_eq_bind,bind_some]
    exact if_neg hout
  · have hsp : s.ring.spread b dst s.out d s.ring.tph.tpSnaplen s.ring.tph.tag st s.o =
        some (.noFrames,st2,o1) := by
      simp only [Ring.spread,hsegs,hframes,bind_eq_bind,bind_some]
    refine ⟨_,_,?_,.noFrames hf hc hch htried hdry (by omega)⟩
    simp only [Reading.chained,hsp,bind_eq_bind,bind_some]

theorem frame_turn (hm : s.ring.Mapped) (hmax : s.out<b.max) :
    ∃ s' nx, s.frame b dst=some (s',nx) ∧ Turn b dst s s' nx := by
  rw [Reading.frame]
  by_cases hh : s.ring.frameOff.toNat+hdrSize ≤ s.ring.blockSize.toNat
  case neg =>
    rw [if_pos (by rw [Bool.not_eq_true', ← Bool.not_eq_true, frameHdrFits_iff hm]; exact hh)]
    exact ⟨_,_,rfl,.refused fun hf => hh hf.hdr⟩
  rw [if_neg (by rw [(frameHdrFits_iff hm).mpr hh]; simp)]
  simp only [frameHdr_some hm hh,bind_eq_bind,bind_some]
  by_cases hf : s.ring.Fits
  case neg =>
    rw [if_pos (by rw [Bool.not_eq_true', ← Bool.not_eq_true, frameInBlock_iff hh]; exact hf)]
    exact ⟨_,_,rfl,.refused hf⟩
  rw [if_neg (by rw [(frameInBlock_iff hh).mpr hf]; simp)]
  have hd := data_toNat hm hf
  cases hdst : dst s.st s.out with
  | mk buffer st =>
    rcases buffer with _ | room
    · exact ⟨_,_,rfl,.dry hf hdst⟩
    simp only [← packet_length]
    by_cases hc : s.ring.tph.tpSnaplen<s.ring.tph.tpLen
    case pos =>
      rw [if_pos hc]
      exact ⟨_,_,rfl,.clipped hf hdst hc⟩
    rw [if_neg hc]
    by_cases hroom : room<s.ring.packet.length
    case neg =>
      rw [if_neg hroom]
      obtain ⟨o',hsingle,hheld⟩ := single_held hm hf hd hdst (Nat.le_of_not_lt hroom) hmax
      exact ⟨_,_,hsingle,.placed hf hc (.inl ⟨.cons hdst .nil,rfl⟩) hheld⟩
    rw [if_pos hroom]
    cases hch : s.ring.chain with
    | false => exact ⟨_,_,rfl,.tooBig hf hdst hc hch hroom⟩
    | true => exact chained_turn hm hf hd hdst hc hch hmax

end

end Packetio.Afpacket

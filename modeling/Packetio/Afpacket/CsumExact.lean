import Packetio.Afpacket.Csum
import Packetio.Afpacket.RingWalk
import Packetio.Lib.OnesComplement

/-! What finishing a checksum comes to: the datagram adds up to zero, its padding has no part in
the sum, and a tag in front of the frame makes no difference. -/
namespace Packetio.Afpacket
open Lib List Option Nat UInt16 UInt32

/-! The sum of a range -/

theorem or_bytes (x y : UInt8) : x.toNat <<< 8 ||| y.toNat=x.toNat*256+y.toNat := by
  rw [shiftLeft_eq,mul_comm,← two_pow_add_eq_or_of_lt y.toNat_lt]

theorem word16_toNat (x y : UInt8) :
    (x.toUInt16 <<< 8 ||| y.toUInt16).toNat=x.toNat*256+y.toNat := by
  have hx := x.toNat_lt
  rw [← or_bytes,UInt16.toNat_or,UInt16.toNat_shiftLeft,UInt8.toNat_toUInt16,UInt8.toNat_toUInt16]
  congr 1
  refine Nat.mod_eq_of_lt ?_
  change x.toNat <<< 8<65536
  omega

theorem word32_toNat (x y : UInt8) :
    (x.toUInt32 <<< 8 ||| y.toUInt32).toNat=x.toNat*256+y.toNat := by
  have hx := x.toNat_lt
  rw [← or_bytes,UInt32.toNat_or,UInt32.toNat_shiftLeft,UInt8.toNat_toUInt32,UInt8.toNat_toUInt32]
  congr 1
  refine Nat.mod_eq_of_lt ?_
  change x.toNat <<< 8<4294967296
  omega

variable {fuel start pos l : Nat} {rest macs tag : List UInt8}

theorem foldCarries_ones {sum v : UInt32} (h : foldCarries fuel sum=some v) :
    v.toNat=ones sum.toNat := by
  induction fuel generalizing sum with
  | zero => cases h
  | succ fuel ih =>
    rw [foldCarries] at h
    split at h
    case isTrue =>
      rw [ih h,carry_toNat]
      exact (ones_around (sum.toNat/2^16) (by omega) (by omega)).symm
    rename_i hsmall
    have hshift := congrArg UInt32.toNat (not_not.mp hsmall)
    change sum.toNat >>> 16=0 at hshift
    cases h
    exact (ones_of_le (by omega)).symm

theorem sumWords_toNat (b : List UInt8) (sum : UInt32) (h : sum.toNat+wordSum b<4294967296) :
    (sumWords b sum).toNat=sum.toNat+wordSum b := by
  induction b using wordSum.induct generalizing sum with
  | case1 => rfl
  | case2 x =>
    have hword : (x.toUInt32 <<< 8).toNat=x.toNat*256+0 := by
      rw [← UInt8.toNat_zero,← word32_toNat]
      exact congrArg UInt32.toNat UInt32.or_zero.symm
    rw [sumWords,UInt32.toNat_add,hword,add_zero]
    exact mod_eq_of_lt h
  | case3 x y b ih =>
    rw [wordSum,← add_assoc] at h ⊢
    have hadd : (sum+(x.toUInt32 <<< 8 ||| y.toUInt32)).toNat=sum.toNat+(x.toNat*256+y.toNat) := by
      rw [UInt32.toNat_add,word32_toNat]
      exact mod_eq_of_lt (lt_of_le_of_lt (le_add_right _ _) h)
    rw [sumWords,ih,hadd]
    rwa [hadd]

theorem onesComplement_spec {b : List UInt8} (h : b.length≤131072) :
    ∃ v, onesComplement b=some v ∧ v.toNat=65535-ones (wordSum b) := by
  have hle := wordSum_le b
  have hones := ones_le (wordSum b)
  obtain ⟨sum,hsum⟩ := foldCarries_some (sumWords b 0)
  have hzero : UInt32.toNat 0=0 := rfl
  have hwords : (sumWords b 0).toNat=wordSum b := by
    rw [sumWords_toNat _ _ (by omega),hzero,zero_add]
  have hfold := foldCarries_ones hsum
  rw [hwords] at hfold
  refine ⟨~~~sum.toUInt16,by rw [onesComplement,hsum]; rfl,?_⟩
  rw [UInt16.toNat_not,UInt32.toNat_toUInt16,hfold,Nat.mod_eq_of_lt (by omega)]
  rfl

section
variable {pre rest : List UInt8} {x y : UInt8}

theorem be16At_behind (i : Nat) : be16At (pre++rest) (pre.length+i)=be16At rest i := by
  rw [be16At,be16At,add_assoc,getElem?_append_right (le_add_right _ _),
    getElem?_append_right (Nat.le_add_right _ _),Nat.add_sub_cancel_left,
    Nat.add_sub_cancel_left]

theorem be16At_front {i : Nat} (h : i+2≤pre.length) : be16At (pre++rest) i=be16At pre i := by
  rw [be16At,be16At,getElem?_append_left (by omega),getElem?_append_left (by omega)]

theorem be16At_field : ∃ v, be16At (pre++x::y::rest) pre.length=some v ∧
    v.toNat=x.toNat*256+y.toNat :=
  ⟨_,be16At_behind 0,word16_toNat x y⟩

theorem be16At_halves (v : UInt16) :
    be16At (pre++(v >>> 8).toUInt8::v.toUInt8::rest) pre.length=some v := by
  obtain ⟨w,hw,hnat⟩ := @be16At_field pre rest (v >>> 8).toUInt8 v.toUInt8
  rw [halves_toNat,UInt16.toNat_inj] at hnat
  rw [hw,hnat]

theorem putBe16_field (v : UInt16) : putBe16 (pre++x::y::rest) pre.length v =
    some (pre++(v >>> 8).toUInt8::v.toUInt8::rest) := by
  rw [putBe16,if_pos (by rw [length_append]; exact Nat.add_le_add_left (Nat.le_add_left _ _) _)]
  simp [set_append_right]

theorem field_other {j : Nat} (hj : j≠pre.length) (hj' : j≠pre.length+1) (x' y' : UInt8) :
    (pre++x'::y'::rest)[j]? = (pre++x::y::rest)[j]? := by
  by_cases hlt : j<pre.length
  · rw [getElem?_append_left hlt,getElem?_append_left hlt]
  obtain ⟨k,rfl⟩ := Nat.exists_eq_add_of_le (by omega : pre.length+2≤j)
  rw [getElem?_append_right (by omega),getElem?_append_right (by omega),
    add_assoc,Nat.add_sub_cancel_left,add_comm 2]
  rfl

theorem wordSum_field {stop : Nat} (hs : start≤pre.length) (he : pre.length+2 ≤ stop)
    (heven : (pre.length-start)%2=0) : wordSum (((pre++x::y::rest).drop start).take (stop-start)) =
      wordSum (pre.drop start)+(x.toNat*256+y.toNat+wordSum (rest.take (stop-pre.length-2))) := by
  have hlen : (pre.drop start).length=pre.length-start := length_drop
  obtain ⟨n,hn⟩ : ∃ n, stop-start=(pre.drop start).length+(n+2) := ⟨stop-pre.length-2,by omega⟩
  have hn' : stop-pre.length-2=n := by omega
  rw [drop_append_of_le_length hs,hn,take_length_add_append,wordSum_append _ (by omega),
    take_succ_cons,take_succ_cons,wordSum,hn']

end

theorem split_field {frame : List UInt8} (h : pos+2≤frame.length) :
    ∃ pre x y rest, frame=pre++x::y::rest ∧ pre.length=pos := by
  have hpre : (frame.take pos).length=pos := by
    rw [length_take]
    omega
  obtain ⟨x,y,rest,hrest⟩ : ∃ x y rest, frame.drop pos=x::y::rest := by
    have hlen : (frame.drop pos).length=frame.length-pos := length_drop
    match hd : frame.drop pos with
    | [] | [_] => simp [hd] at hlen; omega
    | x::y::rest => exact ⟨x,y,rest,rfl⟩
  exact ⟨_,x,y,rest,by rw [← hrest,take_append_drop],hpre⟩

def sumEnd (frame : List UInt8) (pos l3 stop : Nat) : Nat :=
  if stop > frame.length ∨ stop<pos+2 ∨ stop<frame.length ∧ frame.length > l3+2+46
    then frame.length else stop

theorem fillL4_field {frame pre : List UInt8} {x y : UInt8} {l3 stop : Nat}
    (hframe : frame=pre++x::y::rest) (hlen : frame.length≤131072)
    (hl3 : skipTags frame (frame.length+1) 12=some l3) (hstop : payloadEnd frame l3=some stop)
    (hstart : start≤pre.length) : ∃ v : UInt16,
      fillL4 frame start pre.length=some (pre++(v >>> 8).toUInt8::v.toUInt8::rest) ∧ v≠0 ∧
      (wordSum ((frame.drop start).take (sumEnd frame pre.length l3 stop-start))+v.toNat)%65535 =
      0 := by
  have hsize : pre.length+2≤frame.length := by
    rw [hframe,length_append]
    exact Nat.add_le_add_left (Nat.le_add_left _ _) _
  have hin : pre.length+2 ≤ sumEnd frame pre.length l3 stop ∧
      sumEnd frame pre.length l3 stop≤frame.length := by
    rw [sumEnd]
    split
    · omega
    · omega
  have hrange :
    ((frame.drop start).take (sumEnd frame pre.length l3 stop-start)).length≤131072 := by
    rw [length_take,length_drop]
    omega
  obtain ⟨v,hv,hnat⟩ := onesComplement_spec hrange
  have hfill (w : UInt16) (hw : (if v=0 then 0xffff else v)=w) :
      fillL4 frame start pre.length=some (pre++(w >>> 8).toUInt8::w.toUInt8::rest) := by
    simp only [fillL4,hl3,hstop,bind_eq_bind,bind_some]
    rw [between,if_pos ⟨by rw [← sumEnd]; omega,by rw [← sumEnd]; exact hin.2⟩,bind_some,
      ← sumEnd,hv,bind_some,hw,hframe,putBe16_field]
  rw [ones] at hnat
  by_cases h0 : v=0
  · refine ⟨0xffff,hfill _ (if_pos h0),by decide,?_⟩
    have hmax : UInt16.toNat 0xffff=65535 := rfl
    rw [h0,UInt16.toNat_zero] at hnat
    split at hnat
    · omega
    · omega
  · refine ⟨v,hfill _ (if_neg h0),h0,?_⟩
    split at hnat
    · omega
    · omega

/-! Frames -/

structure Ethernet where
  macs : List UInt8
  tags : List Tag
  etherType : UInt16
  datagram : List UInt8
  padding : List UInt8
  addresses : macs.length=12
  tagged : ∀ tag∈tags, tag.tpid∈tpids
  truthful : (etherType=0x0800 ∧ 20≤datagram.length ∧
      ∃ n, be16At datagram 2=some n ∧ n.toNat=datagram.length) ∨
    (etherType=0x86dd ∧ ∃ n, be16At datagram 4=some n ∧ 40+n.toNat=datagram.length)
  short : padding = [] ∨ datagram.length+padding.length≤46

namespace Ethernet
variable (e : Ethernet)

def link : List UInt8 := e.macs++e.tags.flatMap Tag.bytes

def frame : List UInt8 :=
  e.link++(e.etherType >>> 8).toUInt8::e.etherType.toUInt8::(e.datagram++e.padding)

def stop : Nat := e.link.length+2+e.datagram.length

theorem skipTags_tags (pre rest : List UInt8) (tags : List Tag) (et : UInt16)
    (htags : ∀ tag∈tags, tag.tpid∈tpids) (het : et∉tpids) (hfuel : tags.length<fuel) :
    skipTags (pre++tags.flatMap Tag.bytes++(et >>> 8).toUInt8::et.toUInt8::rest) fuel pre.length =
      some (pre++tags.flatMap Tag.bytes).length := by
  induction tags generalizing pre fuel with
  | nil =>
    obtain ⟨fuel,rfl⟩ := Nat.exists_eq_add_of_lt hfuel
    rw [flatMap_nil,append_nil,skipTags,be16At_halves]
    simp [het]
  | cons tag tags ih =>
    obtain ⟨fuel,rfl⟩ := Nat.exists_eq_add_of_lt hfuel
    have hsplit : pre++(tag::tags).flatMap Tag.bytes++(et >>> 8).toUInt8::et.toUInt8::rest =
        pre++tag.bytes++tags.flatMap Tag.bytes++(et >>> 8).toUInt8::et.toUInt8::rest := by
      simp
    have htpid : be16At (pre++tag.bytes++tags.flatMap Tag.bytes++
        (et >>> 8).toUInt8::et.toUInt8::rest) pre.length=some tag.tpid := by
      rw [append_assoc,append_assoc]
      exact be16At_halves _
    have hlen : (pre++tag.bytes).length=pre.length+4 := length_append
    have hin : pre.length+4≤(pre++tag.bytes++tags.flatMap Tag.bytes++
        (et >>> 8).toUInt8::et.toUInt8::rest).length := by
      rw [length_append,length_append,hlen]
      omega
    have hrest := ih (pre++tag.bytes) (fun t ht => htags t (mem_cons_of_mem _ ht))
      (by omega : tags.length<tags.length+1+fuel)
    rw [hsplit,length_cons,skipTags,if_pos hin,htpid,bind_eq_bind,
      bind_some,if_pos (htags tag mem_cons_self),← hlen,hrest,flatMap_cons,
      append_assoc]

theorem frame_length : e.frame.length=e.stop+e.padding.length := by
  rw [frame,stop,length_append,length_cons,length_cons,length_append]
  omega

theorem skipTags_frame : skipTags e.frame (e.frame.length+1) 12=some e.link.length := by
  have het : e.etherType∉tpids := by rcases e.truthful with ⟨h,-⟩ | ⟨h,-⟩ <;> rw [h] <;> decide
  have hfuel : e.tags.length<e.frame.length+1 := by
    have hlen : (e.tags.flatMap Tag.bytes).length=e.tags.length*4 := by
      simp [length_flatMap,Tag.bytes]
    rw [frame,link,length_append,length_append,hlen]
    omega
  have h := skipTags_tags e.macs (e.datagram++e.padding) e.tags e.etherType e.tagged het hfuel
  rwa [e.addresses] at h

theorem sumEnd_frame (hpos : pos+2≤e.stop) : ∃ stop,
    payloadEnd e.frame e.link.length=some stop ∧ sumEnd e.frame pos e.link.length stop=e.stop := by
  have hlen := e.frame_length
  have hstop : e.stop=e.link.length+2+e.datagram.length := rfl
  have hshort : e.padding.length=0 ∨ e.datagram.length+e.padding.length≤46 :=
    e.short.imp_left (congrArg length)
  have het : be16At e.frame e.link.length=some e.etherType := be16At_halves _
  have hread (i : Nat) : be16At e.frame (e.link.length+2+i)=be16At (e.datagram++e.padding) i := by
    have hsplit : e.frame=(e.link++[(e.etherType >>> 8).toUInt8,e.etherType.toUInt8])++
        (e.datagram++e.padding) := by
      rw [append_assoc]
      rfl
    have hhdr : (e.link++[(e.etherType >>> 8).toUInt8,e.etherType.toUInt8]).length =
        e.link.length+2 := length_append
    rw [hsplit,← hhdr,be16At_behind]
  have hend (stop : Nat) (h : stop=e.stop ∨ stop=e.frame.length ∧ 46<e.datagram.length) :
      sumEnd e.frame pos e.link.length stop=e.stop := by
    rw [sumEnd]
    split
    · omega
    · omega
  simp only [payloadEnd,het,bind_eq_bind,bind_some]
  rcases e.truthful with ⟨h4,hmin,n,hn,hlong⟩ | ⟨h6,n,hn,hlong⟩
  · split
    case isTrue =>
      rw [hread,be16At_front (by omega),hn]
      exact ⟨_,rfl,hend _ (.inl (by omega))⟩
    case isFalse hbig => exact ⟨_,rfl,hend _ (.inr ⟨rfl,by omega⟩)⟩
  have hne : e.etherType≠0x0800 := by rw [h6]; decide
  split
  case isTrue =>
    rw [hread,be16At_front (by omega),hn]
    exact ⟨_,rfl,hend _ (.inl (by omega))⟩
  case isFalse hbig => exact ⟨_,rfl,hend _ (.inr ⟨rfl,by omega⟩)⟩

end Ethernet

theorem completeL4_out {frame : List UInt8} {csumStart csumOff : Int}
    (h : ¬ (0≤csumStart ∧ 0≤csumOff ∧ csumStart+csumOff+2≤frame.length)) :
    completeL4 frame csumStart csumOff=some (frame,false) := by
  rw [completeL4]
  split
  case isTrue => rfl
  case isFalse => rw [if_pos (by omega)]

theorem completeL4_in {frame : List UInt8} {off : Nat} (h : start+off+2≤frame.length) :
    completeL4 frame start off=(fillL4 frame start (start+off)).map fun x => (x,true) := by
  rw [completeL4,if_neg (by omega),if_neg (by omega)]
  simp only [← cast_add,Int.toNat_natCast]
  rw [if_neg (by omega)]
  cases fillL4 frame start (start+off) with
  | none | some _ => rfl

/-- For a frame of at most 131072 bytes and any offsets: what is not finished is left alone, and
what is changes in the two bytes of the field only. Where the frame is an Ethernet frame with a
datagram that says how long it is, and the field is in it at an even offset, the partial sum
and the bytes up to the end of the datagram now add up to zero, and the field is not zero. -/
theorem completeL4_exact (frame : List UInt8) (csumStart csumOff : Int)
    (hlen : frame.length≤131072) : ∃ frame' ok,
      completeL4 frame csumStart csumOff=some (frame',ok) ∧ (ok=false → frame'=frame) ∧
      frame'.length=frame.length ∧ (∀ j : Nat, j≠csumStart+csumOff → j≠csumStart+csumOff+1 →
        frame'[j]? = frame[j]?) ∧
      ∀ e : Ethernet, e.frame=frame → 0≤csumStart → 0≤csumOff → csumOff%2=0 →
        csumStart+csumOff+2≤e.stop → ok=true ∧ ∃ old new : UInt16,
          be16At frame (csumStart+csumOff).toNat=some old ∧
          be16At frame' (csumStart+csumOff).toNat=some new ∧ new≠0 ∧
          (old.toNat+wordSum ((frame'.take e.stop).drop csumStart.toNat))%65535=0 := by
  by_cases hfit : 0≤csumStart ∧ 0≤csumOff ∧ csumStart+csumOff+2≤frame.length
  case neg =>
    refine ⟨frame,false,completeL4_out hfit,fun _ => rfl,rfl,fun _ _ _ => rfl,?_⟩
    intro e he hstart hoff _ hin
    have hsize := e.frame_length
    rw [he] at hsize
    exact absurd ⟨hstart,hoff,by omega⟩ hfit
  case pos =>
    obtain ⟨hstart,hoff,hin⟩ := hfit
    obtain ⟨start,rfl⟩ := Int.eq_ofNat_of_zero_le hstart
    obtain ⟨off,rfl⟩ := Int.eq_ofNat_of_zero_le hoff
    obtain ⟨pre,x,y,rest,hframe,hpre⟩ := split_field (by omega : start+off+2≤frame.length)
    obtain ⟨l3,hl3⟩ := skipTags_some (by omega : frame.length<12+4+frame.length)
    obtain ⟨stop,hstop⟩ := payloadEnd_some frame l3
    obtain ⟨v,hfill,hv,hsum⟩ := fillL4_field hframe hlen hl3 hstop (by omega : start≤pre.length)
    rw [hpre] at hfill
    refine ⟨_,true,by rw [completeL4_in (by omega),hfill]; rfl,nofun,?_,?_,?_⟩
    · simp [hframe]
    · intro j hj hj'
      rw [hframe]
      exact field_other (by omega) (by omega) _ _
    · rintro e rfl - - heven hinside
      have hpos : pre.length+2≤e.stop := by omega
      have hstart : start≤pre.length := by omega
      have heven : (pre.length-start)%2=0 := by omega
      obtain ⟨stop',hstop',hend⟩ := e.sumEnd_frame hpos
      rw [e.skipTags_frame] at hl3
      cases hl3
      rw [hstop'] at hstop
      cases hstop
      obtain ⟨old,hold,hnat⟩ := @be16At_field pre rest x y
      have hat : (start+off : Int).toNat=pre.length := by omega
      refine ⟨rfl,old,v,by rw [hframe,hat,hold],by rw [hat,be16At_halves],hv,?_⟩
      rw [hend,hframe,wordSum_field hstart hpos heven] at hsum
      rw [Int.toNat_natCast,drop_take,wordSum_field hstart hpos heven,halves_toNat]
      omega

def taggedQuery : Ethernet where
  macs := List.replicate 12 2
  tags := [⟨4,0x8100,5⟩]
  etherType := 0x0800
  datagram := [0x45,0,0,28]++List.replicate 16 1++[0x30,0x39,0,53,0,8,0x12,0x34]
  padding := List.replicate 18 0
  addresses := rfl
  tagged := by decide
  truthful := .inl ⟨rfl,by decide,28,by decide,rfl⟩
  short := .inr (by decide)

theorem completeL4_exact_tagged : ∃ frame' old new,
    completeL4 taggedQuery.frame 38 6=some (frame',true) ∧
      be16At taggedQuery.frame 44=some old ∧ be16At frame' 44=some new ∧ new≠0 ∧
      (old.toNat+wordSum ((frame'.take 46).drop 38))%65535=0 := by
  obtain ⟨frame',ok,hdone,-,-,-,hsum⟩ := completeL4_exact taggedQuery.frame 38 6 (by decide)
  obtain ⟨rfl,old,new,hold,hnew,hne,hzero⟩ :=
    hsum taggedQuery rfl (by decide) (by decide) rfl (by decide)
  exact ⟨frame',old,new,hdone,hold,hnew,hne,hzero⟩

/-! A tag in front -/

theorem length_tag (htag : tag.length=4) : (macs++tag++rest).length=(macs++rest).length+4 := by
  simp only [length_append]
  omega

theorem sumEnd_tag (htag : tag.length=4) (pos l3 stop : Nat) :
    sumEnd (macs++tag++rest) (pos+4) (l3+4) (stop+4)=sumEnd (macs++rest) pos l3 stop+4 := by
  rw [sumEnd,sumEnd,length_tag htag]
  split
  case isTrue => rw [if_pos (by omega)]
  case isFalse => rw [if_neg (by omega)]

section
variable {macs tag rest : List UInt8} (hmacs : macs.length=12) (htag : tag.length=4)
include hmacs htag

theorem be16At_tag (h : 12≤l) : be16At (macs++tag++rest) (l+4)=be16At (macs++rest) l := by
  obtain ⟨i,rfl⟩ := Nat.exists_eq_add_of_le h
  have hlen : (macs++tag).length=16 := by rw [length_append,hmacs,htag]
  have hl := @be16At_behind (macs++tag) rest i
  have hr := @be16At_behind macs rest i
  rw [hmacs] at hr
  rw [hr,← hl]
  congr 1
  omega

theorem drop_tag (h : 12≤l) : (macs++tag++rest).drop (l+4)=(macs++rest).drop l := by
  obtain ⟨i,rfl⟩ := Nat.exists_eq_add_of_le h
  have hlen : (macs++tag).length=16 := by rw [length_append,hmacs,htag]
  have hi : 12+i+4=(macs++tag).length+i := by omega
  rw [hi,drop_length_add_append,← hmacs,drop_length_add_append]

theorem payloadEnd_tag {l3 : Nat} (h : 12≤l3) :
    payloadEnd (macs++tag++rest) (l3+4)=(payloadEnd (macs++rest) l3).map (·+4) := by
  have hfour : l3+4+2+2=l3+2+2+4 := by omega
  have hsix : l3+4+2+4=l3+2+4+4 := by omega
  simp only [payloadEnd,length_tag htag,hfour,hsix,be16At_tag hmacs htag h,
    be16At_tag hmacs htag (by omega : 12≤l3+2+2),be16At_tag hmacs htag (by omega : 12≤l3+2+4)]
  by_cases hin : l3+2+8≤(macs++rest).length ∧ (macs++rest).length≤l3+2+0xffff
  case neg =>
    rw [if_neg (by omega),if_neg hin]
    rfl
  case pos =>
    rw [if_pos (by omega),if_pos hin]
    rcases be16At (macs++rest) l3 with _ | et
    · rfl
    simp only [bind_eq_bind,bind_some]
    split
    case isTrue =>
      cases be16At (macs++rest) (l3+2+2) with
      | none => rfl
      | some total =>
        change some (l3+4+2+total.toNat)=some (l3+2+total.toNat+4)
        rw [some_inj]
        omega
    split
    case isTrue =>
      cases be16At (macs++rest) (l3+2+4) with
      | none => rfl
      | some payload =>
        change some (l3+4+2+40+payload.toNat)=some (l3+2+40+payload.toNat+4)
        rw [some_inj]
        omega
    case isFalse => rfl

theorem between_tag {stop : Nat} (h : 12 ≤ start) :
    between (macs++tag++rest) (start+4) (stop+4)=between (macs++rest) start stop := by
  rw [between,between,length_tag htag,drop_tag hmacs htag h,Nat.add_sub_add_right]
  by_cases hin : start ≤ stop ∧ stop≤(macs++rest).length
  · rw [if_pos hin,if_pos (by omega)]
  · rw [if_neg hin,if_neg (by omega)]

theorem putBe16_tag (h : 12≤pos) (v : UInt16) : putBe16 (macs++tag++rest) (pos+4) v =
    (putBe16 (macs++rest) pos v).map fun b => b.take 12++tag++b.drop 12 := by
  obtain ⟨i,rfl⟩ := Nat.exists_eq_add_of_le h
  have hput (pre : List UInt8) (hpre : pre.length+i≤12+i+4) :
      (((pre++rest).set (pre.length+i) (v >>> 8).toUInt8).set (pre.length+i+1) v.toUInt8) =
        pre++(rest.set i (v >>> 8).toUInt8).set (i+1) v.toUInt8 := by
    rw [set_append_right _ _ (by omega),set_append_right _ _ (by omega),add_assoc,
      Nat.add_sub_cancel_left,Nat.add_sub_cancel_left]
  have hlen : (macs++tag).length=16 := by rw [length_append,hmacs,htag]
  have htagged := hput (macs++tag) (by omega)
  have hplain := hput macs (by omega)
  rw [hlen] at htagged
  rw [hmacs] at hplain
  have hat : 12+i+4=16+i := by omega
  rw [putBe16,putBe16,length_tag htag,hat,htagged,hplain]
  split
  case isTrue hin => rw [if_pos (by omega),map_some,take_left' hmacs,drop_left' hmacs]
  rename_i hin
  rw [if_neg (by omega)]
  rfl

theorem fillL4_tag {tpid et : UInt16} (htpid : be16At (macs++tag++rest) 12=some tpid)
    (hin : tpid∈tpids) (het : be16At (macs++rest) 12=some et) (hout : et∉tpids) {start pos : Nat}
    (hlen : 16≤(macs++rest).length) (hstart : 12 ≤ start) (hpos : 12≤pos) :
    fillL4 (macs++tag++rest) (start+4) (pos+4) =
      (fillL4 (macs++rest) start pos).map fun b => b.take 12++tag++b.drop 12 := by
  have hplain : skipTags (macs++rest) ((macs++rest).length+1) 12=some 12 := by
    rw [skipTags,het,bind_eq_bind,bind_some,if_neg hout,ite_self]
  have htagged : skipTags (macs++tag++rest) ((macs++tag++rest).length+1) 12=some 16 := by
    rw [length_tag htag,skipTags,htpid,bind_eq_bind,bind_some,if_pos hin,
      if_pos (by rw [length_tag htag]; omega),skipTags,be16At_tag hmacs htag (le_refl 12),het,
      bind_eq_bind,bind_some,if_neg hout,ite_self]
  have hstop := @payloadEnd_tag macs tag rest hmacs htag 12 (le_refl 12)
  obtain ⟨stop,hend⟩ := payloadEnd_some (macs++rest) 12
  rw [hend,map_some] at hstop
  simp only [fillL4,hplain,htagged,hend,hstop,bind_eq_bind,bind_some]
  have hsum : sumEnd (macs++tag++rest) (pos+4) 16 (stop+4)=sumEnd (macs++rest) pos 12 stop+4 :=
    sumEnd_tag htag pos 12 stop
  rw [← sumEnd,← sumEnd,hsum,between_tag hmacs htag hstart]
  rcases between (macs++rest) start (sumEnd (macs++rest) pos 12 stop) with _ | range
  · rfl
  rw [bind_some,bind_some]
  cases onesComplement range with
  | none => rfl
  | some sum => exact putBe16_tag hmacs htag hpos _

end

theorem shifted_csum {o : Offload} (h : o.flags &&& offloadNeedsCsum≠0)
    (hmax : o.csumStart.toNat≤65531) :
    (shifted o 4).csumStart.toNat=o.csumStart.toNat+4 ∧ (shifted o 4).csumOff=o.csumOff := by
  have hshift : (shift 4 o.csumStart).toNat=o.csumStart.toNat+4 := by
    rw [shift,if_neg (by omega),UInt16.toNat_add]
    exact mod_eq_of_lt (by change _+4<65536; omega)
  rw [shifted,if_pos h]
  split
  case isTrue | isFalse => exact ⟨hshift,rfl⟩

/-- With a recognised TPID, the tag put back first and the checksum finished at the offset that
moved with it is the checksum finished first and the tag put back then. -/
theorem wire_completeL4 (tph : Tpacket3Hdr) (frame : List UInt8) (o : Offload)
    (htag : tph.tag.tagLen≠0) (htpid : tph.tag.tpid∈tpids) (hlen : 16≤frame.length)
    (huntagged : ∀ et, be16At frame 12=some et → et∉tpids)
    (hcsum : o.flags &&& offloadNeedsCsum≠0) (hmin : 14≤o.csumStart.toNat)
    (hmax : o.csumStart.toNat≤65531) :
    completeL4 (tph.wire frame) (shifted o tph.tag.tagLen).csumStart.toNat
        (shifted o tph.tag.tagLen).csumOff.toNat =
      (completeL4 frame o.csumStart.toNat o.csumOff.toNat).map fun x => (tph.wire x.1,x.2) := by
  have hfour : tph.tag.tagLen=4 := by
    have := tag_cases tph
    omega
  obtain ⟨hstart,hoff⟩ := shifted_csum hcsum hmax
  have hwire (b : List UInt8) : tph.wire b=b.take 12++tph.tag.bytes++b.drop 12 := if_pos htag
  have hmacs : (frame.take 12).length=12 := by
    rw [length_take]
    omega
  have hframe := take_append_drop 12 frame
  have hsize : (tph.wire frame).length=frame.length+4 := by rw [hwire,length_tag rfl,hframe]
  rw [hfour,hstart,hoff]
  by_cases hin : o.csumStart.toNat+o.csumOff.toNat+2≤frame.length
  case neg =>
    rw [completeL4_out (by omega),completeL4_out (by omega)]
    rfl
  case pos =>
    obtain ⟨et,het⟩ := be16At_some (by omega : 12+2≤frame.length)
    have htagged : be16At (frame.take 12++tph.tag.bytes++frame.drop 12) 12=some tph.tag.tpid := by
      have hhalves := @be16At_halves (frame.take 12) ((tph.tag.tci >>> 8).toUInt8::
        tph.tag.tci.toUInt8::frame.drop 12) tph.tag.tpid
      rw [hmacs] at hhalves
      rwa [append_assoc]
    have hfill := @fillL4_tag _ tph.tag.bytes (frame.drop 12) hmacs rfl _ _ htagged htpid
      (by rw [hframe]; exact het) (huntagged et het) _ _ (by rw [hframe]; exact hlen)
      (by omega : 12≤o.csumStart.toNat) (by omega : 12≤o.csumStart.toNat+o.csumOff.toNat)
    rw [hframe,← hwire,add_right_comm] at hfill
    rw [completeL4_in (by omega),completeL4_in hin,hfill]
    cases fillL4 frame o.csumStart.toNat (o.csumStart.toNat+o.csumOff.toNat) with
    | none => rfl
    | some b => exact congrArg (fun w => some (w,true)) (hwire b).symm

theorem wire_completeL4_query :
    let tph : Tpacket3Hdr := ⟨0,0,0,60,60,tpStatusVlanValid,82,5,0⟩
    let frame : List UInt8 := replicate 12 2++[8,0,0x45,0,0,28]++replicate 42 1
    completeL4 (tph.wire frame) 38 6 =
      (completeL4 frame 34 6).map fun x => (tph.wire x.1,x.2) :=
  wire_completeL4 ⟨0,0,0,60,60,tpStatusVlanValid,82,5,0⟩
    (replicate 12 2++[8,0,0x45,0,0,28]++replicate 42 1)
    { flags := offloadNeedsCsum, csumStart := 34, csumOff := 6 } (by decide) (by decide) (by decide)
    (by rintro et het; cases het; decide) (by decide) (by decide) (by decide)

end Packetio.Afpacket

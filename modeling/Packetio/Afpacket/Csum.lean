import Packetio.Afpacket.TxQueue

/-! Finishing the checksums of received frames (csum.go). `none` is an index out of range, or a
loop that does not end. -/
namespace Packetio.Afpacket
open Lib Option

def be16At (b : List UInt8) (i : Nat) : Option UInt16 := do
  let hi ← b[i]?
  let lo ← b[i+1]?
  some (hi.toUInt16 <<< 8 ||| lo.toUInt16)

/-- `binary.BigEndian.PutUint16(b[i:], v)` -/
def putBe16 (b : List UInt8) (i : Nat) (v : UInt16) : Option (List UInt8) :=
  if i+2≤b.length then some ((b.set i (v >>> 8).toUInt8).set (i+1) v.toUInt8) else none

/-- `b[lo:hi]` -/
def between (b : List UInt8) (lo hi : Nat) : Option (List UInt8) :=
  if lo≤hi ∧ hi≤b.length then some ((b.drop lo).take (hi-lo)) else none

def sumWords : List UInt8 → UInt32 → UInt32
  | a::b::rest, sum => sumWords rest (sum+(a.toUInt32 <<< 8 ||| b.toUInt32))
  | [a], sum => sum+a.toUInt32 <<< 8
  | [], sum => sum

def foldCarries : Nat → UInt32 → Option UInt32
  | 0, _ => none
  | fuel+1, sum =>
    if sum >>> 16≠0 then foldCarries fuel ((sum &&& (0xffff : UInt32))+sum >>> 16) else some sum

def onesComplement (b : List UInt8) : Option UInt16 := do
  let sum ← foldCarries 3 (sumWords b 0)
  some (~~~sum.toUInt16)

def tpids : List UInt16 := [0x8100,0x88a8,0x9100,0x9200,0x9300]

def skipTags (frame : List UInt8) : Nat → Nat → Option Nat
  | 0, _ => none
  | fuel+1, l3 =>
    if l3+4≤frame.length then do
      let tpid ← be16At frame l3
      if tpid∈tpids then skipTags frame fuel (l3+4) else some l3
    else some l3

def payloadEnd (frame : List UInt8) (l3 : Nat) : Option Nat :=
  let hdr := l3+2
  if hdr+8≤frame.length ∧ frame.length≤hdr+0xffff then do
    let et ← be16At frame l3
    if et=0x0800 then
      let total ← be16At frame (hdr+2)
      some (hdr+total.toNat)
    else if et=0x86dd then
      let payload ← be16At frame (hdr+4)
      some (hdr+40+payload.toNat)
    else some frame.length
  else some frame.length

/-- The frame with the sum of its bytes from `start` in place of the partial one at `pos`. -/
def fillL4 (frame : List UInt8) (start pos : Nat) : Option (List UInt8) := do
  let l3 ← skipTags frame (frame.length+1) 12
  let stop ← payloadEnd frame l3
  let stop := if stop > frame.length ∨ stop<pos+2 ∨ stop<frame.length ∧ frame.length > l3+2+46
    then frame.length else stop
  let range ← between frame start stop
  let sum ← onesComplement range
  putBe16 frame pos (if sum=0 then 0xffff else sum)

def completeL4 (frame : List UInt8) (csumStart csumOff : Int) : Option (List UInt8 × Bool) :=
  if csumStart<0 ∨ csumOff<0 then some (frame,false)
  else if csumStart > frame.length ∨ csumOff > frame.length-csumStart-2 then some (frame,false)
  else
    let pos := csumStart+csumOff
    if pos+2 > frame.length then some (frame,false)
    else do
      let frame ← fillL4 frame csumStart.toNat pos.toNat
      some (frame,true)

def FrameMemory.frame (r : FrameMemory) (d : Desc) : Option (Option Slice) :=
  let stop := d.addr+d.len.toUInt64
  if d.addr.toNat ≥ r.b.len ∨ stop.toNat > r.b.len then some none
  else (r.b.slice d.addr stop).map some

def FrameMemory.store (r : FrameMemory) (off : Nat) (bytes : List UInt8) : FrameMemory :=
  { r with b := { r.b with mem := blit r.b.mem off bytes.length (bytes.getD · 0) } }

/-- Slot `i` holds a piece of a packet that has several. -/
def chained (cont : Option (Nat → Bool)) (i : Nat) : Bool := match cont with
  | none => false
  | some cont => cont i || (0 < i && cont (i-1))

/-- One turn of the loop of `completeOffloads`; the flag is a checksum that cannot be finished. -/
def completeOffload (r : FrameMemory) (cont : Option (Nat → Bool)) (i : Nat) (d : Desc)
    (o : Offload) :
    Option (FrameMemory × Offload × Bool) :=
  if o.flags &&& offloadNeedsCsum=0 ∨ o.segmented then some (r,o,false)
  else if chained cont i then some (r,o,false)
  else do
    let w ← r.frame d
    let (bytes,ok) ← completeL4 (w.elim [] Slice.toList) o.csumStart.toNat o.csumOff.toNat
    let r := w.elim r fun w => r.store w.off bytes
    some (r,if ok then { o with flags := o.flags &&& ~~~offloadNeedsCsum } else o,!ok)

def completeOffloads (cont : Option (Nat → Bool)) : Nat → List Desc → FrameMemory →
    (Nat → Offload) →
    Option (FrameMemory × (Nat → Offload) × Nat)
  | _, [], r, offs => some (r,offs,0)
  | i, d::ds, r, offs => do
    let (r,o,bad) ← completeOffload r cont i d (offs i)
    let (r,offs,n) ← completeOffloads cont (i+1) ds r (Function.update offs i o)
    some (r,offs,n+bad.toNat)

/-! It returns, whatever the frame and the offsets are -/

theorem be16At_some {b : List UInt8} {i : Nat} (h : i+2≤b.length) : ∃ v, be16At b i=some v := by
  rw [be16At,List.getElem?_eq_getElem (by omega),List.getElem?_eq_getElem (by omega)]
  exact ⟨_,rfl⟩

theorem carry_toNat (sum : UInt32) : ((sum &&& (0xffff : UInt32))+sum >>> 16).toNat =
    sum.toNat%2^16+sum.toNat/2^16 := by
  have hlt := sum.toNat_lt
  have hlow : (sum &&& (0xffff : UInt32)).toNat=sum.toNat%2^16 := by
    exact Nat.and_two_pow_sub_one_eq_mod sum.toNat 16
  have hhigh : (sum >>> 16).toNat=sum.toNat/2^16 := by exact Nat.shiftRight_eq_div_pow sum.toNat 16
  rw [UInt32.toNat_add,hlow,hhigh]
  omega

theorem foldCarries_some (sum : UInt32) : ∃ v, foldCarries 3 sum=some v := by
  have hsmall (x : UInt32) (h : x.toNat<2^16) : x >>> 16=0 := by
    rw [← UInt32.toNat_inj,UInt32.toNat_shiftRight]
    exact (Nat.shiftRight_eq_div_pow x.toNat 16).trans (Nat.div_eq_of_lt h)
  have hlt := sum.toNat_lt
  have hone := carry_toNat sum
  have htwo := carry_toNat ((sum &&& (0xffff : UInt32))+sum >>> 16)
  simp only [foldCarries]
  split
  · split
    · rw [if_neg (not_not.mpr (hsmall _ (by omega)))]
      exact ⟨_,rfl⟩
    · exact ⟨_,rfl⟩
  · exact ⟨_,rfl⟩

theorem skipTags_some {frame : List UInt8} {fuel l3 : Nat} (h : frame.length<l3+4+fuel) :
    ∃ l3', skipTags frame (fuel+1) l3=some l3' := by
  induction fuel generalizing l3 with
  | zero => exact ⟨l3,if_neg (by omega)⟩
  | succ fuel ih =>
    rw [skipTags]
    split
    case isFalse => exact ⟨_,rfl⟩
    rename_i hin
    obtain ⟨tpid,htpid⟩ := be16At_some (by omega : l3+2≤frame.length)
    rw [htpid,bind_eq_bind,bind_some]
    split
    · exact ih (by omega)
    · exact ⟨_,rfl⟩

theorem payloadEnd_some (frame : List UInt8) (l3 : Nat) :
    ∃ stop, payloadEnd frame l3=some stop := by
  simp only [payloadEnd]
  split
  case isFalse => exact ⟨_,rfl⟩
  rename_i hin
  obtain ⟨et,het⟩ := be16At_some (by omega : l3+2≤frame.length)
  obtain ⟨total,htotal⟩ := be16At_some (by omega : l3+2+2+2≤frame.length)
  obtain ⟨payload,hpayload⟩ := be16At_some (by omega : l3+2+4+2≤frame.length)
  simp only [het,htotal,hpayload,bind_eq_bind,bind_some]
  split
  · exact ⟨_,rfl⟩
  · split
    · exact ⟨_,rfl⟩
    · exact ⟨_,rfl⟩

theorem fillL4_some {frame : List UInt8} {start pos : Nat} (hstart : start≤pos)
    (hpos : pos+2≤frame.length) :
    ∃ frame', fillL4 frame start pos=some frame' ∧ frame'.length=frame.length := by
  obtain ⟨l3,hl3⟩ := skipTags_some (by omega : frame.length<12+4+frame.length)
  obtain ⟨stop,hstop⟩ := payloadEnd_some frame l3
  simp only [fillL4,hl3,hstop,bind_eq_bind,bind_some]
  generalize hbound : (if stop > frame.length ∨ stop<pos+2 ∨
    stop<frame.length ∧ frame.length > l3+2+46 then frame.length else stop)=bound
  have hin : pos+2≤bound ∧ bound≤frame.length := by
    split at hbound
    · omega
    · omega
  obtain ⟨sum,hsum⟩ : ∃ sum, onesComplement ((frame.drop start).take (bound-start))=some sum := by
    obtain ⟨v,hv⟩ := foldCarries_some (sumWords ((frame.drop start).take (bound-start)) 0)
    rw [onesComplement,hv]
    exact ⟨_,rfl⟩
  rw [between,if_pos ⟨by omega,hin.2⟩,bind_some,hsum,bind_some,putBe16,
    if_pos hpos]
  exact ⟨_,rfl,by rw [List.length_set,List.length_set]⟩

theorem completeL4_some (frame : List UInt8) (csumStart csumOff : Int) :
    ∃ frame' ok, completeL4 frame csumStart csumOff=some (frame',ok) ∧
      frame'.length=frame.length := by
  rw [completeL4]
  split
  case isTrue => exact ⟨_,_,rfl,rfl⟩
  rename_i hneg
  split
  case isTrue => exact ⟨_,_,rfl,rfl⟩
  rename_i hout
  dsimp only
  split
  case isTrue => exact ⟨_,_,rfl,rfl⟩
  rename_i hend
  obtain ⟨frame',hfill,hlen⟩ := fillL4_some
    (by omega : csumStart.toNat≤(csumStart+csumOff).toNat)
    (by omega : (csumStart+csumOff).toNat+2≤frame.length)
  rw [hfill]
  exact ⟨_,_,rfl,hlen⟩

structure FrameMemory.Alike (r r' : FrameMemory) : Prop where
  len : r'.b.len=r.b.len
  frameSize : r'.frameSize=r.frameSize
  frameMask : r'.frameMask=r.frameMask

theorem FrameMemory.Alike.refl (r : FrameMemory) : r.Alike r := ⟨rfl,rfl,rfl⟩

theorem FrameMemory.Alike.trans {r r' r'' : FrameMemory} (h : r.Alike r') (h' : r'.Alike r'') :
    r.Alike r'' :=
  ⟨h'.len.trans h.len,h'.frameSize.trans h.frameSize,h'.frameMask.trans h.frameMask⟩

theorem frame_some (r : FrameMemory) (d : Desc) : ∃ w, r.frame d=some w := by
  have hlt := r.b.len_lt
  have hlen := d.len.toNat_lt
  simp only [FrameMemory.frame]
  split
  case isTrue => exact ⟨_,rfl⟩
  rename_i hin
  have hsum : (d.addr+d.len.toUInt64).toNat=d.addr.toNat+d.len.toNat := by
    rw [UInt64.toNat_add,UInt32.toNat_toUInt64,Nat.mod_eq_of_lt (by omega)]
  rw [Region.slice,if_pos ⟨by rw [UInt64.le_iff_toNat_le]; omega,by omega⟩]
  exact ⟨_,rfl⟩

theorem completeOffload_some (r : FrameMemory) (cont : Option (Nat → Bool)) (i : Nat) (d : Desc)
    (o : Offload) : ∃ r' o' bad, completeOffload r cont i d o=some (r',o',bad) ∧ r.Alike r' := by
  rw [completeOffload]
  split
  · exact ⟨_,_,_,rfl,.refl r⟩
  · split
    · exact ⟨_,_,_,rfl,.refl r⟩
    · obtain ⟨w,hw⟩ := frame_some r d
      obtain ⟨bytes,ok,hok,-⟩ := completeL4_some (w.elim [] Slice.toList) o.csumStart.toNat
        o.csumOff.toNat
      rw [hw,bind_eq_bind,bind_some,hok]
      refine ⟨_,_,_,rfl,?_⟩
      cases w with
      | none => exact .refl r
      | some w => exact ⟨rfl,rfl,rfl⟩

theorem completeOffloads_some (cont : Option (Nat → Bool)) (i : Nat) (ds : List Desc)
    (r : FrameMemory) (offs : Nat → Offload) :
    ∃ r' offs' n, completeOffloads cont i ds r offs=some (r',offs',n) ∧ r.Alike r' := by
  induction ds generalizing i r offs with
  | nil => exact ⟨r,offs,0,rfl,.refl r⟩
  | cons d ds ih =>
    obtain ⟨r1,o,bad,hone,hr1⟩ := completeOffload_some r cont i d (offs i)
    obtain ⟨r2,offs',n,hrest,hr2⟩ := ih (i+1) r1 (Function.update offs i o)
    refine ⟨r2,offs',n+bad.toNat,?_,hr1.trans hr2⟩
    rw [completeOffloads,hone,bind_eq_bind,bind_some]
    simp only [hrest]
    rfl

end Packetio.Afpacket

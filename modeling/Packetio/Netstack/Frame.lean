import Packetio.Netstack.Gso

/-! Ethernet and 802.1Q (frame.go): the header in front of each packet. `none` is the panic
of an index out of range; slices are held to the length of the bytes, not to the memory
behind them. -/
namespace Packetio.Netstack

def etherHdrLen : Nat := 14
def etherTypeIPv4 : UInt16 := 0x0800
def etherTypeVLAN : UInt16 := 0x8100
def etherTypeARP : UInt16 := 0x0806

def linkHeaderLen (vlan : UInt16) : Nat := if vlan≠0 then vlanHdrLen else etherHdrLen

/-! Reading -/

def read16 (b : List UInt8) (off : Nat) : Option UInt16 :=
  if off+2≤b.length then some (get16 b off) else none

def slice (b : List UInt8) (i j : Nat) : Option (List UInt8) :=
  if i≤j ∧ j≤b.length then some ((b.drop i).take (j-i)) else none

theorem read16_some {b : List UInt8} {off : Nat} (h : off+2≤b.length) :
    read16 b off=some (get16 b off) := if_pos h

theorem slice_some {b : List UInt8} {i j : Nat} (h : i≤j) (h' : j≤b.length) :
    slice b i j=some ((b.drop i).take (j-i)) := if_pos ⟨h,h'⟩

theorem slice_from {b : List UInt8} {i : Nat} (h : i≤b.length) :
    slice b i b.length=some (b.drop i) := by
  rw [slice_some h (le_refl _),List.take_of_length_le (by rw [List.length_drop])]

/-- The length of the link header and the EtherType behind it. The inner `none` is a frame too
short for a header, or whose tagging is not that of the endpoint. -/
def parseFrame (f : List UInt8) (vlan : UInt16) : Option (Option (Nat × UInt16)) :=
  if f.length<etherHdrLen then some none
  else do
    let et ← read16 f 12
    if et≠etherTypeVLAN then
      if vlan≠0 then some none else some (some (etherHdrLen,et))
    else if f.length<vlanHdrLen then some none
    else
      let tag ← read16 f 14
      if tag &&& 0x0fff≠vlan then some none
      else
        let et ← read16 f 16
        some (some (vlanHdrLen,et))

def isMulticast (mac : List UInt8) : Option Bool :=
  match mac with
  | [] => none
  | a::_ => some (a &&& 1≠0)

def Untagged (f : List UInt8) : Prop := etherHdrLen≤f.length ∧ get16 f 12≠etherTypeVLAN

def Tagged (f : List UInt8) (vid : UInt16) : Prop :=
  vlanHdrLen≤f.length ∧ get16 f 12=etherTypeVLAN ∧ get16 f 14 &&& 0x0fff=vid

theorem parseFrame_spec (f : List UInt8) (vlan : UInt16) : ∃ r, parseFrame f vlan=some r ∧
    ∀ linkLen et, r=some (linkLen,et) → (etherHdrLen≤linkLen ∧ linkLen≤f.length) ∧
      (Untagged f ∧ vlan=0 ∧ linkLen=etherHdrLen ∨ Tagged f vlan ∧ linkLen=vlanHdrLen) := by
  rw [parseFrame]
  split
  case isTrue => exact ⟨none,rfl,by simp⟩
  rename_i hlen
  have hether : etherHdrLen=14 := rfl
  have hvlan : vlanHdrLen=18 := rfl
  rw [read16_some (by omega)]
  simp only [Option.bind_eq_bind,Option.bind_some]
  split
  case isTrue hother =>
    split
    case isTrue => exact ⟨none,rfl,by simp⟩
    rename_i hzero
    refine ⟨_,rfl,fun linkLen et h => ?_⟩
    cases h
    exact ⟨by omega,.inl ⟨⟨by omega,hother⟩,not_not.mp hzero,rfl⟩⟩
  rename_i htag
  split
  case isTrue => exact ⟨none,rfl,by simp⟩
  rename_i hlen'
  rw [read16_some (by omega),read16_some (by omega)]
  simp only [Option.bind_some]
  split
  case isTrue => exact ⟨none,rfl,by simp⟩
  rename_i hvid
  refine ⟨_,rfl,fun linkLen et h => ?_⟩
  cases h
  exact ⟨by omega,.inr ⟨⟨by omega,not_not.mp htag,not_not.mp hvid⟩,rfl⟩⟩

theorem Tagged.parseFrame {f : List UInt8} {vlan : UInt16} (h : Tagged f vlan) :
    Netstack.parseFrame f vlan=some (some (vlanHdrLen,get16 f 16)) := by
  obtain ⟨hlen,htag,hvid⟩ := h
  have hether : etherHdrLen=14 := rfl
  have hvlan : vlanHdrLen=18 := rfl
  rw [Netstack.parseFrame,if_neg (by omega),read16_some (by omega),read16_some (by omega),
    read16_some (by omega)]
  simp only [Option.bind_eq_bind,Option.bind_some]
  rw [if_neg (not_not.mpr htag),if_neg (by omega),if_neg (not_not.mpr hvid)]

/-- Only frames with the tagging of the endpoint are taken, and their link header is as long as its
own, just when it is not a frame with a priority tag at an endpoint without VLAN. -/
theorem parseFrame_tagging_iff (f : List UInt8) (v : UInt16) :
    (∀ linkLen et, parseFrame f v = some (some (linkLen,et)) →
      (Untagged f ∧ v = 0 ∨ Tagged f v ∧ v ≠ 0) ∧ linkLen = linkHeaderLen v) ↔
      ¬ (v = 0 ∧ Tagged f 0) := by
  constructor
  · rintro h ⟨rfl,htag⟩
    have hlen := (h _ _ htag.parseFrame).2
    cases hlen
  · intro h linkLen et hp
    obtain ⟨r,hr,hspec⟩ := parseFrame_spec f v
    rw [hp] at hr
    obtain ⟨-,⟨hun,hzero,hlen⟩ | ⟨htag,hlen⟩⟩ := hspec linkLen et (Option.some_inj.mp hr).symm
    · exact ⟨.inl ⟨hun,hzero⟩,by rw [hlen,hzero]; rfl⟩
    · have hne : v≠0 := fun hzero => h ⟨hzero,hzero ▸ htag⟩
      exact ⟨.inr ⟨htag,hne⟩,by rw [hlen,linkHeaderLen,if_pos hne]⟩

def priorityTag : List UInt8 := List.replicate 12 2++[0x81,0,0xe0,0,8,0]

theorem parseFrame_priority : parseFrame priorityTag 0=some (some (18,0x0800)) ∧
    ¬ (Untagged priorityTag ∧ (0 : UInt16)=0 ∨ Tagged priorityTag 0 ∧ (0 : UInt16)≠0) ∧
    18≠linkHeaderLen 0 := by
  refine ⟨by decide,?_,by decide⟩
  rintro (⟨hun,-⟩ | ⟨-,hne⟩)
  · exact hun.2 (by decide)
  · exact hne rfl

end Packetio.Netstack

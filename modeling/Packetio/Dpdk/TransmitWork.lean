import Packetio.Dpdk.Queue
import Packetio.Dpdk.HeaderForms

/-! The work that Transmit and TransmitOffload ask the NIC for: what is decided about a
packet, and the stores that say so to the driver. -/
namespace Packetio.Dpdk
open Dpdk.Mbuf

def Ordinary (o : Offload) : Prop := o.flags=0 ∧ o.gsoType=offloadGSONone

namespace Tx

inductive Asked (t : Tx) (p : Slice) : Option Offload → Option (UInt64 × UInt64) → Prop
  | plain (hc : t.checksums=false) : Asked t p none none
  | unknown (hc : t.checksums=true) (hp : parse p=some none) : Asked t p none none
  | checksums {h : Headers} (hc : t.checksums=true) (hp : parse p=some (some h)) :
      Asked t p none
        (some (checksumFlags h,tsoWord (UInt64.ofNat h.l2Len) (UInt64.ofNat h.l3Len) 0 0))
  | ordinary {o : Offload} (ho : Ordinary o) : Asked t p (some o) none
  | offload {o : Offload} {h : Headers} {l4Len segSize flags : UInt64} (ho : ¬ Ordinary o)
      (hp : parse p=some (some h))
      (hcsum : o.flags &&& offloadNeedsCsum≠0 → o.csumStart.toNat=h.l2Len+h.l3Len)
      (hseg : t.segmentation h o p.len (checksumFlags h) = .ok (l4Len,segSize,flags)) :
      Asked t p (some o)
        (some (flags,tsoWord (UInt64.ofNat h.l2Len) (UInt64.ofNat h.l3Len) l4Len segSize))

theorem Asked.requested {t : Tx} {p : Slice} {o : Offload} {w : Option (UInt64 × UInt64)}
    (hw : t.Asked p (some o) w) (ho : ¬ Ordinary o) :
    ∃ h l4Len segSize flags, parse p=some (some h) ∧
      (o.flags &&& offloadNeedsCsum≠0 → o.csumStart.toNat=h.l2Len+h.l3Len) ∧
      t.segmentation h o p.len (checksumFlags h) = .ok (l4Len,segSize,flags) ∧
      w=some (flags,tsoWord (UInt64.ofNat h.l2Len) (UInt64.ofNat h.l3Len) l4Len segSize) := by
  cases hw with
  | ordinary ho' => exact absurd ho' ho
  | offload _ hp hcsum hseg => exact ⟨_,_,_,_,hp,hcsum,hseg,rfl⟩

def workStores (w : Option (UInt64 × UInt64)) : List Store :=
  w.elim [] fun x => [⟨offOlFlags,8,x.1.toNat⟩,⟨offTxOffload,8,x.2.toNat⟩]

theorem workStores_within (w : Option (UInt64 × UInt64)) {r : Region} {m : Nat}
    (hm : m+size≤r.len) : ∃ r', r.stores m (workStores w)=some r' ∧
      Region.Within m (m+size) r r' := by
  apply Region.stores_within hm
  cases w with
  | none => exact fun s hs => absurd hs List.not_mem_nil
  | some x => simp [workStores,offOlFlags,offTxOffload,size]

theorem setWork_eq (r : Region) (m : Nat) (flags l2Len l3Len l4Len segSize : UInt64) :
    ((setOlFlags r m flags).bind fun r => setTxOffloadTSO r m l2Len l3Len l4Len segSize) =
      r.stores m (workStores (some (flags,tsoWord l2Len l3Len l4Len segSize))) := by
  simp only [workStores,Option.elim,Region.stores,Option.bind_fun_some]
  rfl

theorem checksumFlags_ne_zero {p : Slice} {h : Headers} (hf : Form p h) : checksumFlags h≠0 := by
  intro hz
  have hfl := hf.flags
  rw [hz] at hfl
  rcases hf.version with ⟨hv,-⟩ | ⟨-,hv⟩
  · exact hfl.ipv4.mpr hv (by decide)
  · exact hfl.ipv6.mpr hv (by decide)

section
variable (t : Tx) {r : Region} {m : Nat} (hm : m+size≤r.len)
include hm

theorem applyOffload_spec (o : Offload) (p : Slice) :
    (∃ w r', t.Asked p (some o) w ∧ r.stores m (workStores w)=some r' ∧
      t.applyOffload r m o p=some (.ok r')) ∨
    ∃ e, t.applyOffload r m o p=some (.error e) ∧ ∀ w, ¬ t.Asked p (some o) w := by
  rw [applyOffload]
  by_cases ho : Ordinary o
  · exact .inl ⟨none,r,.ordinary ho,rfl,if_pos ho⟩
  rw [if_neg (by exact ho)]
  obtain ⟨x,hp⟩ := parse_some p
  rw [hp]
  rcases x with _ | h
  · refine .inr ⟨_,rfl,fun w hw => ?_⟩
    obtain ⟨h,_,_,_,hp',-⟩ := hw.requested ho
    rw [hp] at hp'
    cases hp'
  dsimp only
  rw [if_neg (checksumFlags_ne_zero ((parse_iff p h).mp hp))]
  by_cases hcsum : o.flags &&& offloadNeedsCsum≠0 → o.csumStart.toNat=h.l2Len+h.l3Len
  · rw [if_neg (by tauto)]
    rcases hseg : t.segmentation h o p.len (checksumFlags h) with e | ⟨l4Len,segSize,flags⟩
    · refine .inr ⟨e,rfl,fun w hw => ?_⟩
      obtain ⟨h',_,_,_,hp',-,hseg',-⟩ := hw.requested ho
      rw [hp] at hp'
      cases hp'
      rw [hseg] at hseg'
      cases hseg'
    have hasked := Asked.offload (t := t) ho hp hcsum hseg
    obtain ⟨r',hr',-⟩ := workStores_within (some (flags,tsoWord (UInt64.ofNat h.l2Len)
      (UInt64.ofNat h.l3Len) l4Len segSize)) hm
    refine .inl ⟨_,r',hasked,hr',?_⟩
    rw [← setWork_eq] at hr'
    obtain ⟨r1,h1,h2⟩ := Option.bind_eq_some_iff.mp hr'
    simp [h1,h2]
  · rw [if_pos (by tauto)]
    refine .inr ⟨_,rfl,fun w hw => ?_⟩
    obtain ⟨h',_,_,_,hp',hcsum',-⟩ := hw.requested ho
    rw [hp] at hp'
    cases hp'
    exact hcsum hcsum'

theorem ask_spec {d : Desc} (hd : d.addr.toNat+d.len.toNat≤r.len) (o : Option Offload) :
    (∃ w r', t.Asked (r.frame d) o w ∧ r.stores m (workStores w)=some r' ∧
      t.ask r m d o=some (.ok r')) ∨
    ∃ e, t.ask r m d o=some (.error e) ∧ ∀ w, ¬ t.Asked (r.frame d) o w := by
  have hslice := r.slice_eq d hd
  cases o with
  | some o =>
    have hask : t.ask r m d (some o)=t.applyOffload r m o (r.frame d) := by
      rw [ask,hslice]
      rfl
    rw [hask]
    exact t.applyOffload_spec hm o (r.frame d)
  | none =>
    left
    rw [ask]
    rcases hc : t.checksums with _ | _
    · exact ⟨none,r,.plain hc,rfl,if_neg (by decide)⟩
    obtain ⟨x,hp⟩ := parse_some (r.frame d)
    simp only [if_true,hslice,hp,bind,Option.bind_some]
    rcases x with _ | h
    · exact ⟨none,r,.unknown hc hp,rfl,rfl⟩
    obtain ⟨r',hr',-⟩ := workStores_within (some (checksumFlags h,tsoWord (UInt64.ofNat h.l2Len)
      (UInt64.ofNat h.l3Len) 0 0)) hm
    refine ⟨_,r',.checksums hc hp,hr',?_⟩
    rw [← setWork_eq] at hr'
    obtain ⟨r1,h1,h2⟩ := Option.bind_eq_some_iff.mp hr'
    simp [h1,h2,setTxOffload_eq]

end

end Tx

end Packetio.Dpdk

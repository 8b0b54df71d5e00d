import Packetio.Mlx5.Ring.Rx
import Packetio.Mlx5.Ring.TxLedger

/-! Who owns which receive buffer, and what one Receive does with the completions it
reads: a relation over the buffers outstanding, one case for each turn of the loop,
which the loop is shown to follow. -/
namespace Packetio.Mlx5.Ring
open Lib List UInt32 Nat

structure RxFixed.Built (f : RxFixed) : Prop where
  stride : f.stride=16
  entries : f.entries.toNat<2^28
  pow : f.entries≠0 → ∃ k<28, f.entries.toNat=2^k ∧ f.mask.toNat=2^k-1

structure Rx.Owns (r : Rx) (done live : List Desc) : Prop where
  built : r.toRxFixed.Built
  pi : r.pi=UInt32.ofNat (done.length+live.length)
  ci : r.ci=UInt32.ofNat done.length
  le : live.length≤r.entries.toNat
  posted : Cells r.entries.toNat r.posted done.length live

variable {f : RxFixed} {rest done live : List Desc} {j k : Nat} {cq : CQ} {size : UInt32}

theorem RxFixed.Built.slot (h : f.Built) (hne : f.entries.toNat≠0) (n : Nat) :
    (UInt32.ofNat n &&& f.mask).toNat=n%f.entries.toNat := by
  obtain ⟨k,hk,he,hm⟩ := h.pow fun h0 => hne (by rw [h0]; rfl)
  rw [ofNat_and_mask n k f.mask (by omega) hm,he]

namespace Rx.Owns
variable {r : Rx} {done live : List Desc} (h : r.Owns done live)
include h

theorem congr {r' : Rx} (hf : r'.toRxFixed=r.toRxFixed) (hpi : r'.pi=r.pi) (hci : r'.ci=r.ci)
    (hp : r'.posted=r.posted) : r'.Owns done live :=
  ⟨hf ▸ h.built,hpi.trans h.pi,hci.trans h.ci,hf ▸ h.le,by rw [hf,hp]; exact h.posted⟩

theorem outstanding : (r.pi-r.ci).toNat=live.length := by
  have hle := h.le
  have hlt := h.built.entries
  rw [h.pi,h.ci,toNat_distance _ _ (by omega) (by omega)]
  omega

theorem freeSlots : r.freeSlots=r.entries.toNat-live.length := by
  have ho := h.outstanding
  rw [Rx.freeSlots,UInt32.toNat_sub_of_le,ho]
  rw [UInt32.le_iff_toNat_le,ho]
  exact h.le

theorem empty_iff : r.pi=r.ci ↔ live = [] := by
  have ho := h.outstanding
  constructor
  · intro he
    rw [he,UInt32.sub_self] at ho
    exact length_eq_zero_iff.mp ho.symm
  · intro he
    rw [h.pi,h.ci,he]
    rfl

theorem oldest {d : Desc} (hlive : live=d::rest) : r.posted (r.ci &&& r.mask).toNat=d := by
  subst hlive
  have hle := h.le
  rw [length_cons] at hle
  have hcell := h.posted 0 (by simp)
  rw [h.ci,h.built.slot (by omega)]
  simpa using hcell

theorem fillOne (hroom : live.length<r.entries.toNat) (d : Desc) :
    (r.fillOne d).Owns done (live++[d]) ∧ ∀ i, done.length ≤ i → i<done.length+live.length → ∀ b<16,
        (r.fillOne d).rq (16*(i%r.entries.toNat)+b)=r.rq (16*(i%r.entries.toNat)+b) := by
  have hlt := h.built.entries
  have hslot := h.built.slot (by omega) (done.length+live.length)
  rw [← h.pi] at hslot
  refine ⟨⟨h.built,?_,h.ci,?_,?_⟩,fun i hlo hhi b hb => ?_⟩
  · change r.pi+1=_
    rw [h.pi,length_append,length_singleton,← add_assoc]
    exact (ofNat_add _ 1).symm
  · rwa [length_append]
  · change Cells r.entries.toNat (Function.update r.posted (r.pi &&& r.mask).toNat d) _ _
    rw [hslot]
    exact h.posted.push hroom d
  · have hne := mod_ne_of_near r.entries.toNat i (done.length+live.length) hhi (by omega)
    have hs := mod_lt (done.length+live.length) (by omega : 0<r.entries.toNat)
    have hoff : ((r.pi &&& r.mask)*r.stride+8).toNat =
        16*((done.length+live.length)%r.entries.toNat)+8 := by
      rw [h.built.stride,UInt32.toNat_add,UInt32.toNat_mul,hslot]
      change ((_*16)%2^32+8)%2^32=_
      omega
    change blit r.rq ((r.pi &&& r.mask)*r.stride+8).toNat 8 _ _=_
    rw [hoff]
    exact blit_outside _ _ _ _ _ (by omega)

end Rx.Owns

theorem fillOne_rest (r : Rx) (d : Desc) :
    (r.fillOne d).toRxFixed=r.toRxFixed ∧ (r.fillOne d).cq=r.cq ∧
      (r.fillOne d).cqci=r.cqci ∧ (r.fillOne d).dead=r.dead := ⟨rfl,rfl,rfl,rfl⟩

structure Rx.Filled (r : Rx) (done live ds : List Desc) (r' : Rx) : Prop where
  owns : r'.Owns done (live++ds)
  fixed : r'.toRxFixed=r.toRxFixed
  cq : r'.cq=r.cq
  cqci : r'.cqci=r.cqci
  dead : r'.dead=r.dead
  rq : ∀ i, done.length ≤ i → i<done.length+live.length → ∀ b<16,
    r'.rq (16*(i%r.entries.toNat)+b)=r.rq (16*(i%r.entries.toNat)+b)

theorem Rx.Owns.fillAll {r : Rx} (h : r.Owns done live) (ds : List Desc)
    (hroom : live.length+ds.length≤r.entries.toNat) :
    r.Filled done live ds (ds.foldl Rx.fillOne r) := by
  induction ds generalizing r live with
  | nil => exact ⟨by simpa using h,rfl,rfl,rfl,rfl,fun _ _ _ _ _ => rfl⟩
  | cons d ds ih =>
    rw [length_cons] at hroom
    obtain ⟨hone,hrq⟩ := h.fillOne (by omega) d
    have hrest := ih hone (by
      rw [length_append,length_singleton,(fillOne_rest r d).1]
      omega)
    refine { hrest with owns := ?_, rq := fun i hlo hhi b hb => ?_ }
    · have ho := hrest.owns
      rwa [append_assoc] at ho
    · rw [foldl_cons]
      exact (hrest.rq i hlo (by rw [length_append]; omega) b hb).trans (hrq i hlo hhi b hb)

theorem tick_rest (r : Rx) : r.tick.toRxFixed=r.toRxFixed ∧ r.tick.cq=r.cq ∧
    r.tick.cqci=r.cqci ∧ r.tick.dead=r.dead ∧ r.tick.rq=r.rq ∧ r.tick.pi=r.pi ∧
    r.tick.ci=r.ci ∧ r.tick.posted=r.posted := by
  simp only [Rx.tick,Rx.sync]
  split_ifs <;> exact ⟨rfl,rfl,rfl,rfl,rfl,rfl,rfl,rfl⟩

theorem Rx.Owns.fill {r : Rx} (h : r.Owns done live) (descs : List Desc) :
    r.Filled done live (descs.take (r.fill descs).2) (r.fill descs).1 := by
  have hfree := h.freeSlots
  have hle := h.le
  simp only [Rx.fill]
  split_ifs with h0
  · exact ⟨by simpa using h,rfl,rfl,rfl,rfl,fun _ _ _ _ _ => rfl⟩
  · have hall := h.fillAll (descs.take (min descs.length r.freeSlots)) (by
      rw [length_take]
      omega)
    set r1 := (descs.take (min descs.length r.freeSlots)).foldl Rx.fillOne r with hr1
    obtain ⟨h1,h2,h3,h4,h5,h6,h7,h8⟩ := tick_rest { r1 with
      rqDbrec := r1.pi &&& 0xffff
      c := { r1.c with filled := r1.c.filled+UInt64.ofNat (min descs.length r.freeSlots) } }
    have ho := hall.owns
    exact ⟨ho.congr h1 h6 h7 h8,h1.trans hall.fixed,h2.trans hall.cq,h3.trans hall.cqci,
      h4.trans hall.dead,by rw [h5]; exact hall.rq⟩

/-- The completion at count `j` is the reader's to take. -/
def Ripe (cq : CQ) (j : Nat) : Prop :=
  cq.owned (UInt32.ofNat j) (cq.header (UInt32.ofNat j))=true

structure RxFixed.Reports (f : RxFixed) (n : Nat) (x : CQE) : Prop where
  format : format (header x)=cqeFormatNoData
  opcode : opcode (header x)=cqeRespSend ∨ opcode (header x)=cqeRespErr
  counter : (wqeCounter (header x)).toUInt32 &&& f.mask=UInt32.ofNat n &&& f.mask

structure Haul where
  read : Nat := 0
  taken : List Desc := []
  out : List Desc := []
  failed : List Desc := []
  latched : Bool := false

def Haul.append (a b : Haul) : Haul :=
  ⟨a.read+b.read,a.taken++b.taken,a.out++b.out,a.failed++b.failed,a.latched || b.latched⟩

section
variable (f : RxFixed) (cq : CQ) (j n : Nat)

inductive Stops : List Desc → Haul → Prop
  | idle (live : List Desc) (h : ¬ Ripe cq j) : Stops live {}
  | undecodable (live : List Desc) (h : Ripe cq j)
    (hf : format (header (cq.entry (UInt32.ofNat j)))≠cqeFormatNoData) :
    Stops live { latched := true }
  | lost (d : Desc) (live : List Desc) (h : Ripe cq j)
    (hf : format (header (cq.entry (UInt32.ofNat j)))=cqeFormatNoData)
    (hop : opcode (header (cq.entry (UInt32.ofNat j)))=cqeRespSend ∨
      opcode (header (cq.entry (UInt32.ofNat j)))=cqeRespErr)
    (hc : (wqeCounter (header (cq.entry (UInt32.ofNat j)))).toUInt32 &&& f.mask ≠
      UInt32.ofNat n &&& f.mask) :
    Stops (d::live) { read := 1, latched := true }

inductive Goes : List Desc → Haul → Prop
  | stray (live : List Desc) (h : Ripe cq j)
    (hf : format (header (cq.entry (UInt32.ofNat j)))=cqeFormatNoData)
    (hs : live = [] ∨ opcode (header (cq.entry (UInt32.ofNat j)))≠cqeRespSend ∧
      opcode (header (cq.entry (UInt32.ofNat j)))≠cqeRespErr) :
    Goes live { read := 1 }
  | refused (d : Desc) (live : List Desc) (h : Ripe cq j)
    (hr : f.Reports n (cq.entry (UInt32.ofNat j)))
    (hbad : opcode (header (cq.entry (UInt32.ofNat j)))=cqeRespErr ∨
      byteCount (cq.entry (UInt32.ofNat j)) > f.bufSize) :
    Goes (d::live) { read := 1, taken := [d], failed := [d] }
  | given (d : Desc) (live : List Desc) (h : Ripe cq j)
    (hr : f.Reports n (cq.entry (UInt32.ofNat j)))
    (hop : opcode (header (cq.entry (UInt32.ofNat j)))≠cqeRespErr)
    (hlen : ¬ byteCount (cq.entry (UInt32.ofNat j)) > f.bufSize) :
    Goes (d::live)
      { read := 1, taken := [d], out := [received d (cq.entry (UInt32.ofNat j))] }

end

inductive Serves (f : RxFixed) (cq : CQ) : Nat → Nat → Nat → List Desc → Haul → Prop
  | full (j n : Nat) (live : List Desc) : Serves f cq 0 j n live {}
  | stop {room j n : Nat} {live : List Desc} {h : Haul} (hs : Stops f cq j n live h) :
    Serves f cq (room+1) j n live h
  | go {room j n : Nat} {live : List Desc} {h h' : Haul} (hg : Goes f cq j n live h)
    (hs : Serves f cq (room+1-h.out.length) (j+1) (n+h.taken.length)
      (live.drop h.taken.length) h') :
    Serves f cq (room+1) j n live (h.append h')

structure Hauled (st : ReceiveState) (done live : List Desc) (j : Nat) (h : Haul)
    (st' : ReceiveState) : Prop where
  owns : st'.rx.Owns (done++h.taken) (live.drop h.taken.length)
  cqci : st'.rx.cqci=UInt32.ofNat (j+h.read)
  out : st'.out=st.out++h.out
  got : st'.got=st.got+h.out.length
  failed : st'.rx.failed=st.rx.failed++h.failed
  fixed : st'.rx.toRxFixed=st.rx.toRxFixed
  cq : st'.rx.cq=st.rx.cq
  dead : st'.rx.dead.isSome=(h.latched || st.rx.dead.isSome)

theorem Hauled.trans {st st1 st' : ReceiveState} {h h' : Haul} (h₁ : Hauled st done live j h st1)
    (h₂ : Hauled st1 (done++h.taken) (live.drop h.taken.length) (j+h.read) h' st') :
    Hauled st done live j (h.append h') st' where
  owns := by
    have ho := h₂.owns
    rw [append_assoc,drop_drop] at ho
    rwa [Haul.append,length_append]
  cqci := by rw [h₂.cqci,Haul.append,add_assoc]
  out := by rw [h₂.out,h₁.out,Haul.append,append_assoc]
  got := by rw [h₂.got,h₁.got,Haul.append,length_append,add_assoc]
  failed := by rw [h₂.failed,h₁.failed,Haul.append,append_assoc]
  fixed := h₂.fixed.trans h₁.fixed
  cq := h₂.cq.trans h₁.cq
  dead := by
    rw [h₂.dead,h₁.dead,Haul.append,← Bool.or_assoc]
    congr 1
    exact Bool.or_comm ..

section
variable {st : ReceiveState} {done live : List Desc} {j : Nat} (ho : st.rx.Owns done live)
  (hj : st.rx.cqci=UInt32.ofNat j)
include ho hj

theorem Hauled.none {st' : ReceiveState} {latched : Bool}
    (hfix : st'.rx.toRxFixed=st.rx.toRxFixed) (hpi : st'.rx.pi=st.rx.pi)
    (hci : st'.rx.ci=st.rx.ci) (hp : st'.rx.posted=st.rx.posted)
    (hk : st'.rx.cqci=st.rx.cqci+UInt32.ofNat k) (hout : st'.out=st.out) (hgot : st'.got=st.got)
    (hfailed : st'.rx.failed=st.rx.failed) (hcq : st'.rx.cq=st.rx.cq)
    (hdead : st'.rx.dead.isSome=(latched || st.rx.dead.isSome)) :
    Hauled st done live j { read := k, latched := latched } st' := by
  refine ⟨?_,?_,by simpa using hout,by simpa using hgot,by simpa using hfailed,hfix,hcq,hdead⟩
  · rw [append_nil]
    exact ho.congr hfix hpi hci hp
  · rw [hk,hj,ofNat_add]

theorem settle_hauled {d : Desc} (hlive : live=d::rest)
    (hripe : Ripe st.rx.cq j) (hr : st.rx.Reports done.length (st.rx.cq.entry (UInt32.ofNat j))) :
    ∃ h, Goes st.rx.toRxFixed st.rx.cq j done.length live h ∧
      Hauled st done live j h (({ st with
        rx := { st.rx with cqci := st.rx.cqci+1, ci := st.rx.ci+1 }
        read := st.read+1 } : ReceiveState).settle d (st.rx.cq.entry (UInt32.ofNat j))) := by
  subst hlive
  have hle := ho.le
  rw [length_cons] at hle
  have howns : ∀ r : Rx, r.toRxFixed=st.rx.toRxFixed → r.pi=st.rx.pi → r.ci=st.rx.ci+1 →
      r.posted=st.rx.posted → r.Owns (done++[d]) rest := by
    intro r hf hpi hci hp
    refine ⟨hf ▸ ho.built,?_,?_,by rw [hf]; omega,?_⟩
    · rw [hpi,ho.pi,length_append,length_cons,length_singleton]
      congr 1
      omega
    · rw [hci,ho.ci,length_append,length_singleton]
      exact (ofNat_add _ 1).symm
    · have hdrop := ho.posted.drop 1
      rwa [hf,hp,length_append]
  have hcqci : st.rx.cqci+1=ofNat (j+1) := by
    rw [hj]
    exact (ofNat_add j 1).symm
  set x := st.rx.cq.entry (ofNat j) with hx
  rw [ReceiveState.settle]
  split_ifs with herr hlong
  · exact ⟨_,.refused d rest hripe hr (.inl herr),howns _ rfl rfl rfl rfl,hcqci,by simp,rfl,
      rfl,rfl,rfl,
      rfl⟩
  · exact ⟨_,.refused d rest hripe hr (.inr hlong),howns _ rfl rfl rfl rfl,hcqci,by simp,rfl,
      rfl,rfl,rfl,
      rfl⟩
  · exact ⟨_,.given d rest hripe hr herr hlong,howns _ rfl rfl rfl rfl,hcqci,rfl,rfl,by simp,
      rfl,rfl,rfl⟩

theorem receiveTurn_spec (hin : ∀ d∈live, d.addr.toNat<st.rx.region.len) :
    (∃ st' h, receiveTurn st = .stop st' ∧ Hauled st done live j h st' ∧
      Stops st.rx.toRxFixed st.rx.cq j done.length live h) ∨
    ∃ st' h, receiveTurn st = .again st' ∧ Hauled st done live j h st' ∧
      Goes st.rx.toRxFixed st.rx.cq j done.length live h := by
  have hhdr : st.rx.cq.header st.rx.cqci=header (st.rx.cq.entry (ofNat j)) := by
    rw [hj]
    rfl
  have hown : st.rx.cq.owned st.rx.cqci (header (st.rx.cq.entry (ofNat j)))=true ↔
      Ripe st.rx.cq j := by
    rw [hj]
    rfl
  have hback : st.rx.cqci+1-1=UInt32.ofNat j := by rw [UInt32.add_sub_cancel,hj]
  have hslot : st.rx.ci &&& st.rx.mask=ofNat done.length &&& st.rx.mask := by rw [ho.ci]
  have hfail : ∀ (o : Option String) (e : String), (o.or (some e)).isSome=true := fun o e => by simp
  simp only [receiveTurn,hhdr,hback]
  by_cases hripe : Ripe st.rx.cq j
  case neg =>
    rw [if_pos (by simpa using hown.not.mpr hripe)]
    refine .inl ⟨st,{},rfl,.none ho hj rfl rfl rfl rfl ?_ rfl rfl rfl rfl rfl,.idle live hripe⟩
    exact (UInt32.add_zero _).symm
  rw [if_neg (by simpa using hown.mpr hripe)]
  by_cases hf : format (header (st.rx.cq.entry (ofNat j)))=cqeFormatNoData
  case neg =>
    rw [if_pos hf]
    refine .inl
      ⟨_,_,rfl,.none ho hj rfl rfl rfl rfl ?_ rfl rfl rfl rfl ?_,.undecodable live hripe hf⟩
    · exact (UInt32.add_zero _).symm
    · exact hfail _ _
  rw [if_neg (not_not.mpr hf)]
  by_cases hop : opcode (header (st.rx.cq.entry (ofNat j)))≠cqeRespSend ∧
      opcode (header (st.rx.cq.entry (ofNat j)))≠cqeRespErr
  · rw [if_pos hop]
    exact .inr ⟨_,_,rfl,.none ho hj rfl rfl rfl rfl rfl rfl rfl rfl rfl rfl,
      .stray live hripe hf (.inr hop)⟩
  rw [if_neg hop]
  rcases hlive : live with _ | ⟨d,rest⟩
  · rw [if_pos (ho.empty_iff.mpr hlive)]
    exact .inr ⟨_,_,rfl,.none (hlive ▸ ho) hj rfl rfl rfl rfl rfl rfl rfl rfl rfl rfl,
      .stray [] hripe hf (.inl rfl)⟩
  have hne : ¬ st.rx.pi=st.rx.ci := by
    rw [ho.empty_iff,hlive]
    exact cons_ne_nil d rest
  have hop' : opcode (header (st.rx.cq.entry (ofNat j)))=cqeRespSend ∨
      opcode (header (st.rx.cq.entry (ofNat j)))=cqeRespErr := by
    simpa [or_iff_not_imp_left] using hop
  rw [if_neg hne]
  by_cases hc : (wqeCounter (header (st.rx.cq.entry (ofNat j)))).toUInt32 &&& st.rx.mask =
      st.rx.ci &&& st.rx.mask
  · have hd := ho.oldest hlive
    have hreg : d.addr.toNat<st.rx.region.len := hin d (by rw [hlive]; simp)
    obtain ⟨h,hg,hh⟩ := settle_hauled ho hj hlive hripe ⟨hf,hop',hc.trans hslot⟩
    rw [hlive] at hg hh
    rw [if_neg (not_not.mpr hc),hd,if_neg (not_not.mpr hreg)]
    exact .inr ⟨_,h,rfl,hh,hg⟩
  · rw [if_pos hc]
    refine .inl ⟨_,_,rfl,.none (hlive ▸ ho) hj rfl rfl rfl rfl rfl rfl rfl rfl rfl ?_,
      .lost d rest hripe hf hop' (hslot ▸ hc)⟩
    exact hfail _ _

end

theorem Ripe.next_lap {i : Nat} (hk : cq.Sized k) (h : Ripe cq i) : ¬ Ripe cq (i+2^k) := by
  rw [Ripe,hk.owned_iff] at h ⊢
  rw [add_mod_right]
  exact not_ready_next_lap (Nat.two_pow_pos k) h

theorem Goes.reads {n : Nat} {h : Haul}
    (hg : Goes f cq j n live h) : Ripe cq j ∧ h.read=1 ∧ h.latched=false := by
  cases hg with
  | stray _ hr | refused _ _ hr | given _ _ hr => exact ⟨hr,rfl,rfl⟩

/-- The loop ends, whatever the completions hold: those it has read since `rd` are
ripe, and none of them is ripe again a lap later. -/
theorem receiveLoop_serves (max : Int) (turns rd j : Nat) (st : ReceiveState)
    (done live : List Desc) (hk : st.rx.cq.Sized k) (ho : st.rx.Owns done live)
    (hj : st.rx.cqci=UInt32.ofNat j) (hin : ∀ d∈live, d.addr.toNat<st.rx.region.len)
    (hrd : rd≤j) (hpast : ∀ i, rd ≤ i → i<j → Ripe st.rx.cq i) (hturns : rd+2^k<j+turns) :
    ∃ st' h, receiveLoop max turns st = .ok st' ∧ Hauled st done live j h st' ∧
      Serves st.rx.toRxFixed st.rx.cq (max-st.got).toNat j done.length live h := by
  induction turns generalizing j st done live with
  | zero =>
    have hpos := Nat.two_pow_pos k
    exact absurd (hpast (rd+2^k) (by omega) (by omega))
      ((hpast rd (le_refl rd) (by omega)).next_lap hk)
  | succ turns ih =>
    rw [receiveLoop]
    by_cases hmax : (st.got : Int) < max
    · rw [if_neg (not_not.mpr hmax)]
      obtain ⟨room,hroom⟩ : ∃ room, (max-st.got).toNat=room+1 := ⟨(max-st.got).toNat-1,by omega⟩
      rw [hroom]
      rcases receiveTurn_spec ho hj hin with hstop | ⟨st1,h₁,hturn,hh,hg⟩
      · obtain ⟨st',h,hturn,hh,hs⟩ := hstop
        exact ⟨st',h,by rw [hturn],hh,.stop hs⟩
      obtain ⟨hripe,hread,-⟩ := hg.reads
      have hj1 := hh.cqci
      have hin1 : ∀ d∈live.drop h₁.taken.length, d.addr.toNat<st1.rx.region.len := by
        intro d hd
        rw [hh.fixed]
        exact hin d (mem_of_mem_drop hd)
      have hpast1 : ∀ i, rd ≤ i → i<j+1 → Ripe st1.rx.cq i := by
        intro i hlo hhi
        rw [hh.cq]
        by_cases hlast : i=j
        · exact hlast ▸ hripe
        · exact hpast i hlo (by omega)
      rw [hread] at hj1
      obtain ⟨st',h',hloop,hh',hs⟩ := ih (j+1) st1 _ _ (hh.cq ▸ hk) hh.owns hj1 hin1 (by omega)
        hpast1 (by omega)
      have hleft : (max-st1.got).toNat=room+1-h₁.out.length := by
        have hgot := hh.got
        omega
      rw [hh.fixed,hh.cq,hleft,length_append] at hs
      rw [← hread] at hh'
      exact ⟨st',h₁.append h',by rw [hturn]; exact hloop,hh.trans hh',.go hg hs⟩
    · rw [if_pos hmax]
      have hroom : (max-st.got).toNat=0 := by omega
      rw [hroom]
      refine ⟨st,{},rfl,.none ho hj rfl rfl rfl rfl ?_ rfl rfl rfl rfl rfl,.full j done.length live⟩
      exact (UInt32.add_zero _).symm

inductive Shared (size : UInt32) : List Desc → List Desc → List Desc → Prop
  | nil : Shared size [] [] []
  | out (d d' : Desc) {taken out failed : List Desc} (haddr : d'.addr=d.addr)
    (hlen : d'.len ≤ size) (h : Shared size taken out failed) :
    Shared size (d::taken) (d'::out) failed
  | failed (d : Desc) {taken out failed : List Desc} (h : Shared size taken out failed) :
    Shared size (d::taken) out (d::failed)

theorem Shared.append {as bs cs as' bs' cs' : List Desc} (h : Shared size as bs cs)
    (h' : Shared size as' bs' cs') : Shared size (as++as') (bs++bs') (cs++cs') := by
  induction h with
  | nil => exact h'
  | out d d' haddr hlen _ ih => exact .out d d' haddr hlen ih
  | failed d _ ih => exact .failed d ih

theorem Shared.length {taken out failed : List Desc}
    (h : Shared size taken out failed) : taken.length=out.length+failed.length := by
  induction h with
  | nil => rfl
  | out _ _ _ _ _ _ | failed _ _ _ =>
    simp only [length_cons]
    omega

theorem Goes.shared {n : Nat} {h : Haul}
    (hg : Goes f cq j n live h) : h.taken <+: live ∧ Shared f.bufSize h.taken h.out h.failed := by
  cases hg with
  | stray live => exact ⟨ nil_prefix,.nil⟩
  | refused d live => exact ⟨by simp,.failed d .nil⟩
  | given d live _ _ _ hlen => exact ⟨by simp,.out d _ rfl (UInt32.not_lt.mp hlen) .nil⟩

namespace Serves
variable {f : RxFixed} {cq : CQ} {room j n : Nat} {live : List Desc} {h : Haul}

theorem shared (hs : Serves f cq room j n live h) :
    h.taken <+: live ∧ Shared f.bufSize h.taken h.out h.failed := by
  induction hs with
  | full => exact ⟨ nil_prefix,.nil⟩
  | stop hs =>
    cases hs with
    | idle | undecodable | lost => exact ⟨ nil_prefix,.nil⟩
  | @go room j n live h h' hg _ ih =>
    obtain ⟨hpre,hsh⟩ := hg.shared
    refine ⟨?_,hsh.append ih.2⟩
    obtain ⟨rest,hrest⟩ := hpre
    have hpre' := ih.1
    rw [← hrest,drop_left] at hpre'
    rw [← hrest]
    exact (prefix_append_right_inj _).mpr hpre'

theorem ripe (hs : Serves f cq room j n live h) : ∀ i<h.read, Ripe cq (j+i) := by
  induction hs with
  | full => exact fun i hi => absurd hi (not_lt_zero i)
  | @stop room j n live h hs =>
    intro i hi
    cases hs with
    | idle | undecodable => exact absurd hi (not_lt_zero i)
    | lost d live hr =>
      have hi0 : i=0 := lt_one_iff.mp hi
      exact hi0 ▸ hr
  | @go room j n live h h' hg _ ih =>
    intro i hi
    obtain ⟨hr,hread,-⟩ := hg.reads
    rw [Haul.append,hread] at hi
    cases i with
    | zero => exact hr
    | succ i =>
      have hnext := ih i (by simp only at hi; omega)
      rwa [add_right_comm] at hnext

theorem read_le (hk : cq.Sized k) (hs : Serves f cq room j n live h) : h.read≤2^k := by
  by_contra hlt
  have hpos := Nat.two_pow_pos k
  exact (hs.ripe 0 (by omega)).next_lap hk (hs.ripe (2^k) (by omega))

end Serves

structure Rx.Served (r : Rx) (done live : List Desc) (j : Nat) (h : Haul) (r' : Rx) : Prop where
  owns : r'.Owns (done++h.taken) (live.drop h.taken.length)
  cqci : r'.cqci=UInt32.ofNat (j+h.read)
  failed : r'.failed=h.failed
  fixed : r'.toRxFixed=r.toRxFixed
  cq : r'.cq=r.cq
  dead : r'.dead.isSome=(h.latched || r.dead.isSome)

theorem finish_rest (st : ReceiveState) : st.finish.toRxFixed=st.rx.toRxFixed ∧
    st.finish.cq=st.rx.cq ∧ st.finish.cqci=st.rx.cqci ∧ st.finish.dead=st.rx.dead ∧
    st.finish.failed=st.rx.failed ∧ st.finish.pi=st.rx.pi ∧ st.finish.ci=st.rx.ci ∧
    st.finish.posted=st.rx.posted := by
  simp only [ReceiveState.finish,Rx.sync]
  split_ifs <;> exact ⟨rfl,rfl,rfl,rfl,rfl,rfl,rfl,rfl⟩

section
variable {r : Rx} {done live : List Desc} {j : Nat} (ho : r.Owns done live)
  (hj : r.cqci=UInt32.ofNat j)
include ho hj

theorem Rx.Owns.receive_nothing (turns : Nat) {max : Int} (hno : max≤0 ∨ r.dead.isSome=true)
    (out : List Desc) (ts : Option (List UInt64)) :
    ∃ r', r.receive turns max out ts = .ok (r',out,ts) ∧ r.Served done live j {} r' := by
  refine ⟨_,if_pos hno,?_,hj,rfl,rfl,rfl,rfl⟩
  rw [append_nil]
  exact ho.congr rfl rfl rfl rfl

theorem Rx.Owns.receive (hk : r.cq.Sized k) (hin : ∀ d∈live, d.addr.toNat<r.region.len)
    {turns : Nat} (hturns : 2^k<turns) {max : Int} (hyes : ¬ (max≤0 ∨ r.dead.isSome=true))
    (out : List Desc) (ts : Option (List UInt64)) :
    ∃ r' ts' h, r.receive turns max out ts = .ok (r',out++h.out,ts') ∧ r.Served done live j h r' ∧
      Serves r.toRxFixed r.cq max.toNat j done.length live h := by
  have ho' : ({ r with failed := [] } : Rx).Owns done live := ho.congr rfl rfl rfl rfl
  obtain ⟨st,h,hloop,hh,hs⟩ := receiveLoop_serves max turns j j
    { rx := { r with failed := [] }, out := out, ts := ts } done live hk ho' hj hin (le_refl j)
    (fun i hlo hhi => absurd hhi (not_lt.mpr hlo)) (by omega)
  obtain ⟨h1,h2,h3,h4,h5,h6,h7,h8⟩ := finish_rest st
  refine ⟨st.finish,st.ts,h,?_,⟨hh.owns.congr h1 h6 h7 h8,h3.trans hh.cqci,h5.trans hh.failed,
    h1.trans hh.fixed,h2.trans hh.cq,h4 ▸ hh.dead⟩,by simpa using hs⟩
  simp only [Rx.receive,hloop]
  rw [if_neg hyes,hh.out]

end

end Packetio.Mlx5.Ring

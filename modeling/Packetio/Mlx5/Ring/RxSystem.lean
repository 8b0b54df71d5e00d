import Packetio.Mlx5.Ring.RxServe

/-! The receive ring together with a NIC. A conforming NIC consumes buffers in the
order they were posted and reports each with one completion; a rogue one writes
whatever it likes over the completion queue. -/
namespace Packetio.Mlx5.Ring
open Lib List Nat

variable {cfg : RxConfig} {r : Rx} {turns turns' j n : Nat} {max : Int} {out live : List Desc}
  {ts ts' : Option (List UInt64)} {x : CQE} {f : RxFixed} {xs : List CQE} {haul : Haul}

theorem newRx_ok (h : newRx cfg = .ok r) :
    cfg.stride=16 ∧ cfg.rqLen%16=0 ∧ cfg.rqLen≠0 ∧
      r.entries &&& (r.entries-1)=0 ∧ newCQ cfg.cqLen cfg.cq cqeSize = .ok r.cq ∧
      r.entries≤r.cq.entries ∧
      ∃ rqDbrec cqDbrec rq, r =
        { entries := UInt32.ofNat cfg.rqLen/16, mask := UInt32.ofNat cfg.rqLen/16-1, stride := 16
          region := cfg.region, regionVA := cfg.regionVA, bufSize := cfg.bufferSize, cq := r.cq
          rqDbrec := rqDbrec, cqDbrec := cqDbrec, rq := rq } := by
  have hstep : ∀ {c : Prop} [Decidable c] {e : String} {x : Except String Rx},
      (if c then .error e else x) = .ok r → ¬ c ∧ x = .ok r := by
    intro c _ e x hx
    split_ifs at hx with hc
    exact ⟨hc,hx⟩
  obtain ⟨hstride,h⟩ := hstep h
  obtain ⟨hlen,h⟩ := hstep h
  obtain ⟨hpow,h⟩ := hstep h
  have hst : cfg.stride=16 := not_not.mp hstride
  rw [hst] at hlen hpow h
  push Not at hlen
  rcases hcq : newCQ cfg.cqLen cfg.cq cqeSize with e | cq
  · rw [hcq] at h
    cases h
  rw [hcq] at h
  obtain ⟨hsmall,h⟩ := hstep h
  split at h
  · obtain ⟨-,h⟩ := hstep h
    cases h
    exact ⟨hst,hlen.1,hlen.2,not_not.mp hpow,rfl,UInt32.not_lt.mp hsmall,_,_,_,rfl⟩
  · cases h

section
variable {cfg : RxConfig} {r : Rx} (h : newRx cfg = .ok r)
include h

theorem newRx_entries : r.entries.toNat=cfg.rqLen%2^32/16 := by
  obtain ⟨-,-,-,-,-,-,_,_,_,hr⟩ := newRx_ok h
  rw [hr,UInt32.toNat_div,UInt32.toNat_ofNat']
  rfl

theorem newRx_built : r.toRxFixed.Built := by
  obtain ⟨-,-,-,hpow,-,-,_,_,_,hr⟩ := newRx_ok h
  have hent := newRx_entries h
  have hfix : r.stride=16 ∧ r.mask=r.entries-1 := by
    rw [hr]
    exact ⟨rfl,rfl⟩
  refine ⟨hfix.1,by omega,fun hne => ?_⟩
  obtain ⟨k,-,hk,hm⟩ := pow_of_and_pred r.entries hne hpow
  have hk28 : 2^k<2^28 := by omega
  exact ⟨k,(Nat.pow_lt_pow_iff_right (by decide)).mp hk28,hk,by rw [hfix.2,hm]⟩

theorem newRx_owns : r.Owns [] [] := by
  have hb := newRx_built h
  obtain ⟨-,-,-,-,-,-,_,_,_,hr⟩ := newRx_ok h
  have h0 : r.pi=0 ∧ r.ci=0 := by
    rw [hr]
    exact ⟨rfl,rfl⟩
  exact ⟨hb,h0.1,h0.2,zero_le _,Cells.nil⟩

end

structure RxFixed.Completes (f : RxFixed) (n : Nat) (x : CQE) : Prop where
  format : format (header x)=cqeFormatNoData
  opcode : opcode (header x)=cqeRespSend ∨ opcode (header x)=cqeRespErr
  counter : (wqeCounter (header x)).toNat%f.entries.toNat=n%2^16%f.entries.toNat

structure RxSys where
  rx : Rx
  written : Nat := 0
  consumed : Nat := 0
  accepted : List Desc := []
  received : List Desc := []
  refused : List Desc := []

inductive RxSys.Step (rogue : Prop) (fills : Rx → List Desc → Prop) : RxSys → RxSys → Prop
  | fill (s : RxSys) (descs : List Desc) (hd : fills s.rx descs) :
    Step rogue fills s { s with
      rx := (s.rx.fill descs).1
      accepted := s.accepted++descs.take (s.rx.fill descs).2 }
  | receive (s : RxSys) (turns : Nat) (max : Int) (ts ts' : Option (List UInt64)) (r : Rx)
    (out : List Desc) (h : s.rx.receive turns max [] ts = .ok (r,out,ts')) :
    Step rogue fills s { s with
      rx := r
      consumed := s.consumed+(r.cqci-s.rx.cqci).toNat
      received := s.received++out
      refused := s.refused++r.failed }
  | deliver (s : RxSys) (x : CQE) (h : s.written<s.accepted.length)
    (hx : s.rx.Completes s.written x)
    (hown : (owner (header x)).toNat=s.written/s.rx.cq.entries.toNat%2) :
    Step rogue fills s { s with
      written := s.written+1
      rx := { s.rx with cq := { s.rx.cq with
        buf := Function.update s.rx.cq.buf (s.written%s.rx.cq.entries.toNat) x } } }
  | scribble (s : RxSys) (buf : Nat → CQE) (h : rogue) :
    Step rogue fills s { s with rx := { s.rx with cq := { s.rx.cq with buf := buf } } }

def anyBuffers (_ : Rx) (_ : List Desc) : Prop := True

def inRegion (r : Rx) (descs : List Desc) : Prop := ∀ d∈descs, d.addr.toNat<r.region.len

/-- The states a ring built from `cfg` gets to with a NIC of the given kind. -/
def RxSys.Reach (rogue : Prop) (fills : Rx → List Desc → Prop) (cfg : RxConfig) (s : RxSys) :
    Prop :=
  ∃ r, newRx cfg = .ok r ∧ Relation.ReflTransGen (RxSys.Step rogue fills) { rx := r } s

theorem receiveLoop_mono (max : Int) (hle : turns≤turns')
    {st st' : ReceiveState} (h : receiveLoop max turns st = .ok st') :
    receiveLoop max turns' st = .ok st' := by
  induction turns generalizing turns' st with
  | zero => cases h
  | succ turns ih =>
    obtain ⟨m,rfl⟩ : ∃ m, turns'=m+1 := ⟨turns'-1,by omega⟩
    rw [receiveLoop] at h ⊢
    split_ifs at h ⊢ with hmax
    · cases hturn : receiveTurn st with
      | stop st1 =>
        rwa [hturn] at h
      | again st1 =>
        rw [hturn] at h
        exact ih (by omega) h
      | crash =>
        rw [hturn] at h
        cases h
    · exact h

theorem receive_mono (hle : turns≤turns') {x : Rx × List Desc × Option (List UInt64)}
    (h : r.receive turns max out ts = .ok x) : r.receive turns' max out ts = .ok x := by
  simp only [Rx.receive] at h ⊢
  split_ifs at h ⊢ with hno
  · exact h
  · cases hloop : receiveLoop max turns { rx := { r with failed := [] }, out := out, ts := ts } with
    | ok st =>
      rw [hloop] at h
      rwa [receiveLoop_mono max hle hloop]
    | crash | hang =>
      rw [hloop] at h
      cases h

theorem Rx.Owns.received {done : List Desc} {k : Nat} (ho : r.Owns done live)
    (hj : r.cqci=UInt32.ofNat j) (hk : r.cq.Sized k)
    (hin : ∀ d∈live, d.addr.toNat<r.region.len) {r' : Rx}
    (h : r.receive turns max [] ts = .ok (r',out,ts')) :
    ∃ haul, out=haul.out ∧ r.Served done live j haul r' ∧
      (haul = {} ∨ Serves r.toRxFixed r.cq max.toNat j done.length live haul) := by
  by_cases hno : max≤0 ∨ r.dead.isSome=true
  · obtain ⟨r1,heq,hs⟩ := ho.receive_nothing hj turns hno [] ts
    rw [h] at heq
    injection heq with heq
    injection heq with h1 h2
    injection h2 with h2 h3
    subst h1
    exact ⟨{},h2,hs,.inl rfl⟩
  obtain ⟨r1,ts1,haul,heq,hs,hserves⟩ :=
    ho.receive hj hk hin (lt_succ_of_le (le_add_left (2^k) turns)) hno [] ts
  rw [receive_mono (le_succ_of_le (le_add_right turns (2^k))) h] at heq
  injection heq with heq
  injection heq with h1 h2
  injection h2 with h2 h3
  subst h1
  exact ⟨haul,h2,hs,.inr hserves⟩

section
variable {f : RxFixed} (hb : f.Built) (hpos : f.entries.toNat≠0)
include hb hpos

theorem RxFixed.Completes.counter_iff (h : f.Completes n x) :
    (wqeCounter (header x)).toUInt32 &&& f.mask=UInt32.ofNat n &&& f.mask ↔
      n%2^16%f.entries.toNat=n%f.entries.toNat := by
  obtain ⟨k,hk,he,hm⟩ := hb.pow fun h0 => hpos (by rw [h0]; rfl)
  rw [← UInt32.toNat_inj,hb.slot hpos,toNat_and_mask _ _ k hm,UInt16.toNat_toUInt32,← he,h.counter]

theorem RxFixed.Completes.reports (hle : f.entries.toNat≤2^16)
    (h : f.Completes n x) : f.Reports n x := by
  refine ⟨h.format,h.opcode,(h.counter_iff hb hpos).mpr ?_⟩
  obtain ⟨k,hk,he,hm⟩ := hb.pow fun h0 => hpos (by rw [h0]; rfl)
  rw [he] at hle ⊢
  exact Nat.mod_mod_of_dvd n (Nat.pow_dvd_pow 2 ((Nat.pow_le_pow_iff_right (by decide)).mp hle))

end

theorem Goes.takes {cq : CQ} {d : Desc}
    {h : Haul} (hg : Goes f cq j n (d::live) h) (hx : cq.entry (UInt32.ofNat j)=x)
    (hr : f.Reports n x) : h.taken.length=1 ∧ h.out.length≤1 := by
  cases hg with
  | stray live _ _ hs =>
    cases hs with
    | inl hnil => cases hnil
    | inr hop =>
      rw [hx] at hop
      exact absurd hr.opcode (by simpa [not_or] using hop)
  | refused => exact ⟨rfl,zero_le _⟩
  | given => exact ⟨rfl,le_refl _⟩

theorem Serves.idle {cq : CQ} {room : Nat} {h : Haul}
    (hs : Serves f cq room j n live h) (hno : ¬ Ripe cq j) : h = {} := by
  cases hs with
  | full => rfl
  | stop hs =>
    cases hs with
    | idle => rfl
    | undecodable _ hr | lost _ _ hr => exact absurd hr hno
  | go hg _ => exact absurd hg.reads.1 hno

section
variable {f : RxFixed} {cq : CQ} {k wr : Nat} (hk : cq.Sized k)
include hk

theorem Stops.not_reported {d : Desc} {h : Haul} (hs : Stops f cq j n (d::live) h)
    (hq : cq.Holds k j wr (x::xs)) (hr : f.Reports n x) : False := by
  obtain ⟨hx,hripe⟩ := hq.next hk
  cases hs with
  | idle live hno => exact hno hripe
  | undecodable live _ hf => exact hf (hx ▸ hr.format)
  | lost d live _ _ _ hc => exact hc (hx ▸ hr.counter)

theorem Serves.conforming {room : Nat} {h : Haul}
    (hs : Serves f cq room j n live h) (hq : cq.Holds k j wr xs)
    (hrep : ∀ i (hi : i<xs.length), f.Reports (n+i) xs[i]) (hlen : xs.length≤live.length) :
    h.latched=false ∧ h.read=h.taken.length ∧ h.read≤xs.length ∧
      (h.read=xs.length ∨ h.out.length=room) := by
  induction xs generalizing room j n live h with
  | nil =>
    have hno : ¬ Ripe cq j := by
      rw [Ripe,hq.stop hk]
      simp
    rw [hs.idle hno]
    exact ⟨rfl,rfl,le_refl _,.inl rfl⟩
  | cons x xs ih =>
    obtain ⟨d,live,rfl⟩ := exists_cons_of_length_pos (lt_of_lt_of_le (succ_pos _) hlen)
    have hr : f.Reports n x := hrep 0 (succ_pos _)
    cases hs with
    | full => exact ⟨rfl,rfl,zero_le _,.inr rfl⟩
    | stop hs => exact (hs.not_reported hk hq hr).elim
    | @go room _ _ _ h h' hg hs =>
      obtain ⟨-,hread,hlatch⟩ := hg.reads
      obtain ⟨htaken,hone⟩ := hg.takes (hq.next hk).1 hr
      rw [htaken] at hs
      have hq' : cq.Holds k (j+1) wr xs := hq.read 1 (by simp)
      have hrep' : ∀ i (hi : i<xs.length), f.Reports (n+1+i) xs[i] := by
        intro i hi
        have hnext := hrep (i+1) (by simpa using hi)
        rwa [add_assoc,add_comm 1 i]
      obtain ⟨h1,h2,h3,h4⟩ := ih hs hq' hrep' (by simpa using hlen)
      simp only [Haul.append,length_append,length_cons,hlatch,h1,hread,htaken,
        Bool.or_false,true_and]
      omega

end

structure RxSys.Conforms (f : RxFixed) (k : Nat) (s : RxSys) (done live : List Desc)
    (xs : List CQE) : Prop where
  fixed : s.rx.toRxFixed=f
  owns : s.rx.Owns done live
  accepted : s.accepted=done++live
  sized : s.rx.cq.Sized k
  room : s.rx.entries.toNat≤2^k
  pos : s.rx.entries.toNat≠0
  queue : s.rx.cq.Holds k s.consumed s.written xs
  cqci : s.rx.cqci=UInt32.ofNat s.consumed
  count : s.consumed=done.length
  reports : ∀ i (hi : i<xs.length), s.rx.Completes (done.length+i) xs[i]
  length_le : xs.length≤live.length
  inside : ∀ d∈live, d.addr.toNat<s.rx.region.len
  shared : Shared s.rx.bufSize done s.received s.refused
  healthy : s.rx.dead=none

namespace RxSys.Conforms
variable {f : RxFixed} {k : Nat} {s : RxSys} {done live : List Desc} {xs : List CQE}
  (h : s.Conforms f k done live xs)
include h

theorem fill {descs : List Desc} (hin : inRegion s.rx descs) : ({ s with
      rx := (s.rx.fill descs).1
      accepted := s.accepted++descs.take (s.rx.fill descs).2 } : RxSys).Conforms f k done
        (live++descs.take (s.rx.fill descs).2) xs := by
  have hf := h.owns.fill descs
  constructor
  · exact hf.fixed.trans h.fixed
  · exact hf.owns
  · simp [h.accepted]
  · simp only [hf.cq]
    exact h.sized
  · simp only [hf.fixed]
    exact h.room
  · simp only [hf.fixed]
    exact h.pos
  · simp only [hf.cq]
    exact h.queue
  · exact hf.cqci.trans h.cqci
  · exact h.count
  · simp only [hf.fixed]
    exact h.reports
  · exact h.length_le.trans (by simp)
  · intro d hd
    simp only [hf.fixed]
    cases mem_append.mp hd with
    | inl hd => exact h.inside d hd
    | inr hd => exact hin d (mem_of_mem_take hd)
  · simp only [hf.fixed]
    exact h.shared
  · exact hf.dead.trans h.healthy

theorem deliver (hlt : s.written<s.accepted.length) (hx : s.rx.Completes s.written x)
    (hown : (owner (header x)).toNat=s.written/s.rx.cq.entries.toNat%2) : ({ s with
      written := s.written+1
      rx := { s.rx with cq := { s.rx.cq with
        buf := Function.update s.rx.cq.buf (s.written%s.rx.cq.entries.toNat) x } } } :
          RxSys).Conforms f k done live (xs++[x]) := by
  have hcount := h.queue.count
  have hdone := h.count
  have hle := h.owns.le
  have hroom := h.room
  rw [h.accepted,length_append] at hlt
  have hready : Ready (2^k) (fun e : CQE => opcode (header e)≠cqeInvalid)
      (fun e => (owner (header e)).toNat) s.written x := by
    refine ⟨?_,by rw [← h.sized.entries]; exact hown⟩
    cases hx.opcode with
    | inl hop | inr hop => rw [hop]; decide
  refine { h with
    owns := h.owns.congr rfl rfl rfl rfl, sized := h.sized.over _
    queue := ?_, reports := ?_, length_le := ?_ }
  · simp only [h.sized.entries]
    exact h.queue.write (by omega) hready
  · intro i hi
    rw [length_append,length_singleton] at hi
    by_cases hold : i<xs.length
    · rw [getElem_append_left hold]
      exact h.reports i hold
    have hi' : i=xs.length := by omega
    subst hi'
    simp only [getElem_concat_length]
    rwa [← hdone,← hcount]
  · rw [length_append,length_singleton]
    omega

theorem serves (hrep : ∀ i (hi : i<xs.length), s.rx.Reports (done.length+i) xs[i])
    (hs : Serves s.rx.toRxFixed s.rx.cq max.toNat s.consumed done.length live haul) :
    haul.latched=false ∧ haul.read=haul.taken.length ∧ haul.read≤xs.length ∧
      (haul.read=xs.length ∨ haul.out.length=max.toNat) :=
  hs.conforming h.sized h.queue hrep h.length_le

theorem served (hserved : s.rx.Served done live s.consumed haul r)
    (hlatch : haul.latched=false) (hread : haul.read=haul.taken.length)
    (hle : haul.read≤xs.length) (hpre : haul.taken <+: live)
    (hshared : Shared s.rx.bufSize haul.taken haul.out haul.failed) : ({ s with
      rx := r
      consumed := s.consumed+(r.cqci-s.rx.cqci).toNat
      received := s.received++haul.out
      refused := s.refused++r.failed } : RxSys).Conforms f k (done++haul.taken)
        (live.drop haul.taken.length) (xs.drop haul.read) := by
  have hlen := h.length_le
  have hcap := h.owns.le
  have hlt := h.owns.built.entries
  have hcons : s.consumed+(r.cqci-s.rx.cqci).toNat=s.consumed+haul.read := by
    rw [hserved.cqci,h.cqci,toNat_distance _ _ (by omega) (by omega)]
    omega
  obtain ⟨rest,hrest⟩ := hpre
  refine ⟨hserved.fixed.trans h.fixed,hserved.owns,?_,
    by rw [hserved.cq]; exact h.sized,by rw [hserved.fixed]; exact h.room,
    by rw [hserved.fixed]; exact h.pos,?_,?_,?_,?_,?_,?_,?_,?_⟩
  · rw [← hrest,drop_left]
    simp [h.accepted,← hrest]
  · rw [hcons,hserved.cq]
    exact h.queue.read haul.read hle
  · rw [hcons]
    exact hserved.cqci
  · rw [hcons,h.count,hread,length_append]
  · intro i hi
    rw [length_drop] at hi
    have hrep := h.reports (haul.read+i) (by omega)
    rwa [getElem_drop,hserved.fixed,length_append,← hread,add_assoc]
  · rw [length_drop,length_drop]
    omega
  · intro d hd
    rw [hserved.fixed]
    exact h.inside d (mem_of_mem_drop hd)
  · rw [hserved.fixed,hserved.failed]
    exact h.shared.append hshared
  · have hdead := hserved.dead
    rw [hlatch,h.healthy] at hdead
    simpa using hdead

theorem receive (hrep : ∀ i (hi : i<xs.length), s.rx.Reports (done.length+i) xs[i])
    (hr : s.rx.receive turns max [] ts = .ok (r,out,ts')) :
    ∃ done' live' xs', ({ s with
      rx := r
      consumed := s.consumed+(r.cqci-s.rx.cqci).toNat
      received := s.received++out
      refused := s.refused++r.failed } : RxSys).Conforms f k done' live' xs' := by
  obtain ⟨haul,rfl,hserved,hcase⟩ := h.owns.received h.cqci h.sized h.inside hr
  cases hcase with
  | inl hnone =>
    subst hnone
    exact ⟨_,_,_,h.served hserved rfl rfl (zero_le _) nil_prefix .nil⟩
  | inr hs =>
    obtain ⟨hlatch,hread,hle,-⟩ := h.serves hrep hs
    exact ⟨_,_,_,h.served hserved hlatch hread hle hs.shared.1 hs.shared.2⟩

theorem reported (hsmall : f.entries.toNat≤2^16) :
    ∀ i (hi : i<xs.length), s.rx.Reports (done.length+i) xs[i] :=
  fun i hi => (h.reports i hi).reports h.owns.built h.pos (h.fixed ▸ hsmall)

theorem step (hsmall : f.entries.toNat≤2^16) {s' : RxSys} (hs : RxSys.Step False inRegion s s') :
    ∃ done' live' xs', s'.Conforms f k done' live' xs' := by
  cases hs with
  | fill descs hd => exact ⟨_,_,_,h.fill hd⟩
  | receive turns max ts ts' r out hr => exact h.receive (h.reported hsmall) hr
  | deliver x hlt hx hown => exact ⟨_,_,_,h.deliver hlt hx hown⟩
  | scribble buf hrogue => exact hrogue.elim

end RxSys.Conforms

structure RxConfig.Fresh (cfg : RxConfig) : Prop where
  cqLen : cfg.cqLen<2^32
  invalid : ∀ j, opcode (header (cfg.cq j))=cqeInvalid

theorem RxSys.Conforms.init (hfresh : cfg.Fresh) (h : newRx cfg = .ok r)
    (hpos : r.entries.toNat≠0) : ∃ k, ({ rx := r } : RxSys).Conforms r.toRxFixed k [] [] [] := by
  have ho := newRx_owns h
  obtain ⟨-,-,-,-,hcq,hle,_,_,_,hr⟩ := newRx_ok h
  obtain ⟨k,hk⟩ := newCQ_sized hcq hfresh.cqLen
  have hrest : r.cqci=0 ∧ r.dead=none := by
    rw [hr]
    exact ⟨rfl,rfl⟩
  rw [UInt32.le_iff_toNat_le,hk.entries] at hle
  refine ⟨k,rfl,ho,rfl,hk,hle,hpos,?_,hrest.1,rfl,?_,le_refl _,?_,.nil,hrest.2⟩
  · refine LapRing.empty fun j => ?_
    simp only [newCQ_buf hcq,not_not]
    exact hfresh.invalid j
  · intro i hi
    simp at hi
  · intro d hd
    cases hd

theorem newRx_small (hrq : cfg.rqLen≤16*65536) (h : newRx cfg = .ok r) :
    r.entries.toNat≠0 ∧ r.entries.toNat≤2^16 := by
  have hent := newRx_entries h
  obtain ⟨-,hmod,hne,-⟩ := newRx_ok h
  omega

theorem RxSys.Reach.conforms (hrq : cfg.rqLen≤16*65536) (hfresh : cfg.Fresh)
    {s : RxSys} (h : RxSys.Reach False inRegion cfg s) :
    ∃ r k done live xs, newRx cfg = .ok r ∧ s.Conforms r.toRxFixed k done live xs := by
  obtain ⟨r,hr,hrun⟩ := h
  obtain ⟨hpos,hsmall⟩ := newRx_small hrq hr
  obtain ⟨k,hinit⟩ := RxSys.Conforms.init hfresh hr hpos
  refine ⟨r,k,?_⟩
  induction hrun with
  | refl => exact ⟨[],[],[],hr,hinit⟩
  | tail _ hstep ih =>
    obtain ⟨done,live,xs,-,hc⟩ := ih
    obtain ⟨done',live',xs',hc'⟩ := hc.step hsmall hstep
    exact ⟨done',live',xs',hr,hc'⟩

end Packetio.Mlx5.Ring

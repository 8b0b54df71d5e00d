import Packetio.Mlx5.Ring.RxReturn

/-! The receive ring against a device that writes anything at all over the completion
queue: what a Receive can hand out, that it ends, and that a queue out of service
stays out of service. -/
namespace Packetio.Mlx5.Ring
open List UInt32

def Rx.over (r : Rx) (buf : Nat → CQE) : Rx := { r with cq := { r.cq with buf := buf } }

structure RxSys.Accounts (f : RxFixed) (k : Nat) (s : RxSys) (done live : List Desc) : Prop where
  fixed : s.rx.toRxFixed=f
  owns : s.rx.Owns done live
  accepted : s.accepted=done++live
  sized : s.rx.cq.Sized k
  inside : ∀ d∈live, d.addr.toNat<s.rx.region.len

variable {done live : List Desc} {s s' : RxSys} {fills : Rx → List Desc → Prop} {rogue : Prop}

theorem RxSys.Accounts.step {f : RxFixed} {k : Nat}
    (h : s.Accounts f k done live) (hs : RxSys.Step True inRegion s s') :
    ∃ done' live', s'.Accounts f k done' live' := by
  cases hs with
  | fill descs hd =>
    have hf := h.owns.fill descs
    refine ⟨done,_,hf.fixed.trans h.fixed,hf.owns,?_,?_,?_⟩
    · simp [h.accepted]
    · simp only [hf.cq]
      exact h.sized
    · intro d hd'
      simp only [hf.fixed]
      cases List.mem_append.mp hd' with
      | inl hd' => exact h.inside d hd'
      | inr hd' => exact hd d (List.mem_of_mem_take hd')
  | receive turns max ts ts' r out hr =>
    obtain ⟨haul,-,hserved,hcase⟩ := h.owns.received (UInt32.ofNat_toNat).symm h.sized h.inside hr
    have hpre : haul.taken <+: live := by
      cases hcase with
      | inl hnone =>
        subst hnone
        exact List.nil_prefix
      | inr hserves => exact hserves.shared.1
    obtain ⟨rest,hrest⟩ := hpre
    refine ⟨done++haul.taken,live.drop haul.taken.length,hserved.fixed.trans h.fixed,
      hserved.owns,?_,
      by rw [hserved.cq]; exact h.sized,?_⟩
    · rw [← hrest,List.drop_left]
      simp [h.accepted,← hrest]
    · intro d hd
      rw [hserved.fixed]
      exact h.inside d (List.mem_of_mem_drop hd)
  | deliver _ _ _ _ | scribble _ _ =>
    exact ⟨done,live,h.fixed,h.owns.congr rfl rfl rfl rfl,h.accepted,h.sized.over _,h.inside⟩

theorem RxSys.Reach.accounts {cfg : RxConfig} (hcq : cfg.cqLen<2^32)
    (h : RxSys.Reach True inRegion cfg s) :
    ∃ r k done live, newRx cfg = .ok r ∧ s.Accounts r.toRxFixed k done live := by
  obtain ⟨r,hr,hrun⟩ := h
  induction hrun with
  | refl =>
    obtain ⟨-,-,-,-,hnew,-⟩ := newRx_ok hr
    obtain ⟨k,hk⟩ := newCQ_sized hnew hcq
    exact ⟨r,k,[],[],hr,rfl,newRx_owns hr,rfl,hk,nofun⟩
  | tail _ hstep ih =>
    obtain ⟨r,k,done,live,hnew,ha⟩ := ih
    obtain ⟨done',live',ha'⟩ := ha.step hstep
    exact ⟨r,k,done',live',hnew,ha'⟩

theorem fill_dead (r : Rx) (descs : List Desc) : (r.fill descs).1.dead=r.dead := by
  have hall : ∀ (ds : List Desc) (r : Rx), (ds.foldl Rx.fillOne r).dead=r.dead := by
    intro ds
    induction ds with
    | nil => exact fun _ => rfl
    | cons d ds ih => exact fun r => (ih (r.fillOne d)).trans (fillOne_rest r d).2.2.2
  simp only [Rx.fill]
  split_ifs
  · rfl
  · exact (tick_rest _).2.2.2.1.trans (hall _ r)

theorem RxSys.Step.dead (hs : RxSys.Step rogue fills s s') (hd : s.rx.dead.isSome=true) :
    s'.rx.dead=s.rx.dead ∧ s'.received=s.received ∧ s'.refused=s.refused := by
  cases hs with
  | fill descs _ => exact ⟨fill_dead s.rx descs,rfl,rfl⟩
  | receive turns max ts ts' r out hr =>
    have hno : s.rx.receive turns max [] ts = .ok ({ s.rx with failed := [] },[],ts) :=
      if_pos (.inr hd)
    rw [hr] at hno
    injection hno with hno
    injection hno with h1 h2
    injection h2 with h2 h3
    subst h1 h2
    exact ⟨rfl,append_nil _,append_nil _⟩
  | deliver _ _ _ _ | scribble _ _ => exact ⟨rfl,rfl,rfl⟩

theorem RxSys.dead_forever
    (hrun : Relation.ReflTransGen (RxSys.Step rogue fills) s s') (hd : s.rx.dead.isSome=true) :
    s'.rx.dead=s.rx.dead ∧ s'.received=s.received ∧ s'.refused=s.refused := by
  induction hrun with
  | refl => exact ⟨rfl,rfl,rfl⟩
  | tail _ hstep ih =>
    obtain ⟨h1,h2,h3⟩ := ih
    obtain ⟨h1',h2',h3'⟩ := hstep.dead (by rw [h1]; exact hd)
    exact ⟨h1'.trans h1,h2'.trans h2,h3'.trans h3⟩

def Rx.Bad (r : Rx) (x : CQE) : Prop :=
  format (header x)≠cqeFormatNoData ∨
    (opcode (header x)=cqeRespSend ∨ opcode (header x)=cqeRespErr) ∧ r.pi≠r.ci ∧
      (wqeCounter (header x)).toUInt32 &&& r.mask≠r.ci &&& r.mask

theorem Goes.not_bad {r : Rx} (ho : r.Owns done live) {j : Nat} {h : Haul}
    (hg : Goes r.toRxFixed r.cq j done.length live h) : ¬ r.Bad (r.cq.entry (UInt32.ofNat j)) := by
  have hreport : r.Reports done.length (r.cq.entry (ofNat j)) → ¬ r.Bad (r.cq.entry (ofNat j)) := by
    rintro hr (hf | ⟨-,-,hc⟩)
    · exact hf hr.format
    · rw [ho.ci] at hc
      exact hc hr.counter
  cases hg with
  | stray live hripe hf hs =>
    rintro (hf' | ⟨hop,hne,-⟩)
    · exact hf' hf
    · cases hs with
      | inl hnil => exact hne (ho.empty_iff.mpr hnil)
      | inr hop' => exact hop.elim hop'.1 hop'.2
  | refused _ _ _ hr | given _ _ _ hr => exact hreport hr

theorem Serves.bad {r : Rx} (ho : r.Owns done live) {room j : Nat} {h : Haul}
    (hs : Serves r.toRxFixed r.cq (room+1) j done.length live h) (hripe : Ripe r.cq j)
    (hbad : r.Bad (r.cq.entry (UInt32.ofNat j))) : h.out = [] ∧ h.failed = [] ∧ h.latched=true := by
  cases hs with
  | stop hstop =>
    cases hstop with
    | idle live hno => exact absurd hripe hno
    | undecodable _ _ _ | lost _ _ _ _ _ _ => exact ⟨rfl,rfl,rfl⟩
  | go hg _ => exact absurd hbad (hg.not_bad ho)

/-- Whatever the completion queue holds, a Receive ends and reads no more completions
than the queue has. What it gives back are the oldest buffers outstanding, in order and
each once, with no more bytes than a buffer has. It goes by the completions as `Serves`
says, so that a completion that cannot be decoded or names another buffer gives nothing
back and takes the queue out of service; from then on no Receive gives anything back. -/
theorem receive_any_memory (cfg : RxConfig) (hcq : cfg.cqLen < 2^32) (s : RxSys)
    (h : RxSys.Reach True inRegion cfg s) (buf : Nat → CQE) (turns : Nat)
    (hturns : s.rx.cq.entries.toNat < turns) (max : Int) (ts : Option (List UInt64)) :
    ∃ done live r haul ts', s.accepted = done++live ∧ s.rx.outstanding = live.length ∧
      (s.rx.over buf).receive turns max [] ts = .ok (r,haul.out,ts') ∧
      r.cqci = s.rx.cqci+UInt32.ofNat haul.read ∧ haul.read ≤ s.rx.cq.entries.toNat ∧
      haul.taken <+: live ∧ r.outstanding = live.length-haul.taken.length ∧
      Shared cfg.bufferSize haul.taken haul.out r.failed ∧
      (0 < max → s.rx.dead = none →
        Serves s.rx.toRxFixed (s.rx.over buf).cq max.toNat s.rx.cqci.toNat done.length live haul ∧
        r.dead.isSome = haul.latched) ∧
      (0 < max → s.rx.dead = none → Ripe (s.rx.over buf).cq s.rx.cqci.toNat →
        s.rx.Bad ((s.rx.over buf).cq.entry s.rx.cqci) →
          haul.out = [] ∧ r.failed = [] ∧ r.dead.isSome = true) ∧
      (r.dead.isSome = true → ∀ s',
        Relation.ReflTransGen (RxSys.Step True anyBuffers) { s with rx := r } s' →
          s'.received = s.received ∧ s'.refused = s.refused ∧ s'.rx.dead = r.dead) := by
  obtain ⟨r0,k,done,live,hnew,ha⟩ := h.accounts hcq
  have hbuf : s.rx.bufSize=cfg.bufferSize := by
    obtain ⟨-,-,-,-,-,-,_,_,_,hr⟩ := newRx_ok hnew
    rw [ha.fixed,hr]
  have ho : (s.rx.over buf).Owns done live := ha.owns.congr rfl rfl rfl rfl
  have hk : (s.rx.over buf).cq.Sized k := ha.sized.over buf
  have hj : (s.rx.over buf).cqci=UInt32.ofNat s.rx.cqci.toNat := (UInt32.ofNat_toNat).symm
  have hlater : ∀ r : Rx, r.dead.isSome=true → ∀ s',
      Relation.ReflTransGen (RxSys.Step True anyBuffers) { s with rx := r } s' →
        s'.received=s.received ∧ s'.refused=s.refused ∧ s'.rx.dead=r.dead := by
    intro r hd s' hrun
    obtain ⟨h1,h2,h3⟩ := RxSys.dead_forever hrun hd
    exact ⟨h2,h3,h1⟩
  -- what holds of any haul the ring was served with
  have hrest : ∀ {r haul}, (s.rx.over buf).Served done live s.rx.cqci.toNat haul r →
      haul.taken <+: live → Shared s.rx.bufSize haul.taken haul.out haul.failed →
      r.cqci=s.rx.cqci+ofNat haul.read ∧
        r.outstanding=live.length-haul.taken.length ∧
        Shared cfg.bufferSize haul.taken haul.out r.failed := by
    intro r haul hserved hpre hsh
    refine ⟨?_,?_,by rw [← hbuf,hserved.failed]; exact hsh⟩
    · rw [hserved.cqci,UInt32.ofNat_add,UInt32.ofNat_toNat]
    · rw [Rx.outstanding,hserved.owns.outstanding,length_drop]
  by_cases hno : max≤0 ∨ s.rx.dead.isSome=true
  · obtain ⟨r,hr,hserved⟩ := ho.receive_nothing hj turns hno [] ts
    obtain ⟨h1,h2,h3⟩ := hrest hserved nil_prefix .nil
    have hnot : 0 < max → s.rx.dead=none → False := by
      intro hpos hnone
      rw [hnone] at hno
      simp only [Option.isSome_none,Bool.false_eq_true,or_false] at hno
      omega
    exact ⟨done,live,r,{},ts,ha.accepted,ha.owns.outstanding,hr,h1,Nat.zero_le _, nil_prefix,h2,h3,
      fun hp hn => (hnot hp hn).elim,fun hp hn => (hnot hp hn).elim,hlater r⟩
  rw [ha.sized.entries] at hturns
  obtain ⟨r,ts',haul,hr,hserved,hs⟩ := ho.receive hj hk ha.inside hturns hno [] ts
  obtain ⟨hpre,hsh⟩ := hs.shared
  obtain ⟨h1,h2,h3⟩ := hrest hserved hpre hsh
  have hdead : s.rx.dead=none → r.dead.isSome=haul.latched := by
    intro hnone
    rw [hserved.dead,show (s.rx.over buf).dead=none from hnone]
    simp
  refine ⟨done,live,r,haul,ts',ha.accepted,ha.owns.outstanding,hr,h1,?_,hpre,h2,h3,
    fun _ hnone => ⟨hs,hdead hnone⟩,fun hpos hnone hripe hbad => ?_,hlater r⟩
  · rw [ha.sized.entries]
    exact hs.read_le hk
  · obtain ⟨room,hroom⟩ : ∃ room, max.toNat=room+1 := ⟨max.toNat-1,by omega⟩
    rw [hroom] at hs
    rw [← UInt32.ofNat_toNat (x := s.rx.cqci)] at hbad
    obtain ⟨hout,hfailed,hlatch⟩ := hs.bad ho hripe hbad
    exact ⟨hout,hserved.failed.trans hfailed,by rw [hdead hnone,hlatch]⟩

def tinyGarbled : Nat → CQE := fun _ i => if i=63 then 0x2c else 0

theorem receive_any_memory_tiny :
    ∃ s r ts', RxSys.Reach True inRegion tinyRx s ∧ s.rx.outstanding = 2 ∧
      (s.rx.over tinyGarbled).receive 5 1 [] none = .ok (r,[],ts') ∧ r.failed = [] ∧
      r.dead.isSome = true := by
  have hreach := tinyDelivered_two True
  obtain ⟨done,live,r,haul,ts',-,-,hr,-,-,-,-,-,-,hbad,-⟩ :=
    receive_any_memory tinyRx (by decide) _ hreach tinyGarbled 5 (by decide) 1 none
  obtain ⟨hout,hfailed,hdead⟩ := hbad (by decide) rfl (by unfold Ripe; decide) (.inl (by decide))
  rw [hout] at hr
  exact ⟨_,r,ts',hreach,by decide,hr,hfailed,hdead⟩

end Packetio.Mlx5.Ring

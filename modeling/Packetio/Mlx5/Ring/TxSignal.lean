import Packetio.Mlx5.Ring.TxFootprint

/-! Completion requests. The last entry written asks for a completion as long as
no batch was cut short, by a bad descriptor, between two requests of the
single-packet loop. -/
namespace Packetio.Mlx5.Ring
open Lib List

def Tx.Asked (t : Tx) : Prop :=
  ∀ pre e, t.entries=pre++[e] →
    t.sqBytes ((64*blocks pre+11)%t.sqLen) &&& ctrlCQUpdate.toUInt8≠0

def Tx.offered (t : Tx) (descs : List Desc) : List Desc := descs.take t.freeSlots

def Tx.EndsAsked (t : Tx) (descs : List Desc) : Prop :=
  t.mpw≠none ∨
    ((t.offered descs).takeWhile t.descOK).length=(t.offered descs).length ∨
    ((t.offered descs).takeWhile t.descOK).length%t.signalEvery.toNat=0

variable {d : Desc} {descs : List Desc} {j n i : Nat} {last : Bool} {p : Put} {xs : List CQE}

section
variable {t t' : Tx} {done live : List Entry}

theorem Tx.Asked.of_agree (h : t.Asked) (ha : t.Agree t') : t'.Asked := by
  obtain ⟨_,_,_,rfl,-,-⟩ := ha
  exact h

theorem concat_inj {pre pre' : List Entry} {e e' : Entry} (h : pre++[e]=pre'++[e']) :
    pre=pre' := (append_inj' h rfl).1

theorem asks_shown (hb : t.toTxFixed.Built) {base : Nat} {buf : Nat → UInt8}
    {ps : List (Piece UInt8)}
    {signal : Bool} (hshow : Shows (64*t.bbs.toNat) base t.sqBytes buf ps) (hi : Increasing ps)
    (hp : bePiece 8 4 (if signal then ctrlCQUpdate else 0).toNat∈ps) :
    buf ((base+11)%(64*t.bbs.toNat)) &&& ctrlCQUpdate.toUInt8≠0 ↔ signal=true := by
  have hpos := pos_of_pow hb.rings.bbs
  have hpiece := hshow.piece hi hp (by change 8+4≤_; omega) (i := 3) (by change 3<4; decide)
  rw [window] at hpiece
  change buf ((base+11)%(64*t.bbs.toNat))=beByte 4 _ 3 at hpiece
  rw [hpiece]
  cases signal with
  | true | false => decide

section
variable (h : t.Inv done live) (hs : t.toTxFixed.Small) (h1 : Single t last d p t')
include h hs h1

theorem Single.asks_iff :
    t'.sqBytes ((64*blocks t.entries+11)%t.sqLen) &&& ctrlCQUpdate.toUInt8≠0 ↔
      t.signals last=true := by
  have hfits := h1.turn.fits
  have hle := h.owns.free
  have hbuf : t'.sqBytes=p.buf := by
    obtain ⟨_,_,_,rfl,-,-⟩ := h1.turn.next
    rfl
  obtain ⟨hshow,-⟩ := single_shows h hs d _ h1.put (by rw [Tx.free,hle] at hfits; omega)
  rw [hbuf,h.built.sqLen]
  exact asks_shown h.built hshow (t.sender.pieces_tiles _ (UInt32.toNat_lt _) _ _).increasing
    (by simp [Sender.pieces,ctrlPieces])

theorem Single.asked (hsig : t.signals last=true) : t'.Asked := by
  intro pre e he
  have hent : t'.entries=t.entries++[⟨p.bbs.toNat,[d]⟩] := by
    obtain ⟨_,_,_,rfl,-,-⟩ := h1.turn.next
    exact record_entries _ _ _
  rw [hent] at he
  rw [← concat_inj he,h1.turn.fixed]
  exact (h1.asks_iff h hs).mpr hsig

end

structure Tx.Due (t : Tx) (j : Nat) : Prop where
  every : t.signalEvery.toNat≠0
  lt : t.sinceSignal.toNat<t.signalEvery.toNat
  mod : (t.sinceSignal.toNat+j)%t.signalEvery.toNat=0

theorem Tx.Due.signals_iff (h : t.Due j) (last : Bool) :
    t.signals last=true ↔ last=true ∨ t.sinceSignal.toNat+1=t.signalEvery.toNat := by
  have hword := t.signalEvery.toNat_lt
  have hlt := h.lt
  have hne : t.signalEvery≠0 := fun h0 => h.every (by rw [h0]; rfl)
  have hadd : (t.sinceSignal+1).toNat=t.sinceSignal.toNat+1 := by
    rw [UInt32.toNat_add]
    change (_+1)%2^32=_
    omega
  have hge : t.signalEvery.toNat≤t.sinceSignal.toNat+1 ↔
      t.sinceSignal.toNat+1=t.signalEvery.toNat := by omega
  simp only [Tx.signals,Bool.or_eq_true,Bool.and_eq_true,bne_iff_ne,ne_eq,hne,
    not_false_eq_true,true_and,decide_eq_true_iff,ge_iff_le,UInt32.le_iff_toNat_le,hadd,hge]

theorem Tx.Due.signals (h : t.Due 1) (last : Bool) : t.signals last=true := by
  refine (h.signals_iff last).mpr (.inr ?_)
  have hlt := h.lt
  have hmod := h.mod
  by_contra hne
  rw [Nat.mod_eq_of_lt (by omega)] at hmod
  omega

theorem Single.due (h1 : Single t false d p t') (h : t.Due (j+1)) : t'.Due j := by
  have hsig := h.signals_iff false
  have hlt := h.lt
  have hmod := h.mod
  have hev : t'.signalEvery=t.signalEvery := by rw [h1.turn.fixed]
  have hsince := h1.sinceSignal
  cases hg : t.signals false with
  | true =>
    rw [hg,if_pos rfl] at hsince
    have he : t.sinceSignal.toNat+1=t.signalEvery.toNat := by simpa [hg] using hsig
    have hsum : t.sinceSignal.toNat+(j+1)=j+t.signalEvery.toNat := by omega
    rw [hsum,Nat.add_mod_right] at hmod
    refine ⟨by rw [hev]; exact h.every,by rw [hev,hsince]; exact pos_of_ne_zero h.every,?_⟩
    rw [hev,hsince]
    change (0+j) % _=0
    rwa [zero_add]
  | false =>
    rw [hg] at hsince
    have hne : t.sinceSignal.toNat+1≠t.signalEvery.toNat := by simpa [hg] using hsig
    have hword := t.signalEvery.toNat_lt
    have hnat : t'.sinceSignal.toNat=t.sinceSignal.toNat+1 := by
      rw [hsince]
      simp only [Bool.false_eq_true,if_false,UInt32.toNat_add]
      change (_+1)%2^32=_
      omega
    refine ⟨by rw [hev]; exact h.every,by rw [hev,hnat]; omega,?_⟩
    rwa [hev,hnat,add_assoc,add_comm 1 j]

theorem postLoop_asked (n : Nat) (ds : List Desc) (st st' : PostState)
    (h : st.tx.Inv done live) (hs : st.tx.toTxFixed.Small) (hm : st.tx.mpw=none)
    (hroom : ds.length*st.tx.maxBBs.toNat ≤ st.tx.free.toNat) (hn : st.posted+ds.length=n)
    (hstart : (ds.takeWhile st.tx.descOK).length=0 → st.tx.Asked ∧ st.tx.sinceSignal=0)
    (hcond : (ds.takeWhile st.tx.descOK).length=0 ∨
      (ds.takeWhile st.tx.descOK).length=ds.length ∨ st.tx.Due (ds.takeWhile st.tx.descOK).length)
    (hloop : postLoop n ds st=some st') : st'.tx.Asked ∧ st'.tx.sinceSignal=0 := by
  induction ds generalizing st live with
  | nil =>
    cases hloop
    exact hstart rfl
  | cons d ds ih =>
    rw [postLoop] at hloop
    rw [takeWhile_cons] at hstart hcond
    rcases hd : st.tx.descOK d with _ | _
    · rw [hd] at hloop hstart
      cases hloop
      exact hstart rfl
    rw [length_cons,add_mul,one_mul] at hroom
    obtain ⟨p,t1,hone,h1⟩ := postOne_single h.built hm hd (st.posted+1 == n) (by omega)
    simp only [hd,hone,Bool.not_true,Bool.false_eq_true,if_false,if_true,length_cons,
      Nat.add_one_ne_zero,false_or] at hloop hcond hn
    have hfix := h1.turn.fixed
    have hfree := h1.free
    have hlast : (st.posted+1 == n)=ds.isEmpty := by
      rw [Bool.eq_iff_iff,beq_iff_eq,List.isEmpty_iff,← length_eq_zero_iff]
      omega
    rw [hlast] at h1
    refine ih ⟨t1,st.bytes+d.len.toUInt64,st.posted+1⟩ (h1.turn.inv h) ?_ ?_ ?_ ?_ ?_ ?_ hloop
    · exact hfix ▸ hs
    · rwa [hfix]
    · rw [hfix]
      change _≤t1.free.toNat
      omega
    · change st.posted+1+ds.length=n
      omega
    · -- `d` is the last good descriptor
      rw [hfix]
      intro h0
      rw [h0] at hcond
      have hg : st.tx.signals ds.isEmpty=true := by
        cases hcond with
        | inl hc =>
          have hnil : ds = [] := length_eq_zero_iff.mp (by omega)
          rw [hnil]
          rfl
        | inr hc => exact hc.signals _
      have hsince := h1.sinceSignal
      rw [if_pos hg] at hsince
      exact ⟨h1.asked h hs hg,hsince⟩
    · rw [hfix]
      cases hcond with
      | inl hc => exact .inr (.inl (by omega))
      | inr hc =>
        cases ds with
        | nil => exact .inl rfl
        | cons d' ds => exact .inr (.inr (h1.due hc))

theorem ask_bit (x : UInt8) : (x ||| ctrlCQUpdate.toUInt8) &&& ctrlCQUpdate.toUInt8≠0 := by
  have h : (x ||| ctrlCQUpdate.toUInt8) &&& ctrlCQUpdate.toUInt8=ctrlCQUpdate.toUInt8 := by
    rw [← UInt8.toBitVec_inj]
    ext i hi
    simp only [UInt8.toBitVec_and,UInt8.toBitVec_or,BitVec.getElem_and,BitVec.getElem_or]
    cases ctrlCQUpdate.toUInt8.toBitVec[i] with
    | false => rw [Bool.and_false]
    | true => rw [Bool.or_true,Bool.and_true]
  rw [h]
  decide

theorem ring_sinceSignal (t : Tx) (n : Nat) (b : UInt64) :
    (t.ring n b).sinceSignal=t.sinceSignal := by
  simp only [Tx.ring,Tx.tick,Tx.publish]
  split_ifs <;> rfl

theorem postSingle_asked (h : t.Inv done live) (hbbs : t.bbs.toNat≤2^16) (hm : t.mpw=none)
    (hask : t.Asked ∧ t.sinceSignal=0) (hf : t.failed=none)
    (hpos : 0<t.freeSlots) (hcond : t.EndsAsked descs)
    (hp : t.postSingle (t.offered descs)=some (t',n)) : t'.Asked ∧ t'.sinceSignal=0 := by
  have hle : (t.offered descs).length≤t.freeSlots := by simp [Tx.offered]
  have hroom := single_room hm hf hle
  obtain ⟨st,es,hloop,-⟩ := postLoop_turns (t.offered descs).length (t.offered descs) { tx := t }
    h.built hm hroom
  have hend := postLoop_asked _ _ { tx := t } st h (h.small hbbs hpos) hm hroom (zero_add _)
    (fun _ => hask) (by
      rcases hcond with hne | hc
      · exact absurd hm hne
      rcases hc with hall | hmod
      · exact .inr (.inl hall)
      by_cases he : t.signalEvery.toNat=0
      · rw [he,Nat.mod_zero] at hmod
        exact .inl hmod
      refine .inr (.inr ⟨he,?_,?_⟩)
      · simp only [hask.2]
        exact pos_of_ne_zero he
      · simp only [hask.2]
        change (0+_) % _=0
        rw [zero_add]
        exact hmod) hloop
  rw [Tx.postSingle,hloop] at hp
  simp only at hp
  split_ifs at hp with h0
  · cases hp
    exact hend
  · cases hp
    refine ⟨?_,by rw [ring_sinceSignal]; exact hend.2⟩
    intro pre e he
    rw [ring_ledger] at he
    rw [ring_sqBytes,ring_fixed]
    exact hend.1 pre e he

theorem Posting.asked {es : List Entry}
    (hp : Posting t descs es n t') (h : t.Inv done live) (hs : t.toTxFixed.Small)
    (hm : t.mpw≠none) : t'.Asked := by
  obtain ⟨t1,es',e,hts,rfl,rfl,h₁⟩ := hp.last h
  have hfix := hts.fixed
  have hs1 : t1.toTxFixed.Small := hfix ▸ hs
  have hm1 : t1.mpw≠none := by rw [hfix]; exact hm
  intro pre e' he
  rw [ring_ledger,mark_ledger,h₁.owns.entries,← append_assoc] at he
  rw [ring_sqBytes,ring_fixed,mark_fixed,mark_concat,h₁.mark_eq,if_neg hm1,
    setSignaled_sqBytes h₁ hs1,← concat_inj he,h₁.built.sqLen,Function.update_self]
  exact ask_bit _

theorem post_asked (h : t.Inv done live) (hbbs : t.bbs.toNat≤2^16)
    (hask : t.Asked ∧ (t.mpw=none → t.sinceSignal=0))
    (hcond : t.EndsAsked descs) (hp : t.post descs=some (t',n)) :
    t'.Asked ∧ (t'.mpw=none → t'.sinceSignal=0) := by
  cases hm : t.mpw with
  | none =>
    simp only [Tx.post,hm] at hp
    split_ifs at hp with hf hfull h0
    · cases hp
      exact hask
    · cases hp
      exact hask
    · cases hp
      exact hask
    · have hpos : 0<t.freeSlots := by
        simp only [length_take] at h0
        omega
      obtain ⟨hask',hsince⟩ := postSingle_asked h hbbs hm ⟨hask.1,hask.2 hm⟩ (by simpa using hf)
        hpos hcond hp
      exact ⟨hask',fun _ => hsince⟩
  | some m =>
    have hm' : t.mpw≠none := by simp [hm]
    rcases post_cases h.built hp with hno | hes
    · refine ⟨hask.1.of_agree hno.2,fun hnone => ?_⟩
      obtain ⟨-,_,_,_,rfl,-,-⟩ := hno
      exact absurd hnone hm'
    obtain ⟨es,hes⟩ := hes
    refine ⟨hes.asked h (h.small hbbs (hes.room h.built)) hm',fun hnone => ?_⟩
    rw [hes.rest.1] at hnone
    exact absurd hnone hm'

end

theorem TxSys.Step.asked {s s' : TxSys} {k : Nat} {done live : List Entry}
    (hs : TxSys.Step False Tx.EndsAsked s s') (hc : s.Conforms k done live xs)
    (h : s.tx.Asked ∧ (s.tx.mpw=none → s.tx.sinceSignal=0)) :
    s'.tx.Asked ∧ (s'.tx.mpw=none → s'.tx.sinceSignal=0) := by
  cases hs with
  | post descs t n hd hp => exact post_asked hc.inv hc.small h hd hp
  | complete max hmax =>
    obtain ⟨hfix,-,hsq,-,hent,hsince⟩ : _ ∧ (s.tx.complete max []).1.cq=s.tx.cq ∧ _ :=
      complete_rest s.tx []
    simp only [Tx.Asked,hent,hsq,hfix,hsince]
    exact h
  | finish c hlt hx =>
    cases c with
    | none | some _ => exact h
  | scribble buf hr => exact hr.elim

theorem TxSys.Reach.asked {cfg : TxConfig} {s : TxSys} (hin : cfg.inlineLen≤960)
    (hsq : cfg.sqLen≤64*2^16) (hfresh : cfg.Fresh) (h : TxSys.Reach False Tx.EndsAsked cfg s) :
    s.tx.Asked ∧ (s.tx.mpw=none → s.tx.sinceSignal=0) := by
  obtain ⟨t,ht,hrun⟩ := h
  induction hrun with
  | refl =>
    have hent : t.entries = [] := (newTx_owns ht).entries
    refine ⟨fun pre e he => ?_,fun _ => (newTx_start ht).2.2.1⟩
    simp [hent] at he
  | tail hrun hstep ih =>
    obtain ⟨k,done,live,xs,hc⟩ := TxSys.Reach.conforms hin hsq hfresh ⟨t,ht,hrun⟩
    exact hstep.asked hc ih

section
variable {t : Tx} {done live : List Entry} (h : t.Inv done live)
include h

theorem release_toNat (hlo : done.length ≤ i) (hi : i<t.entries.length) :
    (UInt32.ofNat (packets (t.entries.take (i+1)))-t.slotHead).toNat =
        packets (t.entries.take (i+1))-packets done ∧ packets done<packets (t.entries.take (i+1)) ∧
      packets (t.entries.take (i+1))≤packets done+packets live := by
  have hent := h.owns.entries
  have hle := h.owns.packets_le
  have hlt := t.numSlots.toNat_lt
  rw [hent] at hi ⊢
  obtain ⟨pre,e,post,hlive,-,htake,-⟩ := split_at hlo hi
  have hpos := length_pos_iff.mpr (h.owns.shape e (by rw [hent,hlive]; simp)).2.2
  rw [htake,h.owns.slotHead]
  rw [hlive,packets_append,packets_cons] at hle ⊢
  simp only [packets_append,packets_cons,packets_nil]
  rw [toNat_distance _ _ (by omega) (by omega)]
  omega

theorem release_distance (hlo : done.length ≤ i) (hi : i<t.entries.length) :
    (UInt32.ofNat (packets (t.entries.take (i+1)))-t.slotHead).toNat≤packets live ∧
      (packets live≤(UInt32.ofNat (packets (t.entries.take (i+1)))-t.slotHead).toNat →
        UInt32.ofNat (packets (t.entries.take (i+1)))=t.slotTail) := by
  obtain ⟨hdist,hge,hle⟩ := release_toNat h hlo hi
  rw [hdist]
  refine ⟨by omega,fun hall => ?_⟩
  rw [h.owns.slotTail,packets_append]
  congr 1
  omega

theorem completeLoop_all (hsmall : blocks live≤2^16) {k wr : Nat} (hs : t.cq.Sized k) {max : UInt32}
    (hmax : packets live ≤ max.toNat) {x : CQE} {b : UInt32}
    (hx : t.toLedger.entryFor t.toTxFixed (header x)=some (t.slotTail,b)) (n : Nat) {rd lo hi : Nat}
    {st : CompleteState} (hq : t.cq.Holds k rd wr (xs++[x]))
    (hp : Pending t.entries lo hi (xs++[x])) (hlo : done.length≤lo) (hci : st.ci=UInt32.ofNat rd)
    (hn : xs.length<n) :
    (completeLoop t max n st).haveAny=true ∧ (completeLoop t max n st).release=t.slotTail := by
  induction n generalizing rd lo xs st with
  | zero => omega
  | succ n ih =>
    obtain ⟨y,ys,hys⟩ : ∃ y ys, xs++[x]=y::ys := by
      cases xs with
      | nil | cons _ _ => exact ⟨_,_,rfl⟩
    have hq0 := hq
    rw [hys] at hp hq0
    cases hp with
    | cons i _ _ hi' hy hp =>
      have hat := namedAt_first h hsmall hs hq0 hy (hlo.trans hi') hci
      obtain ⟨hdist,hfull⟩ := release_distance h (hlo.trans hi') hy.lt
      have hnext : st.ci+1=UInt32.ofNat (rd+1) := by
        rw [hci,UInt32.ofNat_add]
        rfl
      have hr := hat.round max n
      generalize completeLoop t max (n+1) st=st' at hr
      cases hr with
      | beyond _ hgt =>
        simp only [gt_iff_lt,UInt32.lt_iff_toNat_lt] at hgt
        omega
      | last e f hge =>
        simp only [ge_iff_le,UInt32.le_iff_toNat_le] at hge
        exact ⟨rfl,hfull (by omega)⟩
      | next e f =>
        have hq' : t.cq.Holds k (rd+1) wr ys := LapRing.read hq0 1 (by simp)
        cases xs with
        | nil =>
          injection hys with hxy hnil
          subst hxy hnil
          have hno := hq'.stop hs
          rw [← hnext] at hno
          rw [completeLoop_stop ⟨st.ci+1,_,_,true,st.completed+1,e,f⟩ hno]
          have hfor := entryFor_names h hsmall hy (hlo.trans hi')
          rw [hx,Option.some_inj,Prod.mk.injEq] at hfor
          exact ⟨rfl,hfor.1.symm⟩
        | cons y' xs =>
          injection hys with hxy hrest
          subst hxy hrest
          rw [length_cons] at hn
          exact ih hq' hp (by omega) hnext (by omega)

end

/-- In a run whose batches all end in a request, the last entry asks for its
completion whenever a packet is in flight. The completion that reports it stands
for every packet in flight, and once the NIC has written it one Complete of
enough room returns them all. -/
theorem last_entry_asks (cfg : TxConfig) (hin : cfg.inlineLen ≤ 960) (hsq : cfg.sqLen ≤ 64*65536)
    (hfresh : cfg.Fresh) (s : TxSys) (h : TxSys.Reach False Tx.EndsAsked cfg s)
    (hfl : 0 < s.tx.inFlight) : ∃ pre e, s.tx.entries = pre++[e] ∧
      s.tx.sqBytes ((64*blocks pre+11) % s.tx.sqLen) &&& ctrlCQUpdate.toUInt8 ≠ 0 ∧
      ∀ x, Names s.tx.entries pre.length x →
        s.tx.toLedger.entryFor s.tx.toTxFixed (header x) = some (s.tx.slotTail,s.tx.pi) ∧
        (s.finished = pre.length → (owner (header x)).toNat = s.written/s.tx.cq.entries.toNat % 2 →
          ∀ max : Int, s.tx.inFlight ≤ max → max < 2^32 →
            s.returned++((s.finish (some x)).tx.complete max []).2 = s.accepted) := by
  obtain ⟨k,done,live,xs,hc⟩ := h.conforms hin hsq hfresh
  have hent := hc.inv.owns.entries
  have hsmall := hc.inv.owns.blocks_le.trans hc.small
  rw [Ledger.inFlight,hc.inv.owns.inFlight_packets] at hfl ⊢
  have hne : live ≠ [] := by
    rintro rfl
    simp at hfl
  obtain ⟨live',e,rfl⟩ := (eq_nil_or_concat' live).resolve_left hne
  rw [← append_assoc] at hent
  refine ⟨done++live',e,hent,(h.asked hin hsq hfresh).1 _ _ hent,fun x hx => ?_⟩
  have hlo : done.length≤(done++live').length := by simp
  have htake : s.tx.entries.take ((done++live').length+1)=s.tx.entries :=
    take_of_length_le (by rw [hent]; simp; omega)
  have hfor : s.tx.toLedger.entryFor s.tx.toTxFixed (header x)=some (s.tx.slotTail,s.tx.pi) := by
    rw [entryFor_names hc.inv hsmall hx hlo,htake,hc.inv.owns.pi,hc.inv.owns.slotTail,
      hc.inv.owns.entries]
  refine ⟨hfor,fun hfin hown max hge hlt => ?_⟩
  have hlen : s.finished<s.tx.entries.length := by
    rw [hfin]
    exact hx.lt
  have hc' := hc.finish hlen (some x) fun y hy => by
    cases hy
    rw [hfin]
    exact ⟨hx,hown⟩
  set t := (s.finish (some x)).tx
  have hmax : (UInt32.ofInt max).toNat=max.toNat := by
    rw [UInt32.ofInt,toNat_small _ (by omega)]
    omega
  have hcap : xs.length<t.cq.entries.toNat := by
    have hle := hc'.length_le
    have hlo' := hc'.pend.length_le
    have hfin' := hc'.finished
    rw [hc'.sized.entries]
    simp only [Option.toList_some,length_append,length_singleton] at hle
    omega
  have hci : ({ ci := t.ci, errors := t.c.errors, failed := t.failed } : CompleteState).ci =
    UInt32.ofNat (s.finish (some x)).consumed := hc'.ci
  obtain ⟨hany,hrel⟩ := completeLoop_all hc'.inv hsmall hc'.sized
    (by rw [hmax]; omega : packets (live'++[e])≤(UInt32.ofInt max).toNat) hfor t.cq.entries.toNat
    hc'.queue hc'.pend (le_refl _) hci hcap
  change (t.reading max).haveAny=true at hany
  change (t.reading max).release=t.slotTail at hrel
  rw [(complete_release t (by omega) [] hany).2,hrel,hc'.inv.owns.inFlight_packets,
    hc'.inv.owns.slotRun hc'.inv.built.rings _ (le_refl _),nil_append,packets,
    take_length,hc.returned,← frames_append,← append_assoc,hc.accepted,hent]

/-- One good descriptor and a bad one: the good one is sent and nobody asks for
its completion. -/
theorem last_entry_unasked :
    ∃ s, TxSys.Reach False anyBatch tinyTx s ∧ 0 < s.tx.inFlight ∧
    s.tx.entries = []++[⟨1,[⟨0,64,0⟩]⟩] ∧
      s.tx.sqBytes ((64*blocks []+11) % s.tx.sqLen) &&& ctrlCQUpdate.toUInt8 = 0 := by
  have hstep : TxSys.Step False anyBatch { tx := tinyTx.tx (by decide) } _ :=
    TxSys.step_posted _ [⟨0,64,0⟩,⟨0,0,0⟩] (by decide) False trivial
  exact ⟨_,⟨_,tinyTx.newTx_eq (by decide),.single hstep⟩,by decide,by decide,by decide⟩

theorem last_entry_asks_tiny : ∃ s, TxSys.Reach False Tx.EndsAsked tinyTx s ∧ 0 < s.tx.inFlight ∧
      ∃ pre e, s.tx.entries = pre++[e] ∧
        s.tx.sqBytes ((64*blocks pre+11) % s.tx.sqLen) &&& ctrlCQUpdate.toUInt8 ≠ 0 := by
  have hends : (tinyTx.tx (by decide)).EndsAsked [⟨0,64,0⟩] := .inr (.inl (by decide))
  have hreach : TxSys.Reach False Tx.EndsAsked tinyTx tinySent :=
    ⟨_,tinyTx.newTx_eq (by decide),.single (TxSys.step_posted _ _ _ False hends)⟩
  obtain ⟨pre,e,hent,hbit,-⟩ := last_entry_asks tinyTx (by decide) (by decide) tinyTx_fresh tinySent
    hreach (by decide)
  exact ⟨tinySent,hreach,by decide,pre,e,hent,hbit⟩

end Packetio.Mlx5.Ring

import Packetio.Mlx5.Ring.TxComplete

/-! The send ring together with a NIC. A conforming NIC finishes entries in the
order they were written and may report each with one completion; a rogue one
writes whatever it likes over the completion queue. -/
namespace Packetio.Mlx5.Ring
open Lib List Nat

structure TxSys where
  tx : Tx
  finished : Nat := 0
  written : Nat := 0
  consumed : Nat := 0
  accepted : List Desc := []
  returned : List Desc := []

structure Names (es : List Entry) (i : Nat) (x : CQE) : Prop where
  lt : i<es.length
  format : format (header x)=cqeFormatNoData
  opcode : opcode (header x)=cqeReq ∨ opcode (header x)=cqeReqErr
  counter : wqeCounter (header x)=UInt16.ofNat (blocks (es.take i))

def TxSys.finish (s : TxSys) : Option CQE → TxSys
  | none => { s with finished := s.finished+1 }
  | some x => { s with
      finished := s.finished+1
      written := s.written+1
      tx := { s.tx with cq := { s.tx.cq with
        buf := Function.update s.tx.cq.buf (s.written%s.tx.cq.entries.toNat) x } } }

inductive TxSys.Step (rogue : Prop) (posts : Tx → List Desc → Prop) : TxSys → TxSys → Prop
  | post (s : TxSys) (descs : List Desc) (t : Tx) (n : Nat) (hd : posts s.tx descs)
    (h : s.tx.post descs=some (t,n)) :
    Step rogue posts s { s with tx := t, accepted := s.accepted++descs.take n }
  | complete (s : TxSys) (max : Int) (h : 0 < max) :
    Step rogue posts s { s with
      tx := (s.tx.complete max []).1
      consumed := s.consumed+((s.tx.complete max []).1.ci-s.tx.ci).toNat
      returned := s.returned++(s.tx.complete max []).2 }
  | finish (s : TxSys) (c : Option CQE) (h : s.finished<s.tx.entries.length)
    (hc : ∀ x∈c, Names s.tx.entries s.finished x ∧
      (owner (header x)).toNat=s.written/s.tx.cq.entries.toNat%2) :
    Step rogue posts s (s.finish c)
  | scribble (s : TxSys) (buf : Nat → CQE) (h : rogue) :
    Step rogue posts s { s with tx := { s.tx with cq := { s.tx.cq with buf := buf } } }

def anyBatch (_ : Tx) (_ : List Desc) : Prop := True

/-- The states a ring built from `cfg` gets to with a NIC of the given kind. -/
def TxSys.Reach (rogue : Prop) (posts : Tx → List Desc → Prop) (cfg : TxConfig) (s : TxSys) :
    Prop :=
  ∃ t, newTx cfg = .ok t ∧ Relation.ReflTransGen (TxSys.Step rogue posts) { tx := t } s

section
variable {cfg : TxConfig} {rogue : Prop} {posts : Tx → List Desc → Prop} {s : TxSys}
  (hin : cfg.inlineLen≤960)
include hin

theorem TxSys.Reach.fixed (h : TxSys.Reach rogue posts cfg s) :
    ∃ t, newTx cfg = .ok t ∧ s.tx.toTxFixed=t.toTxFixed := by
  obtain ⟨t0,ht,hrun⟩ := h
  refine ⟨t0,ht,?_⟩
  induction hrun with
  | refl => rfl
  | @tail s s' _ hstep ih =>
    cases hstep with
    | post descs t n hd hp =>
      have hb := ih ▸ newTx_built ht hin
      exact (post_rest hb hp).1.trans ih
    | complete max hmax => exact (complete_rest s.tx []).1.trans ih
    | finish c hlt hc => cases c <;> exact ih
    | scribble buf hr => exact ih

theorem TxSys.Reach.built (h : TxSys.Reach rogue posts cfg s) : s.tx.toTxFixed.Built := by
  obtain ⟨t,ht,hfix⟩ := TxSys.Reach.fixed hin h
  exact hfix ▸ newTx_built ht hin

end

inductive Pending (es : List Entry) : Nat → Nat → List CQE → Prop
  | nil {lo hi : Nat} (h : lo≤hi) : Pending es lo hi []
  | cons {lo hi : Nat} (i : Nat) (x : CQE) (xs : List CQE) (hi' : lo ≤ i) (hx : Names es i x)
    (h : Pending es (i+1) hi xs) : Pending es lo hi (x::xs)

namespace Pending
variable {es : List Entry} {lo hi : Nat} {xs : List CQE}

section
variable (h : Pending es lo hi xs)
include h

theorem le : lo≤hi := by
  induction h with
  | nil h => exact h
  | cons i x xs hi' hx h ih => omega

theorem length_le : xs.length≤hi-lo := by
  induction h with
  | nil h => simp
  | cons i x xs hi' hx h ih =>
    have := h.le
    rw [length_cons]
    omega

theorem append_entries (es' : List Entry) : Pending (es++es') lo hi xs := by
  induction h with
  | nil h => exact .nil h
  | cons i x xs hi' hx h ih =>
    refine .cons i x xs hi' ⟨?_,hx.format,hx.opcode,?_⟩ ih
    · have := hx.lt
      rw [length_append]
      omega
    · rw [take_append_of_le_length (le_of_lt hx.lt)]
      exact hx.counter

theorem push {x : CQE} (hx : Names es hi x) : Pending es lo (hi+1) (xs++[x]) := by
  induction h with
  | nil h => exact .cons _ x [] h hx (.nil (le_refl _))
  | cons i y ys hi' hy h ih => exact .cons i y _ hi' hy (ih hx)

theorem mono_hi {hi' : Nat} (hle : hi≤hi') : Pending es lo hi' xs := by
  induction h with
  | nil h => exact .nil (h.trans hle)
  | cons i x xs hlo hx h ih => exact .cons i x xs hlo hx (ih hle)

end

end Pending

variable {done live : List Entry} {i rd k wr : Nat} {st : CompleteState} {t : Tx} {xs : List CQE}
  {posts : Tx → List Desc → Prop}

theorem split_at (hlo : done.length ≤ i) (hhi : i<(done++live).length) :
    ∃ pre e post, live=pre++e::post ∧ (done++live).take i=done++pre ∧
      (done++live).take (i+1)=done++pre++[e] ∧ (done++live).drop (i+1)=post := by
  obtain ⟨j,rfl⟩ := Nat.exists_eq_add_of_le hlo
  have hj : j<live.length := by
    rw [length_append] at hhi
    omega
  refine ⟨live.take j,live[j],live.drop (j+1),?_,?_,?_,?_⟩
  · rw [getElem_cons_drop,take_append_drop]
  · rw [take_length_add_append]
  · rw [add_assoc,take_length_add_append,append_assoc,take_append_getElem]
  · rw [add_assoc,drop_length_add_append]

structure ReadUpTo (t : Tx) (lo lo' rd n : Nat) (st st' : CompleteState) : Prop where
  ci : st'.ci=UInt32.ofNat (rd+n)
  le : lo≤lo'
  same : lo'=lo → st'=st
  upTo : lo'≠lo → st'.haveAny=true ∧ lo'≤t.entries.length ∧
    st'.release=UInt32.ofNat (packets (t.entries.take lo')) ∧
    st'.newHead=UInt32.ofNat (blocks (t.entries.take lo'))

theorem ReadUpTo.refl {lo : Nat} (h : st.ci=UInt32.ofNat rd) : ReadUpTo t lo lo rd 0 st st :=
  ⟨h,le_refl _,fun _ => rfl,fun hne => absurd rfl hne⟩

theorem entryFor_names (h : t.Inv done live)
    (hsmall : blocks live≤2^16) {x : CQE} (hx : Names t.entries i x) (hlo : done.length ≤ i) :
    t.toLedger.entryFor t.toTxFixed (header x) =
      some (UInt32.ofNat (packets (t.entries.take (i+1))),
        UInt32.ofNat (blocks (t.entries.take (i+1)))) := by
  have hlt := hx.lt
  have hc := hx.counter
  rw [h.owns.entries] at hlt hc ⊢
  obtain ⟨pre,e,post,hlive,htake,htake',-⟩ := split_at hlo hlt
  have hpos := (h.owns.shape e (by rw [h.owns.entries,hlive]; simp)).1
  have hb : blocks pre<2^16 := by
    rw [hlive] at hsmall
    simp only [blocks_append,blocks_cons] at hsmall
    omega
  rw [htake] at hc
  rw [htake',h.owns.entryFor_live h.built.rings hlive hc hb]

theorem completeLoop_stop (st : CompleteState)
    (hno : t.cq.owned st.ci (t.cq.header st.ci)=false) (max : UInt32) (n : Nat) :
    completeLoop t max n st=st := by
  cases n with
  | zero => rfl
  | succ n => simp [completeLoop,hno]

structure NamedAt (t : Tx) (i : Nat) (ci : UInt32) : Prop where
  owned : t.cq.owned ci (t.cq.header ci)=true
  format : format (t.cq.header ci)=cqeFormatNoData
  opcode : opcode (t.cq.header ci)=cqeReq ∨ opcode (t.cq.header ci)=cqeReqErr
  entry : t.toLedger.entryFor t.toTxFixed (t.cq.header ci) =
    some (UInt32.ofNat (packets (t.entries.take (i+1))),
      UInt32.ofNat (blocks (t.entries.take (i+1))))

theorem namedAt_first (h : t.Inv done live)
    (hsmall : blocks live≤2^16) (hs : t.cq.Sized k) {x : CQE}
    (hq : t.cq.Holds k rd wr (x::xs)) (hx : Names t.entries i x) (hlo : done.length ≤ i)
    {ci : UInt32} (hci : ci=UInt32.ofNat rd) : NamedAt t i ci := by
  obtain ⟨hent,hown⟩ := hq.next hs
  have hhdr : t.cq.header ci=header x := by rw [hci,CQ.header,hent]
  refine ⟨hci ▸ hown,?_,?_,?_⟩
  · rw [hhdr]
    exact hx.format
  · rw [hhdr]
    exact hx.opcode
  · rw [hhdr]
    exact entryFor_names h hsmall hx hlo

inductive NamedRound (t : Tx) (max : UInt32) (n i : Nat) (st : CompleteState) : CompleteState → Prop
  | beyond (hany : st.haveAny=true)
    (hmax : UInt32.ofNat (packets (t.entries.take (i+1)))-t.slotHead > max) :
      NamedRound t max n i st st
  | last (e : UInt64) (f : Option ErrorInfo)
    (hmax : UInt32.ofNat (packets (t.entries.take (i+1)))-t.slotHead ≥ max) :
    NamedRound t max n i st ⟨st.ci+1,UInt32.ofNat (packets (t.entries.take (i+1))),
      UInt32.ofNat (blocks (t.entries.take (i+1))),true,st.completed+1,e,f⟩
  | next (e : UInt64) (f : Option ErrorInfo)
    (hmax : ¬ UInt32.ofNat (packets (t.entries.take (i+1)))-t.slotHead ≥ max) :
    NamedRound t max n i st
      (completeLoop t max n ⟨st.ci+1,UInt32.ofNat (packets (t.entries.take (i+1))),
      UInt32.ofNat (blocks (t.entries.take (i+1))),true,st.completed+1,e,f⟩)

theorem NamedAt.round (h : NamedAt t i st.ci) (max : UInt32)
    (n : Nat) : NamedRound t max n i st (completeLoop t max (n+1) st) := by
  have hr := completeLoop_round t max n st
  generalize completeLoop t max (n+1) st=st' at hr
  cases hr with
  | none hno => cases hno.symm.trans h.owned
  | format _ hf => exact absurd h.format hf
  | skip e f _ hbad =>
    cases hbad with
    | inl hop => exact absurd h.opcode (not_or.mpr hop)
    | inr hnone => cases h.entry.symm.trans hnone
  | beyond r _ he hany hmax =>
    cases h.entry.symm.trans he
    exact .beyond hany hmax
  | last r e f _ he hmax =>
    cases h.entry.symm.trans he
    exact .last e f hmax
  | next r e f _ he hmax =>
    cases h.entry.symm.trans he
    exact .next e f hmax

section
variable (h : t.Inv done live) (hsmall : blocks live≤2^16) (hs : t.cq.Sized k)
include h hsmall hs

theorem completeLoop_upTo (max : UInt32) (n : Nat) {lo hi : Nat} (hq : t.cq.Holds k rd wr xs)
    (hp : Pending t.entries lo hi xs) (hlo : done.length≤lo) (hci : st.ci=UInt32.ofNat rd) :
    ∃ q lo', q≤xs.length ∧ Pending t.entries lo' hi (xs.drop q) ∧
      ReadUpTo t lo lo' rd q st (completeLoop t max n st) := by
  induction n generalizing rd lo xs st with
  | zero => exact ⟨0,lo,zero_le _,hp,.refl hci⟩
  | succ n ih =>
    rcases hp with hle | ⟨i,x,xs,hi',hx,hp⟩
    · have hno := hq.stop hs
      rw [← hci] at hno
      rw [completeLoop_stop st hno]
      exact ⟨0,lo,zero_le _,.nil hle,.refl hci⟩
    have hr := (namedAt_first h hsmall hs hq hx (hlo.trans hi') hci).round max n
    have hnext : st.ci+1=UInt32.ofNat (rd+1) := by
      rw [hci,UInt32.ofNat_add]
      rfl
    generalize completeLoop t max (n+1) st=st' at hr
    cases hr with
    | beyond => exact ⟨0,lo,zero_le _,.cons i x xs hi' hx hp,.refl hci⟩
    | last e f =>
      refine ⟨1,i+1,by simp,hp,hnext,by omega,fun h0 => by omega,fun _ => ?_⟩
      exact ⟨rfl,hx.lt,rfl,rfl⟩
    | next e f =>
      have hq' := LapRing.read hq 1 (by simp)
      set st1 : CompleteState := ⟨st.ci+1,_,_,true,st.completed+1,e,f⟩
      have hci' : st1.ci=UInt32.ofNat (rd+1) := hnext
      obtain ⟨q,lo',hle,hp',hru⟩ := ih hq' hp (by omega) hci'
      refine ⟨q+1,lo',by simpa using hle,by simpa using hp',?_,?_,?_,fun _ => ?_⟩
      · rw [hru.ci]
        congr 1
        omega
      · have := hru.le
        omega
      · intro h0
        have := hru.le
        omega
      · by_cases hsame : lo'=i+1
        · rw [hru.same hsame,hsame]
          exact ⟨rfl,hx.lt,rfl,rfl⟩
        · exact hru.upTo hsame

theorem reading_upTo {hi : Nat} (max : Int) (hq : t.cq.Holds k rd wr xs)
    (hp : Pending t.entries done.length hi xs)
    (hci : t.ci=UInt32.ofNat rd) : ∃ q lo, q≤xs.length ∧ Pending t.entries lo hi (xs.drop q) ∧
      (t.reading max).ci=UInt32.ofNat (rd+q) ∧ done.length≤lo ∧
      (lo=done.length → (t.reading max).haveAny=false) ∧
      (lo≠done.length → (t.reading max).haveAny=true ∧ lo≤t.entries.length ∧
        (t.reading max).release=UInt32.ofNat (packets (t.entries.take lo)) ∧
        (t.reading max).newHead=UInt32.ofNat (blocks (t.entries.take lo))) := by
  set st : CompleteState := { ci := t.ci, errors := t.c.errors, failed := t.failed } with hst
  have hci' : st.ci=UInt32.ofNat rd := hci
  obtain ⟨q,lo,hle,hp',hr⟩ := completeLoop_upTo h hsmall hs (UInt32.ofInt max)
    t.cq.entries.toNat hq hp (le_refl _) hci'
  refine ⟨q,lo,hle,hp',hr.ci,hr.le,fun h0 => ?_,hr.upTo⟩
  rw [Tx.reading,← hst,hr.same h0]

end

structure TxSys.Conforms (k : Nat) (s : TxSys) (done live : List Entry) (xs : List CQE) :
    Prop where
  inv : s.tx.Inv done live
  sized : s.tx.cq.Sized k
  room : s.tx.bbs.toNat≤2^k
  small : s.tx.bbs.toNat≤2^16
  queue : s.tx.cq.Holds k s.consumed s.written xs
  ci : s.tx.ci=UInt32.ofNat s.consumed
  pend : Pending s.tx.entries done.length s.finished xs
  finished : s.finished ≤ s.tx.entries.length
  accepted : s.accepted=frames s.tx.entries
  returned : s.returned=frames done

theorem length_le_blocks {es : List Entry} (h : ∀ e∈es, 1≤e.bbs) : es.length≤blocks es := by
  induction es with
  | nil => simp
  | cons e es ih =>
    have h1 := h e (by simp)
    have h2 := ih fun e' he' => h e' (by simp [he'])
    rw [length_cons,blocks_cons]
    omega

namespace TxSys.Conforms
variable {k : Nat} {s s' : TxSys} {done live : List Entry} {xs : List CQE}

section
variable (h : s.Conforms k done live xs)
include h

theorem length_le : xs.length ≤ s.finished-done.length ∧ s.tx.entries.length-done.length≤2^k := by
  refine ⟨h.pend.length_le,?_⟩
  have hlen : live.length≤blocks live := length_le_blocks fun e he =>
    (h.inv.owns.shape e (by rw [h.inv.owns.entries]; simp [he])).1
  have hb := h.inv.owns.blocks_le
  have hr := h.room
  rw [h.inv.owns.entries,length_append]
  omega

theorem post {descs : List Desc} {t : Tx} {n : Nat} (hp : s.tx.post descs=some (t,n)) :
    ∃ es, ({ s with tx := t, accepted := s.accepted++descs.take n } : TxSys).Conforms k
      done (live++es) xs := by
  obtain ⟨es,hinv,hfr,hfix,hcq,hci⟩ := post_inv h.inv hp
  have hent : t.entries=s.tx.entries++es := by
    rw [hinv.owns.entries,h.inv.owns.entries,append_assoc]
  refine ⟨es,hinv,?_,?_,?_,?_,?_,?_,?_,?_,h.returned⟩
  · exact hcq ▸ h.sized
  · rw [hfix]
    exact h.room
  · rw [hfix]
    exact h.small
  · simp only [hcq]
    exact h.queue
  · exact hci.trans h.ci
  · simp only [hent]
    exact h.pend.append_entries es
  · simp only [hent,length_append]
    exact h.finished.trans (le_add_right _ _)
  · simp [hent,frames_append,hfr,h.accepted]

theorem complete {max : Int} (hmax : 0 < max) :
    ∃ done' live' xs', ({ s with
      tx := (s.tx.complete max []).1
      consumed := s.consumed+((s.tx.complete max []).1.ci-s.tx.ci).toNat
      returned := s.returned++(s.tx.complete max []).2 } : TxSys).Conforms k done' live' xs' := by
  obtain ⟨hfix,hcq,-,-,hent,-⟩ : _ ∧ (s.tx.complete max []).1.cq=s.tx.cq ∧ _ :=
    complete_rest s.tx []
  have hsmall := h.inv.owns.blocks_le.trans h.small
  obtain ⟨q,lo,hq,hpend,hci,hle,hidle,hrel⟩ :=
    reading_upTo h.inv hsmall h.sized max h.queue h.pend h.ci
  obtain ⟨hlen,hle'⟩ := h.length_le
  have hk : 2^k<2^32 := Nat.pow_lt_pow_right (by decide) (h.sized.lt.trans (by decide))
  have hfin := h.finished
  have hcons : ((s.tx.complete max []).1.ci-s.tx.ci).toNat=q := by
    rw [complete_ci s.tx hmax [],hci,h.ci,toNat_distance _ _ (by omega) (by omega)]
    omega
  have hci' : (s.tx.complete max []).1.ci=UInt32.ofNat (s.consumed+q) := by
    rw [complete_ci s.tx hmax [],hci]
  -- what is left to show once the released entries are known
  have hmk : ∀ done' live', (s.tx.complete max []).1.Inv done' live' → done'.length=lo →
      s.returned++(s.tx.complete max []).2=frames done' → ({ s with
        tx := (s.tx.complete max []).1
        consumed := s.consumed+((s.tx.complete max []).1.ci-s.tx.ci).toNat
        returned := s.returned++(s.tx.complete max []).2 } : TxSys).Conforms k done' live'
          (xs.drop q) := by
    intro done' live' hinv hlo hret
    rw [hcons]
    refine ⟨hinv,hcq ▸ h.sized,?_,?_,?_,hci',?_,?_,?_,hret⟩
    · rw [hfix]
      exact h.room
    · rw [hfix]
      exact h.small
    · simp only [hcq]
      exact LapRing.read h.queue q hq
    · simp only [hent,hlo]
      exact hpend
    · simp only [hent]
      exact hfin
    · simp only [hent]
      exact h.accepted
  by_cases hlo : lo=done.length
  · obtain ⟨hinv,hout⟩ := complete_idle_inv hmax [] h.inv (hidle hlo)
    exact ⟨done,live,_,hmk _ _ hinv hlo.symm (by rw [hout,append_nil,h.returned])⟩
  obtain ⟨ha,hlt,hr,hh⟩ := hrel hlo
  rw [h.inv.owns.entries] at hlt hr hh
  obtain ⟨i,rfl⟩ : ∃ i, lo=i+1 := ⟨lo-1,by omega⟩
  obtain ⟨pre,e,post,hlive,htake,htake',-⟩ := split_at (i := i) (by omega) hlt
  rw [htake'] at hr hh
  obtain ⟨hinv,hout⟩ := complete_release_inv hmax [] h.inv hlive ha hr hh
  refine ⟨_,post,_,hmk _ _ hinv ?_ ?_⟩
  · have hl := congrArg length htake'
    rw [length_take,min_eq_left hlt] at hl
    rw [hl,append_assoc]
  · rw [hout,h.returned,nil_append,← frames_append]

theorem finish (hlt : s.finished<s.tx.entries.length)
    (c : Option CQE) (hc : ∀ x∈c, Names s.tx.entries s.finished x ∧
      (owner (header x)).toNat=s.written/s.tx.cq.entries.toNat%2) :
    (s.finish c).Conforms k done live (xs++c.toList) := by
  rcases c with _ | x
  · rw [Option.toList_none,append_nil]
    exact { h with pend := h.pend.mono_hi (le_succ _), finished := hlt }
  obtain ⟨hx,hown⟩ := hc x rfl
  obtain ⟨hlen,hle⟩ := h.length_le
  have hlo := h.pend.le
  have hvalid : opcode (header x)≠cqeInvalid := by
    cases hx.opcode with
    | inl ho | inr ho => rw [ho]; decide
  rw [h.sized.entries] at hown
  have hw := h.queue.write (by omega) ⟨hvalid,hown⟩
  refine ⟨h.inv.congr rfl rfl,h.sized.over _,
    h.room,h.small,?_,h.ci,h.pend.push hx,hlt,h.accepted,h.returned⟩
  simp only [TxSys.finish,h.sized.entries]
  exact hw

theorem step
    (hs : TxSys.Step False posts s s') : ∃ done' live' xs', s'.Conforms k done' live' xs' := by
  cases hs with
  | post descs t n hd hp =>
    obtain ⟨es,hc⟩ := h.post hp
    exact ⟨_,_,_,hc⟩
  | complete max hmax => exact h.complete hmax
  | finish c hlt hc => exact ⟨_,_,_,h.finish hlt c hc⟩
  | scribble buf hr => exact hr.elim

end

end TxSys.Conforms

structure TxConfig.Fresh (cfg : TxConfig) : Prop where
  cqLen : cfg.cqLen<2^32
  invalid : ∀ j, opcode (header (cfg.cq j))=cqeInvalid

theorem newTx_cq {cfg : TxConfig} (h : newTx cfg = .ok t) (hlen : cfg.cqLen<2^32) :
    t.cq.buf=cfg.cq ∧ ∃ k, t.cq.Sized k ∧ t.bbs.toNat≤2^k := by
  obtain ⟨sq,sender,-,hcq,-,-,hle,-,-,-,_,_,ht⟩ := newTx_ok h
  have hbbs : t.bbs=sq.bbs := by rw [ht]
  have hle' : t.bbs.toNat≤t.cq.entries.toNat := by
    rw [hbbs]
    exact UInt32.le_iff_toNat_le.mp hle
  obtain ⟨k,hk⟩ := newCQ_sized hcq hlen
  exact ⟨newCQ_buf hcq,k,hk,by rw [← hk.entries]; exact hle'⟩

section
variable {cfg : TxConfig} (hin : cfg.inlineLen≤960) (hsq : cfg.sqLen≤64*2^16)
  (hfresh : cfg.Fresh) {s : TxSys} {posts : Tx → List Desc → Prop}
include hin hsq hfresh

theorem TxSys.Conforms.init (h : newTx cfg = .ok t) :
    ∃ k, ({ tx := t } : TxSys).Conforms k [] [] [] := by
  have hb := newTx_built h hin
  obtain ⟨hbuf,k,hk,hroom⟩ := newTx_cq h hfresh.cqLen
  have hent : t.entries = [] := (newTx_owns h).entries
  obtain ⟨hlen,hci,-,-⟩ := newTx_start h
  refine ⟨k,⟨hb,newTx_owns h,?_⟩,hk,hroom,?_,?_,hci,.nil (le_refl _),?_,?_,rfl⟩
  · intro _ e he
    rw [hent] at he
    cases he
  · have := hb.sqLen
    simp only
    omega
  · refine LapRing.empty fun j => ?_
    simp only [hbuf,not_not]
    exact hfresh.invalid j
  · exact zero_le _
  · simp only [hent]
    rfl

theorem TxSys.Reach.conforms (h : TxSys.Reach False posts cfg s) :
    ∃ k done live xs, s.Conforms k done live xs := by
  obtain ⟨t,ht,hrun⟩ := h
  induction hrun with
  | refl =>
    obtain ⟨k,hk⟩ := TxSys.Conforms.init hin hsq hfresh ht
    exact ⟨k,_,_,_,hk⟩
  | tail _ hstep ih =>
    obtain ⟨k,done,live,xs,hc⟩ := ih
    obtain ⟨done',live',xs',hc'⟩ := hc.step hstep
    exact ⟨k,done',live',xs',hc'⟩

end

/-- Frames come back from Complete in the order Post accepted them, each once and
unchanged, and none before the NIC has finished the entry that carried it. -/
theorem complete_returns_in_order (cfg : TxConfig) (hin : cfg.inlineLen ≤ 960)
    (hsq : cfg.sqLen ≤ 64*32768) (hfresh : cfg.Fresh) (s : TxSys)
    (h : TxSys.Reach False anyBatch cfg s) :
    s.returned <+: s.accepted ∧ s.accepted = frames s.tx.entries ∧
      s.returned <+: frames (s.tx.entries.take s.finished) := by
  obtain ⟨k,done,live,xs,hc⟩ := h.conforms hin (by omega) hfresh
  have hent := hc.inv.owns.entries
  refine ⟨?_,hc.accepted,?_⟩
  · rw [hc.returned,hc.accepted,hent,frames_append]
    exact prefix_append _ _
  · obtain ⟨j,hj⟩ := Nat.exists_eq_add_of_le hc.pend.le
    rw [hc.returned,hent,hj,take_length_add_append,frames_append]
    exact prefix_append _ _

def tinyTx : TxConfig where
  sq := fun _ => 0
  sqLen := 256
  cq := fun _ i => if i=63 then 0xf0 else 0
  cqLen := 256
  sqDbrec := some 0
  cqDbrec := some 0
  uar := true
  qpn := 7
  lkey := 9
  region := ⟨fun i => UInt8.ofNat i,256,by decide⟩
  regionVA := 4096
  frameSize := 64
  inlineLen := 0
  csFlags := 0
  multiPacket := false
  multiPacketMaxLen := 0
  multiPacketPointer := false
  signalEvery := 0

def TxConfig.tx (cfg : TxConfig) (h : (newTx cfg).toOption.isSome=true) : Tx :=
  (newTx cfg).toOption.get h

theorem TxConfig.newTx_eq (cfg : TxConfig) (h : (newTx cfg).toOption.isSome=true) :
    newTx cfg = .ok (cfg.tx h) := by
  rw [TxConfig.tx]
  revert h
  cases newTx cfg with
  | error e => intro h; cases h
  | ok t => intro _; rfl

theorem tinyTx_fresh : tinyTx.Fresh := by
  refine ⟨by decide,fun j => ?_⟩
  change opcode (header fun i => if i=63 then 0xf0 else 0)=cqeInvalid
  decide

def TxSys.posted (s : TxSys) (descs : List Desc) (h : (s.tx.post descs).isSome=true) : TxSys :=
  { s with tx := ((s.tx.post descs).get h).1
           accepted := s.accepted++descs.take ((s.tx.post descs).get h).2 }

theorem TxSys.step_posted (s : TxSys) (descs : List Desc) (h : (s.tx.post descs).isSome=true)
    (rogue : Prop) (hd : posts s.tx descs) : TxSys.Step rogue posts s (s.posted descs h) :=
  .post s descs _ _ hd (Option.some_get h).symm

def tinySent : TxSys :=
  ({ tx := tinyTx.tx (by decide) } : TxSys).posted [⟨0,64,0⟩] (by decide)

theorem tinySent_reach (rogue : Prop) : TxSys.Reach rogue anyBatch tinyTx tinySent :=
  ⟨_,tinyTx.newTx_eq (by decide),.single (TxSys.step_posted _ _ _ rogue trivial)⟩

theorem complete_returns_in_order_tiny :
    ∃ s, TxSys.Reach False anyBatch tinyTx s ∧ s.returned = [⟨0,64,0⟩] ∧
      s.returned <+: s.accepted ∧ s.accepted = frames s.tx.entries ∧
      s.returned <+: frames (s.tx.entries.take s.finished) := by
  -- the posted packet is finished with a completion and completed
  obtain ⟨t,ht,hrun⟩ := tinySent_reach False
  have hfin : TxSys.Step False anyBatch tinySent (tinySent.finish (some fun _ => 0)) := by
    refine .finish tinySent _ (by decide) fun x hx => ?_
    cases hx
    exact ⟨⟨by decide,by decide,by decide,by decide⟩,by decide⟩
  have hreach : TxSys.Reach False anyBatch tinyTx _ :=
    ⟨t,ht,(hrun.tail hfin).tail (.complete _ 1 (by decide))⟩
  exact ⟨_,hreach,by decide,
    complete_returns_in_order tinyTx (by decide) (by decide) tinyTx_fresh _ hreach⟩

end Packetio.Mlx5.Ring

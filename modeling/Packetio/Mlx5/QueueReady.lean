import Packetio.Mlx5.QueueFrames
import Packetio.Mlx5.Ring.TxSignal

/-! Looking at the completions and taking them. NumCompleted reads the completions
of every ring without consuming them; a Complete of that many frames releases just
these, and a smaller one never more than it may, but for the first completion. -/
namespace Packetio.Mlx5
open Lib Mlx5.Ring Pool List UInt32

section
variable {t : Tx} {ci : UInt32} {release : Option UInt32}

theorem completableLoop_stop (hno : t.cq.owned ci (t.cq.header ci)=false) (n : Nat) :
    completableLoop t n ci release=release := by
  cases n with
  | zero => rfl
  | succ n => simp [completableLoop,hno]

theorem completableLoop_named {i : Nat} (h : NamedAt t i ci) (n : Nat) :
    completableLoop t (n+1) ci release =
      completableLoop t n (ci+1) (some (UInt32.ofNat (packets (t.entries.take (i+1))))) := by
  simp [completableLoop,h.owned,h.format,h.opcode,h.entry]

theorem packets_take_lt {es : List Entry} (hs : ∀ e∈es, e.descs ≠ []) {i j : Nat} (hij : i<j)
    (hj : j≤es.length) : packets (es.take i)<packets (es.take j) := by
  obtain ⟨n,rfl⟩ := Nat.exists_eq_add_of_lt hij
  have hne : es.drop i ≠ [] := by
    rw [Ne,drop_eq_nil_iff]
    omega
  obtain ⟨e,rest,hd⟩ := exists_cons_of_ne_nil hne
  have he : e∈es := mem_of_mem_drop (by rw [hd]; exact mem_cons_self)
  have hpos := length_pos_iff.mpr (hs e he)
  rw [add_assoc,take_add,hd,take_succ_cons,packets_append,packets_cons]
  omega

theorem loops_agree {done live : List Entry} (h : t.Inv done live) (hsmall : blocks live≤2^16)
    {k wr : Nat} (hs : t.cq.Sized k) (max : UInt32) (n : Nat) {rd lo hi : Nat} {xs : List CQE}
    {st : CompleteState} {release : Option UInt32} (hq : t.cq.Holds k rd wr xs)
    (hp : Pending t.entries lo hi xs) (hlo : done.length≤lo) (hci : st.ci=UInt32.ofNat rd)
    (hn : xs.length≤n) :
    (xs = [] ∧ completableLoop t n st.ci release=release ∧ completeLoop t max n st=st) ∨
      ∃ j, lo≤j ∧ j<t.entries.length ∧
        completableLoop t n st.ci release=some (UInt32.ofNat (packets (t.entries.take (j+1)))) ∧
        (packets (t.entries.take (j+1))-packets done ≤ max.toNat →
          (completeLoop t max n st).haveAny=true ∧
          (completeLoop t max n st).release=UInt32.ofNat (packets (t.entries.take (j+1)))) := by
  have hdescs : ∀ e∈t.entries, e.descs ≠ [] := fun e he => (h.owns.shape e he).2.2
  induction n generalizing rd lo xs st release with
  | zero =>
    have hnil : xs = [] := length_eq_zero_iff.mp (Nat.le_zero.mp hn)
    exact .inl ⟨hnil,rfl,rfl⟩
  | succ n ih =>
    rcases hp with hle | ⟨i,x,xs,hi',hx,hp⟩
    · have hno := hq.stop hs
      rw [← hci] at hno
      exact .inl ⟨rfl,completableLoop_stop hno _,completeLoop_stop st hno _ _⟩
    have hat := namedAt_first h hsmall hs hq hx (hlo.trans hi') hci
    obtain ⟨hdist,hge,-⟩ := release_toNat h (hlo.trans hi') hx.lt
    have hnext : st.ci+1=ofNat (rd+1) := by
      rw [hci,ofNat_add]
      rfl
    have hq' := LapRing.read hq 1 (by simp)
    rw [completableLoop_named hat]
    rw [length_cons] at hn
    -- what the rest of the completions comes to, whatever was read before
    have hrest := fun st1 (hc : st1.ci=ofNat (rd+1)) =>
      @ih (rd+1) (i+1) xs st1 (some (ofNat (packets (t.entries.take (i+1))))) hq' hp (by omega)
        hc (by omega)
    have hr := hat.round max n
    generalize completeLoop t max (n+1) st=st' at hr
    refine .inr ?_
    -- a later entry is further away than the one at hand
    have hfar : ∀ j, i+1≤j → j<t.entries.length →
        packets (t.entries.take (i+1))<packets (t.entries.take (j+1)) :=
      fun j hij hj => packets_take_lt hdescs (by omega) (by omega)
    cases hr with
    | beyond _ hgt =>
      simp only [gt_iff_lt,lt_iff_toNat_lt] at hgt
      cases hrest { st with ci := st.ci+1 } hnext with
      | inl hnil => exact ⟨i,hi',hx.lt,hnil.2.1,fun hle => by omega⟩
      | inr hlast =>
        obtain ⟨j,hij,hj,hc,-⟩ := hlast
        have := hfar j hij hj
        exact ⟨j,by omega,hj,hc,fun hle => by omega⟩
    | last e f hge' =>
      simp only [ge_iff_le,le_iff_toNat_le] at hge'
      cases hrest { st with ci := st.ci+1 } hnext with
      | inl hnil => exact ⟨i,hi',hx.lt,hnil.2.1,fun _ => ⟨rfl,rfl⟩⟩
      | inr hlast =>
        obtain ⟨j,hij,hj,hc,-⟩ := hlast
        have := hfar j hij hj
        exact ⟨j,by omega,hj,hc,fun hle => by omega⟩
    | next e f =>
      cases hrest ⟨st.ci+1,_,_,true,st.completed+1,e,f⟩ hnext with
      | inl hnil =>
        refine ⟨i,hi',hx.lt,hnil.2.1,fun _ => ?_⟩
        rw [hnil.2.2]
        exact ⟨rfl,rfl⟩
      | inr hlast =>
        obtain ⟨j,hij,hj,hc,hrel⟩ := hlast
        exact ⟨j,by omega,hj,hc,hrel⟩

theorem completeLoop_capped (max : UInt32) (n : Nat) (st : CompleteState) (hany : st.haveAny=true) :
    (completeLoop t max n st).haveAny=true ∧ ((completeLoop t max n st).release=st.release ∨
        ((completeLoop t max n st).release-t.slotHead).toNat ≤ max.toNat) := by
  induction n generalizing st with
  | zero => exact ⟨hany,.inl rfl⟩
  | succ n ih =>
    have hr := completeLoop_round t max n st
    generalize completeLoop t max (n+1) st=st' at hr
    cases hr with
    | none | format | beyond _ => exact ⟨hany,.inl rfl⟩
    | skip e f => exact ih _ hany
    | last r e f _ _ _ hfit =>
      refine ⟨rfl,.inr ?_⟩
      rw [not_and,gt_iff_lt,UInt32.not_lt] at hfit
      exact le_iff_toNat_le.mp (hfit hany)
    | next r e f _ _ hlt =>
      rw [ge_iff_le,le_iff_toNat_le,not_le] at hlt
      obtain ⟨hany',hor⟩ := ih ⟨st.ci+1,r.1,r.2,true,st.completed+1,e,f⟩ rfl
      refine ⟨hany',.inr ?_⟩
      cases hor with
      | inl heq =>
        rw [heq]
        exact hlt.le
      | inr hle => exact hle

end

section
variable {k : Nat} {s : TxSys} {done live : List Entry} {xs : List CQE}

section
variable (h : s.Conforms k done live xs)
include h

theorem Ring.TxSys.Conforms.released {max : Int} (hmax : 0 < max)
    {i : Nat} (hlo : done.length ≤ i) (hi : i<s.tx.entries.length)
    (hany : (s.tx.reading max).haveAny=true)
    (hrel : (s.tx.reading max).release=UInt32.ofNat (packets (s.tx.entries.take (i+1)))) :
    (s.tx.complete max []).2=s.tx.window.take (packets (s.tx.entries.take (i+1))-packets done) ∧
      (s.tx.complete max []).2.length=packets (s.tx.entries.take (i+1))-packets done := by
  obtain ⟨hdist,-,hle⟩ := release_toNat h.inv hlo hi
  have hwin := h.window_eq
  have hout : (s.tx.complete max []).2 =
      s.tx.window.take (packets (s.tx.entries.take (i+1))-packets done) := by
    rw [(complete_release s.tx hmax [] hany).2,hrel,hdist,nil_append,hwin,
      h.inv.owns.slotRun h.inv.built.rings _ (by omega)]
  refine ⟨hout,?_⟩
  rw [hout,hwin,length_take]
  exact min_eq_left (by rw [← packets]; omega)

theorem Ring.TxSys.Conforms.waiting_le : xs.length ≤ s.tx.cq.entries.toNat := by
  obtain ⟨hlen,hcap⟩ := h.length_le
  have hfin := h.finished
  rw [h.sized.entries]
  omega

theorem Ring.TxSys.Conforms.completable :
    s.tx.completable≤packets live ∧ ∀ max : Int, (s.tx.completable : Int) ≤ max → max<2^32 →
      (s.tx.complete max []).2.length=s.tx.completable := by
  have hsmall := h.inv.owns.blocks_le.trans h.small
  set st : CompleteState :=
    { ci := s.tx.ci, errors := s.tx.c.errors, failed := s.tx.failed } with hst
  have hci := h.ci
  have hagree (max : UInt32) := @loops_agree _ _ _ h.inv hsmall _ _ h.sized max
    s.tx.cq.entries.toNat _ _ _ _ st none h.queue h.pend (le_refl _) hci h.waiting_le
  by_cases hxs : xs = []
  · -- nothing is ready
    have hzero : s.tx.completable=0 := by
      rcases hagree 0 with hnil | hlast
      · have hnone := hnil.2.1
        rw [Tx.completable,hnone]
      have hno := hxs ▸ h.queue
      have hstop := hno.stop h.sized
      rw [← hci] at hstop
      obtain ⟨j,-,-,hc,-⟩ := hlast
      rw [completableLoop_stop hstop] at hc
      cases hc
    refine ⟨by omega,fun max hle hlt => ?_⟩
    have hno := hxs ▸ h.queue
    have hstop := hno.stop h.sized
    rw [← hci] at hstop
    by_cases hmax : 0 < max
    · have hidle : (s.tx.reading max).haveAny=false := by
        rw [Tx.reading,← hst,completeLoop_stop st hstop]
      rw [(complete_idle s.tx hmax [] hidle).2,hzero]
      rfl
    · rw [Tx.complete,if_pos (not_lt.mp hmax),hzero]
      rfl
  · obtain ⟨j,hj,hlt,hc,-⟩ := (hagree 0).resolve_left fun hnil => hxs hnil.1
    obtain ⟨hdist,hge,hle⟩ := release_toNat h.inv hj hlt
    have hcomp : s.tx.completable=packets (s.tx.entries.take (j+1))-packets done := by
      have hsome := hc
      rw [← hdist,Tx.completable,hsome]
    refine ⟨by omega,fun max hle' hlt' => ?_⟩
    have hmax : (ofInt max).toNat=max.toNat := by
      rw [ofInt,toNat_small _ (by omega)]
      omega
    obtain ⟨j',hj',hlt'',hc',hrel⟩ :=
      (hagree (ofInt max)).resolve_left fun hnil => hxs hnil.1
    rw [hc] at hc'
    injection hc' with hc'
    rw [← hc'] at hrel
    obtain ⟨hdist',hge',-⟩ := release_toNat h.inv hj' hlt''
    have hsame : packets (s.tx.entries.take (j'+1))=packets (s.tx.entries.take (j+1)) := by
      rw [← hc',hdist] at hdist'
      omega
    obtain ⟨hany,hr⟩ := hrel (by rw [hsame,hmax]; omega)
    rw [(h.released (by omega) hj hlt hany hr).2,hcomp]

theorem Ring.TxSys.Conforms.capped {max : Int} (hmax : 0 < max) :
    ((s.tx.complete max []).2.length ≤ max ∨
      ∃ target head, s.tx.cq.owned s.tx.ci (s.tx.cq.header s.tx.ci)=true ∧
        s.tx.toLedger.entryFor s.tx.toTxFixed (s.tx.cq.header s.tx.ci)=some (target,head) ∧
        (s.tx.complete max []).2=s.tx.window.take (target-s.tx.slotHead).toNat) ∧
      ((s.tx.complete max []).2 = [] → s.tx.cq.owned s.tx.ci (s.tx.cq.header s.tx.ci)=false) := by
  have hsmall := h.inv.owns.blocks_le.trans h.small
  set st : CompleteState :=
    { ci := s.tx.ci, errors := s.tx.c.errors, failed := s.tx.failed } with hst
  have hci : st.ci=ofNat s.consumed := h.ci
  have hwait := h.waiting_le
  have hq := h.queue
  have hp := h.pend
  rcases hp with hle | ⟨i,x,xs,hi,hx,hp⟩
  · have hstop := hq.stop h.sized
    rw [← hci] at hstop
    have hidle : (s.tx.reading max).haveAny=false := by
      rw [Tx.reading,← hst,completeLoop_stop st hstop]
    rw [(complete_idle s.tx hmax [] hidle).2]
    exact ⟨.inl (by simp; omega),fun _ => hstop⟩
  have hat := namedAt_first h.inv hsmall h.sized hq hx hi hci
  obtain ⟨q,lo,-,-,-,hdone,hidle,hrel⟩ :=
    reading_upTo h.inv hsmall h.sized max h.queue h.pend h.ci
  obtain ⟨n,hn⟩ := Nat.exists_eq_add_one_of_ne_zero (by
    rw [length_cons] at hwait
    omega : s.tx.cq.entries.toNat≠0)
  have hread : s.tx.reading max=completeLoop s.tx (ofInt max) (n+1) st := by
    rw [Tx.reading,hn]
  -- the first completion is always taken
  have hfirst : (s.tx.reading max).haveAny=true ∧
      ((s.tx.reading max).release=ofNat (packets (s.tx.entries.take (i+1))) ∨
        ((s.tx.reading max).release-s.tx.slotHead).toNat≤(ofInt max).toNat) := by
    rw [hread]
    have hr := hat.round (ofInt max) n
    generalize completeLoop s.tx (ofInt max) (n+1) st=st' at hr
    cases hr with
    | beyond hany => cases hany
    | last e f => exact ⟨rfl,.inl rfl⟩
    | next e f => exact completeLoop_capped _ n _ rfl
  have hne : lo≠done.length := fun h0 => by
    rw [hidle h0] at hfirst
    cases hfirst.1
  obtain ⟨hany,hlt,hr,-⟩ := hrel hne
  obtain ⟨j,rfl⟩ : ∃ j, lo=j+1 := ⟨lo-1,by omega⟩
  obtain ⟨hout,hlen⟩ := h.released hmax (by omega) hlt hany hr
  obtain ⟨hdist,hpos,-⟩ := release_toNat h.inv (by omega : done.length≤j) hlt
  constructor
  · rcases hfirst.2 with heq | hle
    · refine .inr ⟨_,_,hat.owned,hat.entry,?_⟩
      rw [hout,← hdist,← hr,heq]
    rw [hr,hdist,← hlen] at hle
    have hint : (ofInt max).toNat ≤ max.toNat := by
      change (max%2^32).toNat%2^32≤_
      omega
    exact .inl (by omega)
  · intro hnil
    rw [hnil] at hlen
    simp at hlen
    omega

end

end

theorem Serviced.completable {t : Tx} {nic : TxNic} (h : Serviced t nic) :
    t.completable≤2^18 ∧ ∀ max : Int, (t.completable : Int) ≤ max → max<2^32 →
      (t.complete max []).2.length=t.completable := by
  obtain ⟨k,s,done,live,xs,hc,rfl,-,-⟩ := h
  obtain ⟨hle,hall⟩ := hc.completable
  refine ⟨?_,hall⟩
  have hslots := hc.inv.built.slots
  have hlive := hc.inv.owns.packets_le
  have hsmall := hc.small
  omega

theorem sweep_ready {rs : List Tx} {nics : List TxNic} (h : List.Forall₂ Serviced rs nics)
    (total : Nat) {max : Int} (hmax : max=total+((rs.map fun r => r.completable).sum : Nat))
    (hlt : max<2^32) : (sweep max rs total).2.length=(rs.map fun r => r.completable).sum := by
  induction h generalizing total with
  | nil => rfl
  | @cons r nic rs nics hr hrs ih =>
    rw [map_cons,sum_cons] at hmax ⊢
    rw [sweep]
    split
    case isTrue hge =>
      rw [length_nil]
      omega
    have hlen := hr.completable.2 (max-total) (by omega) (by omega)
    simp only [length_append]
    rw [hlen,ih (total+r.completable) (by omega)]

theorem TxQueue.Sound.serviced {first size k : Nat} {nics : List TxNic} {q : TxQueue}
    (h : q.Sound first size k nics) {r : Tx} (hr : r∈q.rings) : ∃ nic, Serviced r nic := by
  obtain ⟨j,hj⟩ := mem_iff_getElem?.mp hr
  obtain ⟨nic,-,hserv⟩ := forall₂_get h.rings hj
  exact ⟨nic,hserv⟩

/-- On a queue of at most sixteen rings, as its options allow, Complete(NumCompleted())
returns that many frames as long as the NICs do nothing in between. Each ring returns
no more frames than it is asked for or those of its oldest completion, and none at
all only if no completion is ready. -/
theorem complete_numCompleted (k : Nat) (s₀ s : QueueSys) (h₀ : s₀.Opened k)
    (h : QueueSys.Run k s₀ s) (q : TxQueue) (nics : List TxNic) (hq : (q,nics) ∈ s.txs) :
    (q.rings.length ≤ 16 → (q.reclaim q.numCompleted []).2.length = q.numCompleted ∧
      ((TxCall.complete q.numCompleted).Allowed k q s.held →
        ∃ q', q.complete q.numCompleted = some (q',q.numCompleted))) ∧
    ∀ r ∈ q.rings, ∀ max : Int, 0 < max → ((r.complete max []).2.length ≤ max ∨
        ∃ target head, r.cq.owned r.ci (r.cq.header r.ci) = true ∧
          r.toLedger.entryFor r.toTxFixed (r.cq.header r.ci) = some (target,head) ∧
          (r.complete max []).2 = r.window.take (target-r.slotHead).toNat) ∧
      ((r.complete max []).2 = [] → r.cq.owned r.ci (r.cq.header r.ci) = false) := by
  have hs := h₀.sound.run h
  obtain ⟨i,hi⟩ := mem_iff_getElem?.mp hq
  obtain ⟨_,-,first,size,hsound,-⟩ := forall₂_get hs.txs hi
  refine ⟨fun hrings => ?_,fun r hr max hmax => ?_⟩
  · have hsum : q.numCompleted≤q.rings.length*2^18 := by
      have hle : ∀ x∈q.rings.map fun r => r.completable, x≤2^18 := by
        intro x hx
        obtain ⟨r,hr,rfl⟩ := mem_map.mp hx
        obtain ⟨nic,hserv⟩ := hsound.serviced hr
        exact hserv.completable.1
      simpa [TxQueue.numCompleted] using sum_le_card_nsmul _ _ hle
    have hlen : (q.reclaim q.numCompleted []).2.length=q.numCompleted := by
      rw [reclaim_eq,nil_append]
      exact sweep_ready hsound.rings 0 (by simp [TxQueue.numCompleted]) (by omega)
    refine ⟨hlen,fun hown => ?_⟩
    obtain ⟨q',n,hcomp,-,-⟩ := hsound.complete hown (Multiset.nodup_add.mp (hs.nodup_tx hq)).1
    have hn : n=q.numCompleted := by
      rw [complete_eq_reclaim,Option.map_eq_some_iff] at hcomp
      obtain ⟨_,-,heq⟩ := hcomp
      rw [← hlen]
      injection heq with _ heq
      exact heq.symm
    exact ⟨q',by rw [hcomp,hn]⟩
  · obtain ⟨nic,k',sys,done,live,xs,hc,rfl,-,-⟩ := hsound.serviced hr
    exact hc.capped hmax

theorem complete_numCompleted_pair :
    QueueSys.Run 7 pairSys pairDone ∧ pairReady ∈ pairDone.txs ∧ pairReady.1.numCompleted = 1 ∧
      ∃ q', pairReady.1.complete pairReady.1.numCompleted = some (q',pairReady.1.numCompleted) := by
  have hmem : pairReady∈pairDone.txs := head_mem _
  obtain ⟨hcomp,-⟩ := complete_numCompleted 7 pairSys pairDone pairSys_opened pairDone_run
    pairReady.1 pairReady.2 hmem
  have hown : ∀ d∈(pairReady.1.reclaim pairReady.1.numCompleted []).2,
      pairReady.1.pool.owns d.addr=true := by decide
  exact ⟨pairDone_run,hmem,by decide,(hcomp (by decide)).2 hown⟩

end Packetio.Mlx5

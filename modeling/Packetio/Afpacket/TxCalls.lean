import Packetio.Afpacket.TxPackets

/-! The three ways to send on a transmit queue, in any order: each sendmmsg offers packets of
the call that makes it, and a call takes whole packets. -/
namespace Packetio.Afpacket
open List Option Nat

section
variable {k m n : Nat} {ps : List (Offload × List Desc)} {q q' : TxQueue} {sock sock' : Sock}
  {offs : Option (List Offload)} {descs : List Desc}

theorem Takes.widen (h : Takes (ps.take n) q sock q' sock' m) : Takes ps q sock q' sock' m := by
  have hle := h.le
  rw [length_take] at hle
  have htake : (ps.take n).take m=ps.take m := by rw [take_take,min_eq_left (by omega)]
  obtain ⟨es,hlog,hoff⟩ := h.offers
  refine ⟨⟨h.ready,h.gso,h.region,h.pool,h.closed,h.kernel,es,hlog,?_⟩,by omega,?_,?_⟩
  · have hpre : messages descPiece q.wires.gso (ps.take n) <+:
        (messages descPiece q.wires.gso ps).drop 0 := by
      rw [messages,map_take]
      exact take_prefix _ _
    have := hoff.within hpre
    rwa [zero_add,zero_add] at this
  · rw [← htake]
    exact h.pending
  · rw [← htake]
    exact h.good

theorem Takes.rewired {wires : Wiring} (hg : wires.gso=q.wires.gso)
    (h : Takes ps { q with wires } sock q' sock' m) : Takes ps q sock q' sock' m := by
  refine ⟨{ h with gso := h.gso.trans hg, offers := ?_ },h.le,h.pending,h.good⟩
  rw [← hg]
  exact h.offers

theorem chains_singles (h : descs.any Desc.continued=false) : chains descs=singles descs := by
  induction descs with
  | nil => rfl
  | cons d ds ih =>
    rw [any_cons,Bool.or_eq_false_iff] at h
    rw [chains,h.1,if_neg (by simp),ih h.2,singles,singles,map_cons]

theorem packets_cut (offs : Option (List Offload)) (descs : List Desc) (n : Nat) :
    packets (offs.map (List.take n)) 0 (singles (descs.take n)) =
      (packets offs 0 (singles descs)).take n := by
  refine ext_getElem? fun j => ?_
  rw [packets_singles]
  by_cases hj : j<n
  · rw [getElem?_take_of_lt hj,getElem?_take_of_lt hj,packets_singles]
    have hoff : offloadOf (offs.map (take n)) (0+j)=offloadOf offs (0+j) := by
      cases offs with
      | none => rfl
      | some os =>
        rw [zero_add,map_some,offloadOf,offloadOf,getD_some,getD_some,
          getD_eq_getElem?_getD,getD_eq_getElem?_getD,getElem?_take_of_lt hj]
    rw [hoff]
  · rw [getElem?_eq_none (by rw [length_take]; omega),
      getElem?_eq_none (by rw [length_take]; omega)]
    rfl

theorem transmit_takes (sock : Sock) (descs : List Desc) (hr : q.region.Made k) (hw : q.wires.Ready)
    (hp : q.pending.length ≤ maxPending) (hoffs : Covers offs descs.length) : ∃ q' sock' m n err,
      q.transmit sock descs offs=some (q',sock',n,err) ∧
      n=((chains descs).take m).flatten.length ∧ q'.pending.length ≤ maxPending ∧
      Takes (packets offs 0 (chains descs)) q sock q' sock' m := by
  have hstay {e : Option TxError} : ∃ q' sock' m n err, some (q,sock,0,e)=some (q',sock',n,err) ∧
      n=((chains descs).take m).flatten.length ∧ q'.pending.length ≤ maxPending ∧
      Takes (packets offs 0 (chains descs)) q sock q' sock' m :=
    ⟨q,sock,0,0,e,rfl,rfl,hp,.refl hw⟩
  have hlen {q' : TxQueue} {sock' : Sock} {m n : Nat}
    (hn : n=((chains descs).take m).flatten.length)
      (hle : (n : Int)≤q.numFreeSlots)
      (h : Takes (packets offs 0 (chains descs)) q sock q' sock' m) :
      q'.pending.length ≤ maxPending := by
    rw [TxQueue.numFreeSlots] at hle
    rw [h.pending,packets_take,packets_flat,length_append,← hn]
    omega
  rw [TxQueue.transmit]
  split
  case isTrue => exact hstay
  split
  case isTrue => exact hstay
  simp only
  split
  case isTrue =>
    exact ⟨_,sock,0,0,none,rfl,rfl,hp,⟨hw,rfl,rfl,rfl,rfl,rfl,[],(append_nil _).symm,.nil⟩,
      zero_le _,(append_nil _).symm,nofun⟩
  rename_i hroom
  have hpos : 0≤q.numFreeSlots := by
    rw [TxQueue.numFreeSlots]
    omega
  cases hany : descs.any Desc.continued with
  | true =>
    obtain ⟨q',sock',m,n,err,hres,hn,hle,htakes⟩ := transmitChained_takes _ 0 sock
      hr hw hoffs hpos (lt_succ_self descs.length)
    rw [zero_add] at hres hle
    exact ⟨q',sock',m,n,err,hres,hn,hlen hn hle htakes,htakes⟩
  | false =>
    rw [if_neg (by simp),if_neg (by omega)]
    obtain ⟨wires,hwires,hready,hc,hg⟩ := restored_spec hw
    have hcov : Covers (offs.map (take q.numFreeSlots.toNat))
        (descs.take q.numFreeSlots.toNat).length := by
      intro os hos
      obtain ⟨os',hos',rfl⟩ := map_eq_some_iff.mp hos
      have := hoffs os' hos'
      rw [length_take,length_take]
      omega
    obtain ⟨q',sock',m,err,hres,htakes⟩ := transmitLoop_takes (q := { q with wires }) _
      0 0 sock hr hready hc hcov (lt_succ_self _)
    rw [drop_zero,packets_cut] at htakes
    have hle := htakes.le
    rw [length_take,packets_length,singles,length_map] at hle
    have hn : m=((chains descs).take m).flatten.length := by
      rw [chains_singles hany,singles,← map_take,← singles,singles_flat,length_take,
        min_eq_left (by omega)]
    have htakes' := htakes.widen.rewired hg
    rw [← chains_singles hany] at htakes'
    rw [zero_add] at hres
    refine ⟨q',sock',m,m,err,?_,hn,hlen hn (by omega) htakes',htakes'⟩
    rwa [hwires]

end

/-! Packets of the caller's memory -/

def segPiece (s : Seg) : Piece := .caller s.addr s.len

/-- The packets of a call of TransmitGather with their offloads, from packet `k` on. -/
def gathers (offs : Option (List Offload)) : Nat → List Seg → List Int → List (Offload × List Seg)
  | _, _, [] => []
  | k, segs, n::counts =>
    (offloadOf offs k,segs.take n.toNat)::gathers offs (k+1) (segs.drop n.toNat) counts

def Addressable (segs : List Seg) : Prop := 24*segs.length<2^63

def Whole (segs : List Seg) (counts : List Int) : Prop :=
  (∀ n∈counts, 0<n) ∧ (counts.map Int.toNat).sum ≤ segs.length

section
variable {offs : Option (List Offload)} {segs : List Seg} {counts ns : List Int} {gso : Bool}
  {sent base : Nat} {p : Plan} {q : TxQueue} {sock : Sock}

theorem gathers_append (k : Nat) (segs : List Seg) (ns ns' : List Int) :
    gathers offs k segs (ns++ns') =
      gathers offs k segs ns++gathers offs (k+ns.length)
      (segs.drop (ns.map Int.toNat).sum) ns' := by
  induction ns generalizing k segs with
  | nil => rfl
  | cons n ns ih =>
    rw [cons_append,gathers,ih,gathers,drop_drop,length_cons,map_cons,
      sum_cons,add_assoc,add_comm 1]
    rfl

theorem gathers_length (k : Nat) (segs : List Seg) (ns : List Int) :
    (gathers offs k segs ns).length=ns.length := by
  induction ns generalizing k segs with
  | nil => rfl
  | cons n ns ih => rw [gathers,length_cons,ih,length_cons]

theorem Whole.nil : Whole segs [] := ⟨nofun,zero_le _⟩

theorem Whole.take (h : Whole segs ns) (m : Nat) : Whole segs (ns.take m) := by
  have hsum := congrArg (fun ns => (ns.map Int.toNat).sum) (take_append_drop m ns)
  simp only [map_append,List.sum_append] at hsum
  exact ⟨fun n hn => h.1 n (mem_of_mem_take hn),by have := h.2; omega⟩

theorem Whole.append {ns' : List Int} (h : Whole segs ns)
    (h' : Whole (segs.drop (ns.map Int.toNat).sum) ns') : Whole segs (ns++ns') := by
  refine ⟨fun n hn => (mem_append.mp hn).elim (h.1 n) (h'.1 n),?_⟩
  have hle := h'.2
  rw [length_drop] at hle
  rw [map_append,List.sum_append]
  have := h.2
  omega

structure Gathered (gso : Bool) (segs : List Seg) (counts : List Int) (sent base : Nat) (p : Plan)
    (ns : List Int) : Prop where
  counts : ns <+: counts.drop sent
  lens : p.lens=ns.map Int.toNat
  count : p.lens.sum=p.count
  le : base+p.count ≤ segs.length
  iovs : p.iovN=p.lens.sum+p.lens.length*hdrIovs gso
  pos : ∀ n∈ns, 0<n
  full : ∀ s∈(segs.drop base).take p.count, 0<s.len

theorem checkGather_spec {n : Nat} (hoffs : Covers offs n) {p : Nat} (hp : p<n) (segs : List Seg) :
    ∃ res, checkGather offs p segs=some res ∧ (res=none → ∀ s∈segs, 0<s.len) := by
  unfold checkGather
  split
  case isTrue => exact ⟨_,rfl,nofun⟩
  rename_i hany
  have hall : ∀ s∈segs, 0<s.len := by
    intro s hs
    by_contra hz
    exact hany (any_eq_true.mpr ⟨s,hs,by rw [decide_eq_true_iff]; omega⟩)
  cases offs with
  | none => exact ⟨none,rfl,fun _ => hall⟩
  | some os =>
    simp only [getElem?_eq_getElem (lt_of_lt_of_le hp (hoffs os rfl)),bind_eq_bind,bind_some]
    exact ⟨_,rfl,fun _ => hall⟩

theorem planGather_spec (left : Nat) (hs : Addressable segs) (hoffs : Covers offs counts.length)
    (h : Gathered gso segs counts sent base p ns) (hleft : p.lens.length+left≤txBatch) :
    ∃ p' ns', planGather gso segs counts offs sent base left p=some p' ∧
      Gathered gso segs counts sent base p' ns' ∧ p'.lens.length≤txBatch := by
  induction left generalizing p ns with
  | zero => exact ⟨p,ns,rfl,h,by omega⟩
  | succ left ih =>
    have hsame (e : Option TxError) :
      Gathered gso segs counts sent base { p with refused := e } ns :=
      { h with }
    have hle : p.lens.length≤txBatch := by omega
    rw [planGather]
    simp only [needs]
    rcases hn : counts[sent+p.lens.length]? with _ | n
    · exact ⟨p,ns,rfl,h,hle⟩
    simp only
    split
    case isTrue => exact ⟨_,ns,rfl,hsame _,hle⟩
    rename_i hbad
    split
    case isTrue => exact ⟨_,ns,rfl,hsame _,hle⟩
    rename_i hbig
    rw [not_or,not_le] at hbad
    -- the sum that is compared has not wrapped, since a packet is not that long
    have hend : base+p.count+n.toNat ≤ segs.length := by
      have hbase := h.le
      rw [Addressable] at hs
      rw [maxChainBufs] at hbig
      rw [addInt,Int.bmod_eq_of_le (by omega) (by omega)] at hbad
      omega
    obtain ⟨hlt,hget⟩ := List.getElem?_eq_some_iff.mp hn
    obtain ⟨res,hres,hok⟩ := checkGather_spec (p := sent+p.lens.length) hoffs hlt
      ((segs.drop (base+p.count)).take n.toNat)
    rw [hres]
    cases res with
    | some e => exact ⟨_,ns,rfl,hsame _,hle⟩
    | none =>
      simp only
      split
      case isTrue => exact ⟨p,ns,rfl,h,hle⟩
      have hnl : p.lens.length=ns.length := by rw [h.lens,length_map]
      refine @ih (ns++[n]) _ ⟨?_,?_,?_,?_,?_,?_,?_⟩ ?_
      · obtain ⟨tail,htail⟩ := h.counts
        have hcons : tail=n::counts.drop (sent+p.lens.length+1) := by
          rw [← hget,← drop_eq_getElem_cons hlt,← drop_drop,← htail,hnl,drop_left]
        exact ⟨_,by rw [← htail,hcons,append_assoc]; rfl⟩
      · rw [h.lens,map_append]
        rfl
      · rw [List.sum_append,h.count,sum_singleton]
      · change base+(p.count+n.toNat)≤_
        omega
      · change p.iovN+(n.toNat+hdrIovs gso) =
          (p.lens++[n.toNat]).sum+(p.lens++[n.toNat]).length*hdrIovs gso
        rw [h.iovs,List.sum_append,sum_singleton,length_append,length_singleton,succ_mul]
        omega
      · intro n' hn'
        cases mem_append.mp hn' with
        | inl hn' => exact h.pos n' hn'
        | inr hn' => exact mem_singleton.mp hn' ▸ hbad.1
      · intro s hs
        rw [take_add,drop_drop,mem_append] at hs
        cases hs with
        | inl hs => exact h.full s hs
        | inr hs => exact hok rfl s hs
      · rw [length_append,length_singleton]
        omega

theorem gatherPieces_cut (gso : Bool) {m i : Nat} (hpos : ∀ n∈ns, 0<n)
    (hle : i+(ns.map Int.toNat).sum ≤ segs.length)
    (hfull : ∀ s∈(segs.drop i).take (ns.map Int.toNat).sum, 0<s.len)
    (hoffs : Covers offs (sent+m+ns.length)) : ∃ es,
      Cut (gatherPieces gso segs offs sent) m i (ns.map Int.toNat) es ∧ (∀ e∈es, ∀ v∈e.2, v.Free) ∧
      (es.map fun e => packetMessage gso e.1 (e.2.map plain)) =
        messages segPiece gso (gathers offs (sent+m) (segs.drop i) ns) := by
  induction ns generalizing m i with
  | nil => exact ⟨[],.nil,nofun,rfl⟩
  | cons n ns ih =>
    rw [map_cons,sum_cons] at hle hfull
    rw [length_cons] at hoffs
    obtain ⟨o,ho,hmsg⟩ := offloadAt_some gso hoffs (by omega : sent+m<sent+m+(ns.length+1))
    rw [take_add,drop_drop] at hfull
    have hcov : Covers offs (sent+(m+1)+ns.length) := fun os hos => by have := hoffs os hos; omega
    obtain ⟨es,hcut,hfree,hmsgs⟩ := ih (m := m+1) (i := i+n.toNat)
      (fun n' hn' => hpos n' (mem_cons_of_mem n hn')) (by omega)
      (fun s hs => hfull s (mem_append_right _ hs)) hcov
    have hmap : ((segs.drop i).take n.toNat).mapM segIovec =
        some (((segs.drop i).take n.toNat).map fun s => ⟨some (.caller s.addr),s.len⟩) :=
      mapM_some fun s hs => if_pos (hfull s (mem_append_left _ hs))
    refine ⟨(o,((segs.drop i).take n.toNat).map fun s => ⟨some (.caller s.addr),s.len⟩)::es,
      .cons ?_ ?_ hcut,fun e he v hv => ?_,?_⟩
    · simp [gatherPieces,ho,hmap,if_pos (by omega : i+n.toNat ≤ segs.length)]
    · rw [length_map,length_take,length_drop]
      omega
    · cases mem_cons.mp he with
      | inl he =>
        rw [he] at hv
        obtain ⟨s,_,rfl⟩ := mem_map.mp hv
        exact nofun
      | inr he => exact hfree e he v hv
    · rw [map_cons,hmsgs,gathers,messages,messages,map_cons,hmsg,List.map_map,drop_drop]
      rfl

theorem gatherLoop_sends (fuel sent base : Nat) (sock : Sock) (hs : Addressable segs)
    (hw : q.wires.Ready) (hoffs : Covers offs counts.length) (hbase : base ≤ segs.length)
    (hfuel : counts.length-sent<fuel) : ∃ q' sock' m err,
      gatherLoop segs counts offs fuel sent base q sock=some (q',sock',sent+m,err) ∧
      m≤counts.length-sent ∧ Whole (segs.drop base) ((counts.drop sent).take m) ∧
      q'.pending=q.pending ∧
      Sends (messages segPiece q.wires.gso (gathers offs sent (segs.drop base) (counts.drop sent)))
        q sock q' sock' m := by
  induction fuel generalizing sent base q sock with
  | zero => omega
  | succ fuel ih =>
    rw [gatherLoop]
    split
    case isFalse => exact ⟨q,sock,0,none,rfl,zero_le _,.nil,rfl,.refl hw⟩
    rename_i hlt
    have hstart : Gathered q.wires.gso segs counts sent base {} [] :=
      ⟨ nil_prefix,rfl,rfl,hbase,by simp,nofun,nofun⟩
    obtain ⟨p,ns,hplan,h,hlen⟩ := planGather_spec txBatch hs hoffs hstart
      (le_of_eq (zero_add _))
    simp only [hplan,bind_eq_bind,bind_some]
    by_cases hempty : p.lens.length=0
    · rw [if_pos hempty]
      refine ⟨_,sock,0,p.refused,rfl,zero_le _,.nil,?_,(Sends.refl hw).refuse _⟩
      cases p.refused <;> rfl
    rw [if_neg hempty]
    have hsum : (ns.map Int.toNat).sum=p.count := by rw [← h.lens,h.count]
    have hnl : p.lens.length=ns.length := by rw [h.lens,length_map]
    have hns := h.counts.length_le
    rw [length_drop] at hns
    have hcov : Covers offs (sent+0+ns.length) := fun os hos => by have := hoffs os hos; omega
    obtain ⟨es,hcut,hfree,hmsgs⟩ := gatherPieces_cut q.wires.gso h.pos
      (by rw [hsum]; exact h.le) (by rw [hsum]; exact h.full) hcov
    rw [← h.lens] at hcut
    obtain ⟨wires,hlay,hready,hg,hmsg⟩ := lay_batch hw hcut (fun hnil => hempty (by rw [hnil]; rfl))
      hlen (le_of_eq h.iovs.symm) hfree
    obtain ⟨tail,htail⟩ := h.counts
    have hwhole : Whole (segs.drop base) ns := ⟨h.pos,by have := h.le; rw [hsum,length_drop]; omega⟩
    have hgs : gathers offs sent (segs.drop base) (counts.drop sent) =
        gathers offs sent (segs.drop base) ns++
          gathers offs (sent+p.lens.length) (segs.drop (base+p.count))
            (counts.drop (sent+p.lens.length)) := by
      have hdrop : counts.drop (sent+p.lens.length)=tail := by
        rw [← drop_drop,← htail,hnl,drop_left]
      rw [hdrop,← htail,gathers_append,drop_drop,hsum,hnl]
    have hpre : messages segPiece q.wires.gso (gathers offs (sent+0) (segs.drop base) ns) <+:
        messages segPiece q.wires.gso (gathers offs sent (segs.drop base) (counts.drop sent)) := by
      rw [hgs,messages,messages,map_append]
      exact prefix_append _ _
    obtain ⟨q1,sock1,m,hsend,hm,_,hp1,hsends⟩ := sendAll_sends q sock hready hg
      (hmsg.trans hmsgs) hpre
    have hsends1 :
      Sends _ q sock (q1.gathered ((segs.drop base).take (p.lens.take m).sum)) sock1 m :=
      { hsends with }
    rw [grow_gso]
    simp only [hlay,bind_some,hsend]
    by_cases hstop : m<p.lens.length ∨ p.refused.isSome=true
    · refine ⟨_,sock1,m,p.refused,if_pos hstop,by omega,?_,?_,hsends1.refuse p.refused⟩
      · rw [← htail,take_append_of_le_length (by omega)]
        exact hwhole.take m
      · rw [← hp1]
        cases p.refused <;> rfl
    rw [if_neg hstop]
    have hall : m=p.lens.length := by omega
    have hcount : (p.lens.take m).sum=p.count := by rw [hall,take_length,h.count]
    rw [hcount] at hsends1 ⊢
    obtain ⟨q',sock',m',err,hres,hm',hrest,hp',hsends'⟩ := ih (sent+m) (base+p.count)
      sock1 hsends1.ready h.le (by omega)
    rw [hres,add_assoc]
    refine ⟨q',sock',m+m',err,rfl,by omega,?_,hp'.trans hp1,hsends1.trans ?_⟩
    · have hns : (counts.drop sent).take m=ns := by
        rw [← htail,hall,hnl,take_left]
      rw [← hsum,← drop_drop] at hrest
      rw [take_add,drop_drop,hns]
      exact hwhole.append hrest
    have hgl : p.lens.length=(gathers offs sent (segs.drop base) ns).length := by
      rw [gathers_length,hnl]
    rw [hgs,messages,← map_drop,hall,hgl,drop_left,← hgl]
    rwa [hsends1.gso,hall] at hsends'

theorem transmitGather_sends (sock : Sock) (offs : Option (List Offload)) (counts : List Int)
    (hs : Addressable segs) (hw : q.wires.Ready) : ∃ q' sock' m err,
      q.transmitGather sock segs counts offs=some (q',sock',m,err) ∧ m≤counts.length ∧
      Whole segs (counts.take m) ∧ q'.pending=q.pending ∧
      Sends (messages segPiece q.wires.gso (gathers offs 0 segs counts)) q sock q' sock' m := by
  have hstay {e : Option TxError} : ∃ q' sock' m err, some (q,sock,0,e)=some (q',sock',m,err) ∧
      m≤counts.length ∧ Whole segs (counts.take m) ∧ q'.pending=q.pending ∧
      Sends (messages segPiece q.wires.gso (gathers offs 0 segs counts)) q sock q' sock' m :=
    ⟨q,sock,0,e,rfl,zero_le _,.nil,rfl,.refl hw⟩
  have hrun (hoffs : Covers offs counts.length) : ∃ q' sock' m err,
      gatherLoop segs counts offs (counts.length+1) 0 0 q sock=some (q',sock',m,err) ∧
      m≤counts.length ∧ Whole segs (counts.take m) ∧ q'.pending=q.pending ∧
      Sends (messages segPiece q.wires.gso (gathers offs 0 segs counts)) q sock q' sock' m := by
    obtain ⟨q',sock',m,err,hres,hm,hwhole,hp,hsends⟩ := gatherLoop_sends _ 0 0 sock hs hw hoffs
      (zero_le _) (lt_succ_self _)
    rw [zero_add] at hres
    exact ⟨q',sock',m,err,hres,hm,hwhole,hp,hsends⟩
  unfold TxQueue.transmitGather
  split
  case isTrue => exact hstay
  split
  case isTrue => exact hstay
  rcases offs with _ | os
  · exact hrun nofun
  simp only
  split
  case isTrue => exact hstay
  rename_i hlen
  split
  case isTrue => exact hstay
  refine hrun fun os' hos' => ?_
  rw [some_inj] at hos'
  rw [← hos']
  omega

end

/-! Any calls, one after the other -/

inductive TxSend
  | transmit (descs : List Desc)
  | transmitOffload (descs : List Desc) (offs : List Offload)
  | transmitGather (segs : List Seg) (counts : List Int) (offs : Option (List Offload))

def TxSend.on (q : TxQueue) (sock : Sock) : TxSend → Option (TxQueue × Sock × Nat × Option TxError)
  | .transmit descs => q.transmit sock descs none
  | .transmitOffload descs offs => q.transmitOffload sock descs offs
  | .transmitGather segs counts offs => q.transmitGather sock segs counts offs

def TxSend.messages (gso : Bool) : TxSend → List (List Piece)
  | .transmit descs => Afpacket.messages descPiece gso (packets none 0 (chains descs))
  | .transmitOffload descs offs =>
    Afpacket.messages descPiece gso (packets (some offs) 0 (chains descs))
  | .transmitGather segs counts offs => Afpacket.messages segPiece gso (gathers offs 0 segs counts)

def TxSend.Addressable : TxSend → Prop
  | .transmitGather segs _ _ => Afpacket.Addressable segs
  | _ => True

inductive TxRun : TxQueue → Sock → List (TxSend × List Sendmmsg) → Prop
  | new {frames frameSize : Int} {r : FrameMemory} {checked gso : Bool} {firstFrame n : Nat}
      {q : TxQueue} {kernel : Kernel} (hr : newRegion frames frameSize true = .ok r)
      (h : newTxQueue checked r firstFrame n gso=some q) : TxRun q { kernel } []
  | other {q q' : TxQueue} {sock : Sock} {tr : List (TxSend × List Sendmmsg)} (h : TxRun q sock tr)
      (hwires : q'.wires=q.wires) (hsize : q'.region.frameSize=q.region.frameSize)
      (hmask : q'.region.frameMask=q.region.frameMask) (hlen : q'.region.b.len=q.region.b.len)
      (hpending : q'.pending.length ≤ maxPending) : TxRun q' sock tr
  | call {q q' : TxQueue} {sock sock' : Sock} {tr : List (TxSend × List Sendmmsg)}
    {c : TxSend} {n : Nat}
      {err : Option TxError} {es : List Sendmmsg} (h : TxRun q sock tr) (ha : c.Addressable)
      (hc : c.on q sock=some (q',sock',n,err)) (hlog : sock'.log=sock.log++es) :
      TxRun q' sock' (tr++[(c,es)])

def Sendmmsg.taken (e : Sendmmsg) : List (List Piece) := e.msgs.take e.got

structure TxQueue.Idle (q : TxQueue) : Prop where
  region : ∃ k, q.region.Made k
  ready : q.wires.Ready
  pending : q.pending.length ≤ maxPending

section
variable {q q' : TxQueue} {sock sock' : Sock} {tr : List (TxSend × List Sendmmsg)} {c : TxSend}

theorem newTxQueue_some (checked : Bool) {r : FrameMemory} {k : Nat} (hr : r.Made k)
    (firstFrame n : Nat) (gso : Bool) :
    ∃ q, newTxQueue checked r firstFrame n gso=some q ∧ q.Idle ∧ q.wires.gso=gso := by
  obtain ⟨hdrs,hhdrs⟩ : ∃ hdrs : Growing (List UInt8), hdrs =
      if gso then { len := txBatch, cap := txBatch, cells := fun _ _ => zeroHdr }
      else { cells := fun _ _ => zeroHdr } := ⟨_,rfl⟩
  have hlen : gso=true → hdrs.len=txBatch := fun hg => by rw [hhdrs,if_pos hg]
  have hwire : ({ gso, hdrs } : Wiring).gso=true → ({ gso, hdrs } : Wiring).hdrs.len=txBatch := hlen
  obtain ⟨w,hw,hone,_,hg,hhd⟩ := wireFrom_spec (i := 0) (n := txBatch) hwire (le_of_eq (zero_add _))
  simp only [newTxQueue,← hhdrs,Wiring.wireOnePerPacket,hw,bind_eq_bind,bind_some]
  refine ⟨_,rfl,⟨⟨k,hr⟩,⟨?_,fun _ i hi => ?_⟩,zero_le _⟩,hg⟩
  · rwa [hg,hhd]
  · exact hone i (zero_le i) (by omega)

def TxSend.frames (descs : List Desc) : Option (List Offload) → TxSend
  | none => .transmit descs
  | some offs => .transmitOffload descs offs

theorem TxSend.frames_takes (h : q.Idle) (sock : Sock) (descs : List Desc)
    (offs : Option (List Offload)) :
    ∃ q' sock' m n err, (TxSend.frames descs offs).on q sock=some (q',sock',n,err) ∧
      n=((chains descs).take m).flatten.length ∧ q'.Idle ∧
      Takes (packets offs 0 (chains descs)) q sock q' sock' m := by
  obtain ⟨k,hr⟩ := h.region
  have hrun (hoffs : Covers offs descs.length) : ∃ q' sock' m n err,
      q.transmit sock descs offs=some (q',sock',n,err) ∧
      n=((chains descs).take m).flatten.length ∧ q'.Idle ∧
      Takes (packets offs 0 (chains descs)) q sock q' sock' m := by
    obtain ⟨q',sock',m,n,err,hres,hn,hp,htakes⟩ :=
      transmit_takes sock descs hr h.ready h.pending hoffs
    exact ⟨q',sock',m,n,err,hres,hn,⟨⟨k,htakes.region ▸ hr⟩,htakes.ready,hp⟩,htakes⟩
  rcases offs with _ | os
  · exact hrun nofun
  rw [TxSend.frames,TxSend.on]
  unfold TxQueue.transmitOffload
  split
  case isTrue => exact ⟨q,sock,0,0,_,rfl,rfl,h,.refl h.ready⟩
  split
  case isTrue => exact ⟨q,sock,0,0,_,rfl,rfl,h,.refl h.ready⟩
  rename_i hlen
  refine hrun fun os' hos' => ?_
  rw [some_inj] at hos'
  rw [← hos']
  omega

theorem TxSend.on_sends (h : q.Idle) (sock : Sock) (ha : c.Addressable) : ∃ q' sock' n m err,
    c.on q sock=some (q',sock',n,err) ∧ q'.Idle ∧
      Sends (c.messages q.wires.gso) q sock q' sock' m := by
  cases c with
  | transmit descs =>
    obtain ⟨q',sock',m,n,err,hres,_,hi,htakes⟩ := TxSend.frames_takes h sock descs none
    exact ⟨q',sock',n,m,err,hres,hi,htakes.toSends⟩
  | transmitOffload descs offs =>
    obtain ⟨q',sock',m,n,err,hres,_,hi,htakes⟩ := TxSend.frames_takes h sock descs (some offs)
    exact ⟨q',sock',n,m,err,hres,hi,htakes.toSends⟩
  | transmitGather segs counts offs =>
    obtain ⟨k,hr⟩ := h.region
    obtain ⟨q',sock',m,err,hres,_,_,hp,hsends⟩ := transmitGather_sends sock offs counts ha h.ready
    exact ⟨q',sock',m,m,err,hres,⟨⟨k,hsends.region ▸ hr⟩,hsends.ready,hp ▸ h.pending⟩,hsends⟩

theorem TxRun.sound (h : TxRun q sock tr) :
    q.Idle ∧ ∀ x∈tr, ∃ m, Offers (x.1.messages q.wires.gso) 0 x.2 m := by
  induction h with
  | new hr h =>
    obtain ⟨k,hk⟩ := newRegion_made hr
    obtain ⟨q',hq',hidle,_⟩ := newTxQueue_some _ hk _ _ _
    rw [h,some_inj] at hq'
    exact ⟨hq' ▸ hidle,nofun⟩
  | other h hwires hsize hmask hlen hpending ih =>
    obtain ⟨⟨⟨k,hr⟩,hready,_⟩,hall⟩ := ih
    refine ⟨⟨⟨k,hsize ▸ hr.size,hr.small,hmask ▸ hr.mask,hlen ▸ hr.whole⟩,hwires ▸ hready,
      hpending⟩,?_⟩
    rwa [hwires]
  | call h ha hc hlog ih =>
    obtain ⟨hidle,hall⟩ := ih
    obtain ⟨q1,sock1,n1,m,err1,hres,hidle1,hsends⟩ := TxSend.on_sends hidle _ ha
    rw [hc,some_inj] at hres
    cases hres
    refine ⟨hidle1,fun x hx => ?_⟩
    rw [hsends.gso]
    rcases mem_append.mp hx with hx | hx
    · exact hall x hx
    obtain ⟨es',hlog',hoff⟩ := hsends.offers
    rw [hlog,append_cancel_left_eq] at hlog'
    rw [mem_singleton.mp hx,hlog']
    exact ⟨m,hoff⟩

/-- Every call returns, and every sendmmsg that it makes is offered, for each packet of that very
call from the first one that was not taken yet, its header and its pieces and nothing else. -/
theorem messages_named (h : TxRun q sock tr) :
    (∀ c : TxSend, c.Addressable → ∃ q' sock' n err es, c.on q sock = some (q',sock',n,err) ∧
      sock'.log = sock.log++es) ∧ ∀ x ∈ tr, ∃ m, Offers (x.1.messages q.wires.gso) 0 x.2 m := by
  obtain ⟨hidle,hall⟩ := h.sound
  refine ⟨fun c ha => ?_,hall⟩
  obtain ⟨q',sock',n,m,err,hres,_,hsends⟩ := TxSend.on_sends hidle sock ha
  obtain ⟨es,hlog,_⟩ := hsends.offers
  exact ⟨q',sock',n,err,es,hres,hlog⟩

def taker : Kernel := ⟨fun _ n => ⟨n,0⟩,fun _ n _ => Nat.le_refl n⟩

def segmentedFrame : TxSend :=
  .transmitOffload [⟨64,1000,0⟩] [{ gsoType := 1, gsoSize := 500, hdrLen := 54 }]

def twoSlices : TxSend := .transmitGather [⟨0,60⟩,⟨100,40⟩] [2] none

theorem messages_named_both : ∃ q sock es es',
    TxRun q sock [(segmentedFrame,es),(twoSlices,es')] ∧
    (∃ m, Offers [[.header (Offload.marshal { gsoType := 1, gsoSize := 500, hdrLen := 54 }),
      .region 64 1000]] 0 es m) ∧
    ∃ m, Offers [[.header (Offload.marshal {}),.caller 0 60,.caller 100 40]] 0 es' m := by
  obtain ⟨r,hr⟩ : ∃ r, newRegion 4 2048 true = .ok r := ⟨_,rfl⟩
  obtain ⟨k,hk⟩ := newRegion_made hr
  obtain ⟨q,hq,hidle,hg⟩ := newTxQueue_some true hk 0 4 true
  have hframe : segmentedFrame.Addressable := trivial
  have hslices : twoSlices.Addressable := (by decide : 24*2<2^63)
  have hrun : TxRun q { kernel := taker } [] := .new hr hq
  obtain ⟨q1,sock1,n1,m1,err1,hc1,hidle1,hs1⟩ := TxSend.on_sends hidle { kernel := taker } hframe
  obtain ⟨es,hlog,_⟩ := hs1.offers
  obtain ⟨q2,sock2,n2,m2,err2,hc2,_,hs2⟩ := TxSend.on_sends hidle1 sock1 hslices
  obtain ⟨es',hlog',_⟩ := hs2.offers
  have hrun2 := (hrun.call hframe hc1 hlog).call hslices hc2 hlog'
  have hall := (messages_named hrun2).2
  rw [hs2.gso,hs1.gso,hg] at hall
  exact ⟨q2,sock2,es,es',hrun2,hall (segmentedFrame,es) (by simp),hall (twoSlices,es') (by simp)⟩

theorem Offers.taken {msgs : List (List Piece)} {p m : Nat} {es : List Sendmmsg}
    (h : Offers msgs p es m) : p ≤ m ∧ es.flatMap Sendmmsg.taken=(msgs.drop p).take (m-p) := by
  induction h with
  | nil => exact ⟨le_refl _,by simp⟩
  | @cons p m e es hpre hgot _ ih =>
    obtain ⟨hle,htaken⟩ := ih
    obtain ⟨rest,hrest⟩ := hpre
    refine ⟨by omega,?_⟩
    have hsplit : m-p=e.got+(m-(p+e.got)) := by omega
    rw [flatMap_cons,htaken,hsplit,take_add,drop_drop,← hrest,take_append_of_le_length hgot]
    rfl

theorem chains_flat (ds : List Desc) : (chains ds).flatten <+: ds := by
  induction ds with
  | nil => exact prefix_refl _
  | cons d ds ih =>
    rw [chains]
    rcases hd : d.continued with _ | _
    · exact cons_prefix_cons.mpr ⟨rfl,ih⟩
    cases hc : chains ds with
    | nil => exact nil_prefix
    | cons c cs =>
      rw [hc] at ih
      exact cons_prefix_cons.mpr ⟨rfl,ih⟩

theorem chains_taken (ds : List Desc) (m : Nat) :
    ds.take ((chains ds).take m).flatten.length=((chains ds).take m).flatten := by
  have hpre : ((chains ds).take m).flatten <+: ds := by
    refine List.IsPrefix.trans ⟨((chains ds).drop m).flatten,?_⟩ (chains_flat ds)
    rw [← flatten_append,take_append_drop]
  exact (prefix_iff_eq_take.mp hpre).symm

/-- Transmit and TransmitOffload take the first packets of a batch, whole, and their frames go on
the list in order; the kernel got each of these packets once. -/
theorem packets_whole (h : TxRun q sock tr) (descs : List Desc) (offs : Option (List Offload)) :
    ∃ q' sock' n err m es, (TxSend.frames descs offs).on q sock = some (q',sock',n,err) ∧
      m ≤ (chains descs).length ∧ n = ((chains descs).take m).flatten.length ∧
      descs.take n = ((chains descs).take m).flatten ∧
      sock'.log = sock.log++es ∧ es.flatMap Sendmmsg.taken =
        messages descPiece q.wires.gso ((packets offs 0 (chains descs)).take m) ∧
      q'.pending = q.pending++descs.take n ∧ q'.pending.length ≤ maxPending ∧
      ∀ p ∈ (packets offs 0 (chains descs)).take m, PacketOK q.region p := by
  obtain ⟨q',sock',m,n,err,hres,hn,hidle,htakes⟩ := TxSend.frames_takes h.sound.1 sock descs offs
  obtain ⟨es,hlog,hoff⟩ := htakes.offers
  have htake : descs.take n=((chains descs).take m).flatten := by rw [hn,chains_taken]
  have hle := htakes.le
  rw [packets_length] at hle
  refine ⟨q',sock',n,err,m,es,hres,hle,hn,htake,hlog,?_,?_,hidle.pending,htakes.good⟩
  · rw [hoff.taken.2,drop_zero,Nat.sub_zero,messages,messages,map_take]
  · rw [htakes.pending,packets_take,packets_flat,htake]

/-- A packet of two frames goes whole or not at all. -/
theorem packets_whole_two : ∃ q sock, TxRun q sock [] ∧ ∃ q' sock' n err,
    (TxSend.frames [⟨64,1000,1⟩,⟨2112,500,0⟩] none).on q sock = some (q',sock',n,err) ∧
      (n = 0 ∨ n = 2) ∧ q'.pending = q.pending++[⟨64,1000,1⟩,⟨2112,500,0⟩].take n := by
  obtain ⟨r,hr⟩ : ∃ r, newRegion 4 2048 true = .ok r := ⟨_,rfl⟩
  obtain ⟨k,hk⟩ := newRegion_made hr
  obtain ⟨q,hq,_⟩ := newTxQueue_some true hk 0 4 true
  have hrun : TxRun q { kernel := taker } [] := .new hr hq
  obtain ⟨q',sock',n,err,m,es,hres,hm,hn,_,_,_,hp,_⟩ :=
    packets_whole hrun [⟨64,1000,1⟩,⟨2112,500,0⟩] none
  refine ⟨q,_,hrun,q',sock',n,err,hres,?_,hp⟩
  have hm' : m≤1 := hm
  cases m with
  | zero => exact .inl hn
  | succ m =>
    obtain rfl : m=0 := by omega
    exact .inr hn

/-- Whatever the counts are, TransmitGather returns; the kernel got the first packets it was
given, as many as it says, once each and in order with the slices that are theirs, and no
frame, no waiting descriptor and no free slot has changed hands. -/
theorem gather_exact (h : TxRun q sock tr) (segs : List Seg) (counts : List Int)
    (offs : Option (List Offload)) (hs : Addressable segs) : ∃ q' sock' m err es,
      q.transmitGather sock segs counts offs=some (q',sock',m,err) ∧ m≤counts.length ∧
      Whole segs (counts.take m) ∧ sock'.log=sock.log++es ∧ es.flatMap Sendmmsg.taken =
        messages segPiece q.wires.gso ((gathers offs 0 segs counts).take m) ∧
      q'.pool=q.pool ∧ q'.pending=q.pending ∧ q'.numFreeSlots=q.numFreeSlots := by
  obtain ⟨q',sock',m,err,hres,hm,hwhole,hp,hsends⟩ :=
    transmitGather_sends sock offs counts hs h.sound.1.ready
  obtain ⟨es,hlog,hoff⟩ := hsends.offers
  refine ⟨q',sock',m,err,es,hres,hm,hwhole,hlog,?_,hsends.pool,hp,?_⟩
  · rw [hoff.taken.2,drop_zero,Nat.sub_zero,messages,messages,map_take]
  · rw [TxQueue.numFreeSlots,TxQueue.numFreeSlots,hp]

/-- The second packet claims more slices than an int can count. -/
theorem gather_exact_huge : ∃ q sock, TxRun q sock [] ∧ ∃ q' sock' m err es,
    q.transmitGather sock [⟨0,60⟩,⟨100,40⟩] [2,2^63-1] none=some (q',sock',m,err) ∧ m≤1 ∧
      sock'.log=sock.log++es ∧ es.flatMap Sendmmsg.taken =
        List.take m [[.header (Offload.marshal {}),.caller 0 60,.caller 100 40]] ∧
      q'.pending=q.pending := by
  obtain ⟨r,hr⟩ : ∃ r, newRegion 4 2048 true = .ok r := ⟨_,rfl⟩
  obtain ⟨k,hk⟩ := newRegion_made hr
  obtain ⟨q,hq,-,hg⟩ := newTxQueue_some true hk 0 4 true
  have hrun : TxRun q { kernel := taker } [] := .new hr hq
  obtain ⟨q',sock',m,err,es,hres,hm,hwhole,hlog,htaken,-,hp,-⟩ :=
    gather_exact hrun [⟨0,60⟩,⟨100,40⟩] [2,2^63-1] none (by decide : 24*2<2^63)
  have hone : m≤1 := by
    by_contra htwo
    obtain rfl : m=2 := by
      have : m≤2 := hm
      omega
    have hle : 2+(2^63-1)≤2 := hwhole.2
    omega
  refine ⟨q,_,hrun,q',sock',m,err,es,hres,hone,hlog,?_,hp⟩
  rw [htaken,hg]
  have hcase : m=0 ∨ m=1 := by omega
  rcases hcase with rfl | rfl
  · rfl
  · rfl

end

end Packetio.Afpacket

import Packetio.Netstack.Tx
import Packetio.Netstack.GsoExact

/-! What a call of WritePackets puts on the wire: of each packet counted as sent some of its
own frames from the first one on, packet after packet, and nothing of the others. -/
namespace Packetio.Netstack
open Lib List Option Nat

/-! The budget -/

theorem admit_go (segs : List Nat) (budget packets frames : Nat) :
    admitPackets.go segs (frames+budget) packets frames =
      (packets+(admitPackets segs budget).1,frames+(admitPackets segs budget).2) := by
  induction segs generalizing budget packets frames with
  | nil => rfl
  | cons s segs ih =>
    rw [admitPackets,admitPackets.go,admitPackets.go]
    by_cases hgt : s > budget
    · rw [if_pos (by omega),if_pos (by omega)]
      rfl
    obtain ⟨b,rfl⟩ := Nat.exists_eq_add_of_le (not_lt.mp hgt)
    have hfirst := ih b (packets+1) (frames+s)
    have hsecond := ih b 1 s
    rw [add_assoc] at hfirst
    rw [if_neg (by omega),if_neg (by omega),hfirst,zero_add 1,zero_add s,hsecond,
      add_assoc,add_assoc]

variable {budget s linkLen i : Nat} {frame : List UInt8} {ps : List PacketBuffer} {bs : List Built}
  {q : TxQueue}

theorem admit_cons_gt (segs : List Nat) (h : budget<s) : admitPackets (s::segs) budget=(0,0) := by
  rw [admitPackets,admitPackets.go,if_pos (by omega)]

theorem admit_cons_le (segs : List Nat) (h : s≤budget) : admitPackets (s::segs) budget =
      ((admitPackets segs (budget-s)).1+1,(admitPackets segs (budget-s)).2+s) := by
  obtain ⟨b,rfl⟩ := Nat.exists_eq_add_of_le h
  have hrest := admit_go segs b 1 s
  rw [admitPackets,admitPackets.go,if_neg (by omega),zero_add 1,zero_add s,hrest,
    Nat.add_sub_cancel_left,add_comm 1,add_comm s]

theorem admit_spec (segs : List Nat) (budget : Nat) : (admitPackets segs budget).1 ≤ segs.length ∧
      (admitPackets segs budget).2=(segs.take (admitPackets segs budget).1).sum := by
  induction segs generalizing budget with
  | nil => exact ⟨le_refl _,rfl⟩
  | cons s segs ih =>
    by_cases hgt : budget<s
    · rw [admit_cons_gt segs hgt]
      exact ⟨zero_le _,rfl⟩
    obtain ⟨hle,hsum⟩ := ih (budget-s)
    rw [admit_cons_le segs (not_lt.mp hgt)]
    refine ⟨succ_le_succ hle,?_⟩
    change (admitPackets segs (budget-s)).2+s =
      ((s::segs).take ((admitPackets segs (budget-s)).1+1)).sum
    rw [hsum,take_succ_cons,sum_cons,add_comm]

/-- The packets that `n` frames are of. -/
def counted (segs : List Nat) (n : Nat) : Nat :=
  if (admitPackets segs n).2<n then (admitPackets segs n).1+1 else (admitPackets segs n).1

theorem counted_zero (segs : List Nat) (h : ∀ s∈segs, 0<s) : counted segs 0=0 := by
  cases segs with
  | nil => rfl
  | cons s segs => rw [counted,admit_cons_gt segs (h s (by simp)),if_neg (lt_irrefl _)]

theorem counted_cons_gt {n : Nat} (segs : List Nat) (h : n<s) (hn : 0<n) :
    counted (s::segs) n=1 := by
  rw [counted,admit_cons_gt segs h,if_pos hn]

theorem counted_cons_le {n : Nat} (segs : List Nat) (h : s≤n) :
    counted (s::segs) n=counted segs (n-s)+1 := by
  simp only [counted,admit_cons_le segs h]
  by_cases hlt : (admitPackets segs (n-s)).2<n-s
  · rw [if_pos hlt,if_pos (by omega)]
  · rw [if_neg hlt,if_neg (by omega)]

/-! One packet in one frame -/

theorem copyViews_fits (vs : List (List UInt8)) (off n : Nat) (frame : List UInt8)
    (h : n≤frame.length) : (copyViews vs off n frame).1.length=frame.length ∧
      (copyViews vs off n frame).2≤frame.length := by
  induction vs generalizing off n frame with
  | nil => exact ⟨rfl,h⟩
  | cons v vs ih =>
    rw [copyViews]
    split
    case isTrue => exact ih _ _ _ h
    obtain ⟨s,hs⟩ : ∃ s, s=(v.drop off).take (frame.length-n) := ⟨_,rfl⟩
    have hle : s.length≤frame.length-n := hs ▸ length_take_le _ _
    have hlen : (patch frame n s).length=frame.length := patch_length (by omega)
    have hrest := ih 0 (n+s.length) (patch frame n s) (by omega)
    simp only [← hs]
    rwa [hlen] at hrest

theorem copyPacket_some (p : PacketBuffer) (h : minFrameLen≤frame.length) :
    ∃ frame' n, copyPacket frame p=some (frame',n) ∧ frame'.length=frame.length := by
  have hfits := copyViews_fits p.views p.headerOffset 0 frame (zero_le _)
  cases hf : copyViews p.views p.headerOffset 0 frame with
  | mk f n =>
    rw [hf] at hfits
    obtain ⟨hlen,hn⟩ : f.length=frame.length ∧ n≤frame.length := hfits
    simp only [copyPacket,hf]
    split
    case isTrue hlt =>
      have hfit : n+(replicate (minFrameLen-n) (0 : UInt8)).length≤f.length := by
        rw [length_replicate]
        omega
      refine ⟨_,_,by rw [put_fits hfit]; rfl,?_⟩
      rw [patch_length hfit,hlen]
    case isFalse => exact ⟨_,_,rfl,hlen⟩

theorem finishTCPChecksum_some
    (h : linkLen+4≤frame.length) : ∃ frame', finishTCPChecksum frame linkLen=some frame' := by
  have hlen : ¬ frame.length<linkLen+ipTotalLenOffset+2 := not_lt.mpr h
  simp only [finishTCPChecksum,hlen,if_false]
  split
  case isTrue => exact ⟨_,rfl⟩
  rename_i hin
  have hfit : linkLen+ipHeaderLength (frame.drop linkLen)+18≤frame.length := by
    simp only [not_or,not_lt,tcpMinimumSize] at hin
    omega
  have hzero : put frame (linkLen+ipHeaderLength (frame.drop linkLen)+tcpChecksumOffset) [0,0] =
      some (patch frame (linkLen+ipHeaderLength (frame.drop linkLen)+tcpChecksumOffset) [0,0]) :=
    put_fits hfit
  have hlen' : (patch frame (linkLen+ipHeaderLength (frame.drop linkLen)+tcpChecksumOffset)
      [0,0]).length=frame.length := patch_length hfit
  rw [hzero,bind_eq_bind,bind_some,put_fits (by rw [hlen']; exact hfit)]
  exact ⟨_,rfl⟩

theorem buildWhole_some (p : PacketBuffer)
    (h : minFrameLen≤frame.length) (hlink : linkLen≤vlanHdrLen) :
    ∃ frame' n, buildWhole linkLen frame p=some (frame',n) := by
  obtain ⟨f,n,hcopy,hlen⟩ := copyPacket_some p h
  have hroom : linkLen+4≤f.length := by
    have h18 : linkLen≤18 := hlink
    have h60 : 60≤frame.length := h
    omega
  obtain ⟨f',hsum⟩ := finishTCPChecksum_some hroom
  rw [buildWhole,hcopy,bind_eq_bind,bind_some]
  simp only [hsum]
  split
  · exact ⟨_,_,rfl⟩
  · exact ⟨_,_,rfl⟩

/-! The builder's place in the batch -/

/-- `b` is frame `i` of the packet. -/
def Own (linkLen : Nat) (p : PacketBuffer) (i : Nat) (b : Built) : Prop :=
  if segments p=1 then
    (buildWhole linkLen b.memory p).map (fun r => r.1.take r.2)=some b.bytes
  else b.bytes=p.wireFrame i

/-- The frames follow each other, from frame `i` of the first packet on. -/
def InOrder (linkLen : Nat) : List PacketBuffer → Nat → List Built → Prop
  | _, _, [] => True
  | [], _, _::_ => False
  | p::ps, i, b::bs => Own linkLen p i b ∧
    if i+1<segments p then InOrder linkLen (p::ps) (i+1) bs else InOrder linkLen ps 0 bs

def Sendable (linkLen : Nat) (p : PacketBuffer) : Prop :=
  segments p≠1 → Splittable p ∧ p.linkLen=linkLen

structure Room (pkts : List PacketBuffer) (memory : List UInt8) : Prop where
  min : minFrameLen ≤ memory.length
  segment : ∀ p∈pkts, segments p≠1 → p.headerSize+p.gso.mss.toNat ≤ memory.length

structure Copier.At (ps : List PacketBuffer) (i : Nat) (c : Copier) : Prop where
  left : c.pkts.drop c.p=ps
  segs : c.segs=c.pkts.map segments
  size : c.s.tmpl.length=maxHeaderTemplate
  gso : c.gso=decide (0 < i)
  ready : 0 < i → ∃ p rest, ps=p::rest ∧ c.s.Ready p i

theorem segments_pos (p : PacketBuffer) : 0<segments p := by
  simp only [segments]
  split
  case isTrue => exact one_pos
  rename_i hgso
  split
  case isTrue => exact one_pos
  rename_i hgt
  have hne : p.gso.mss≠0 := fun h => hgso (by simp [h])
  have hpos : 0<p.gso.mss.toNat := pos_of_ne_zero fun h => hne (UInt16.toNat_inj.mp h)
  exact div_pos (by omega) hpos

namespace Copier
variable {linkLen i : Nat} {p : PacketBuffer} {rest : List PacketBuffer} {c : Copier}

theorem At.packet (h : c.At (p::rest) i) :
    c.pkts[c.p]? = some p ∧ c.segs[c.p]? = some (segments p) ∧ c.pkts.drop (c.p+1)=rest := by
  have hget : c.pkts[c.p]? = some p := by rw [← head?_drop,h.left,head?_cons]
  refine ⟨hget,?_,?_⟩
  · rw [h.segs,getElem?_map,hget]
    rfl
  · rw [← drop_drop,h.left]
    rfl

theorem At.start (h : c.At (p::rest) i) (hp : Splittable p) (k : Counters) (seg : Nat) :
    ∃ s k', c.start p.linkLen k p seg=some ({ c with s, gso := true },k') ∧ s.Ready p i ∧
      k'.txDropped=k.txDropped := by
  rw [Copier.start,h.gso]
  cases i with
  | zero =>
    obtain ⟨s,hinit,hready⟩ := Segmenter.ready_init hp h.size
    rw [hinit]
    exact ⟨s,_,rfl,hready,rfl⟩
  | succ i =>
    obtain ⟨p',rest',heq,hready⟩ := h.ready (succ_pos i)
    cases heq
    refine ⟨c.s,k,?_,hready,rfl⟩
    have hgso : c.gso=true := h.gso.trans (decide_eq_true (succ_pos i))
    rw [if_pos (decide_eq_true (succ_pos i)),← hgso]

theorem At.build (h : c.At (p::rest) i) (hi : i<segments p) (hp : Sendable linkLen p)
    (hlink : linkLen≤vlanHdrLen) {memory : List UInt8} (hroom : Room [p] memory) (k : Counters) :
    ∃ c' k' frame len, c.build linkLen k c.frame memory=some (c',k',frame,len) ∧
      Own linkLen p i ⟨memory,frame.take len⟩ ∧ c'.frame=c.frame+1 ∧
      k'.txDropped=k.txDropped ∧
      if i+1<segments p then c'.At (p::rest) (i+1) else c'.At rest 0 := by
  obtain ⟨hpkt,hseg,hdrop⟩ := h.packet
  by_cases hone : segments p=1
  · obtain ⟨frame,len,hwhole⟩ := buildWhole_some p hroom.min hlink
    have hi0 : i=0 := by omega
    refine ⟨{ c with p := c.p+1, frame := c.frame+1 },k,frame,len,?_,?_,rfl,rfl,?_⟩
    · simp [Copier.build,hpkt,hseg,hone,hwhole]
    · rw [Own,if_pos hone,hwhole]
      rfl
    · rw [if_neg (by omega)]
      exact ⟨hdrop,h.segs,h.size,h.gso.trans (by rw [hi0]),nofun⟩
  obtain ⟨hsplit,rfl⟩ := hp hone
  have h' : At (p::rest) i { c with frame := c.frame+1 } := { h with }
  obtain ⟨s,k',hstart,hready,hdropped⟩ := h'.start hsplit k (segments p)
  have hfit : p.headerSize+(p.chunk i).length ≤ memory.length := by
    have hmem := hroom.segment p (mem_singleton.mpr rfl) hone
    have hlen := p.chunk_length i
    omega
  obtain ⟨s',frame,len,hnext,hwire,hready'⟩ := hready.next hsplit hroom.min hfit
  have hdone : s'.done=decide (segments p ≤ i+1) := by rw [Segmenter.done,hready'.seg,hready'.nseg]
  by_cases hlast : i+1<segments p
  · refine ⟨{ c with s := s', gso := true, frame := c.frame+1 },k',frame,len,?_,?_,rfl,hdropped,?_⟩
    · simp [Copier.build,hpkt,hseg,hone,hstart,hnext,hdone,hlast]
    · rwa [Own,if_neg hone]
    · rw [if_pos hlast]
      exact ⟨h.left,h.segs,hready'.size,(decide_eq_true (succ_pos i)).symm,
        fun _ => ⟨p,rest,rfl,hready'⟩⟩
  refine ⟨{ c with s := s', gso := false, p := c.p+1, frame := c.frame+1 },k',frame,len,?_,?_,
    rfl,hdropped,?_⟩
  · simp [Copier.build,hpkt,hseg,hone,hstart,hnext,hdone,hlast]
  · rwa [Own,if_neg hone]
  · rw [if_neg hlast]
    exact ⟨hdrop,h.segs,hready'.size,rfl,nofun⟩

theorem At.buildAll {mems : List (List UInt8)} (h : c.At ps i)
    (hi : ∀ p∈ps.head?, i<segments p) (hp : ∀ p∈ps, Sendable linkLen p)
    (hlink : linkLen≤vlanHdrLen) (hroom : ∀ memory∈mems, Room ps memory)
    (hcount : mems.length+i≤(ps.map segments).sum) (k : Counters) :
    ∃ c' k' built, c.buildAll linkLen mems c.frame k=some (c',k',built) ∧
      built.length=mems.length ∧ InOrder linkLen ps i built ∧
      c'.s.tmpl.length=maxHeaderTemplate ∧ k'.txDropped=k.txDropped := by
  induction mems generalizing ps i c k with
  | nil => exact ⟨c,k,[],rfl,rfl,by cases ps <;> trivial,h.size,rfl⟩
  | cons memory mems ih =>
    rw [length_cons] at hcount
    rcases ps with _ | ⟨p,rest⟩
    · rw [map_nil,sum_nil] at hcount
      omega
    rw [map_cons,sum_cons] at hcount
    have hip := hi p rfl
    have hroom0 := hroom memory (by simp)
    obtain ⟨c1,k1,frame,len,hbuild,hown,hframe,hdropped,hat⟩ := h.build hip (hp p (by simp)) hlink
      ⟨hroom0.min,fun q hq => hroom0.segment q (by rw [mem_singleton.mp hq]; simp)⟩ k
    by_cases hlast : i+1<segments p
    · rw [if_pos hlast] at hat
      obtain ⟨c',k',built,hall,hlen,horder,hsize,hrest⟩ :=
        ih hat (fun q hq => by cases hq; exact hlast) hp
        (fun m hm => hroom m (by simp [hm])) (by rw [map_cons,sum_cons]; omega) k1
      rw [hframe] at hall
      refine ⟨c',k',⟨memory,frame.take len⟩::built,?_,by rw [length_cons,hlen]; rfl,?_,hsize,
        hrest.trans hdropped⟩
      · simp [Copier.buildAll,hbuild,hall]
      · exact ⟨hown,by rw [if_pos hlast]; exact horder⟩
    rw [if_neg hlast] at hat
    obtain ⟨c',k',built,hall,hlen,horder,hsize,hrest⟩ := ih hat (fun q _ => segments_pos q)
      (fun q hq => hp q (by simp [hq]))
      (fun m hm => ⟨(hroom m (by simp [hm])).min,
        fun q hq => (hroom m (by simp [hm])).segment q (by simp [hq])⟩) (by omega) k1
    rw [hframe] at hall
    refine ⟨c',k',⟨memory,frame.take len⟩::built,?_,by rw [length_cons,hlen]; rfl,?_,hsize,
      hrest.trans hdropped⟩
    · simp [Copier.buildAll,hbuild,hall]
    · exact ⟨hown,by rw [if_neg hlast]; exact horder⟩

end Copier

/-! The frames of each packet -/

structure Part (linkLen : Nat) (p : PacketBuffer) (i : Nat) (part : List Built) : Prop where
  length : part.length+i ≤ segments p
  own : ∀ j b, part[j]? = some b → Own linkLen p (i+j) b

theorem InOrder.split {p : PacketBuffer} (h : InOrder linkLen (p::ps) i bs) (hi : i<segments p) :
    Part linkLen p i (bs.take (segments p-i)) ∧ InOrder linkLen ps 0 (bs.drop (segments p-i)) := by
  induction bs generalizing i with
  | nil =>
    refine ⟨⟨by simp; omega,by simp⟩,?_⟩
    rw [drop_nil]
    cases ps <;> trivial
  | cons b bs ih =>
    obtain ⟨hown,hrest⟩ := h
    obtain ⟨n,hn⟩ : ∃ n, segments p-i=n+1 := ⟨segments p-i-1,by omega⟩
    rw [hn,take_succ_cons,drop_succ_cons]
    split at hrest
    case isTrue hlast =>
      obtain ⟨hpart,horder⟩ := ih hrest hlast
      have hn' : segments p-(i+1)=n := by omega
      rw [hn'] at hpart horder
      refine ⟨⟨?_,fun j b' hj => ?_⟩,horder⟩
      · have hlen := hpart.length
        rw [length_cons]
        omega
      · cases j with
        | zero =>
          cases hj
          exact hown
        | succ j =>
          have hj' := hpart.own j b' hj
          rwa [add_assoc,add_comm 1 j] at hj'
    case isFalse hlast =>
      have hn' : n=0 := by omega
      subst hn'
      refine ⟨⟨?_,fun j b' hj => ?_⟩,hrest⟩
      · rw [take_zero,length_singleton]
        omega
      · cases j with
        | zero =>
          cases hj
          exact hown
        | succ j => simp at hj

theorem InOrder.take
    (h : InOrder linkLen ps i bs) (n : Nat) : InOrder linkLen ps i (bs.take n) := by
  induction bs generalizing ps i n with
  | nil => rwa [take_nil]
  | cons b bs ih =>
    cases n with
    | zero => cases ps <;> trivial
    | succ n =>
      rcases ps with _ | ⟨p,ps⟩
      · exact h
      obtain ⟨hown,hrest⟩ := h
      refine ⟨hown,?_⟩
      split at hrest
      case isTrue hlast =>
        rw [if_pos hlast]
        exact ih hrest n
      rename_i hlast
      rw [if_neg hlast]
      exact ih hrest n

def Begun (linkLen : Nat) (ps : List PacketBuffer) (parts : List (List Built)) : Prop :=
  List.Forall₂ (fun p part => Part linkLen p 0 part ∧ part ≠ []) ps parts

theorem InOrder.parts (h : InOrder linkLen ps 0 bs) : ∃ parts, parts.flatten=bs ∧
      parts.length=counted (ps.map segments) bs.length ∧ parts.length≤ps.length ∧
      Begun linkLen (ps.take parts.length) parts := by
  induction ps generalizing bs with
  | nil =>
    cases bs with
    | nil => exact ⟨[],rfl,rfl,le_refl _,.nil⟩
    | cons b bs => exact h.elim
  | cons p ps ih =>
    have hpos := segments_pos p
    obtain ⟨hpart,hrest⟩ := h.split hpos
    rw [Nat.sub_zero] at hpart hrest
    rw [map_cons]
    rcases Nat.eq_zero_or_pos bs.length with hnil | hsome
    · refine ⟨[],(List.length_eq_zero_iff.mp hnil).symm,?_,zero_le _,.nil⟩
      rw [hnil,counted_zero _ fun s hs => ?_]
      · rfl
      · obtain rfl | hs := mem_cons.mp hs
        · exact hpos
        · obtain ⟨q,-,rfl⟩ := mem_map.mp hs
          exact segments_pos q
    have hne : bs.take (segments p) ≠ [] := by
      intro hnil
      have hlen := congrArg length hnil
      rw [length_take,length_nil] at hlen
      omega
    by_cases hlt : bs.length<segments p
    · refine ⟨[bs.take (segments p)],?_,?_,succ_le_succ (zero_le _),.cons ⟨hpart,hne⟩ .nil⟩
      · rw [flatten_singleton,take_of_length_le (le_of_lt hlt)]
      · rw [counted_cons_gt _ hlt hsome]
        rfl
    obtain ⟨parts,hflat,hcount,hle,hall⟩ := ih hrest
    refine ⟨bs.take (segments p)::parts,?_,?_,succ_le_succ hle,.cons ⟨hpart,hne⟩ hall⟩
    · rw [flatten_cons,hflat,take_append_drop]
    · rw [counted_cons_le _ (not_lt.mp hlt),length_cons,hcount,length_drop]

/-! The queue -/

section
variable {e : Endpoint} {pkts : List PacketBuffer} (hp : ∀ p∈pkts, Sendable e.linkLen p)
  (hlink : e.linkLen≤vlanHdrLen)
include hp hlink

theorem TxQueue.transmit_spec {a : Attempt} (hsize : q.builder.s.tmpl.length=maxHeaderTemplate)
    (hroom : ∀ memory∈a.frames, Room pkts memory) (herr : a.err=false) (hsend : a.sendErr=false) :
    ∃ q' parts, q.transmit e a pkts=some (q',parts.length,false,parts.flatten) ∧
      parts.length≤pkts.length ∧ Begun e.linkLen (pkts.take parts.length) parts ∧
      q'.builder.s.tmpl.length=maxHeaderTemplate ∧ q'.counters.txDropped=q.counters.txDropped := by
  have hnone : ∃ q' parts, some (q,0,false,[])=some (q',parts.length,false,parts.flatten) ∧
      parts.length≤pkts.length ∧ Begun e.linkLen (pkts.take parts.length) parts ∧
      q'.builder.s.tmpl.length=maxHeaderTemplate ∧
      q'.counters.txDropped=q.counters.txDropped :=
    ⟨q,[],rfl,zero_le _,.nil,hsize,rfl⟩
  simp only [TxQueue.transmit,herr,Bool.false_eq_true,if_false]
  split
  case isTrue => exact hnone
  obtain ⟨hle,hsum⟩ := admit_spec ((pkts.map segments).take a.budget.toNat) a.budget.toNat
  cases hadm : admitPackets ((pkts.map segments).take a.budget.toNat) a.budget.toNat with
  | mk admitted frames =>
    rw [hadm] at hle hsum
    split
    case isTrue => exact hnone
    have hmin : admitted≤a.budget.toNat ∧ admitted≤pkts.length := by
      rw [length_take,length_map] at hle
      omega
    have hsegs : ((pkts.map segments).take a.budget.toNat).take admitted =
        (pkts.take admitted).map segments := by
      rw [take_take,min_eq_left hmin.1,map_take]
    have hat : Copier.At (pkts.take admitted) 0
        { q.builder with pkts := pkts.take admitted, segs := (pkts.take admitted).map segments,
                         p := 0, gso := false, frame := 0 } :=
      ⟨drop_zero,rfl,hsize,rfl,nofun⟩
    have hfit : (a.frames.take frames).length+0≤((pkts.take admitted).map segments).sum := by
      have hframes : frames=((pkts.take admitted).map segments).sum := by rw [← hsegs]; exact hsum
      rw [length_take,← hframes]
      omega
    have hmem : ∀ memory∈a.frames.take frames, Room (pkts.take admitted) memory :=
      fun memory hm => ⟨(hroom memory (mem_of_mem_take hm)).min,
        fun p hmem => (hroom memory (mem_of_mem_take hm)).segment p (mem_of_mem_take hmem)⟩
    obtain ⟨c',k',built,hall,hlen,horder,hsize',hdropped⟩ := hat.buildAll
      (fun p _ => segments_pos p) (fun p hm => hp p (mem_of_mem_take hm)) hlink hmem hfit
      q.counters
    obtain ⟨parts,hflat,hcount,hparts,hbegun⟩ := (horder.take (min a.taken built.length)).parts
    have hn : (built.take (min a.taken built.length)).length=min a.taken built.length := by
      rw [length_take]
      omega
    rw [hn] at hcount
    rw [length_take,min_eq_left hmin.2] at hparts
    rw [take_take,min_eq_left hparts] at hbegun
    simp only [hsegs,hall,bind_eq_bind,bind_some,hsend,Bool.false_eq_true,if_false]
    refine ⟨⟨{ c' with pkts := [], segs := [] },{ k' with tx := k'.tx+min a.taken built.length }⟩,
      parts,?_,hparts.trans hmin.2,hbegun,hsize',hdropped⟩
    rw [hflat,hcount]
    rfl

structure Outcome.Good (linkLen : Nat) (pkts : List PacketBuffer) (dropped : Nat) (o : Outcome) :
    Prop where
  closed : o.closed=false
  sent : o.sent≤pkts.length
  wire : ∃ parts, o.wire=parts.flatten ∧ Begun linkLen (pkts.take o.sent) parts
  dropped : o.queue.counters.txDropped=dropped+(pkts.length-o.sent)

omit hp hlink in
theorem Outcome.good_drop {sent : Nat} {parts : List (List Built)}
    (hsent : sent≤pkts.length) (hparts : Begun e.linkLen (pkts.take sent) parts) :
    Outcome.Good e.linkLen pkts q.counters.txDropped
      ⟨q.drop (pkts.length-sent),sent,false,parts.flatten⟩ :=
  ⟨rfl,hsent,⟨parts,rfl,hparts⟩,rfl⟩

theorem TxQueue.writeLoop_spec {device : Nat → Attempt} {late : Nat}
    (hok : ∀ t, (device t).err=false ∧ (device t).sendErr=false)
    (hlate : ∀ t, late≤t → (device t).late=true)
    (hroom : ∀ t, ∀ memory∈(device t).frames, Room pkts memory) {m t sent : Nat} {waiting : Bool}
    {parts : List (List Built)} (hm : pkts.length-sent+(late-t)+(if waiting then 0 else 1) < m)
    (hsize : q.builder.s.tmpl.length=maxHeaderTemplate) (hsent : sent≤pkts.length)
    (hparts : Begun e.linkLen (pkts.take sent) parts) :
    ∃ o, (∀ fuel, m≤fuel → q.writeLoop e device pkts fuel t sent waiting parts.flatten=some o) ∧
      o.Good e.linkLen pkts q.counters.txDropped := by
  induction m generalizing t sent q waiting parts with
  | zero => omega
  | succ m ih =>
    by_cases hdone : pkts.length ≤ sent
    · refine ⟨_,fun fuel hf => ?_,Outcome.good_drop hsent hparts⟩
      obtain ⟨f,rfl⟩ := Nat.exists_eq_add_of_le' hf
      rw [← add_assoc,TxQueue.writeLoop,if_pos hdone]
    have hp' : ∀ p∈pkts.drop sent, Sendable e.linkLen p :=
      fun p hmem => hp p (mem_of_mem_drop hmem)
    have hroom' : ∀ memory∈(device t).frames, Room (pkts.drop sent) memory :=
      fun memory hmem => ⟨(hroom t memory hmem).min,
        fun p hp => (hroom t memory hmem).segment p (mem_of_mem_drop hp)⟩
    obtain ⟨q',more,htransmit,hmore,hbegun,hsize',hdropped⟩ :=
      TxQueue.transmit_spec hp' hlink hsize hroom' (hok t).1 (hok t).2
    rw [length_drop] at hmore
    have hparts' : Begun e.linkLen (pkts.take (sent+more.length)) (parts++more) := by
      rw [take_add]
      exact rel_append hparts hbegun
    -- the turn of the loop, whatever comes after it
    have hturn (f : Nat) : q.writeLoop e device pkts (f+1) t sent waiting parts.flatten =
        if 0 < more.length then
          q'.writeLoop e device pkts f (t+1) (sent+more.length) waiting (parts++more).flatten
        else if e.directTx then some ⟨q'.drop (pkts.length-(sent+more.length)),
          sent+more.length,false,(parts++more).flatten⟩
        else if !waiting then q'.wait.writeLoop e device pkts f (t+1) (sent+more.length) true
          (parts++more).flatten
        else if (device t).late then some ⟨q'.drop (pkts.length-(sent+more.length)),
          sent+more.length,false,(parts++more).flatten⟩
        else q'.writeLoop e device pkts f (t+1) (sent+more.length) waiting
          (parts++more).flatten := by
      rw [TxQueue.writeLoop,if_neg hdone,htransmit,flatten_append]
      rfl
    have hend : Outcome.Good e.linkLen pkts q.counters.txDropped
        ⟨q'.drop (pkts.length-(sent+more.length)),sent+more.length,false,
          (parts++more).flatten⟩ := by
      rw [← hdropped]
      exact Outcome.good_drop (by omega) hparts'
    have hsucc (fuel : Nat) (hf : m+1≤fuel) : ∃ f, fuel=f+1 ∧ m≤f := ⟨fuel-1,by omega,by omega⟩
    by_cases hn : 0 < more.length
    · have hm' : pkts.length-(sent+more.length)+(late-(t+1))+(if waiting then 0 else 1) < m := by
        omega
      obtain ⟨o,ho,hgood⟩ := ih (q := q') hm' hsize' (by omega) hparts'
      refine ⟨o,fun fuel hf => ?_,hdropped ▸ hgood⟩
      obtain ⟨f,rfl,hle⟩ := hsucc fuel hf
      rw [hturn,if_pos hn,ho f hle]
    by_cases hdirect : e.directTx=true
    · refine ⟨_,fun fuel hf => ?_,hend⟩
      obtain ⟨f,rfl,-⟩ := hsucc fuel hf
      rw [hturn,if_neg hn,if_pos hdirect]
    cases waiting with
    | false =>
      have hm' : pkts.length-(sent+more.length)+(late-(t+1))+(if true then 0 else 1) < m := by
        simp only [Bool.false_eq_true,if_false] at hm
        simp only [if_true]
        omega
      obtain ⟨o,ho,hgood⟩ := ih (q := q'.wait) hm' hsize' (by omega) hparts'
      refine ⟨o,fun fuel hf => ?_,hdropped ▸ hgood⟩
      obtain ⟨f,rfl,hle⟩ := hsucc fuel hf
      rw [hturn,if_neg hn,if_neg hdirect]
      exact ho f hle
    | true =>
      by_cases hover : (device t).late=true
      · refine ⟨_,fun fuel hf => ?_,hend⟩
        obtain ⟨f,rfl,-⟩ := hsucc fuel hf
        rw [hturn,if_neg hn,if_neg hdirect,if_pos hover]
        rfl
      have htime : t<late := Nat.lt_of_not_le fun hle => hover (hlate t hle)
      have hm' : pkts.length-(sent+more.length)+(late-(t+1))+(if true then 0 else 1) < m := by
        omega
      obtain ⟨o,ho,hgood⟩ := ih (q := q') hm' hsize' (by omega) hparts'
      refine ⟨o,fun fuel hf => ?_,hdropped ▸ hgood⟩
      obtain ⟨f,rfl,hle⟩ := hsucc fuel hf
      rw [hturn,if_neg hn,if_neg hdirect,if_neg hover]
      exact ho f hle

end

/-- Whatever the device does, as long as it does not fail and time goes on: the call returns,
the frames on the wire are, packet after packet, the first ones of each packet counted as
sent, at least one of each, and the rest of the batch is counted as dropped. -/
theorem writePackets_once {e : Endpoint} (hopen : e.txClosed = false)
    (hlink : e.linkLen ≤ vlanHdrLen) {q : TxQueue}
    (hsize : q.builder.s.tmpl.length = maxHeaderTemplate) {device : Nat → Attempt}
    (hok : ∀ t, (device t).err = false ∧ (device t).sendErr = false)
    (htime : ∃ late, ∀ t, late ≤ t → (device t).late = true) {pkts : List PacketBuffer}
    (hp : ∀ p ∈ pkts, Sendable e.linkLen p)
    (hroom : ∀ t, ∀ memory ∈ (device t).frames, Room pkts memory) :
    ∃ o, (∃ m, ∀ fuel, m ≤ fuel → q.writePackets e device pkts fuel = some o) ∧ o.closed = false ∧
      (∃ parts, o.wire = parts.flatten ∧ Begun e.linkLen (pkts.take o.sent) parts) ∧
      o.sent+(o.queue.counters.txDropped-q.counters.txDropped) = pkts.length := by
  obtain ⟨late,hlate⟩ := htime
  by_cases hempty : pkts.length=0
  · refine ⟨⟨q,0,false,[]⟩,⟨0,fun fuel _ => by rw [TxQueue.writePackets,if_pos hempty]⟩,rfl,
      ⟨[],rfl,.nil⟩,?_⟩
    rw [hempty]
    change 0+(q.counters.txDropped-q.counters.txDropped)=0
    omega
  have hm : pkts.length-0+(late-0)+(if false then 0 else 1)<pkts.length+late+2 := by
    simp only [Bool.false_eq_true,if_false]
    omega
  have hstart : Begun e.linkLen (pkts.take 0) [] := .nil
  obtain ⟨o,ho,hgood⟩ := TxQueue.writeLoop_spec hp hlink hok hlate hroom hm hsize (zero_le _)
    hstart
  have hsent := hgood.sent
  refine ⟨o,⟨pkts.length+late+2,fun fuel hf => ?_⟩,hgood.closed,hgood.wire,
    by rw [hgood.dropped]; omega⟩
  rw [TxQueue.writePackets,if_neg hempty,hopen]
  exact ho fuel hf

def freshQueue : TxQueue := ⟨⟨[],[],0,0,Segmenter.zero,false⟩,{}⟩

def takesTwo (_ : Nat) : Attempt :=
  ⟨false,4,List.replicate 4 (List.replicate 64 0xff),2,false,true⟩

theorem writePackets_once_two : ∃ o,
    (∃ m, ∀ fuel, m ≤ fuel → freshQueue.writePackets ⟨14,false,false⟩ takesTwo [fiveBytes] fuel =
      some o) ∧ o.closed = false ∧
    (∃ parts, o.wire = parts.flatten ∧ Begun 14 ([fiveBytes].take o.sent) parts) ∧
    o.sent+(o.queue.counters.txDropped-0) = 1 := by
  refine writePackets_once (e := ⟨14,false,false⟩) rfl (by decide) length_replicate
    (fun _ => ⟨rfl,rfl⟩)
    ⟨0,fun _ _ => rfl⟩ (fun p hp => ?_) (fun t memory hm => ?_)
  · rw [mem_singleton.mp hp]
    exact fun _ => ⟨fiveBytes_splittable,rfl⟩
  · have hmem := eq_of_mem_replicate hm
    rw [hmem]
    refine ⟨by decide,fun p hp _ => ?_⟩
    rw [mem_singleton.mp hp]
    decide

end Packetio.Netstack

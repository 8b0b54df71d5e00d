import Packetio.Afpacket.KernelBlocks
import Mathlib.Data.List.Forall2

/-! Every packet that the kernel puts into the ring is delivered once, whole and in order, or
counted, over any sequence of calls. -/
namespace Packetio.Afpacket
open Lib List Nat UInt32

section
variable {o o' : Output} {slot n m : Nat}

theorem pieces_append : o.pieces slot (n+m)=o.pieces slot n++o.pieces (slot+n) m := by
  induction n generalizing slot with
  | zero => rw [zero_add,add_zero,Output.pieces,nil_append]
  | succ n ih =>
    have hslot : slot+1+n=slot+(n+1) := by omega
    rw [add_right_comm,Output.pieces,Output.pieces,ih,hslot,cons_append]

theorem pieces_congr (h : ∀ i, i<n → o.Same o' (slot+i)) : o'.pieces slot n=o.pieces slot n := by
  induction n generalizing slot with
  | zero => rfl
  | succ n ih =>
    have hfirst := h 0 (by omega)
    rw [add_zero] at hfirst
    have hrest : o'.pieces (slot+1) n=o.pieces (slot+1) n := ih fun i hi => by
      have := h (i+1) (by omega)
      rwa [add_comm i,← add_assoc] at this
    rw [Output.pieces,Output.pieces,hrest,Output.got,Output.got,hfirst.bufs,hfirst.lens,
      hfirst.cont]

theorem assemble_append (xs ys : List (List UInt8 × Bool)) (h : ∀ x∈xs.getLast?, x.2=false) :
    assemble (xs++ys)=assemble xs++assemble ys := by
  induction xs with
  | nil => rfl
  | cons x xs ih =>
    obtain ⟨bytes,mark⟩ := x
    rcases xs with _ | ⟨y,xs⟩
    · have hm : mark=false := h (bytes,mark) rfl
      subst hm
      rfl
    have hih := ih fun z hz => h z (by rwa [getLast?_cons_cons])
    rcases mark with _ | _
    · rw [cons_append,assemble,hih,assemble,cons_append]
    rw [cons_append,assemble,hih,assemble]
    have hne : assemble (y::xs) ≠ [] := by
      obtain ⟨bytes',mark'⟩ := y
      cases mark' with
      | false => simp [assemble]
      | true =>
        rw [assemble]
        split <;> simp
    obtain ⟨packet,packets,hp⟩ := exists_cons_of_ne_nil hne
    rw [hp]
    rfl

theorem assemble_pieces (hn : 0<n) (h : ∀ i, i<n → o.cont (slot+i)=decide (i+1<n)) :
    assemble (o.pieces slot n) = [o.joined slot n] := by
  induction n generalizing slot with
  | zero => omega
  | succ n ih =>
    have hfirst := h 0 (by omega)
    rw [add_zero] at hfirst
    cases n with
    | zero =>
      rw [Output.pieces,hfirst]
      simp [Output.pieces,assemble,Output.joined]
    | succ n =>
      have hrest : assemble (o.pieces (slot+1) (n+1)) = [o.joined (slot+1) (n+1)] :=
        ih (by omega) fun i hi => by
        have := h (i+1) (by omega)
        rw [add_comm i,← add_assoc] at this
        rw [this]
        exact decide_eq_decide.mpr (by omega)
      have hmark : o.cont slot=true := by rw [hfirst]; exact decide_eq_true (by omega)
      rw [Output.pieces,hmark,assemble,hrest]
      rfl

theorem pieces_last {x : List UInt8 × Bool} (h : ∀ i, i+1=n → o.cont (slot+i)=false)
    (hx : x∈(o.pieces slot n).getLast?) : x.2=false := by
  cases n with
  | zero => simp [Output.pieces] at hx
  | succ n =>
    rw [pieces_append,getLast?_append] at hx
    simp only [Output.pieces,getLast?_singleton,Option.some_or,Option.mem_some_iff] at hx
    rw [← hx]
    exact h n rfl

end

section
variable {r : Ring} {p : Arrival} {ps : List Arrival}

theorem FrameAt.cursor (h : FrameAt r.mem r.blockSize.toNat r.vnet r.start r.frameOff.toNat p) :
    r.Fits ∧ Describes r.tph p ∧ r.packet=p.wire := by
  have hs := h.describes.snaplen
  have hdata : r.data=p.data := by
    rw [Ring.data,Ring.dataAt,Ring.tph,hs]
    exact h.data
  refine ⟨⟨h.hdr,?_,h.vnet⟩,h.describes,?_⟩
  · rw [Ring.tph,hs]
    exact h.fits
  · rw [Ring.packet,hdata]
    exact h.describes.wire

theorem Frames.advance (h : Frames r.mem r.blockSize.toNat r.vnet r.start r.frameOff.toNat (p::ps))
    (hn : r.numPkts.toNat=(p::ps).length) : (r.advance r.tph.tpNextOffset).numPkts.toNat=ps.length ∧
      Frames r.mem r.blockSize.toNat r.vnet r.start
        (r.advance r.tph.tpNextOffset).frameOff.toNat ps := by
  cases h with
  | cons hf hnext hs =>
    have hone : toNat 1=1 := rfl
    rw [length_cons] at hn
    have hsub := toNat_sub (x := r.numPkts) (y := 1) (by omega)
    rw [Ring.advance]
    split
    case isTrue hz =>
      have hnil : ps = [] := by
        by_contra hne
        exact hnext hne hz
      rw [hnil]
      exact ⟨rfl,.nil⟩
    refine ⟨by change (r.numPkts-1).toNat=_; omega,?_⟩
    rcases hs with _ | ⟨hf',hnext',hs'⟩
    · exact .nil
    -- the next header is in the block, so the sum of the offsets does not wrap
    have hlt := r.blockSize.toNat_lt
    have hh := hf'.hdr
    have hsum : (r.frameOff+r.tph.tpNextOffset).toNat =
        r.frameOff.toNat+(frameHdrAt r.mem (r.start+r.frameOff.toNat)).tpNextOffset.toNat := by
      rw [UInt32.toNat_add,Ring.tph]
      exact mod_eq_of_lt (by omega)
    rw [hsum]
    exact .cons hf' hnext' hs'

end

structure Ring.Moved (r r' : Ring) : Prop where
  kept : r.Kept r'
  numPkts : r'.numPkts=(r.advance r.tph.tpNextOffset).numPkts
  frameOff : r'.frameOff=(r.advance r.tph.tpNextOffset).frameOff
  pending : r'.pending=r.pending

theorem advance_counted (r : Ring) (n k : UInt64) (next : UInt32) :
    ({ r with oversize := n, batchTooSmall := k }.advance next).numPkts=(r.advance next).numPkts ∧
      ({ r with oversize := n, batchTooSmall := k }.advance next).frameOff =
        (r.advance next).frameOff := by
  simp only [Ring.advance]
  split
  case isTrue | isFalse => exact ⟨rfl,rfl⟩

theorem moved_advance (r : Ring) : r.Moved (r.advance r.tph.tpNextOffset) :=
  ⟨advance_kept _ _,rfl,rfl,(advance_same _ _).1⟩

theorem moved_skip (r : Ring) (k : UInt64) :
    r.Moved ({ r with batchTooSmall := k }.skip r.tph) := by
  obtain ⟨hn,ho⟩ := advance_counted r (r.oversize+1) k r.tph.tpNextOffset
  have hk := skip_kept { r with batchTooSmall := k } r.tph
  exact ⟨{ hk with },hn,ho,(advance_same _ _).1⟩

theorem skip_oversize (r : Ring) (tph : Tpacket3Hdr) : (r.skip tph).oversize=r.oversize+1 :=
  (advance_same _ _).2.1

variable {rooms : List Nat} {p : Arrival} {ps rest : List Arrival} {blocks : List (List Arrival)}

section
variable {c : Call} {chain : Bool} {n0 : UInt64} {s s' : Reading Unit}
  {evs more : List (Arrival × Fate)} {p : Arrival} {nx : Next}

theorem deliveries_append : deliveries (evs++more)=deliveries evs++deliveries more :=
  filterMap_append

theorem skips_append : skips (evs++more)=skips evs+skips more := countP_append

structure Progress (c : Call) (chain : Bool) (n0 : UInt64) (s : Reading Unit)
    (evs : List (Arrival × Fate)) : Prop where
  got : assemble (s.o.pieces 0 s.out)=deliveries evs
  ended : ∀ i, i+1=s.out → s.o.cont i=false
  clean : ∀ j, s.out≤j → s.o.cont j=false
  oversize : s.ring.oversize=n0+UInt64.ofNat (skips evs)
  fair : ∀ e∈evs, Fair c chain e.1 e.2
  chain : s.ring.chain=chain

section
variable (h : Progress c chain n0 s evs)
include h

section
variable (hout : s'.out=s.out) (hsame : ∀ j, j<s.out → s.o.Same s'.o j) (hcont : s'.o.cont=s.o.cont)
include hout hsame hcont

theorem Progress.undelivered (hnone : deliveries more = [])
    (hover : s'.ring.oversize=s.ring.oversize+UInt64.ofNat (skips more))
    (hfair : ∀ e∈more, Fair c chain e.1 e.2) (hch : s'.ring.chain=s.ring.chain) :
    Progress c chain n0 s' (evs++more) := by
  refine ⟨?_,fun i hi => ?_,fun j hj => ?_,?_,fun e he => ?_,hch.trans h.chain⟩
  · rw [hout,pieces_congr fun i hi => by rw [zero_add]; exact hsame i hi,h.got,
      deliveries_append,hnone,append_nil]
  · rw [hcont]
    exact h.ended i (by omega)
  · rw [hcont]
    exact h.clean j (by omega)
  · rw [hover,h.oversize,skips_append,UInt64.ofNat_add,UInt64.add_assoc]
  · rcases mem_append.mp he with he | he
    · exact h.fair e he
    · exact hfair e he

theorem Progress.same
    (hover : s'.ring.oversize=s.ring.oversize) (hch : s'.ring.chain=s.ring.chain) :
    Progress c chain n0 s' evs := by
  have hp : Progress c chain n0 s' (evs++[]) :=
    h.undelivered hout hsame hcont rfl (hover.trans (UInt64.add_zero _).symm) (nofun) hch
  rwa [append_nil] at hp

end

theorem Progress.skip {f : Fate} (hf : f ≠ .delivered)
    (hout : s'.out=s.out) (hsame : ∀ j, j<s.out → s.o.Same s'.o j)
    (hcont : s'.o.cont=s.o.cont) (hover : s'.ring.oversize=s.ring.oversize+1)
    (hfair : Fair c chain p f) (hch : s'.ring.chain=s.ring.chain) :
    Progress c chain n0 s' (evs++[(p,f)]) := by
  have hnone : deliveries [(p,f)] = [] := by simp [deliveries,hf]
  have hone : skips [(p,f)]=1 := by simp [skips,hf]
  refine h.undelivered hout hsame hcont hnone (by rw [hover,hone]; rfl) (fun e he => ?_) hch
  rwa [mem_singleton.mp he]

theorem Progress.deliver {o' : Output} {b : Batch}
    (hh : Held b s rooms o') (hb : b.cont=true ∨ rooms.length=1)
    (hp : s.ring.packet=p.wire) (hlen : p.len≤p.data.length) (hs : s'.o=o')
    (hout : s'.out=s.out+rooms.length) (hover : s'.ring.oversize=s.ring.oversize)
    (hch : s'.ring.chain=s.ring.chain) : Progress c chain n0 s' (evs++[(p,.delivered)]) := by
  have hpos := length_pos_iff.mpr hh.slots
  have hmarks := hh.marks hb (h.clean _ (le_refl _))
  have hkept : o'.pieces 0 s.out=s.o.pieces 0 s.out :=
    pieces_congr fun i hi => by rw [zero_add]; exact hh.other i (.inl hi)
  have hnew : deliveries [(p,.delivered)] = [p.wire] := by simp [deliveries]
  refine ⟨?_,fun i hi => ?_,fun j hj => ?_,?_,fun e he => ?_,hch.trans h.chain⟩
  · have hlast : ∀ x∈(s.o.pieces 0 s.out).getLast?, x.2=false := fun x hx =>
      pieces_last (fun i hi => by rw [zero_add]; exact h.ended i hi) hx
    rw [hs,hout,pieces_append,zero_add,hkept,assemble_append _ _ hlast,h.got,
      assemble_pieces hpos hmarks,hh.bytes,hp,deliveries_append,hnew]
  · have hi' : i=s.out+(rooms.length-1) := by omega
    rw [hs,hi',hmarks _ (by omega)]
    exact decide_eq_false (by omega)
  · rw [hs,(hh.other j (.inr (by omega))).cont]
    exact h.clean j (by omega)
  · have hzero : skips [(p,Fate.delivered)]=0 := by simp [skips]
    rw [hover,h.oversize,skips_append,hzero,add_zero]
  · rcases mem_append.mp he with he | he
    · exact h.fair e he
    · rwa [mem_singleton.mp he]

end

theorem asks_supply {st st' : Unit} {slot : Nat}
    (h : Asks c.supply st slot rooms st') (i room : Nat) (hi : rooms[i]? = some room) :
    c.dst (slot+i)=some room := by
  induction h generalizing i with
  | nil => simp at hi
  | @cons st st' st'' slot rm rooms hd _ ih =>
    cases i with
    | zero =>
      rw [add_zero,← hi]
      exact congrArg Prod.fst hd
    | succ i =>
      have := ih i hi
      rwa [add_assoc,add_comm 1] at this

theorem Progress.turn (h : Progress c chain n0 s evs)
    (hf : FrameAt s.ring.mem s.ring.blockSize.toNat s.ring.vnet s.ring.start
    s.ring.frameOff.toNat p) (hmax : s.out<c.max) (ht : Turn (c.batch chain) c.supply s s' nx) :
    (nx = .again ∧ s.ring.Moved s'.ring ∧ ∃ f, Progress c chain n0 s' (evs++[(p,f)])) ∨
      (nx = .leave ∧ s'.ring=s.ring ∧ Progress c chain n0 s' evs) ∨
      (nx = .stop ∧ s'.ring = { s.ring with pending := true } ∧ Progress c chain n0 s' evs) := by
  obtain ⟨hfits,hdesc,hpacket⟩ := hf.cursor
  have hclip : s.ring.tph.tpSnaplen<s.ring.tph.tpLen ↔ p.data.length<p.len := by
    rw [lt_iff_toNat_lt,hdesc.snaplen,hdesc.len]
  have hrefl : ∀ j, j<s.out → s.o.Same s.o j := fun j _ => .refl _ j
  cases ht with
  | refused hbad => exact absurd hfits hbad
  | dry => exact .inr (.inl ⟨rfl,rfl,h.same rfl hrefl rfl rfl rfl⟩)
  | clipped _ _ hc =>
    exact .inl ⟨rfl,moved_skip s.ring s.ring.batchTooSmall,.clipped,h.skip (by simp) rfl hrefl rfl
      (skip_oversize _ _) (hclip.mp hc) (skip_kept _ _).chain⟩
  | @tooBig st' room _ hd hc hch hroom =>
    have hfair : Fair c chain p .tooBig :=
      ⟨h.chain.symm.trans hch,s.out,room,hmax,congrArg Prod.fst hd,hpacket ▸ hroom⟩
    exact .inl ⟨rfl,moved_skip s.ring s.ring.batchTooSmall,.tooBig,h.skip (by simp) rfl hrefl rfl
      (skip_oversize _ _) hfair (skip_kept _ _).chain⟩
  | @placed st' o' rooms _ hc hd hh =>
    have hb : (c.batch chain).cont=true ∨ rooms.length=1 := by
      rcases hd with ⟨_,hone⟩ | ⟨hch,_⟩
      · exact .inr hone
      · exact .inl (h.chain.symm.trans hch)
    exact .inl ⟨rfl,moved_advance s.ring,.delivered,h.deliver hh hb hpacket
      (Nat.le_of_not_lt fun hlt => hc (hclip.mpr hlt)) rfl rfl (advance_same _ _).2.1
      (advance_kept _ _).chain⟩
  | @tooLong st' o' rooms _ hc hch ht hout hlen =>
    have hshort : rooms.sum<p.wire.length := by
      rw [← hpacket]
      have := hdesc.ethernet
      exact ht.short (by rw [hdesc.snaplen]; omega)
    obtain ⟨room,st,_,hasks⟩ := ht.asks
    have hfair : Fair c chain p .tooLong := by
      refine ⟨h.chain.symm.trans hch,rooms,hlen,fun i room hi => ?_,hshort⟩
      have := asks_supply hasks i room hi
      rwa [hout,zero_add] at this
    exact .inl ⟨rfl,moved_skip s.ring _,.tooLong,h.skip (by simp) rfl
      (fun j hj => ht.other j (.inl hj)) ht.cont (skip_oversize _ _) hfair (skip_kept _ _).chain⟩
  | noSlots _ _ _ ht | noFrames _ _ _ ht =>
    exact .inr (.inr ⟨rfl,rfl,h.same rfl (fun j hj => ht.other j (.inl hj)) ht.cont rfl rfl⟩)

end

structure Lent (r : Ring) (blocks : List (List Arrival)) : Prop where
  length : blocks.length≤r.blockNr.toNat
  filled : ∀ j ps, blocks[j]? = some ps → Filled r.mem r.blockSize.toNat r.vnet
    ((r.block.toNat+j)%r.blockNr.toNat*r.blockSize.toNat) ps
  kernel : ∀ j, blocks.length≤j → j<r.blockNr.toNat →
    userBlock r.mem r.blockSize.toNat ((r.block.toNat+j)%r.blockNr.toNat)=false

structure Within (r : Ring) (blocks : List (List Arrival)) (rest : List Arrival) : Prop where
  first : ∃ done others, blocks=(done++rest)::others
  count : r.numPkts.toNat=rest.length
  frames : Frames r.mem r.blockSize.toNat r.vnet r.start r.frameOff.toNat rest

structure Inside (r : Ring) (blocks : List (List Arrival)) (rest : List Arrival) : Prop where
  lent : Lent r blocks
  within : Within r blocks rest
  pending : r.pending=false

structure Between (r : Ring) (blocks : List (List Arrival)) (rest : List Arrival) : Prop where
  lent : Lent r blocks
  pending : r.pending=true → Within r blocks rest ∧ rest ≠ []
  fresh : r.pending=false → rest=blocks.headD []

section
variable {r r' : Ring} {blocks : List (List Arrival)} {rest : List Arrival}

theorem Lent.kept (h : Lent r blocks) (hk : r.Kept r') : Lent r' blocks := by
  refine ⟨?_,?_,?_⟩
  · rw [hk.blockNr]
    exact h.length
  · rw [hk.blockNr,hk.block,hk.mem,hk.blockSize,hk.vnet]
    exact h.filled
  · rw [hk.blockNr,hk.block,hk.mem,hk.blockSize]
    exact h.kernel

theorem Within.kept (h : Within r blocks rest) (hk : r.Kept r') (hn : r'.numPkts=r.numPkts)
    (hf : r'.frameOff=r.frameOff) : Within r' blocks rest := by
  refine ⟨h.first,?_,?_⟩
  · rw [hn]
    exact h.count
  · rw [hk.mem,hk.blockSize,hk.vnet,hk.start,hf]
    exact h.frames

theorem other_block (hm : r.Mapped) {j : Nat} (hj : 0<j) (hlt : j<r.blockNr.toNat) :
    (r.block.toNat+j)%r.blockNr.toNat≠r.block.toNat := by
  have hne := mod_ne_of_near r.blockNr.toNat r.block.toNat (r.block.toNat+j) (by omega) (by omega)
  rw [mod_eq_of_lt hm.block] at hne
  exact fun he => hne he.symm

theorem handBack_other (hm : r.Mapped) {i x : Nat} (hi : i≠r.block.toNat)
    (hx : x<r.blockSize.toNat) :
    r.handBack.mem (i*r.blockSize.toNat+x)=r.mem (i*r.blockSize.toNat+x) := by
  have hbs := hm.hdr
  rw [hdrSize] at hbs
  change blit r.mem (r.block.toNat*r.blockSize.toNat+8) 4 (leByte 0) _=_
  refine blit_outside _ _ _ _ _ ?_
  rcases lt_or_gt_of_ne hi with h | h
  · have := mul_le_mul_right r.blockSize.toNat h
    rw [succ_mul] at this
    omega
  · have := mul_le_mul_right r.blockSize.toNat h
    rw [succ_mul] at this
    omega

theorem Lent.back (h : Lent r (ps::blocks)) (hm : r.Mapped) : Lent r.handBack blocks := by
  have hlen := h.length
  have hbs := hm.hdr
  rw [hdrSize] at hbs
  rw [length_cons] at hlen
  have hnext (j : Nat) : (r.handBack.block.toNat+j)%r.blockNr.toNat =
      (r.block.toNat+(j+1))%r.blockNr.toNat := by
    rw [handBack_block hm,mod_add_mod,add_assoc,add_comm 1]
  refine ⟨?_,fun j qs hj => ?_,fun j hj hlt => ?_⟩
  · change blocks.length≤r.blockNr.toNat
    omega
  · have hjlt := (List.getElem?_eq_some_iff.mp hj).1
    have hne := other_block hm (j := j+1) (by omega) (by omega)
    change Filled _ r.blockSize.toNat r.vnet ((_+j)%r.blockNr.toNat*r.blockSize.toNat) qs
    rw [hnext]
    refine (h.filled (j+1) qs hj).congr (by rw [hdrSize]; omega) fun x hx => ?_
    exact (handBack_other hm hne hx).symm
  · change j<r.blockNr.toNat at hlt
    change userBlock _ r.blockSize.toNat ((_+j)%r.blockNr.toNat)=false
    rw [hnext]
    by_cases hlast : j+1<r.blockNr.toNat
    · have hk := h.kernel (j+1) (by rw [length_cons]; omega) hlast
      have hne := other_block hm (j := j+1) (by omega) hlast
      rw [userBlock,blockDescAt] at hk ⊢
      rw [u32At_congr fun n hn => ?_]
      · exact hk
      · rw [add_assoc]
        exact handBack_other hm hne (by omega)
    -- one lap later: the block that has just gone back
    have hlap : (r.block.toNat+(j+1))%r.blockNr.toNat=r.block.toNat := by
      have he : j+1=r.blockNr.toNat := by omega
      rw [he,add_mod_right,mod_eq_of_lt hm.block]
    rw [hlap,userBlock]
    change decide (u32At (blit r.mem (r.block.toNat*r.blockSize.toNat+8) 4 (leByte 0))
      (r.block.toNat*r.blockSize.toNat+8) &&& tpStatusUser≠0)=false
    rw [status_cleared,UInt32.zero_and]
    rfl

theorem Lent.ready (h : Lent r blocks) (hm : r.Mapped) (hu : r.User) :
    ∃ ps others, blocks=ps::others := by
  cases blocks with
  | cons ps others => exact ⟨ps,others,rfl⟩
  | nil =>
    have hpos := zero_lt_of_lt hm.block
    have hk := h.kernel 0 (le_refl _) hpos
    rw [add_zero,mod_eq_of_lt hm.block] at hk
    rw [userBlock,decide_eq_false_iff_not] at hk
    exact absurd hu hk

theorem Between.enter (h : Between r blocks rest) (hm : r.Mapped) (hu : r.User) :
    Inside r.entered blocks rest := by
  have hk := entered_kept r
  refine ⟨h.lent.kept hk,?_,?_⟩
  · cases hp : r.pending with
    | true =>
      refine (h.pending hp).1.kept hk ?_ ?_
      · simp [Ring.entered,Ring.enter,hp]
      · simp [Ring.entered,Ring.enter,hp]
    | false =>
      obtain ⟨ps,others,hb⟩ := h.lent.ready hm hu
      have hrest : rest=ps := by rw [h.fresh hp,hb,headD_cons]
      have hfill := h.lent.filled 0 ps (by rw [hb]; rfl)
      rw [add_zero,mod_eq_of_lt hm.block] at hfill
      have hn : r.entered.numPkts=(blockDescAt r.mem r.start).numPkts := by
        simp [Ring.entered,Ring.enter,hp]
      have ho : r.entered.frameOff=(blockDescAt r.mem r.start).offsetToFirst := by
        simp [Ring.entered,Ring.enter,hp]
      rw [hrest]
      refine ⟨⟨[],others,hb⟩,?_,?_⟩
      · rw [hn]
        exact hfill.count
      · rw [hk.mem,hk.blockSize,hk.vnet,hk.start,ho]
        exact hfill.frames
  · rw [Ring.entered,Ring.enter]

theorem Inside.moved (h : Inside r blocks (p::rest)) (hmv : r.Moved r') :
    Inside r' blocks rest := by
  have hk := hmv.kept
  obtain ⟨hcount,hframes⟩ := h.within.frames.advance h.within.count
  obtain ⟨done,others,hb⟩ := h.within.first
  refine ⟨h.lent.kept hk,⟨⟨done++[p],others,by rw [hb]; simp⟩,?_,?_⟩,hmv.pending.trans h.pending⟩
  · rwa [hmv.numPkts]
  · rwa [hk.mem,hk.blockSize,hk.vnet,hk.start,hmv.frameOff]

theorem Inside.pend (h : Inside r blocks rest) (hne : rest ≠ []) :
    Between { r with pending := true } blocks rest :=
  ⟨h.lent.kept ⟨rfl,rfl,rfl,rfl,rfl,rfl⟩,fun _ =>
    ⟨h.within.kept ⟨rfl,rfl,rfl,rfl,rfl,rfl⟩ rfl rfl,hne⟩,
    nofun⟩

end

/-- A call on a ring with these blocks: `P` says where the cursor is, and the packets that were
to come are those with an event, then the others. -/
def Deals (c : Call) (r : Ring) (lent : List (List Arrival)) (todo : List Arrival)
    (P : Ring → List (List Arrival) → List Arrival → Prop) (s : Reading Unit) : Prop :=
  ∃ k rest evs, k≤lent.length ∧ r.Handed k s.ring ∧ P s.ring (lent.drop k) rest ∧
    Progress c r.chain r.oversize s evs ∧
    todo=evs.map Prod.fst++rest++(lent.drop k).tail.flatten

section
variable {c : Call} {r : Ring} {lent : List (List Arrival)} {todo : List Arrival}

theorem Inside.next {r : Ring}
    (h : Inside r blocks rest) (hn : r.numPkts≠0) : ∃ p ps, rest=p::ps := by
  refine exists_cons_of_ne_nil fun hnil => hn ?_
  have hc := h.within.count
  rw [hnil,length_nil] at hc
  exact UInt32.toNat_inj.mp hc

theorem Inside.cursor {r : Ring} (h : Inside r blocks (p::ps)) :
    FrameAt r.mem r.blockSize.toNat r.vnet r.start r.frameOff.toNat p := by
  cases h.within.frames with
  | cons hf => exact hf

theorem deals_turn (s s' : Reading Unit) (nx : Next) (h : Deals c r lent todo Inside s)
    (hn : 0<s.ring.numPkts) (hmax : s.out<c.max) (ht : Turn (c.batch r.chain) c.supply s s' nx) :
    if nx = .stop then Deals c r lent todo Between s' else Deals c r lent todo Inside s' := by
  obtain ⟨k,rest,evs,hk,hh,hin,hp,htodo⟩ := h
  obtain ⟨p,ps,hrest⟩ := hin.next (UInt32.ne_of_lt hn).symm
  rw [hrest] at hin htodo
  rcases hp.turn hin.cursor hmax ht with ⟨rfl,hmv,f,hp'⟩ | ⟨rfl,hr,hp'⟩ | ⟨rfl,hr,hp'⟩
  · refine ⟨k,ps,_,hk,hh.kept hmv.kept,hin.moved hmv,hp',?_⟩
    rw [htodo,map_append]
    simp
  · refine ⟨k,p::ps,evs,hk,?_,?_,hp',htodo⟩
    · rwa [hr]
    · rwa [hr]
  · refine ⟨k,p::ps,evs,hk,?_,?_,hp',htodo⟩
    · rw [hr]
      exact hh.kept ⟨rfl,rfl,rfl,rfl,rfl,rfl⟩
    · rw [hr]
      exact hin.pend (by simp)

theorem deals_back (s : Reading Unit) (hm : r.Mapped) (hms : s.ring.Mapped)
    (h : Deals c r lent todo Inside s) (hn : s.ring.numPkts=0) :
    Deals c r lent todo Between { s with ring := s.ring.handBack } := by
  obtain ⟨k,rest,evs,hk,hh,hin,hp,htodo⟩ := h
  have hc := hin.within.count
  rw [hn] at hc
  have hnil : rest = [] := List.length_eq_zero_iff.mp hc.symm
  obtain ⟨done,others,hb⟩ := hin.within.first
  have hlt : k<lent.length := by
    by_contra hge
    rw [drop_eq_nil_of_le (by omega)] at hb
    simp at hb
  have htail : lent.drop (k+1)=others := by rw [← tail_drop,hb,tail_cons]
  have hlent := hin.lent
  rw [hb] at hlent
  refine ⟨k+1,others.headD [],evs,hlt,hh.back hm,?_,
    hp.same rfl (fun j _ => .refl _ j) rfl rfl rfl,?_⟩
  · rw [htail]
    refine ⟨hlent.back hms,fun hpend => ?_,fun _ => rfl⟩
    have hfalse : s.ring.handBack.pending=false := hin.pending
    rw [hfalse] at hpend
    simp at hpend
  · rw [htodo,hb,hnil,htail,append_nil,tail_cons,append_assoc]
    cases others with
    | nil | cons _ _ => rfl

theorem deals_rule (hm : r.Mapped) : Rule (c.batch r.chain) c.supply (Deals c r lent todo Between)
    (Deals c r lent todo Inside) (Deals c r lent todo Between) where
  enter s hms h _ hu := by
    obtain ⟨k,rest,evs,hk,hh,hbt,hp,htodo⟩ := h
    have hkept := entered_kept s.ring
    have hover : s.ring.entered.oversize=s.ring.oversize := by
      rw [Ring.entered,Ring.enter]
      cases s.ring.pending with
      | false | true => rfl
    exact ⟨k,rest,evs,hk,hh.kept hkept,hbt.enter hms hu,
      hp.same rfl (fun j _ => .refl _ j) rfl hover hkept.chain,htodo⟩
  turn s s' nx _ h hn hmax ht hne := by
    have := deals_turn s s' nx h hn hmax ht
    rwa [if_neg hne] at this
  stop s s' _ h hn hmax ht := deals_turn s s' .stop h hn hmax ht
  rest s h hn := by
    obtain ⟨k,rest,evs,hk,hh,hin,hp,htodo⟩ := h
    obtain ⟨p,ps,hrest⟩ := hin.next hn
    exact ⟨k,rest,evs,hk,hh.kept ⟨rfl,rfl,rfl,rfl,rfl,rfl⟩,hin.pend (by rw [hrest]; simp),
      hp.same rfl (fun j _ => .refl _ j) rfl rfl rfl,htodo⟩
  back s hms h hn := deals_back s hm hms h hn
  done _ _ h _ := h

theorem call_deals (hm : r.Mapped) (h : Between r lent rest) : ∃ t,
    r.read (c.batch r.chain) c.supply () c.output=some t ∧
      Deals c r lent (rest++lent.tail.flatten) Between t := by
  have hstart : Deals c r lent (rest++lent.tail.flatten) Between ⟨r,(),c.output,0⟩ :=
    ⟨0,rest,[],zero_le _,.zero hm,h,
      ⟨rfl,nofun,fun _ _ => rfl,(UInt64.add_zero _).symm,nofun,rfl⟩,rfl⟩
  obtain ⟨s,_,hread,_,_,k,rest',evs,hk,hh,hbt,hp,htodo⟩ := read_rule (deals_rule hm) hm _ _ hstart
  refine ⟨_,hread,k,rest',evs,hk,hh.kept ⟨rfl,rfl,rfl,rfl,rfl,rfl⟩,?_,
    hp.same rfl (fun j _ => .refl _ j) rfl rfl rfl,htodo⟩
  have hkept : s.ring.Kept { s.ring with packets := s.ring.packets+UInt64.ofNat s.out } :=
    ⟨rfl,rfl,rfl,rfl,rfl,rfl⟩
  exact ⟨hbt.lent.kept hkept,fun hpend =>
    ⟨(hbt.pending hpend).1.kept hkept rfl rfl,(hbt.pending hpend).2⟩,
    hbt.fresh⟩

end

structure Sys.Sound (s : Sys) (rest : List Arrival)
    (evs : List (List (Arrival × Fate))) : Prop where
  mapped : s.ring.Mapped
  block : s.ring.block.toNat=s.back.length%s.ring.blockNr.toNat
  between : Between s.ring s.lent rest
  served : List.Forall₂ (Served s.ring.chain) s.log evs
  oversize : s.ring.oversize=UInt64.ofNat (skips evs.flatten)
  dealt : ∃ done, s.lent.headD []=done++rest ∧ evs.flatten.map Prod.fst=s.back.flatten++done

section
variable {s : Sys} {rest : List Arrival} {evs : List (List (Arrival × Fate))}

theorem Sys.Sound.blockAt (h : s.Sound rest evs) (j : Nat) :
    s.blockAt j=(s.ring.block.toNat+j)%s.ring.blockNr.toNat := by
  rw [Sys.blockAt,h.block,mod_add_mod]

theorem Sys.Sound.fill (h : s.Sound rest evs) {mem : Nat → UInt8}
    (hroom : s.lent.length<s.ring.blockNr.toNat)
    (hlent : ∀ j x, j<s.lent.length → x<s.ring.blockSize.toNat →
      s.ring.mem (s.blockAt j*s.ring.blockSize.toNat+x)=mem (s.blockAt j*s.ring.blockSize.toNat+x))
    (hnew : Filled mem s.ring.blockSize.toNat s.ring.vnet
      (s.blockAt s.lent.length*s.ring.blockSize.toNat) ps)
    (hkernel : ∀ j, s.lent.length<j → j<s.ring.blockNr.toNat →
      userBlock mem s.ring.blockSize.toNat (s.blockAt j)=false) :
    ∃ rest', Sys.Sound { s with ring := { s.ring with mem }, lent := s.lent++[ps] } rest' evs := by
  have hm := h.mapped
  have hall : Lent { s.ring with mem } (s.lent++[ps]) := by
    refine ⟨?_,fun j qs hj => ?_,fun j hj hlt => ?_⟩
    · rwa [length_append,length_singleton]
    · rw [← h.blockAt]
      by_cases hold : j<s.lent.length
      · rw [getElem?_append_left hold] at hj
        have hf := h.between.lent.filled j qs hj
        rw [← h.blockAt] at hf
        exact hf.congr hm.hdr fun x hx => hlent j x hold hx
      have hjl := (List.getElem?_eq_some_iff.mp hj).1
      rw [length_append,length_singleton] at hjl
      have he : j=s.lent.length := by omega
      rw [he,getElem?_concat_length,Option.some_inj] at hj
      rwa [he,← hj]
    · rw [length_append,length_singleton] at hj
      rw [← h.blockAt]
      exact hkernel j (by omega) hlt
  obtain ⟨done,hdone,hdealt⟩ := h.dealt
  cases hl : s.lent with
  | nil =>
    -- the reader had no block: the new one is the next, from its first packet on
    have hfresh : s.ring.pending=false := by
      cases hp : s.ring.pending with
      | false => rfl
      | true =>
        obtain ⟨_,_,hb⟩ := (h.between.pending hp).1.first
        rw [hl] at hb
        simp at hb
    rw [hl,headD_nil] at hdone
    have hnil : done = [] := (append_eq_nil_iff.mp hdone.symm).1
    rw [hl] at hall
    refine ⟨ps,⟨⟨hm.hdr,hm.size,hm.block⟩,h.block,⟨hall,fun hp => ?_,fun _ => rfl⟩,h.served,
      h.oversize,[],rfl,by rw [hdealt,hnil]⟩⟩
    rw [hfresh] at hp
    simp at hp
  | cons cur others =>
    have hhead : (s.lent++[ps]).headD []=s.lent.headD [] := by rw [hl]; rfl
    rw [← hl]
    refine ⟨rest,⟨⟨hm.hdr,hm.size,hm.block⟩,h.block,⟨hall,fun hp => ?_,fun hp => ?_⟩,h.served,
      h.oversize,done,hhead.trans hdone,hdealt⟩⟩
    · obtain ⟨hw,hne⟩ := h.between.pending hp
      obtain ⟨before,after,hb⟩ := hw.first
      refine ⟨⟨⟨before,after++[ps],by rw [hb]; rfl⟩,hw.count,hw.frames.congr fun x hx => ?_⟩,hne⟩
      have h0 := hlent 0 x (by rw [hl]; exact zero_lt_succ _) hx
      rwa [h.blockAt,add_zero,mod_eq_of_lt hm.block] at h0
    · rw [hhead]
      exact h.between.fresh hp

end

theorem takeWhile_range {p : Nat → Bool} {n k : Nat} (hk : k≤n) (hp : ∀ j, j<k → p j=true)
    (hstop : k<n → p k=false) : ((List.range n).takeWhile p).length=k := by
  obtain ⟨m,rfl⟩ := Nat.exists_eq_add_of_le hk
  rw [range_add,takeWhile_append_of_pos fun j hj => hp j (mem_range.mp hj)]
  cases m with
  | zero => simp
  | succ m =>
    have hpk : p k=false := hstop (by omega)
    rw [range_succ_eq_map,map_cons,add_zero,
      takeWhile_cons_of_neg (by rw [hpk]; simp),append_nil,length_range]

section
variable {s : Sys} {rest : List Arrival} {evs : List (List (Arrival × Fate))} {t : Reading Unit}

theorem Sys.Sound.returned (h : s.Sound rest evs) {k : Nat} {rest' : List Arrival}
    (hk : k ≤ s.lent.length) (hh : s.ring.Handed k t.ring)
    (hb : Between t.ring (s.lent.drop k) rest') : s.returned t.ring.mem=k := by
  have hlen := h.between.lent.length
  have hl := hb.lent
  have hblock (j : Nat) : (t.ring.block.toNat+j)%t.ring.blockNr.toNat=s.blockAt (k+j) := by
    rw [hh.block,hh.blockNr,mod_add_mod,add_assoc,h.blockAt]
  refine takeWhile_range hk (fun j hj => ?_) fun hlt => ?_
  · -- the blocks handed back are the last ones of the kernel's, one lap on
    have hlast := hl.kernel (s.ring.blockNr.toNat-k+j) (by rw [length_drop]; omega)
      (by rw [hh.blockNr]; omega)
    have hlap : k+(s.ring.blockNr.toNat-k+j)=j+s.ring.blockNr.toNat := by omega
    rw [hblock,hlap,hh.blockSize,Sys.blockAt,← add_assoc,add_mod_right] at hlast
    rw [Sys.blockAt,hlast]
    rfl
  · have hget : (s.lent.drop k)[0]? = some (s.lent[k]) := by
      rw [getElem?_drop,add_zero,getElem?_eq_getElem hlt]
    have hu := (hl.filled 0 _ hget).user
    rw [hblock,add_zero,hh.blockSize] at hu
    rw [Bool.not_eq_false',userBlock]
    exact decide_eq_true hu

theorem Between.done {r : Ring} (h : Between r blocks rest) :
    ∃ done, blocks.headD []=done++rest := by
  cases hp : r.pending with
  | false => exact ⟨[],(h.fresh hp).symm⟩
  | true =>
    obtain ⟨done,others,hb⟩ := (h.pending hp).1.first
    exact ⟨done,by rw [hb,headD_cons]⟩

theorem headD_append_tail {α : Type} (blocks : List (List α)) :
    blocks.headD []++blocks.tail.flatten=blocks.flatten := by
  cases blocks with
  | nil | cons _ _ => rfl

theorem Sys.Sound.call (h : s.Sound rest evs) (c : Call)
    (hr : s.ring.read (c.batch s.ring.chain) c.supply () c.output=some t) :
    ∃ rest' evs', (s.called c t).Sound rest' evs' := by
  obtain ⟨t',hread,k,rest',more,hk,hh,hb,hp,htodo⟩ := call_deals (c := c) h.mapped h.between
  have ht : t=t' := Option.some_inj.mp (hr.symm.trans hread)
  subst ht
  have hret := h.returned hk hh hb
  obtain ⟨done,hdone,hdealt⟩ := h.dealt
  obtain ⟨done',hdone'⟩ := hb.done
  -- all that was lent, taken apart at where the call began and at where it ended
  have hcut : done++more.map Prod.fst=(s.lent.take k).flatten++done' := by
    refine append_cancel_right (?_ : _++(rest'++(s.lent.drop k).tail.flatten)=_)
    calc done++more.map Prod.fst++(rest'++(s.lent.drop k).tail.flatten)
        = done++(rest++s.lent.tail.flatten) := by rw [htodo,append_assoc,append_assoc]
      _=s.lent.flatten := by rw [← append_assoc,← hdone,headD_append_tail]
      _=(s.lent.take k).flatten++(s.lent.drop k).flatten := by
        rw [← flatten_append,take_append_drop]
      _=(s.lent.take k).flatten++done'++(rest'++(s.lent.drop k).tail.flatten) := by
        rw [← headD_append_tail (s.lent.drop k),hdone',append_assoc,append_assoc]
  have hflat : (evs++[more]).flatten=evs.flatten++more := by rw [flatten_append,flatten_singleton]
  rw [Sys.called,hret]
  refine ⟨rest',evs++[more],hh.mapped h.mapped,?_,hb,?_,?_,done',hdone',?_⟩
  · rw [hh.block,hh.blockNr,h.block,mod_add_mod,length_append,length_take,min_eq_left hk]
  · rw [hh.chain]
    exact rel_append h.served (.cons ⟨hp.got,hp.fair⟩ .nil)
  · rw [hflat,skips_append,UInt64.ofNat_add,← h.oversize]
    exact hp.oversize
  · rw [hflat,map_append,hdealt,append_assoc,hcut,flatten_append,append_assoc]

theorem Sys.Reached.sound (h : s.Reached) : ∃ rest evs, s.Sound rest evs := by
  induction h with
  | start mem vnet chain hk =>
    have hm := setupRing_mapped mem vnet chain
    have hblock : (setupRing mem vnet chain).block.toNat=0 := by cases vnet <;> rfl
    have hmem : (setupRing mem vnet chain).mem=mem := by cases vnet <;> rfl
    have hpend : (setupRing mem vnet chain).pending=false := by cases vnet <;> rfl
    have hover : (setupRing mem vnet chain).oversize=0 := by cases vnet <;> rfl
    refine ⟨[],[],hm,by rw [hblock]; exact (zero_mod _).symm,
      ⟨⟨zero_le _,nofun,fun j _ hj => ?_⟩,fun hp => ?_,fun _ => rfl⟩,
      .nil,hover,[],rfl,rfl⟩
    · rw [hblock,hmem,zero_add,mod_eq_of_lt hj]
      exact hk j hj
    · rw [hpend] at hp
      simp at hp
  | fill _ mem ps hroom hlent hnew hkernel ih =>
    obtain ⟨rest,evs,hs⟩ := ih
    obtain ⟨rest',hs'⟩ := hs.fill hroom hlent hnew hkernel
    exact ⟨rest',evs,hs'⟩
  | call _ c hr ih =>
    obtain ⟨rest,evs,hs⟩ := ih
    exact hs.call c hr

/-- Over any run: every call returns, and there is an order of events, those of the calls one
after the other, in which the packets of the ring come up in the order they have there, each once,
and those of the blocks that are back all. A call delivered the packets of its events that have
no reason not to be, whole and with their tags; the others were counted. -/
theorem packets_once (h : s.Reached) :
    (∀ c : Call, ∃ t, s.ring.read (c.batch s.ring.chain) c.supply () c.output = some t) ∧
      ∃ evs, List.Forall₂ (Served s.ring.chain) s.log evs ∧
        s.back.flatten <+: evs.flatten.map Prod.fst ∧
        evs.flatten.map Prod.fst <+: (s.back++s.lent).flatten ∧
        s.ring.oversize = UInt64.ofNat (skips evs.flatten) := by
  obtain ⟨rest,evs,hs⟩ := h.sound
  refine ⟨fun c => ?_,evs,hs.served,?_,?_,hs.oversize⟩
  · obtain ⟨t,hr,_⟩ := call_deals (c := c) hs.mapped hs.between
    exact ⟨t,hr⟩
  · obtain ⟨done,_,hdealt⟩ := hs.dealt
    rw [hdealt]
    exact prefix_append _ _
  · obtain ⟨done,hdone,hdealt⟩ := hs.dealt
    rw [hdealt,flatten_append,← headD_append_tail s.lent,hdone,append_assoc]
    exact prefix_append_right_inj _ |>.mpr (prefix_append _ _)

end

def onePacket : Nat → UInt8 := fun a =>
  if a=8 then 1 else if a=12 then 1 else if a=16 then 48
  else if a=60 then 14 else if a=64 then 14 else if a=72 then 48 else 0

def oneArrival : Arrival := ⟨List.replicate 14 0,14,none⟩

def oneSys : Sys := ⟨setupRing onePacket false false,[],[[oneArrival]],[]⟩

theorem oneSys_reached : oneSys.Reached := by
  have hzero (a : Nat) : u32At (fun _ => 0) a=0 := by rfl
  have hfar (i : Nat) (hi : 0 < i) : u32At onePacket (i*65536+8)=0 := by
    rw [← hzero (i*65536+8)]
    refine u32At_congr fun n hn => ?_
    · simp only [onePacket]
      rw [if_neg (by omega),if_neg (by omega),if_neg (by omega),if_neg (by omega),
        if_neg (by omega),if_neg (by omega)]
  have hempty : Sys.Reached ⟨setupRing (fun _ => 0) false false,[],[],[]⟩ :=
    .start _ false false fun i _ => decide_eq_false fun h => h (by exact UInt32.zero_and)
  refine hempty.fill onePacket [oneArrival] (zero_lt_succ 159)
    (fun j x hj => absurd hj (not_lt_zero j)) ?_ fun j hj hlt => ?_
  · refine ⟨by decide,rfl,
      .cons ⟨by decide,by decide,fun h => absurd (h : false=true) (by decide),?_,by decide⟩
      (fun h => absurd rfl h) .nil⟩
    exact ⟨rfl,rfl,rfl,by decide⟩
  · change j<160 at hlt
    change decide (u32At onePacket ((0+j)%160*65536+8) &&& tpStatusUser≠0)=false
    rw [zero_add,mod_eq_of_lt hlt,hfar j hj]
    rfl

def oneCall : Call := ⟨4,true,false,fun _ => some 64,Output.made⟩

theorem packets_once_one :
    ∃ t, oneSys.ring.read (oneCall.batch false) oneCall.supply () oneCall.output = some t ∧
      ∃ evs, List.Forall₂ (Served t.ring.chain) [⟨oneCall,assemble (t.o.pieces 0 t.out)⟩] evs ∧
        t.ring.oversize = UInt64.ofNat (skips evs.flatten) := by
  obtain ⟨t,hr⟩ := (packets_once oneSys_reached).1 oneCall
  obtain ⟨_,evs,hserved,_,_,hover⟩ := packets_once (.call oneSys_reached oneCall hr)
  exact ⟨t,hr,evs,hserved,hover⟩

end Packetio.Afpacket

import Packetio.Afpacket.RxProgress

/-! The metadata of received packets: marks, offloads and timestamps are written by two paths
into arrays that are used again and again, with attempts that fail in between. -/
namespace Packetio.Afpacket
open Lib Pool List Option

/-- A packet at the cursor of `ring`, after `back` blocks were handed back. -/
structure Receipt where
  ring : Ring
  slots : Nat
  back : Nat

/-- The packet comes first in the ring. -/
def Receipt.Before (p p' : Receipt) : Prop :=
  p.back<p'.back ∨ p.back=p'.back ∧ p'.ring.numPkts.toNat<p.ring.numPkts.toNat

structure Receipt.At (r : Ring) (b : Batch) (o : Output) (i : Nat) (p : Receipt) : Prop where
  here : r.Handed p.back p.ring
  fits : p.ring.Fits
  slots : 0<p.slots
  bytes : o.joined i p.slots=p.ring.packet
  marks : ∀ j, j<p.slots → (r.chain && o.cont (i+j))=decide (j+1<p.slots)
  offs : o.offs i=p.ring.offload ∧ ∀ j, 0<j → j<p.slots → o.offs (i+j) = {}
  tss : b.tss=true → o.tss i=timestamp p.ring.tph ∧
    ∀ j, 0<j → j<p.slots → o.tss (i+j)=0

def Receipts (r : Ring) (b : Batch) (o : Output) : Nat → List Receipt → Prop
  | _, [] => True
  | i, p::ps => p.At r b o i ∧ Receipts r b o (i+p.slots) ps

def slotsOf (ps : List Receipt) : Nat := (ps.map Receipt.slots).sum

section
variable {r : Ring} {b : Batch} {o o' : Output} {i : Nat} {p : Receipt} {ps : List Receipt}

theorem Receipt.At.congr (h : p.At r b o i) (hs : ∀ j, j<p.slots → o.Same o' (i+j)) :
    p.At r b o' i := by
  have hfirst := hs 0 h.slots
  rw [add_zero] at hfirst
  refine ⟨h.here,h.fits,h.slots,?_,fun j hj => ?_,⟨?_,fun j hj hlt => ?_⟩,fun hw =>
    ⟨?_,fun j hj hlt => ?_⟩⟩
  · rw [← h.bytes]
    exact joined_congr fun j hj => by rw [Output.got,Output.got,(hs j hj).bufs,(hs j hj).lens]
  · rw [(hs j hj).cont]
    exact h.marks j hj
  · rw [hfirst.offs]
    exact h.offs.1
  · rw [(hs j hlt).offs]
    exact h.offs.2 j hj hlt
  · rw [hfirst.tss]
    exact (h.tss hw).1
  · rw [(hs j hlt).tss]
    exact (h.tss hw).2 j hj hlt

theorem Receipts.congr (h : Receipts r b o i ps) (hs : ∀ j, j<slotsOf ps → o.Same o' (i+j)) :
    Receipts r b o' i ps := by
  induction ps generalizing i with
  | nil => trivial
  | cons p ps ih =>
    have hsum : slotsOf (p::ps)=p.slots+slotsOf ps := sum_cons
    refine ⟨h.1.congr fun j hj => hs j (by omega),ih h.2 fun j hj => ?_⟩
    rw [add_assoc]
    exact hs _ (by omega)

theorem Receipts.snoc (h : Receipts r b o i ps) (hp : p.At r b o (i+slotsOf ps)) :
    Receipts r b o i (ps++[p]) := by
  induction ps generalizing i with
  | nil => exact ⟨hp,trivial⟩
  | cons x ps ih =>
    have hsum : slotsOf (x::ps)=x.slots+slotsOf ps := sum_cons
    rw [hsum,← add_assoc] at hp
    exact ⟨h.1,ih h.2 hp⟩

end

section
variable {σ : Type} {dst : Dst σ} {r : Ring} {b : Batch} {s s' : Reading σ} {nx : Next}

/-- `entered` says that the block at the cursor may have given packets already. -/
structure Tidy (r : Ring) (b : Batch) (entered : Bool) (s : Reading σ) : Prop where
  clean : b.cont=true → ∀ j, s.out≤j → j<b.max → s.o.cont j=false
  got : ∃ k ps, r.Handed k s.ring ∧ slotsOf ps=s.out ∧ Receipts r b s.o 0 ps ∧
    ps.Pairwise Receipt.Before ∧ ∀ p∈ps, p.back<k ∨
      entered=true ∧ p.back=k ∧ s.ring.numPkts.toNat<p.ring.numPkts.toNat

theorem Tidy.same {e : Bool} (h : Tidy r b e s) (hk : s.ring.Kept s'.ring)
    (hnum : e=true → s'.ring.numPkts.toNat ≤ s.ring.numPkts.toNat) (hout : s'.out=s.out)
    (hsame : ∀ j, j<s.out → s.o.Same s'.o j) (hcont : s'.o.cont=s.o.cont) : Tidy r b true s' := by
  obtain ⟨hclean,k,ps,hh,hps,hgot,hbefore,hpast⟩ := h
  refine ⟨?_,k,ps,hh.kept hk,hps.trans hout.symm,hgot.congr fun j hj => ?_,hbefore,fun p hp => ?_⟩
  · rwa [hcont,hout]
  · rw [zero_add]
    exact hsame j (hps ▸ hj)
  · refine (hpast p hp).imp_right fun hlate => ⟨rfl,hlate.2.1,?_⟩
    exact Nat.lt_of_le_of_lt (hnum hlate.1) hlate.2.2

theorem Turn.numPkts_le (ht : Turn b dst s s' nx) (hn : 0<s.ring.numPkts) :
    s'.ring.numPkts.toNat ≤ s.ring.numPkts.toNat := by
  cases ht with
  | refused => exact Nat.zero_le _
  | dry | noSlots | noFrames => exact le_refl _
  | clipped | tooBig | placed | tooLong => exact le_of_lt (advance_numPkts _ hn)

theorem Tidy.turn (hb : b.cont=r.chain) (hoffs : b.offs=true) (h : Tidy r b true s)
    (hn : 0<s.ring.numPkts) (ht : Turn b dst s s' nx) : Tidy r b true s' := by
  have hk := ht.kept
  have hnum := ht.numPkts_le hn
  have hrefl (j : Nat) (_ : j<s.out) : s.o.Same s.o j := .refl _ _
  cases ht with
  | refused | dry | clipped | tooBig => exact h.same hk (fun _ => hnum) rfl hrefl rfl
  | tooLong _ _ _ htr | noSlots _ _ _ htr | noFrames _ _ _ htr =>
    exact h.same hk (fun _ => hnum) rfl (fun j hj => htr.other j (.inl hj)) htr.cont
  | @placed st' o' rooms hf hc hd hh =>
    obtain ⟨hclean,k,ps,hhand,hps,hgot,hbefore,hpast⟩ := h
    have hpos := length_pos_iff.mpr hh.slots
    have hmax := hh.max
    have hless : (s.ring.advance s.ring.tph.tpNextOffset).numPkts.toNat<s.ring.numPkts.toNat :=
      advance_numPkts _ hn
    have hmarks : ∀ j, j<rooms.length →
      (r.chain && o'.cont (s.out+j))=decide (j+1<rooms.length) := by
      intro j hj
      cases hch : r.chain with
      | true =>
        have hbc : b.cont=true := hb.trans hch
        rw [hh.marks (.inl hbc) (hclean hbc _ (le_refl _) (by omega)) j hj]
        rfl
      | false =>
        have hone : rooms.length=1 := by
          rcases hd with ⟨-,hone⟩ | ⟨hchain,-⟩
          · exact hone
          · rw [hhand.chain,hch] at hchain
            cases hchain
        rw [Bool.false_and,eq_comm,decide_eq_false_iff_not]
        omega
    refine ⟨fun hbc j hj hlt => ?_,k,ps++[⟨s.ring,rooms.length,k⟩],hhand.kept hk,?_,?_,?_,?_⟩
    · change s.out+rooms.length≤j at hj
      rw [(hh.other j (.inr hj)).cont]
      exact hclean hbc j (by omega) hlt
    · rw [slotsOf,map_append,sum_append,← slotsOf,hps]
      rfl
    · refine (hgot.congr fun j hj => ?_).snoc ?_
      · rw [zero_add]
        exact hh.other j (.inl (by omega))
      · rw [hps,zero_add]
        exact ⟨hhand,hf,hpos,hh.bytes,hmarks,hh.offs hoffs,hh.tss⟩
    · refine pairwise_append.mpr ⟨hbefore,pairwise_singleton _ _,fun p hp p' hp' => ?_⟩
      rw [mem_singleton.mp hp']
      exact (hpast p hp).imp_right And.right
    · intro p hp
      rcases mem_append.mp hp with hp | hp
      · exact (hpast p hp).imp_right fun hlate => ⟨rfl,hlate.2.1,Nat.lt_trans hless hlate.2.2⟩
      · rw [mem_singleton.mp hp]
        exact .inr ⟨rfl,rfl,hless⟩

theorem tidy_rule (dst : Dst σ) (hm : r.Mapped) (hb : b.cont=r.chain) (hoffs : b.offs=true) :
    Rule b dst (Tidy r b false) (Tidy r b true) (Tidy r b true) where
  enter s _ h _ _ := h.same (entered_kept _) (by simp) rfl (fun _ _ => .refl _ _) rfl
  turn _ _ _ _ h hn _ ht _ := h.turn hb hoffs hn ht
  stop _ _ _ h hn _ ht := h.turn hb hoffs hn ht
  rest _ h _ :=
    h.same ⟨rfl,rfl,rfl,rfl,rfl,rfl⟩ (fun _ => le_refl _) rfl (fun _ _ => .refl _ _) rfl
  back s hms h _ := by
    obtain ⟨hclean,k,ps,hh,hps,hgot,hbefore,hpast⟩ := h
    refine ⟨hclean,k+1,ps,hh.back hm,hps,hgot,hbefore,fun p hp => .inl ?_⟩
    have := hpast p hp
    omega
  done _ _ h _ := h.same (.refl _) (by simp) rfl (fun _ _ => .refl _ _) rfl

end

/-! The bytes of the frames -/

/-- Which frame of `2^k` bytes each descriptor is in. -/
def framesOf (k : Nat) (ds : List Desc) : List Nat := ds.map fun d => d.addr.toNat/2^k

section
variable {i j n k : Nat} {m : FrameMemory} {d : Desc} {ds : List Desc}

theorem outside_frame {a : Nat} (hd : d.addr.toNat%2^k+n≤2^k) (ha : d.addr.toNat/2^k≠a/2^k) :
    a<d.addr.toNat ∨ d.addr.toNat+n≤a := by
  by_contra hin
  rw [not_or] at hin
  have hdiv := Nat.div_add_mod' d.addr.toNat (2^k)
  refine ha (Nat.div_eq_of_lt_le ?_ ?_).symm
  · omega
  · rw [Nat.succ_mul]
    omega

theorem inside_frame (hd : d.addr.toNat%2^k+n≤2^k) (hj : j<n) :
    (d.addr.toNat+j)/2^k=d.addr.toNat/2^k := by
  have hdiv := Nat.div_add_mod' d.addr.toNat (2^k)
  refine Nat.div_eq_of_lt_le ?_ ?_
  · omega
  · rw [Nat.succ_mul]
    omega

theorem landAll_cons (hr : m.Made k) (hd : d.addr.toNat < m.b.len) (bufs : Nat → Nat → UInt8)
    (i : Nat) (ds : List Desc) :
    ∃ r, landAll bufs i (d::ds) m=landAll bufs (i+1) ds r ∧ m.Alike r ∧
      r.b.mem=blit m.b.mem d.addr.toNat (2^k-d.addr.toNat%2^k) (bufs i) := by
  obtain ⟨-,hw⟩ := writable_some hr hd
  have hdiv := Nat.div_add_mod' d.addr.toNat (2^k)
  have hroom : d.addr.toNat/2^k*2^k+2^k-d.addr.toNat=2^k-d.addr.toNat%2^k := by omega
  rw [hroom] at hw
  rw [landAll,hw]
  exact ⟨_,rfl,⟨rfl,rfl,rfl⟩,rfl⟩

theorem landAll_other {a : Nat} (hr : m.Made k) (hin : ∀ d∈ds, d.addr.toNat < m.b.len)
    (ha : a/2^k∉framesOf k ds) (bufs : Nat → Nat → UInt8) :
    (landAll bufs i ds m).b.mem a=m.b.mem a := by
  induction ds generalizing i m with
  | nil => rfl
  | cons d ds ih =>
    rw [framesOf,map_cons,mem_cons,not_or] at ha
    obtain ⟨r,hland,halike,hmem⟩ := landAll_cons hr (hin d mem_cons_self) bufs i ds
    rw [hland,ih (hr.alike halike) (fun e he => halike.len.symm ▸ hin e (.tail _ he)) ha.2,hmem]
    have hmod := Nat.mod_lt d.addr.toNat (Nat.two_pow_pos k)
    exact blit_outside _ _ _ _ _ (outside_frame (by omega) (Ne.symm ha.1))

theorem landAll_at (hr : m.Made k) (hin : ∀ d∈ds, d.addr.toNat < m.b.len)
    (hnd : (framesOf k ds).Nodup) (hd : ds[j]? = some d) (hn : d.addr.toNat%2^k+n≤2^k)
    (bufs : Nat → Nat → UInt8) :
    bytesAt (landAll bufs i ds m).b.mem d.addr.toNat n=bytesAt (bufs (i+j)) 0 n := by
  induction ds generalizing i j m with
  | nil => cases hd
  | cons e ds ih =>
    rw [framesOf,map_cons,nodup_cons] at hnd
    obtain ⟨r,hland,halike,hmem⟩ := landAll_cons hr (hin e mem_cons_self) bufs i ds
    have hin' (e : Desc) (he : e∈ds) : e.addr.toNat<r.b.len := halike.len.symm ▸ hin e (.tail _ he)
    rw [hland]
    cases j with
    | zero =>
      obtain rfl : e=d := some_inj.mp hd
      refine map_congr_left fun x hx => ?_
      have hx := mem_range.mp hx
      rw [landAll_other (hr.alike halike) hin' (by rw [inside_frame hn hx]; exact hnd.1),hmem,
        blit_inside _ _ _ _ _ (by omega) (by omega),Nat.add_sub_cancel_left,Nat.zero_add]
      rfl
    | succ j => rw [ih (hr.alike halike) hin' hnd.2 hd,Nat.add_right_comm,Nat.add_assoc]

end

/-! A whole receive -/

variable {cont : Option (Nat → Bool)} {i n : Nat} {m m' : FrameMemory} {descs : List Desc}
  {o : Output} {p : Receipt}

def finished (o : Offload) : Offload := { o with flags := o.flags &&& ~~~offloadNeedsCsum }

theorem completeOffload_offs {d : Desc}
    {o o' : Offload} {bad : Bool} (h : completeOffload m cont i d o=some (m',o',bad)) :
    o'=o ∨ chained cont i=false ∧ o'=finished o := by
  rw [completeOffload] at h
  split at h
  case isTrue =>
    cases h
    exact .inl rfl
  split at h
  case isTrue =>
    cases h
    exact .inl rfl
  rename_i hone
  obtain ⟨w,-,h⟩ := bind_eq_some_iff.mp h
  obtain ⟨⟨bytes,ok⟩,-,h⟩ := bind_eq_some_iff.mp h
  cases h
  cases ok with
  | false => exact .inl rfl
  | true => exact .inr ⟨by simpa using hone,rfl⟩

theorem completeOffloads_offs {ds : List Desc} {offs offs' : Nat → Offload}
    (h : completeOffloads cont i ds m offs=some (m',offs',n)) : (∀ j, j < i → offs' j=offs j) ∧
      ∀ j, offs' j=offs j ∨ chained cont j=false ∧ offs' j=finished (offs j) := by
  induction ds generalizing i m offs n with
  | nil =>
    cases h
    exact ⟨fun _ _ => rfl,fun _ => .inl rfl⟩
  | cons d ds ih =>
    obtain ⟨⟨m1,o,bad⟩,hone,h⟩ := bind_eq_some_iff.mp h
    obtain ⟨⟨m2,offs2,n2⟩,hrest,h⟩ := bind_eq_some_iff.mp h
    cases h
    obtain ⟨hbefore,hall⟩ := ih hrest
    refine ⟨fun j hj => ?_,fun j => ?_⟩
    · rw [hbefore j (by omega),Function.update_of_ne (by omega)]
    · by_cases hj : j=i
      · rw [hj,hbefore i (Nat.lt_succ_self i),Function.update_self]
        exact completeOffload_offs hone
      · have := hall j
        rwa [Function.update_of_ne hj] at this

theorem shift_toNat (hn : n≤4) (v : UInt16) : (shift n v).toNat=min (v.toNat+n) 65535 := by
  have hsmall : (UInt16.ofNat n).toNat=n := UInt16.toNat_ofNat_of_lt' (by change n<65536; omega)
  rw [shift]
  split
  case isTrue h =>
    rw [min_eq_right (by omega)]
    rfl
  rename_i h
  rw [min_eq_left (by omega),UInt16.toNat_add,hsmall]
  exact Nat.mod_eq_of_lt (by change _<65536; omega)

section
variable {first count k : Nat} {q q' : RxQueue}

theorem RxQueue.Sound.walk_tidy (h : q.Sound first count k) {n : Nat} {wantTimestamps : Bool}
    {s : Reading (Option Taking)} (hs : q.walk n wantTimestamps=some s)
    (hclean : q.ring.chain=true → ∀ j<n, q.cont.cells j=false) :
    Tidy q.ring (q.batch n wantTimestamps) true s := by
  obtain ⟨s',-,hread,-,-,htidy⟩ := read_rule
    (tidy_rule (takeFrame q.region) h.ring (b := q.batch n wantTimestamps) rfl rfl) h.ring
    (some { pool := q.pool }) q.output
    ⟨fun hb j _ hj => hclean hb j hj,0,[],.zero h.ring,rfl,trivial,.nil,by simp⟩
  rw [RxQueue.walk,hread,some_inj] at hs
  rw [← hs]
  exact htidy.same ⟨rfl,rfl,rfl,rfl,rfl,rfl⟩ (fun _ => le_refl _) rfl (fun _ _ => .refl _ _) rfl

theorem settle_eq {s : Reading (Option Taking)} {t : Taking}
    (h : q.settle s t=some (q',descs)) : descs=(t.descs.take s.out).mapIdx (s.o.desc s.ring.chain) ∧
      q'.ring=s.ring ∧ q'.offs.cells=s.o.offs ∧ q'.tss.cells=s.o.tss ∧ q'.cont.cells=s.o.cont ∧
      q'.region=landAll s.o.bufs 0 t.descs q.region := by
  rw [RxQueue.settle] at h
  obtain ⟨-,h⟩ := passed h (by simp)
  obtain ⟨pool,-,h⟩ := bind_eq_some_iff.mp h
  cases h
  exact ⟨rfl,rfl,rfl,rfl,rfl,rfl⟩

theorem Taking.Sound.apart {t : Taking} {p₀ : Pool.Frames} (h : t.Sound first count k p₀)
    (hnd : p₀.free.Nodup) : (framesOf k t.descs).Nodup := by
  have hle : bases k t.descs≤(p₀.free : Multiset UInt64) := h.all ▸ Multiset.le_add_left _ _
  have hbases : (t.descs.map (Pool.frameOf k)).Nodup :=
    Multiset.coe_nodup.mp (Multiset.nodup_of_le hle (Multiset.coe_nodup.mpr hnd))
  refine Nodup.of_map (fun n => UInt64.ofNat (n*2^k)) ?_
  rwa [framesOf,List.map_map]

/-- The frames of the descriptors hold the bytes of the slots. -/
theorem RxQueue.Sound.settled (h : q.Sound first count k) {s : Reading (Option Taking)} {t : Taking}
    (ht : t.Sound first count k q.pool) (hsettle : q.settle s t=some (q',descs))
    (hgot : RxQueue.Received k q s descs) (hd : descs[i]? = some d) :
    q'.region.b.bytes d=s.o.got i := by
  obtain ⟨hdescs,-,-,-,-,hregion⟩ := settle_eq hsettle
  have hhead := h.headroom
  obtain ⟨hlen,a,ha,haddr,hend⟩ := hgot.slot i d hd
  obtain ⟨c,-,hc⟩ := (mem_frameStarts h.pool.shape.fits).mp (h.pool.own a ha)
  have hmod : d.addr.toNat%2^k=frameHeadroom := by
    rw [haddr,hc,Nat.add_comm,Nat.add_mul_mod_self_right,Nat.mod_eq_of_lt hhead]
  have hroom : d.addr.toNat%2^k+s.o.lens i≤2^k := by omega
  rw [hdescs,getElem?_mapIdx,map_eq_some_iff] at hd
  obtain ⟨e,he,rfl⟩ := hd
  have he : t.descs[i]? = some e := by
    obtain ⟨hi,rfl⟩ := List.getElem?_eq_some_iff.mp he
    rw [getElem_take]
    exact getElem?_eq_getElem _
  have hbytes :=
    landAll_at (i := 0) h.region (fun d hd => ?_) (ht.apart h.pool.nodup) he hroom s.o.bufs
  · rw [← hregion,Nat.zero_add] at hbytes
    rw [Output.got,← hbytes,← hlen]
    rfl
  · obtain ⟨hown,haddr⟩ := ht.frameOf hhead hd
    have hlast := frameStarts_end h.pool.shape.fits hown
    have hin := h.inside
    omega

theorem finish_offs (h : q.finish descs=some q') : q'.tss=q.tss ∧
    ∀ j, q'.offs.cells j=q.offs.cells j ∨
      (q.ring.chain=true → chained (some q.cont.cells) j=false) ∧
        q'.offs.cells j=finished (q.offs.cells j) := by
  rw [RxQueue.finish] at h
  split at h
  case isTrue =>
    cases h
    exact ⟨rfl,fun _ => .inl rfl⟩
  obtain ⟨⟨m,offs,bad⟩,hdone,h⟩ := bind_eq_some_iff.mp h
  cases h
  refine ⟨rfl,fun j => ((completeOffloads_offs hdone).2 j).imp_right fun hfin =>
    ⟨fun hc => ?_,hfin.2⟩⟩
  have hone := hfin.1
  rwa [if_pos hc] at hone

theorem joined_eq {f : Desc → List UInt8} (n i : Nat)
    (h : ∀ j, j<n → ∃ d, descs[i+j]? = some d ∧ f d=o.got (i+j)) :
    ((descs.drop i).take n).flatMap f=o.joined i n := by
  induction n generalizing i with
  | zero => rfl
  | succ n ih =>
    obtain ⟨d,hd,hf⟩ := h 0 (Nat.succ_pos n)
    obtain ⟨hi,rfl⟩ := List.getElem?_eq_some_iff.mp hd
    simp only [Nat.add_zero] at hi hf
    rw [drop_eq_getElem_cons hi,take_succ_cons,flatMap_cons,Output.joined]
    refine congrArg₂ _ hf (ih (i+1) fun j hj => ?_)
    rw [Nat.add_right_comm,Nat.add_assoc]
    exact h (j+1) (by omega)

/-- What is returned for the packet in the slots from `i` on; `q1` is the queue before checksums are
finished. -/
structure Receipt.Shown (q q1 q' : RxQueue) (wantTimestamps : Bool) (descs : List Desc)
    (offs : List Offload) (i : Nat) (p : Receipt) : Prop where
  here : q.ring.Handed p.back p.ring
  fits : p.ring.Fits
  slots : 0<p.slots
  bytes : ((descs.drop i).take p.slots).flatMap q1.region.b.bytes=p.ring.packet
  marks : ∀ j, j<p.slots → ∃ d, descs[i+j]? = some d ∧
    d.options=if j+1<p.slots then optContinued else 0
  offload : ∃ o, offs[i]? = some o ∧
    (o=p.ring.offload ∨ p.slots=1 ∧ o=finished p.ring.offload)
  others : ∀ j, 0<j → j<p.slots → offs[i+j]? = some {}
  stamp : wantTimestamps=true → q'.tss.cells i=timestamp p.ring.tph ∧
    ∀ j, 0<j → j<p.slots → q'.tss.cells (i+j)=0

theorem Receipt.At.chained {r : Ring} {b : Batch} {j : Nat}
    (h : p.At r b o i) (hmore : 1<p.slots) (hj : j<p.slots) :
    r.chain=true ∧ chained (some o.cont) (i+j)=true := by
  have hmark (j : Nat) (hlt : j+1<p.slots) : r.chain=true ∧ o.cont (i+j)=true := by
    have := h.marks j (by omega)
    rwa [decide_eq_true hlt,Bool.and_eq_true] at this
  refine ⟨(hmark 0 hmore).1,?_⟩
  by_cases hlast : j+1<p.slots
  · rw [Afpacket.chained,(hmark j hlast).2,Bool.true_or]
  have hprev := (hmark (j-1) (by omega)).2
  have hat : i+(j-1)=i+j-1 := by omega
  rw [hat] at hprev
  rw [Afpacket.chained,hprev,decide_eq_true (by omega),Bool.and_true,Bool.or_true]

theorem Receipts.at {r : Ring} {b : Batch} {ps before after : List Receipt}
    (h : Receipts r b o i ps) (hps : ps=before++p::after) : p.At r b o (i+slotsOf before) := by
  subst hps
  induction before generalizing i with
  | nil => exact h.1
  | cons x before ih =>
    have hsum : slotsOf (x::before)=x.slots+slotsOf before := sum_cons
    rw [hsum,← add_assoc]
    exact ih h.2

theorem shifted_fields (o : Offload) (hn : n≤4) : (o.flags &&& offloadNeedsCsum≠0 →
      (shifted o n).csumStart.toNat=min (o.csumStart.toNat+n) 65535) ∧
    (o.hdrLen≠0 → (shifted o n).hdrLen.toNat=min (o.hdrLen.toNat+n) 65535) ∧
    (shifted o n).csumOff=o.csumOff := by
  rw [shifted]
  by_cases hc : o.flags &&& offloadNeedsCsum=0
  · rw [if_neg (not_not.mpr hc)]
    by_cases hh : o.hdrLen=0
    · rw [if_neg (not_not.mpr hh)]
      exact ⟨fun h => absurd hc h,fun h => absurd hh h,rfl⟩
    · rw [if_pos hh]
      exact ⟨fun h => absurd hc h,fun _ => shift_toNat hn _,rfl⟩
  rw [if_pos hc]
  by_cases hh : o.hdrLen=0
  · rw [if_neg (not_not.mpr hh)]
    exact ⟨fun _ => shift_toNat hn _,fun h => absurd hh h,rfl⟩
  · rw [if_pos hh]
    exact ⟨fun _ => shift_toNat hn _,fun _ => shift_toNat hn _,rfl⟩

def Ring.Saturates (r : Ring) : Prop :=
  let raw := unmarshalOffload (bytesAt r.mem (r.dataAt-offloadHdrLen) offloadHdrLen)
  r.vnet=true → r.tph.tag.tagLen≠0 →
    (raw.flags &&& offloadNeedsCsum≠0 →
      r.offload.csumStart.toNat=min (raw.csumStart.toNat+4) 65535) ∧
    (raw.hdrLen≠0 → r.offload.hdrLen.toNat=min (raw.hdrLen.toNat+4) 65535)

theorem Ring.saturates (r : Ring) : r.Saturates := by
  intro hv ht
  have hfour : r.tph.tag.tagLen=4 := by
    have := tag_cases r.tph
    omega
  have hoff : r.offload=shifted (unmarshalOffload (bytesAt r.mem (r.dataAt-offloadHdrLen)
      offloadHdrLen)) 4 := by
    rw [Ring.offload,hv,hfour]
    rfl
  obtain ⟨hstart,hlen,-⟩ := shifted_fields (unmarshalOffload (bytesAt r.mem
    (r.dataAt-offloadHdrLen) offloadHdrLen)) (le_refl 4)
  rw [hoff]
  exact ⟨hstart,hlen⟩

/-- The slots of a receive are those of packets of the ring, one packet after the other and in the
order of the ring, whatever was in the arrays and whatever the ring holds: a packet's bytes in the
frames of its descriptors, marks on all of them but the last, its metadata on the first, and none
on the others. -/
theorem receive_metadata (h : q.Sound first count k) (max : Int) (wantTimestamps : Bool) :
    ∃ q1 q' descs offs ps, q.receive max wantTimestamps=some (q',descs,offs) ∧
      q1.finish descs=some q' ∧ slotsOf ps=descs.length ∧
      ps.Pairwise Receipt.Before ∧ ∀ before p after, ps=before++p::after →
        p.Shown q q1 q' wantTimestamps descs offs (slotsOf before) ∧ p.ring.Saturates := by
  rw [RxQueue.receive]
  split
  case isTrue =>
    have hnone : q.finish []=some q := by
      simp [RxQueue.finish,completeOffloads]
    exact ⟨q,q,[],[],[],rfl,hnone,rfl,.nil,fun before p after hps => by simp at hps⟩
  have hp := h.prepare max.toNat wantTimestamps
  obtain ⟨s,t,hwalk,hst,ht,hout,hlens,hring,hun⟩ := hp.walk max.toNat wantTimestamps
  have htidy := hp.walk_tidy hwalk fun hc j hj => by
    change q.ring.chain=true at hc
    simp only [RxQueue.prepare,hc,if_true,hj]
  obtain ⟨q1,descs,hsettle,hq1,hreceived,-⟩ := hp.settle ht hout hlens hring
  obtain ⟨q2,hfinish,-⟩ := hq1.finish descs
  simp only [hwalk,hst,hsettle,hfinish,bind_eq_bind,bind_some]
  obtain ⟨hdescs,hr1,hoffs1,htss1,hcont1,-⟩ := settle_eq hsettle
  obtain ⟨htss2,hoffs2⟩ := finish_offs hfinish
  obtain ⟨-,_,ps,hhand,hps,hgot,hbefore,-⟩ := htidy
  have hchain := hhand.chain
  have hlen := hreceived.length
  refine ⟨q1,q2,descs,_,ps,rfl,hfinish,hps.trans hlen.symm,hbefore,fun before p after hsplit => ?_⟩
  have hat := hgot.at hsplit
  rw [Nat.zero_add] at hat
  have hend : slotsOf before+p.slots ≤ s.out := by
    rw [← hps,hsplit,slotsOf,slotsOf,map_append,sum_append,map_cons,sum_cons]
    omega
  have hoff (j : Nat) (hj : j<p.slots) :
    ((List.range descs.length).map q2.offs.cells)[slotsOf before+j]? =
      some (q2.offs.cells (slotsOf before+j)) := by
    rw [getElem?_map,getElem?_range (by omega)]
    rfl
  have hfin (j : Nat) (hj : j<p.slots) :
    q2.offs.cells (slotsOf before+j)=s.o.offs (slotsOf before+j) ∨
      p.slots=1 ∧ q2.offs.cells (slotsOf before+j)=finished (s.o.offs (slotsOf before+j)) := by
    have := hoffs2 (slotsOf before+j)
    rw [hoffs1,hr1,hcont1,hchain] at this
    refine this.imp_right fun hcell => ⟨?_,hcell.2⟩
    by_contra hmore
    obtain ⟨hc,hch⟩ := hat.chained (by have := hat.slots; omega) hj
    rw [hcell.1 hc] at hch
    cases hch
  refine ⟨⟨hat.here,hat.fits,hat.slots,?_,fun j hj => ?_,?_,fun j hpos hj => ?_,fun hw => ?_⟩,
    p.ring.saturates⟩
  · refine (joined_eq p.slots _ fun j hj => ?_).trans hat.bytes
    have hd := getElem?_eq_getElem (by omega : slotsOf before+j<descs.length)
    exact ⟨_,hd,hp.settled ht hsettle hreceived hd⟩
  · have hx : slotsOf before+j<(t.descs.take s.out).length := by
      rw [length_take]
      omega
    refine ⟨_,by rw [hdescs,getElem?_mapIdx,getElem?_eq_getElem hx]; rfl,?_⟩
    have hplain := hun _ (mem_of_mem_take (getElem_mem hx))
    change (if s.ring.chain && s.o.cont (slotsOf before+j) then _ else _)=_
    rw [hchain,hat.marks j hj,hplain]
    simp
  · have hfirst := hfin 0 hat.slots
    have hget := hoff 0 hat.slots
    rw [Nat.add_zero] at hfirst hget
    rw [hat.offs.1] at hfirst
    exact ⟨_,hget,hfirst⟩
  · rw [hoff j hj]
    have hrest := hfin j hj
    rw [hat.offs.2 j hpos hj] at hrest
    rcases hrest with hrest | ⟨-,hrest⟩
    · rw [hrest]
    · rw [hrest]
      rfl
  · rw [htss2,htss1]
    exact hat.tss hw

/-- A packet of 64 bytes in the one frame of a queue. -/
theorem receive_metadata_crowded : ∃ q1 q' descs offs ps,
    (crowdedQueue 64).receive 2 true=some (q',descs,offs) ∧ q1.finish descs=some q' ∧
      slotsOf ps=descs.length ∧ ps.Pairwise Receipt.Before ∧ ∀ before p after, ps=before++p::after →
        p.Shown (crowdedQueue 64) q1 q' true descs offs (slotsOf before) ∧ p.ring.Saturates :=
  receive_metadata (crowdedQueue_sound 64) 2 true

end

end Packetio.Afpacket

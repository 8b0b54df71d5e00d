import Packetio.Afpacket.Device

/-! A receive queue with all of its frames on the free list goes past a packet with every call,
if it has frames enough for the packet that is next. -/
namespace Packetio.Afpacket

section
variable {σ : Type} {dst : Dst σ} {b : Batch} {s s' : Reading σ} {nx : Next} {r : Ring}

inductive Reading.Stuck (b : Batch) (dst : Dst σ) (s : Reading σ) : Next → Prop
  | dry {st' : σ} (hd : dst s.st s.out=(none,st')) : Stuck b dst s .leave
  | slots (h : s.out≠0) : Stuck b dst s .stop
  | frames {st' st'' : σ} {o' : Output} {rooms : List Nat} (h : s.ring.Fits)
      (hc : ¬ s.ring.tph.tpSnaplen<s.ring.tph.tpLen) (hch : s.ring.chain=true)
      (ht : Tried dst s rooms st' o') (hd : dst st' (s.out+rooms.length)=(none,st''))
      (hlen : s.out+rooms.length<b.max) : Stuck b dst s .stop

/-- `s'` is past the packet of `s`: it is in `s'.out-s.out` slots or counted, which `m` says. -/
structure Reading.Passes (s s' : Reading σ) (m : Nat) : Prop where
  oversize : s'.ring.oversize=s.ring.oversize+UInt64.ofNat m
  out : s.out<s'.out+m
  once : m≤1
  numPkts : s'.ring.numPkts.toNat<s.ring.numPkts.toNat

theorem Turn.passed (h : Turn b dst s s' nx) (hn : 0<s.ring.numPkts) :
    (∃ m, s.Passes s' m) ∧ nx ≠ .stop ∨
      s.Stuck b dst nx ∧ (s'.out=s.out ∧ s'.ring.oversize=s.ring.oversize) ∧
        s'.ring.numPkts=s.ring.numPkts := by
  cases h with
  | refused => exact .inl ⟨⟨1,rfl,Nat.lt_succ_self _,le_rfl,UInt32.lt_iff_toNat_lt.mp hn⟩,by simp⟩
  | dry _ hd => exact .inr ⟨.dry hd,⟨rfl,rfl⟩,rfl⟩
  | noSlots _ _ _ _ hout => exact .inr ⟨.slots hout,⟨rfl,rfl⟩,rfl⟩
  | noFrames hf hc hch ht hd hlen => exact .inr ⟨.frames hf hc hch ht hd hlen,⟨rfl,rfl⟩,rfl⟩
  | clipped | tooBig | tooLong =>
    exact .inl ⟨⟨1,(advance_same _ _).2.1,Nat.lt_succ_self _,le_rfl,advance_numPkts _ hn⟩,by simp⟩
  | placed _ _ _ hh =>
    exact .inl ⟨⟨0,(advance_same _ _).2.1.trans (UInt64.add_zero _).symm,
      Nat.lt_add_of_pos_right (List.length_pos_iff.mpr hh.slots),Nat.zero_le _,
        advance_numPkts _ hn⟩,
      by simp⟩

/-- The most packets that a block says it has. -/
def mostPkts : Nat := 4294967295

/-- With `k` blocks given back, a read of `r` has counted `n` packets and is past at least one. -/
structure Past (r : Ring) (k n : Nat) (s : Reading σ) : Prop where
  oversize : s.ring.oversize=r.oversize+UInt64.ofNat n
  some : 0<s.out+n
  handed : r.Handed k s.ring
  most : k≤r.blockNr.toNat

/-- Before a block, and within one. A block adds no more to the count than it has packets. -/
def Past.Before (r : Ring) (s : Reading σ) : Prop :=
  ∃ k n, Past r k n s ∧ 0<k ∧ n≤k*mostPkts

def Past.Within (r : Ring) (s : Reading σ) : Prop :=
  ∃ k n, Past r k n s ∧ k<r.blockNr.toNat ∧ n+s.ring.numPkts.toNat≤(k+1)*mostPkts ∧
    (0<k ∨ s.ring.numPkts.toNat<r.entered.numPkts.toNat)

def Ring.Moves (r : Ring) (out : Nat) (r' : Ring) : Prop :=
  (0<out ∨ r'.oversize≠r.oversize) ∧ ((∃ k, 0<k ∧ r.Handed k r') ∨
    r'.pending=true ∧ r'.numPkts.toNat<r.entered.numPkts.toNat)

/-- A read counts fewer than 2^64 packets, so that the counter does not come round. -/
theorem Past.counted {k n : Nat} (h : Past r k n s) (hn : n≤k*mostPkts ∨ n≤(k+1)*mostPkts ∧
    k<r.blockNr.toNat) : 0<s.out ∨ s.ring.oversize≠r.oversize := by
  have hsome := h.some
  have hmost := h.most
  have hlt := r.blockNr.toNat_lt
  by_cases hout : 0<s.out
  · exact .inl hout
  have hsmall : n<2^64 := by
    rw [mostPkts] at hn
    omega
  refine .inr fun hsame => ?_
  rw [h.oversize,UInt64.add_eq_left,← UInt64.toNat_inj,UInt64.toNat_ofNat_of_lt' hsmall] at hsame
  change n=0 at hsame
  omega

theorem Past.Within.turn (h : Past.Within r s) (hn : 0<s.ring.numPkts) (ht : Turn b dst s s' nx) :
    Past.Within r s' := by
  obtain ⟨k,n,hp,hk,hle,hless⟩ := h
  have hsome := hp.some
  rcases ht.passed hn with ⟨⟨m,hm⟩,-⟩ | ⟨-,⟨hout,hover⟩,hnum⟩
  · obtain ⟨hover,hout,honce,hnum⟩ := hm
    refine ⟨k,n+m,⟨?_,by omega,hp.handed.kept ht.kept,hp.most⟩,hk,by omega,
      hless.imp_right hnum.trans⟩
    rw [hover,hp.oversize,UInt64.ofNat_add,UInt64.add_assoc]
  · exact ⟨k,n,⟨hover.trans hp.oversize,by omega,hp.handed.kept ht.kept,hp.most⟩,hk,by rwa [hnum],
      by rwa [hnum]⟩

theorem Past.Within.rest (h : Past.Within r s) (hpend : s'.ring.pending=true) (hout : s'.out=s.out)
    (hover : s'.ring.oversize=s.ring.oversize) (hnum : s'.ring.numPkts=s.ring.numPkts)
    (hkept : s.ring.Kept s'.ring) : r.Moves s'.out s'.ring := by
  obtain ⟨k,n,hp,hk,hle,hless⟩ := h
  rw [Ring.Moves,hout,hover,hnum]
  refine ⟨hp.counted (.inr ⟨by omega,hk⟩),?_⟩
  rcases hless with hpos | hless
  · exact .inl ⟨k,hpos,hp.handed.kept hkept⟩
  · exact .inr ⟨hpend,hless⟩

theorem past_rule (b : Batch) (dst : Dst σ) (hm : r.Mapped) :
    Rule b dst (Past.Before r) (Past.Within r) (fun s => r.Moves s.out s.ring) where
  enter s _ := by
    rintro ⟨k,n,hp,hk,hle⟩ _ huser
    have hlt := s.ring.entered.numPkts.toNat_lt
    refine ⟨k,n,⟨(entered_counts s.ring).2.trans hp.oversize,hp.some,
      hp.handed.kept (entered_kept s.ring),hp.most⟩,hp.handed.user hm hp.most huser,?_,.inl hk⟩
    rw [mostPkts] at hle ⊢
    dsimp only
    omega
  turn _ _ _ _ hs hn _ ht _ := hs.turn hn ht
  stop s s' _ hs hn _ ht := by
    have hpend : s'.ring.pending=true := by
      cases ht with
      | noSlots | noFrames => rfl
    rcases ht.passed hn with ⟨-,hgo⟩ | ⟨-,⟨hout,hover⟩,hnum⟩
    · exact absurd rfl hgo
    · exact hs.rest hpend hout hover hnum ht.kept
  rest s hs _ := hs.rest rfl rfl rfl rfl ⟨rfl,rfl,rfl,rfl,rfl,rfl⟩
  back s _ hs hnum := by
    obtain ⟨k,n,hp,hk,hle,-⟩ := hs
    exact ⟨k+1,n,⟨hp.oversize,hp.some,hp.handed.back hm,hk⟩,k.succ_pos,Nat.le_of_add_right_le hle⟩
  done s _ hs _ := by
    obtain ⟨k,n,hp,hk,hle⟩ := hs
    exact ⟨hp.counted (.inl hle),.inl ⟨k,hk,hp.handed⟩⟩

end

section
variable {first count k : Nat} {max : Int} {q q' : RxQueue}

/-- All frames of an open queue are on its free list, and a packet is ready. -/
structure Ready (first count k : Nat) (max : Int) (q : RxQueue) : Prop where
  sound : q.Sound first count k
  opened : q.closed=false
  asked : 1 ≤ max
  pool : q.pool.free.length=count
  frames : 0<count
  user : q.ring.User
  left : 0<q.ring.entered.numPkts
  ethernet : 14≤q.ring.entered.tph.tpSnaplen.toNat

/-- A packet that is in its block and whole is not to be laid over more frames than there are. -/
def RxQueue.Room (count k : Nat) (max : Int) (q : RxQueue) : Prop :=
  q.ring.entered.Fits → ¬ q.ring.entered.tph.tpSnaplen<q.ring.entered.tph.tpLen →
    q.ring.chain=true → max≤count ∨ q.ring.entered.packet.length≤count*(2^k-frameHeadroom)

structure CanMove (first count k : Nat) (max : Int) (q : RxQueue) : Prop
    extends Ready first count k max q where
  room : q.Room count k max

theorem joined_length_le {o : Output} (rooms : List Nat) (slot : Nat)
    (h : ∀ i room, rooms[i]? = some room → o.lens (slot+i)≤room) :
    (o.joined slot rooms.length).length≤rooms.sum := by
  induction rooms generalizing slot with
  | nil => exact Nat.le_refl 0
  | cons room rooms ih =>
    have hfirst := h 0 room rfl
    have hrest := ih (slot+1) fun i r hr => by
      rw [Nat.add_right_comm,Nat.add_assoc]
      exact h (i+1) r hr
    rw [List.length_cons,Output.joined,List.length_append,List.sum_cons,Output.got,bytesAt_length]
    exact Nat.add_le_add hfirst hrest

theorem Taking.Sound.length_le {t : Taking} {p₀ : Pool.Frames} (h : t.Sound first count k p₀) :
    t.descs.length≤p₀.free.length := by
  have hcard := congrArg Multiset.card h.all
  rw [Pool.bases,Multiset.card_add,Multiset.coe_card,Multiset.coe_card,Multiset.coe_card,
    List.length_map] at hcard
  omega

section
variable (h : Ready first count k max q) (wantTimestamps : Bool)
include h

theorem Ready.asks {rooms : List Nat} {st' : Option Taking}
    (ha : Asks (takeFrame q.region) (some { pool := q.pool }) 0 rooms st' ∨ ∃ room st,
      takeFrame q.region (some { pool := q.pool }) 0=(some room,st) ∧
        Asks (takeFrame q.region) st 0 rooms st') :
    ∃ t, st'=some t ∧ t.Sound first count k q.pool ∧ rooms.length≤t.descs.length ∧
      rooms.sum=rooms.length*(2^k-frameHeadroom) := by
  have hs := h.sound
  have hsupplies :=
    @takeFrame_supplies first count k q.region q.pool hs.region hs.headroom hs.inside
  have hfrom {t₀ : Taking} (ht₀ : t₀.Sound first count k q.pool ∧ ∀ d∈t₀.descs, d.options=0)
      (ha : Asks (takeFrame q.region) (some t₀) 0 rooms st') : ∃ t, st'=some t ∧
        t.Sound first count k q.pool ∧ rooms.length≤t.descs.length ∧
        rooms.sum=rooms.length*(2^k-frameHeadroom) := by
    obtain ⟨⟨t,hst,⟨ht,-⟩,hle⟩,hrooms⟩ := hsupplies.asks ha ⟨t₀,rfl,ht₀,Nat.zero_le _⟩
    refine ⟨t,hst,ht,by omega,?_⟩
    rw [List.eq_replicate_of_mem hrooms,List.sum_replicate_nat,List.length_replicate]
  have hnone : Taking.Sound first count k q.pool { pool := q.pool } := .none hs.pool
  rcases ha with ha | ⟨room,st,hd,ha⟩
  · exact hfrom ⟨hnone,by simp⟩ ha
  · obtain ⟨⟨t₀,rfl,ht₀,-⟩,-⟩ := hsupplies.given ⟨_,rfl,⟨hnone,by simp⟩,Nat.zero_le _⟩ hd
    exact hfrom ht₀ ha

theorem Ready.room {s' : Reading (Option Taking)} {nx : Next} {o : Output}
    (ht : Turn (q.batch max.toNat wantTimestamps) (takeFrame q.region)
      ⟨q.ring.entered,some { pool := q.pool },o,0⟩ s' nx)
    (hmoved : nx ≠ .stop) : q.Room count k max := by
  have hasked := h.asked
  have hpool := h.pool
  intro hf hc hch
  rw [← (entered_kept q.ring).chain] at hch
  cases ht with
  | refused hnot => exact absurd hf hnot
  | clipped _ _ hclip => exact absurd hclip hc
  | tooBig _ _ _ hno => rw [hch] at hno; cases hno
  | noSlots | noFrames => exact absurd rfl hmoved
  | dry _ hd =>
    have hs := h.sound
    have hnot := takeFrame_none hs.region hs.headroom hs.inside (.none hs.pool) (Nat.zero_le _) hd
    have hpos := h.frames
    omega
  | @placed _ _ rooms _ _ hd hh =>
    obtain ⟨t,-,ht,hle,hsum⟩ := h.asks (hd.imp And.left And.right)
    have hcount := ht.length_le
    have hlen := joined_length_le (o := _) rooms 0 hh.fit
    rw [hh.bytes,hsum] at hlen
    exact .inr (hlen.trans (Nat.mul_le_mul_right _ (by omega)))
  | tooLong _ _ _ ht _ hlen =>
    obtain ⟨t,-,hs,hle,-⟩ := h.asks (.inr ht.asks)
    have hcount := hs.length_le
    change _=max.toNat at hlen
    exact .inl (by omega)

theorem Ready.stuck {o : Output} {nx : Next}
    (hstuck : Reading.Stuck (q.batch max.toNat wantTimestamps) (takeFrame q.region)
      ⟨q.ring.entered,some { pool := q.pool },o,0⟩ nx) : nx = .stop ∧ ¬ q.Room count k max := by
  have hs := h.sound
  have hfew {t : Taking} {i : Nat} {st : Option Taking} (ht : t.Sound first count k q.pool)
      (hi : i≤t.descs.length) (hd : takeFrame q.region (some t) i=(none,st)) : i=count :=
    (takeFrame_none hs.region hs.headroom hs.inside ht hi hd).trans h.pool
  cases hstuck with
  | dry hd =>
    have hpos := h.frames
    have hnot := hfew (.none hs.pool) (Nat.zero_le _) hd
    omega
  | slots hout => exact absurd rfl hout
  | frames hf hc hch ht hd hlen =>
    refine ⟨rfl,fun hroom => ?_⟩
    have hshort := ht.short (Nat.lt_of_lt_of_le (by decide) h.ethernet)
    obtain ⟨t,rfl,ht,hle,hsum⟩ := h.asks (.inr ht.asks)
    rw [Nat.zero_add] at hd
    have hall := hfew ht hle hd
    have hmax := hroom hf hc ((entered_kept q.ring).chain ▸ hch)
    rw [hsum,hall] at hshort
    change 0+_ < max.toNat at hlen
    change _<q.ring.entered.packet.length at hshort
    omega

theorem Ready.stays (hroom : ¬ q.Room count k max) :
    ∃ s, (q.prepare max.toNat wantTimestamps).walk max.toNat wantTimestamps=some s ∧
      s.out=0 ∧ s.ring.oversize=q.ring.oversize := by
  have hasked := h.asked
  have hnone : Rule (q.batch max.toNat wantTimestamps) (takeFrame q.region) (fun _ => False)
      (fun _ => False) (fun s => s.out=0 ∧ s.ring.oversize=q.ring.oversize) :=
    ⟨fun _ _ => False.elim,fun _ _ _ _ => False.elim,fun _ _ _ => False.elim,fun _ => False.elim,
      fun _ _ => False.elim,fun _ _ => False.elim⟩
  obtain ⟨s,k,hread,-,-,hsame⟩ := read_first hnone h.sound.ring h.user
    (by change 0 < max.toNat; omega) h.left (some { pool := q.pool })
    (q.prepare max.toNat wantTimestamps).output fun s' nx ht => by
      have hstop : nx = .stop := by
        by_contra hgo
        exact hroom (h.room wantTimestamps ht hgo)
      rw [if_pos hstop]
      rcases ht.passed h.left with ⟨-,hgo⟩ | ⟨-,⟨hout,hover⟩,-⟩
      · exact absurd hstop hgo
      · exact ⟨hout,hover.trans (entered_counts q.ring).2⟩
  exact ⟨_,hread,hsame⟩

end

theorem CanMove.walk (h : CanMove first count k max q) (wantTimestamps : Bool) :
    ∃ s, (q.prepare max.toNat wantTimestamps).walk max.toNat wantTimestamps=some s ∧
      q.ring.Moves s.out s.ring := by
  have hasked := h.asked
  obtain ⟨s,k,hread,-,-,hmoved,hend⟩ := read_first
    (past_rule (q.batch max.toNat wantTimestamps) (takeFrame q.region) h.sound.ring) h.sound.ring
    h.user (by change 0 < max.toNat; omega) h.left (some { pool := q.pool })
    (q.prepare max.toNat wantTimestamps).output fun s' nx ht => by
      rcases ht.passed h.left with ⟨⟨m,hover,hout,honce,hnum⟩,hgo⟩ | ⟨hstuck,-⟩
      · rw [if_neg hgo]
        have hlt := q.ring.entered.numPkts.toNat_lt
        rw [(entered_counts q.ring).2] at hover
        refine ⟨0,m,
          ⟨hover,hout,((Ring.Handed.zero h.sound.ring).kept (entered_kept _)).kept ht.kept,
          Nat.zero_le _⟩,Nat.zero_lt_of_lt h.sound.ring.block,?_,.inr hnum⟩
        rw [mostPkts]
        dsimp only at hnum
        omega
      · exact absurd h.room (h.toReady.stuck wantTimestamps hstuck).2
  exact ⟨_,hread,hmoved,hend.imp_left fun ⟨k,hk,hh⟩ => ⟨k,hk,hh.kept ⟨rfl,rfl,rfl,rfl,rfl,rfl⟩⟩⟩

/-- The block at the cursor of `r` is the kernel's again. -/
def Ring.Returned (r r' : Ring) : Prop := u32At r'.mem (r.start+8)=0

theorem Ring.Handed.returned {r r' : Ring} {k : Nat} (h : r.Handed k r') (hm : r.Mapped)
    (hk : 0<k) : r.Returned r' := by
  have hz := cleared_status (j := 0) hm hk
  have hblock : (r.block.toNat+0)%r.blockNr.toNat=r.block.toNat := Nat.mod_eq_of_lt hm.block
  rw [hblock] at hz
  rwa [Ring.Returned,h.mem]

theorem Ready.receive (h : Ready first count k max q) (wantTimestamps : Bool) :
    ∃ s q' descs offs, (q.prepare max.toNat wantTimestamps).walk max.toNat wantTimestamps=some s ∧
      q.receive max wantTimestamps=some (q',descs,offs) ∧ descs.length=s.out ∧ q'.ring=s.ring := by
  obtain ⟨q',descs,offs,hres,-,-,⟨hshut,-⟩ | ⟨s,hwalk,hgot,hring⟩⟩ :=
    h.sound.receive max wantTimestamps
  · have hasked := h.asked
    rw [h.opened] at hshut
    rcases hshut with hshut | hshut
    · cases hshut
    · omega
  · exact ⟨s,q',descs,offs,hwalk,hres,hgot.length,hring⟩

theorem CanMove.receive (h : CanMove first count k max q) (wantTimestamps : Bool) :
    ∃ q' descs offs, q.receive max wantTimestamps=some (q',descs,offs) ∧
      (descs ≠ [] ∨ q'.ring.oversize≠q.ring.oversize) ∧ (q.ring.Returned q'.ring ∨
        q'.ring.pending=true ∧ q'.ring.numPkts.toNat<q.ring.entered.numPkts.toNat) := by
  obtain ⟨s,hwalk,hmoved,hend⟩ := h.walk wantTimestamps
  obtain ⟨s',q',descs,offs,hwalk',hres,hlen,hring⟩ := h.toReady.receive wantTimestamps
  obtain rfl : s=s' := Option.some_inj.mp (hwalk.symm.trans hwalk')
  refine ⟨q',descs,offs,hres,?_⟩
  rw [hring,← List.length_pos_iff,hlen]
  exact ⟨hmoved,hend.imp_left fun ⟨k,hk,hh⟩ => hh.returned h.sound.ring hk⟩

inductive Rounds (first count k : Nat) (wantTimestamps : Bool) : Nat → RxQueue → RxQueue → Prop
  | none {q : RxQueue} : Rounds first count k wantTimestamps 0 q q
  | more {n : Nat} {max : Int} {q q₁ q₂ q₃ : RxQueue} {descs : List Desc} {offs : List Offload}
      {mem : Nat → UInt8} (h : Rounds first count k wantTimestamps n q q₁)
      (hm : CanMove first count k max q₁) (hr : q₁.receive max wantTimestamps=some (q₂,descs,offs))
      (hkeep : ¬ q₁.ring.Returned q₂.ring) (hring : q₃.ring = { q₂.ring with mem }) :
      Rounds first count k wantTimestamps (n+1) q q₃

/-- A call delivers a packet or counts one that it skips just if there is room for the one that is
next, and if there always is, a block of `n` packets is given back after `n` calls at the latest. -/
theorem receive_moves_iff (first count k : Nat) (wantTimestamps : Bool) :
    (∀ max q, Ready first count k max q → ∃ q' descs offs,
      q.receive max wantTimestamps=some (q',descs,offs) ∧
        ((descs ≠ [] ∨ q'.ring.oversize≠q.ring.oversize) ↔ q.Room count k max)) ∧
      ∀ n q q', Rounds first count k wantTimestamps n q q' →
        n+q'.ring.entered.numPkts.toNat≤q.ring.entered.numPkts.toNat := by
  refine ⟨fun max q h => ?_,fun n q q' h => ?_⟩
  · by_cases hroom : q.Room count k max
    · obtain ⟨q',descs,offs,hres,hmoved,-⟩ := CanMove.receive ⟨h,hroom⟩ wantTimestamps
      exact ⟨q',descs,offs,hres,fun _ => hroom,fun _ => hmoved⟩
    obtain ⟨s,hwalk,hout,hover⟩ := h.stays wantTimestamps hroom
    obtain ⟨s',q',descs,offs,hwalk',hres,hlen,hring⟩ := h.receive wantTimestamps
    obtain rfl : s=s' := Option.some_inj.mp (hwalk.symm.trans hwalk')
    refine ⟨q',descs,offs,hres,fun hmoved => ?_,fun hyes => absurd hyes hroom⟩
    rw [← List.length_pos_iff,hlen,hring,hout,hover] at hmoved
    simp at hmoved
  · induction h with
    | none => rw [zero_add]
    | @more n _ _ q₁ q₂ q₃ _ _ _ _ hm hr hkeep hring ih =>
      obtain ⟨q',descs,offs,hres,-,hend⟩ := hm.receive wantTimestamps
      rw [hr,Option.some_inj] at hres
      cases hres
      obtain ⟨hpend,hless⟩ := hend.resolve_left hkeep
      have hsame : q₃.ring.entered.numPkts=q₂.ring.numPkts := by
        rw [hring,Ring.entered,Ring.enter]
        simp [hpend]
      rw [hsame]
      omega

end

/-- A block with one packet of `n` bytes, less than 256 of them. -/
def lonePacket (n a : Nat) : UInt8 :=
  if a=8 ∨ a=12 then 1
  else if a=16 then 48
  else if a=60 ∨ a=64 then UInt8.ofNat n
  else if a=72 then 64
  else 0

def crowded : Config :=
  { txQueues := 32, rxQueues := 32, frames := 64, frameSize := 128, multiBuffer := true }

def crowdedMemory : FrameMemory := ⟨⟨fun _ => 0,8192,by decide⟩,128,127⟩

def crowdedQueue (n : Nat) : RxQueue :=
  newRxQueue true crowdedMemory (setupRing (lonePacket n) false true) 32 1

theorem crowdedQueue_sound (n : Nat) : (crowdedQueue n).Sound 32 1 7 :=
  (RxQueue.newRxQueue_sound true ⟨rfl,by decide,rfl,by decide⟩ (by decide) (by decide) (by decide)
    (setupRing_mapped (lonePacket n) false true)).1

def RxQueue.view (q : RxQueue) : UInt32 × UInt32 × Bool × UInt64 × List UInt64 :=
  (q.ring.block,q.ring.numPkts,q.ring.pending,q.ring.oversize,q.pool.free)

/-- A packet of 65 bytes does not fit into the 64 bytes of the one frame. Each call of two slots
asks for a second frame, finds none and leaves the packet where it is, with nothing counted. -/
theorem receive_stalls : crowded.validate=none ∧
    newRegion crowded.frames crowded.frameSize true = .ok crowdedMemory ∧
    (crowdedQueue 65).pool.free = [4096] ∧ (crowdedQueue 65).ring.User ∧
    (crowdedQueue 65).ring.entered.numPkts=1 ∧ (crowdedQueue 65).ring.entered.packet.length=65 ∧
    ((crowdedQueue 65).receive 2 false).map (fun x => (x.1.view,x.2.1.length)) =
      some ((0,1,true,0,[4096]),0) ∧
    (((crowdedQueue 65).receive 2 false).bind fun x => x.1.receive 2 false).map
      (fun x => (x.1.view,x.2.1.length))=some ((0,1,true,0,[4096]),0) := by
  refine ⟨by decide,?_,rfl,by rw [Ring.User]; decide,rfl,rfl,?_,?_⟩
  · rfl
  · rfl
  · rfl

/-- A packet of 64 bytes fits, and one call is enough for its block. -/
theorem receive_moves_crowded : CanMove 32 1 7 2 (crowdedQueue 64) ∧ ∃ q descs offs,
    (crowdedQueue 64).receive 2 false=some (q,descs,offs) ∧
      (descs ≠ [] ∨ q.ring.oversize≠(crowdedQueue 64).ring.oversize) ∧
      ((crowdedQueue 64).ring.Returned q.ring ∨ Rounds 32 1 7 false 1 (crowdedQueue 64) q ∧
        1+q.ring.entered.numPkts.toNat≤1) := by
  have hmove : CanMove 32 1 7 2 (crowdedQueue 64) :=
    ⟨⟨crowdedQueue_sound 64,rfl,by decide,rfl,by decide,by rw [Ring.User]; decide,
      by decide,by decide⟩,
      fun _ _ _ => .inr (by decide)⟩
  obtain ⟨hone,hrun⟩ := receive_moves_iff 32 1 7 false
  obtain ⟨q,descs,offs,hres,hmoved⟩ := hone 2 _ hmove.toReady
  refine ⟨hmove,q,descs,offs,hres,hmoved.mpr hmove.room,?_⟩
  by_cases hback : (crowdedQueue 64).ring.Returned q.ring
  · exact .inl hback
  have hround := Rounds.more .none hmove hres hback (rfl : q.ring={ q.ring with mem := q.ring.mem })
  exact .inr ⟨hround,hrun 1 _ q hround⟩

end Packetio.Afpacket

import Packetio.Afpacket.RingWalk

/-! A whole call of read: it ends, whatever the ring holds, and what it does is a sequence of
turns with the blocks handed back in between. -/
namespace Packetio.Afpacket
open Lib Option Nat UInt32

structure Ring.Kept (r r' : Ring) : Prop where
  mem : r'.mem=r.mem
  blockSize : r'.blockSize=r.blockSize
  blockNr : r'.blockNr=r.blockNr
  block : r'.block=r.block
  chain : r'.chain=r.chain
  vnet : r'.vnet=r.vnet

theorem Ring.Kept.refl (r : Ring) : r.Kept r := ⟨rfl,rfl,rfl,rfl,rfl,rfl⟩

variable {r r' : Ring} {j fuel k : Nat}

theorem Ring.Kept.trans {r'' : Ring} (h : r.Kept r') (h' : r'.Kept r'') : r.Kept r'' :=
  ⟨h'.mem.trans h.mem,h'.blockSize.trans h.blockSize,h'.blockNr.trans h.blockNr,
    h'.block.trans h.block,h'.chain.trans h.chain,h'.vnet.trans h.vnet⟩

theorem Ring.Kept.start (h : r.Kept r') : r'.start=r.start := by
  rw [Ring.start,Ring.start,h.block,h.blockSize]

theorem Ring.Kept.mapped (h : r.Kept r') (hm : r.Mapped) : r'.Mapped :=
  ⟨by rw [h.blockSize]; exact hm.hdr,by rw [h.blockSize,h.blockNr]; exact hm.size,
    by rw [h.block,h.blockNr]; exact hm.block⟩

theorem advance_kept (r : Ring) (next : UInt32) : r.Kept (r.advance next) := by
  rw [Ring.advance]
  split
  case isTrue | isFalse => exact ⟨rfl,rfl,rfl,rfl,rfl,rfl⟩

theorem advance_same (r : Ring) (next : UInt32) : (r.advance next).pending=r.pending ∧
    (r.advance next).oversize=r.oversize ∧ (r.advance next).packets=r.packets := by
  rw [Ring.advance]
  split
  case isTrue | isFalse => exact ⟨rfl,rfl,rfl⟩

theorem skip_kept (r : Ring) (tph : Tpacket3Hdr) : r.Kept (r.skip tph) := by
  have h := advance_kept { r with oversize := r.oversize+1 } tph.tpNextOffset
  exact { h with }

theorem advance_numPkts (next : UInt32) (h : 0<r.numPkts) :
    (r.advance next).numPkts.toNat<r.numPkts.toNat := by
  rw [lt_iff_toNat_lt] at h
  have hsub := toNat_sub (x := r.numPkts) (y := 1) h
  have hone : toNat 1=1 := rfl
  rw [Ring.advance]
  split
  case isTrue => omega
  change (r.numPkts-1).toNat < _
  omega

section
variable {σ : Type} {dst : Dst σ} {b : Batch} {s s' : Reading σ} {nx : Next}

namespace Turn

theorem kept (h : Turn b dst s s' nx) : s.ring.Kept s'.ring := by
  cases h with
  | refused => exact ⟨rfl,rfl,rfl,rfl,rfl,rfl⟩
  | dry => exact .refl _
  | clipped | tooBig => exact skip_kept _ _
  | placed => exact advance_kept _ _
  | tooLong =>
    have h := skip_kept { s.ring with batchTooSmall := s.ring.batchTooSmall+1 } s.ring.tph
    exact { h with }
  | noSlots | noFrames => exact ⟨rfl,rfl,rfl,rfl,rfl,rfl⟩

theorem packets (h : Turn b dst s s' nx) : s'.ring.packets=s.ring.packets := by
  cases h with
  | refused | dry | noSlots | noFrames => rfl
  | clipped | tooBig | placed | tooLong => exact (advance_same _ _).2.2

theorem less (h : Turn b dst s s' .again) (hn : 0<s.ring.numPkts) :
    s'.ring.numPkts.toNat<s.ring.numPkts.toNat := by
  cases h with
  | clipped | tooBig | placed | tooLong => exact advance_numPkts _ hn

theorem out_le (h : Turn b dst s s' nx) (hmax : s.out<b.max) : s'.out≤b.max := by
  cases h with
  | placed _ _ _ hh => exact hh.max
  | refused | dry | clipped | tooBig | tooLong | noSlots | noFrames => exact le_of_lt hmax

theorem beyond (h : Turn b dst s s' nx) (hj : b.max≤j) : s.o.Same s'.o j := by
  cases h with
  | placed _ _ _ hh =>
    have := hh.max
    exact hh.other j (.inr (by omega))
  | tooLong _ _ _ ht hout hlen => exact ht.other j (.inr (by omega))
  | noSlots _ _ _ ht _ _ | noFrames _ _ _ ht _ _ => exact ht.other j (.inr (by omega))
  | refused | dry | clipped | tooBig => exact ⟨rfl,rfl,rfl,rfl,rfl⟩

end Turn

end

def Ring.handBack (r : Ring) : Ring :=
  { r with mem := blit r.mem (r.start+8) 4 (leByte 0), block := (r.block+1)%r.blockNr }

def Ring.User (r : Ring) : Prop := (blockDescAt r.mem r.start).blockStatus &&& tpStatusUser≠0

def Ring.entered (r : Ring) : Ring := r.enter (blockDescAt r.mem r.start)

theorem entered_kept (r : Ring) : r.Kept r.entered := by
  rw [Ring.entered,Ring.enter]
  cases r.pending with
  | false | true => exact ⟨rfl,rfl,rfl,rfl,rfl,rfl⟩

theorem entered_counts (r : Ring) : r.entered.packets=r.packets ∧
    r.entered.oversize=r.oversize := by
  rw [Ring.entered,Ring.enter]
  cases r.pending with
  | false | true => exact ⟨rfl,rfl⟩

structure Rule {σ : Type} (b : Batch) (dst : Dst σ) (I J F : Reading σ → Prop) : Prop where
  enter : ∀ s, s.ring.Mapped → I s → s.out<b.max → s.ring.User → J { s with ring := s.ring.entered }
  turn : ∀ s s' nx, s.ring.Mapped → J s → 0<s.ring.numPkts → s.out<b.max →
    Turn b dst s s' nx → nx ≠ .stop → J s'
  stop : ∀ s s', s.ring.Mapped → J s → 0<s.ring.numPkts → s.out<b.max →
    Turn b dst s s' .stop → F s'
  rest : ∀ s, J s → s.ring.numPkts≠0 → F { s with ring := { s.ring with pending := true } }
  back : ∀ s, s.ring.Mapped → J s → s.ring.numPkts=0 → I { s with ring := s.ring.handBack }
  done : ∀ s, s.ring.Mapped → I s → b.max ≤ s.out ∨ ¬ s.ring.User → F s

section
variable {σ : Type} {dst : Dst σ} {b : Batch} {I J F : Reading σ → Prop}

theorem packets_rule (b : Batch) (dst : Dst σ) (n : UInt64) :
    Rule b dst (fun s => s.ring.packets=n) (fun s => s.ring.packets=n)
      (fun s => s.ring.packets=n) where
  enter s _ hs _ _ := (entered_counts s.ring).1.trans hs
  turn _ _ _ _ hs _ _ ht _ := ht.packets.trans hs
  stop _ _ _ hs _ _ ht := ht.packets.trans hs
  rest _ hs _ := hs
  back _ _ hs _ := hs
  done _ _ hs _ := hs

theorem drain_turn {s : Reading σ} (hm : s.ring.Mapped) (hn : 0<s.ring.numPkts) (hmax : s.out<b.max)
    (hfirst : ∀ s' nx, Turn b dst s s' nx → if nx = .stop then F s' else J s')
    (hmore : ∀ s1, s1.ring.Mapped → J s1 → s1.ring.numPkts.toNat<s.ring.numPkts.toNat →
      ∃ s' stopped, s1.drain b dst fuel=some (s',stopped) ∧ s1.ring.Kept s'.ring ∧
        if stopped then F s' else J s') : ∃ s' stopped,
      s.drain b dst (fuel+1)=some (s',stopped) ∧ s.ring.Kept s'.ring ∧
        if stopped then F s' else J s' := by
  obtain ⟨s1,nx,hframe,hturn⟩ : ∃ s1 nx, s.frame b dst=some (s1,nx) ∧ Turn b dst s s1 nx :=
    frame_turn hm hmax
  have hres := hfirst s1 nx hturn
  have hk := hturn.kept
  rw [Reading.drain,if_pos ⟨hn,hmax⟩]
  simp only [hframe,bind_eq_bind,bind_some]
  cases nx with
  | again =>
    obtain ⟨s2,stopped,hdrain,hk2,hres⟩ := hmore s1 (hk.mapped hm) hres (hturn.less hn)
    exact ⟨s2,stopped,hdrain,hk.trans hk2,hres⟩
  | leave => exact ⟨s1,false,rfl,hk,hres⟩
  | stop => exact ⟨s1,true,rfl,hk,hres⟩

theorem drain_rule (h : Rule b dst I J F) (fuel : Nat) (s : Reading σ) (hm : s.ring.Mapped)
    (hs : J s) (hfuel : s.ring.numPkts.toNat<fuel) : ∃ s' stopped,
      s.drain b dst fuel=some (s',stopped) ∧ s.ring.Kept s'.ring ∧
        if stopped then F s' else J s' := by
  induction fuel generalizing s with
  | zero => omega
  | succ fuel ih =>
    by_cases hgo : 0<s.ring.numPkts ∧ s.out<b.max
    · refine drain_turn hm hgo.1 hgo.2 (fun s1 nx ht => ?_) fun s1 hm1 hs1 hless =>
        ih s1 hm1 hs1 (by omega)
      cases nx with
      | stop => exact h.stop s s1 hm hs hgo.1 hgo.2 ht
      | again | leave => exact h.turn s s1 _ hm hs hgo.1 hgo.2 ht (by simp)
    · rw [Reading.drain,if_neg hgo]
      exact ⟨s,false,rfl,.refl _,hs⟩

end

/-- The memory of a ring after `k` of its blocks, from the cursor on, went back. -/
def Ring.cleared (r : Ring) : Nat → Nat → UInt8
  | 0 => r.mem
  | k+1 => blit (r.cleared k) ((r.block.toNat+k)%r.blockNr.toNat*r.blockSize.toNat+8) 4 (leByte 0)

structure Ring.Handed (r : Ring) (k : Nat) (r' : Ring) : Prop where
  mem : r'.mem=r.cleared k
  block : r'.block.toNat=(r.block.toNat+k)%r.blockNr.toNat
  blockSize : r'.blockSize=r.blockSize
  blockNr : r'.blockNr=r.blockNr
  chain : r'.chain=r.chain
  vnet : r'.vnet=r.vnet

section
variable {r r' r'' : Ring} {k : Nat}

theorem Ring.Handed.zero (hm : r.Mapped) : r.Handed 0 r :=
  ⟨rfl,(mod_eq_of_lt hm.block).symm,rfl,rfl,rfl,rfl⟩

theorem Ring.Handed.kept (h : r.Handed k r') (hk : r'.Kept r'') : r.Handed k r'' :=
  ⟨hk.mem.trans h.mem,by rw [hk.block]; exact h.block,hk.blockSize.trans h.blockSize,
    hk.blockNr.trans h.blockNr,hk.chain.trans h.chain,hk.vnet.trans h.vnet⟩

theorem Ring.Handed.mapped (h : r.Handed k r') (hm : r.Mapped) : r'.Mapped := by
  have hpos : 0<r.blockNr.toNat := zero_lt_of_lt hm.block
  refine ⟨by rw [h.blockSize]; exact hm.hdr,by rw [h.blockSize,h.blockNr]; exact hm.size,?_⟩
  rw [h.block,h.blockNr]
  exact mod_lt _ hpos

theorem handBack_block (hm : r.Mapped) :
    r.handBack.block.toNat=(r.block.toNat+1)%r.blockNr.toNat := by
  have hlt := r.blockNr.toNat_lt
  have hb := hm.block
  have hone : UInt32.toNat 1=1 := rfl
  change ((r.block+1)%r.blockNr).toNat=_
  rw [UInt32.toNat_mod,UInt32.toNat_add,hone,mod_eq_of_lt (by omega : _<2^32)]

theorem Ring.Handed.back (h : r.Handed k r') (hm : r.Mapped) : r.Handed (k+1) r'.handBack := by
  refine { h with mem := ?_, block := ?_ }
  · change blit r'.mem (r'.start+8) 4 (leByte 0)=_
    rw [Ring.cleared,h.mem,Ring.start,h.block,h.blockSize]
  · rw [handBack_block (h.mapped hm),h.block,h.blockNr,mod_add_mod,add_assoc]

end

section
variable {mem : Nat → UInt8} {bs i j : Nat}

theorem u32At_congr {mem mem' : Nat → UInt8} {a : Nat} (h : ∀ i, i<4 → mem (a+i)=mem' (a+i)) :
    u32At mem a=u32At mem' a := by
  rw [u32At,u32At,leNat_congr 4 _ _ h]

theorem status_other (hbs : 12≤bs) (hij : i≠j) {src : Nat → UInt8} {n : Nat} (hn : n<4) :
    blit mem (j*bs+8) 4 src (i*bs+8+n)=mem (i*bs+8+n) := by
  refine blit_outside _ _ _ _ _ ?_
  rcases lt_or_gt_of_ne hij with h | h
  · have := mul_le_mul_right bs h
    rw [succ_mul] at this
    omega
  · have := mul_le_mul_right bs h
    rw [succ_mul] at this
    omega

theorem status_cleared : u32At (blit mem (i*bs+8) 4 (leByte 0)) (i*bs+8)=0 := by
  rw [u32At,leNat_blit]
  rfl

end

theorem cleared_status (hm : r.Mapped) (hj : j<k) :
    u32At (r.cleared k) ((r.block.toNat+j)%r.blockNr.toNat*r.blockSize.toNat+8)=0 := by
  have hbs : 12≤r.blockSize.toNat := le_trans (by decide) hm.hdr
  induction k with
  | zero => omega
  | succ k ih =>
    rw [Ring.cleared]
    by_cases he : (r.block.toNat+j)%r.blockNr.toNat=(r.block.toNat+k)%r.blockNr.toNat
    · rw [he]
      exact status_cleared
    have hne : j≠k := fun hjk => he (by rw [hjk])
    rw [u32At_congr fun n hn => status_other hbs he hn]
    exact ih (by omega)

theorem Ring.Handed.user (h : r.Handed k r') (hm : r.Mapped)
    (hk : k≤r.blockNr.toNat) (hu : r'.User) : k<r.blockNr.toNat := by
  refine lt_of_le_of_ne hk fun he => hu ?_
  have hpos : 0<r.blockNr.toNat := zero_lt_of_lt hm.block
  have hz := cleared_status hm (j := 0) (k := k) (by omega)
  have hstart : r'.start=(r.block.toNat+0)%r.blockNr.toNat*r.blockSize.toNat := by
    rw [Ring.start,h.block,h.blockSize,he,add_mod_right,add_zero]
  change u32At r'.mem (r'.start+8) &&& _=_
  rw [hstart,h.mem,hz,UInt32.zero_and]

section
variable {σ : Type} {dst : Dst σ} {b : Batch} {I J F : Reading σ → Prop} {r : Ring}

section
variable (h : Rule b dst I J F) (hm : r.Mapped)
include h hm

theorem blocks_drained {s s1 : Reading σ}
    {stopped : Bool} (hk : k≤r.blockNr.toNat) (hh : r.Handed k s.ring) (hout : s.out<b.max)
    (huser : s.ring.User)
    (hdrain : Reading.drain b dst (s.ring.entered.numPkts.toNat+1) { s with ring :=
    s.ring.entered } =
      some (s1,stopped))
    (hkept : s.ring.entered.Kept s1.ring) (hres : if stopped then F s1 else J s1)
    (hmore : ∀ s', r.Handed (k+1) s'.ring → I s' → ∃ s'' k', s'.blocks b dst fuel=some s'' ∧
      k'≤r.blockNr.toNat ∧ r.Handed k' s''.ring ∧ F s'') :
    ∃ s' k', s.blocks b dst (fuel+1)=some s' ∧ k'≤r.blockNr.toNat ∧ r.Handed k' s'.ring ∧ F s' := by
  have hm1 := hh.mapped hm
  have hkept := (entered_kept s.ring).trans hkept
  have hm2 := hkept.mapped hm1
  rw [Ring.entered] at hdrain
  rw [Reading.blocks,if_pos hout]
  simp only [blockDesc_some hm1,bind_eq_bind,bind_some]
  rw [if_neg huser]
  simp only [hdrain,bind_some]
  cases stopped with
  | true => exact ⟨s1,k,rfl,hk,hh.kept hkept,hres⟩
  | false =>
    simp only [storeStatus_some hm2,bind_some]
    by_cases hn : s1.ring.numPkts=0
    · rw [if_neg fun hne => hne hn]
      exact hmore _ ((hh.kept hkept).back hm) (h.back s1 hm2 hres hn)
    · rw [if_pos hn]
      exact ⟨_,k,rfl,hk,(hh.kept hkept).kept ⟨rfl,rfl,rfl,rfl,rfl,rfl⟩,h.rest s1 hres hn⟩

theorem blocks_rule (s : Reading σ)
    (hfuel : k+fuel=r.blockNr.toNat+1) (hk : k≤r.blockNr.toNat) (hh : r.Handed k s.ring)
    (hs : I s) : ∃ s' k', s.blocks b dst fuel=some s' ∧ k'≤r.blockNr.toNat ∧
      r.Handed k' s'.ring ∧ F s' := by
  induction fuel generalizing k s with
  | zero => omega
  | succ fuel ih =>
    have hm1 := hh.mapped hm
    by_cases hout : s.out<b.max
    case neg =>
      rw [Reading.blocks,if_neg hout]
      exact ⟨s,k,rfl,hk,hh,h.done s hm1 hs (.inl (Nat.le_of_not_lt hout))⟩
    case pos =>
      by_cases huser : s.ring.User
      case neg =>
        rw [Reading.blocks,if_pos hout]
        simp only [blockDesc_some hm1,bind_eq_bind,bind_some]
        rw [if_pos (not_not.mp huser)]
        exact ⟨s,k,rfl,hk,hh,h.done s hm1 hs (.inr huser)⟩
      case pos =>
        have hlt := hh.user hm hk huser
        obtain ⟨s1,stopped,hdrain,hkept,hres⟩ :=
          drain_rule h (s.ring.entered.numPkts.toNat+1) { s with ring := s.ring.entered }
            ((entered_kept s.ring).mapped hm1) (h.enter s hm1 hs hout huser) (lt_succ_self _)
        exact blocks_drained h hm hk hh hout huser hdrain hkept hres fun s' hh' hs' =>
          ih s' (by omega) (by omega) hh' hs'

theorem read_rule (st : σ) (o : Output) (hs : I ⟨r,st,o,0⟩) : ∃ s k, r.read b dst st o =
        some { s with ring := { s.ring with packets := s.ring.packets+UInt64.ofNat s.out } } ∧
      k≤r.blockNr.toNat ∧ r.Handed k s.ring ∧ F s := by
  obtain ⟨s,k,hread,hk,hh,hf⟩ := blocks_rule h hm (k := 0) ⟨r,st,o,0⟩ (zero_add _)
    (zero_le _) (.zero hm) hs
  refine ⟨s,k,?_,hk,hh,hf⟩
  rw [Ring.read,hread]
  rfl

theorem read_first (hu : r.User) (hmax : 0<b.max) (hn : 0<r.entered.numPkts) (st : σ) (o : Output)
    (hfirst : ∀ s' nx, Turn b dst ⟨r.entered,st,o,0⟩ s' nx → if nx = .stop then F s' else J s') :
    ∃ s k, r.read b dst st o =
        some { s with ring := { s.ring with packets := s.ring.packets+UInt64.ofNat s.out } } ∧
      k≤r.blockNr.toNat ∧ r.Handed k s.ring ∧ F s := by
  obtain ⟨s1,stopped,hdrain,hkept,hres⟩ := drain_turn
    ((entered_kept r).mapped hm) hn hmax hfirst fun s hm1 hs hless => drain_rule h _ s hm1 hs hless
  obtain ⟨s,k,hblocks,hk,hh,hf⟩ := blocks_drained (s := ⟨r,st,o,0⟩) h hm (zero_le _) (.zero hm)
    hmax hu hdrain hkept hres fun s' hh' hs' =>
      blocks_rule h hm s' (add_comm _ _) (zero_lt_of_lt hm.block) hh' hs'
  refine ⟨s,k,?_,hk,hh,hf⟩
  rw [Ring.read,hblocks]
  rfl

end

end

inductive Ring.Reached : Ring → Prop
  | setup (mem : Nat → UInt8) (vnet chain : Bool) : Ring.Reached (setupRing mem vnet chain)
  | kernel {r : Ring} (h : r.Reached) (mem : Nat → UInt8) : Ring.Reached { r with mem }
  | read {r : Ring} {σ : Type} {b : Batch} {dst : Dst σ} {st : σ} {o : Output} {s : Reading σ}
      (h : r.Reached) (hr : r.read b dst st o=some s) : Ring.Reached s.ring

theorem Output.Same.refl (o : Output) (j : Nat) : o.Same o j := ⟨rfl,rfl,rfl,rfl,rfl⟩

theorem Output.Same.trans {o o' o'' : Output} (h : o.Same o' j) (h' : o'.Same o'' j) :
    o.Same o'' j :=
  ⟨h'.bufs.trans h.bufs,h'.lens.trans h.lens,h'.offs.trans h.offs,h'.tss.trans h.tss,
    h'.cont.trans h.cont⟩

def InBatch {σ : Type} (b : Batch) (o : Output) (s : Reading σ) : Prop :=
  s.out≤b.max ∧ ∀ j, b.max≤j → o.Same s.o j

section
variable {σ : Type} {r : Ring}

theorem inBatch_rule (b : Batch) (dst : Dst σ) (o : Output) :
    Rule b dst (InBatch b o) (InBatch b o) (InBatch b o) where
  enter _ _ h _ _ := h
  turn _ _ _ _ h _ hout ht _ := ⟨ht.out_le hout,fun j hj => (h.2 j hj).trans (ht.beyond hj)⟩
  stop _ _ _ h _ hout ht := ⟨ht.out_le hout,fun j hj => (h.2 j hj).trans (ht.beyond hj)⟩
  rest _ h _ := h
  back _ _ h _ := h
  done _ _ h _ := h

theorem read_handed (hm : r.Mapped) (b : Batch) (dst : Dst σ) (st : σ) (o : Output) : ∃ s k,
    r.read b dst st o=some s ∧ k≤r.blockNr.toNat ∧ r.Handed k s.ring ∧ InBatch b o s := by
  have hnone : InBatch b o ⟨r,st,o,0⟩ := ⟨zero_le _,fun j _ => .refl o j⟩
  obtain ⟨s,k,hread,hk,hh,hin⟩ := read_rule (inBatch_rule b dst o) hm _ _ hnone
  exact ⟨_,k,hread,hk,hh.kept ⟨rfl,rfl,rfl,rfl,rfl,rfl⟩,hin⟩

theorem Ring.Reached.mapped (h : r.Reached) : r.Mapped := by
  induction h with
  | setup mem vnet chain => exact setupRing_mapped mem vnet chain
  | kernel _ mem ih => exact ⟨ih.hdr,ih.size,ih.block⟩
  | @read r σ b dst st o s _ hr ih =>
    obtain ⟨s',k,hread,_,hh,_⟩ := read_handed ih b dst st o
    have he : s=s' := some_inj.mp (hr.symm.trans hread)
    rw [he]
    exact hh.mapped ih

/-- Whatever the kernel left in the ring, and wherever the cursor is: a call ends with no access
outside of the block it is draining, of the buffers it was given and of the first `max` entries of
its arrays, and all it changes in the ring are the status words of the blocks it hands back. -/
theorem read_safe (h : r.Reached) (b : Batch) (dst : Dst σ) (st : σ) (o : Output) : ∃ s k,
    r.read b dst st o = some s ∧ s.out ≤ b.max ∧ (∀ j, b.max ≤ j → o.Same s.o j) ∧
      k ≤ r.blockNr.toNat ∧ s.ring.mem = r.cleared k := by
  obtain ⟨s,k,hread,hk,hh,hout,hsame⟩ := read_handed h.mapped b dst st o
  exact ⟨s,k,hread,hout,hsame,hk,hh.mem⟩

/-- A ring in which every field of every header is as large as it can be. -/
theorem read_safe_forged : ∃ s k, (setupRing (fun _ => 255) true true).read ⟨4,true,true,true⟩
    (fun (_ : Unit) _ => (some 100,())) ()
        Output.made = some s ∧ s.out ≤ 4 ∧ (∀ j, 4 ≤ j → Output.made.Same s.o j) ∧ k ≤ 64 ∧
      s.ring.mem = (setupRing (fun _ => 255) true true).cleared k :=
  read_safe (.setup _ true true) ⟨4,true,true,true⟩ _ () Output.made

end

end Packetio.Afpacket

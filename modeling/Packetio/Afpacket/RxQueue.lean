import Packetio.Afpacket.Csum
import Packetio.Afpacket.RingRead
import Packetio.Afpacket.TxPackets

/-! The receive queue of a packet socket (rxqueue.go): packets are copied out of the ring into
frames that are taken one by one, as the walk through the ring asks for them. -/
namespace Packetio.Afpacket
open Lib Pool List Option Multiset Nat

structure Scratch (α : Type) where
  cap : Nat := 0
  cells : Nat → α

/-- `if cap(s) < n { s = make(n) }` -/
def Scratch.fit {α : Type} (s : Scratch α) (n : Nat) (zero : α) : Scratch α :=
  if s.cap<n then ⟨n,fun _ => zero⟩ else s

structure RxQueue where
  region : FrameMemory
  ring : Ring
  pool : Pool.Frames
  lens : Scratch Nat := { cells := fun _ => 0 }
  offs : Scratch Offload := { cells := fun _ => {} }
  cont : Scratch Bool := { cells := fun _ => false }
  tss : Scratch UInt64 := { cells := fun _ => 0 }
  bytes : UInt64 := 0
  batches : UInt64 := 0
  empty : UInt64 := 0
  badCsum : UInt64 := 0
  closed : Bool := false

def newRxQueue (checked : Bool) (r : FrameMemory) (rg : Ring) (firstFrame frames : Nat) :
    RxQueue where
  region := r
  ring := rg
  pool := newFrames checked firstFrame frames r.frameSize
  lens := ⟨rxFramesPerBlock.toNat,fun _ => 0⟩
  offs := ⟨rxFramesPerBlock.toNat,fun _ => {}⟩

structure Taking where
  pool : Pool.Frames
  descs : List Desc := []

def Taking.writable (r : FrameMemory) (t : Taking) (i : Nat) : Option Nat × Option Taking :=
  match t.descs[i]? with
  | none => (none,none)
  | some d => match r.writable d with
    | none => (none,none)
    | some w => (w.map Slice.len,some t)

/-- The callback of `receive`. A slot that is asked for again gets the frame it has. The state
is `none` after a panic. -/
def takeFrame (r : FrameMemory) : Dst (Option Taking)
  | none, _ => (none,none)
  | some t, i =>
    if i<t.descs.length then t.writable r i
    else match t.pool.pop 1 [] with
      | none => (none,none)
      | some (pool,[]) => (none,some { t with pool })
      | some (pool,a::_) => Taking.writable r ⟨pool,t.descs++[⟨a+UInt64.ofNat frameHeadroom,0,0⟩]⟩ i

namespace RxQueue
variable (q : RxQueue)

def unread (i j : Nat) : UInt8 :=
  q.pool.free.reverse[i]?.elim 0 fun a => q.region.b.mem ((a+UInt64.ofNat frameHeadroom).toNat+j)

/-- The arrays for `n` slots. -/
def prepare (n : Nat) (wantTimestamps : Bool) : RxQueue :=
  let clear (s : Scratch Bool) : Scratch Bool :=
    { s with cells := fun i => if i<n then false else s.cells i }
  { q with
    lens := q.lens.fit n 0
    offs := q.offs.fit n {}
    cont := if q.ring.chain then clear (q.cont.fit n false) else q.cont
    tss := if wantTimestamps then q.tss.fit n 0 else q.tss }

def batch (n : Nat) (wantTimestamps : Bool) : Batch := ⟨n,true,wantTimestamps,q.ring.chain⟩

def output : Output := ⟨q.unread,q.lens.cells,q.offs.cells,q.tss.cells,q.cont.cells⟩

/-- The walk through the ring, for at most `n` slots. -/
def walk (n : Nat) (wantTimestamps : Bool) : Option (Reading (Option Taking)) :=
  q.ring.read (q.batch n wantTimestamps) (takeFrame q.region) (some { pool := q.pool }) q.output

end RxQueue

def landAll (bufs : Nat → Nat → UInt8) : Nat → List Desc → FrameMemory → FrameMemory
  | _, [], r => r
  | i, d::ds, r => landAll bufs (i+1) ds (match r.writable d with
    | some (some w) => { r with b := { r.b with mem := blit r.b.mem w.off w.len (bufs i) } }
    | _ => r)

/-- The descriptor of slot `i`, with its length and its mark. -/
def Output.desc (o : Output) (chain : Bool) (i : Nat) (d : Desc) : Desc :=
  { d with
    len := UInt32.ofNat (o.lens i)
    options := if chain && o.cont i then d.options ||| optContinued else d.options }

namespace RxQueue

def settle (q : RxQueue) (s : Reading (Option Taking)) (t : Taking) :
    Option (RxQueue × List Desc) := do
  if s.out > t.descs.length then none
  else
    let pool ← pushBases t.pool (t.descs.drop s.out).reverse
    let q := { q with
      region := landAll s.o.bufs 0 t.descs q.region, ring := s.ring, pool
      lens := { q.lens with cells := s.o.lens }, offs := { q.offs with cells := s.o.offs }
      cont := { q.cont with cells := s.o.cont }, tss := { q.tss with cells := s.o.tss }
      batches := if 0<s.out then q.batches+1 else q.batches
      bytes := if 0<s.out then q.bytes+UInt64.ofNat
        ((List.range s.out).map s.o.lens).sum else q.bytes
      empty := if s.out=0 ∧ pool.len=0 then q.empty+1 else q.empty }
    some (q,(t.descs.take s.out).mapIdx (s.o.desc s.ring.chain))

def finish (q : RxQueue) (descs : List Desc) : Option RxQueue :=
  if !q.ring.vnet then some q
  else do
    let cont := if q.ring.chain then some q.cont.cells else none
    let (region,offs,bad) ← completeOffloads cont 0 descs q.region q.offs.cells
    some { q with region, offs := { q.offs with cells := offs }, badCsum :=
      q.badCsum+UInt64.ofNat bad }

def receive (q : RxQueue) (max : Int) (wantTimestamps : Bool) :
    Option (RxQueue × List Desc × List Offload) :=
  if q.closed ∨ max≤0 then some (q,[],[])
  else do
    let q := q.prepare max.toNat wantTimestamps
    let s ← q.walk max.toNat wantTimestamps
    let t ← s.st
    let (q,descs) ← q.settle s t
    let q ← q.finish descs
    some (q,descs,(List.range descs.length).map q.offs.cells)

def receiveOffload (q : RxQueue) (max : Int) : Option (RxQueue × List Desc × List Offload) :=
  q.receive max false

def receiveTimestamps (q : RxQueue) (max : Int) : Option (RxQueue × List Desc × List UInt64) := do
  let (q,descs,_) ← q.receive max true
  some (q,descs,(List.range descs.length).map q.tss.cells)

def recycle (q : RxQueue) (descs : List Desc) : Option RxQueue := do
  let pool ← pushBases q.pool descs
  some { q with pool }

end RxQueue

/-! Frames for the slots -/

section
variable {σ : Type} {dst : Dst σ} {b : Batch} {P : σ → Nat → Prop} {size : Nat}

structure Supplies (dst : Dst σ) (P : σ → Nat → Prop) (size : Nat) : Prop where
  fewer : ∀ {st n m}, P st n → m≤n → P st m
  refused : ∀ {st st' i}, P st i → dst st i=(none,st') → P st' i
  given : ∀ {st st' i room}, P st i → dst st i=(some room,st') → P st' (i+1) ∧ room=size

theorem Supplies.asks (h : Supplies dst P size) {st st' : σ} {slot : Nat} {rooms : List Nat}
    (ha : Asks dst st slot rooms st') (hp : P st slot) :
    P st' (slot+rooms.length) ∧ ∀ room∈rooms, room=size := by
  induction ha with
  | nil => exact ⟨hp,by simp⟩
  | @cons _ _ _ slot _ rooms hd _ ih =>
    obtain ⟨hnext,hroom⟩ := h.given hp hd
    obtain ⟨hend,hrooms⟩ := ih hnext
    have hlen : slot+1+rooms.length=slot+(rooms.length+1) := by omega
    exact ⟨hlen ▸ hend,by simpa using ⟨hroom,hrooms⟩⟩

theorem Supplies.tried (h : Supplies dst P size) {s : Reading σ} {st' : σ} {o' : Output}
    {rooms : List Nat} (hp : P s.st s.out) (ht : Tried dst s rooms st' o') :
    P st' (s.out+rooms.length) := by
  obtain ⟨room,st,hd,ha⟩ := ht.asks
  exact (h.asks ha (h.fewer (h.given hp hd).1 (le_succ _))).1

def Supplied (P : σ → Nat → Prop) (size : Nat) (s : Reading σ) : Prop :=
  P s.st s.out ∧ ∀ i<s.out, s.o.lens i ≤ size

theorem Supplies.turn (h : Supplies dst P size) {s s' : Reading σ} {nx : Next}
    (hs : Supplied P size s) (ht : Turn b dst s s' nx) : Supplied P size s' := by
  obtain ⟨hp,hlens⟩ := hs
  have hkept {rooms : List Nat} {o' : Output} {st' : σ} (htr : Tried dst s rooms st' o') :
      ∀ i<s.out, o'.lens i ≤ size := by
    intro i hi
    rw [(htr.other i (.inl hi)).lens]
    exact hlens i hi
  cases ht with
  | refused => exact ⟨hp,hlens⟩
  | dry _ hd => exact ⟨h.refused hp hd,hlens⟩
  | clipped _ hd | tooBig _ hd => exact ⟨h.fewer (h.given hp hd).1 (le_succ _),hlens⟩
  | tooLong _ _ _ htr | noSlots _ _ _ htr =>
    exact ⟨h.fewer (h.tried hp htr) (le_add_right _ _),hkept htr⟩
  | noFrames _ _ _ htr hd =>
    exact ⟨h.fewer (h.refused (h.tried hp htr) hd) (le_add_right _ _),hkept htr⟩
  | @placed st' o' rooms _ _ hd hh =>
    obtain ⟨hend,hrooms⟩ : P st' (s.out+rooms.length) ∧ ∀ room∈rooms, room=size := by
      rcases hd with ⟨ha,-⟩ | ⟨-,room,st,hd,ha⟩
      · exact h.asks ha hp
      · exact h.asks ha (h.fewer (h.given hp hd).1 (le_succ _))
    refine ⟨hend,fun i hi => ?_⟩
    by_cases hlt : i<s.out
    · rw [(hh.other i (.inl hlt)).lens]
      exact hlens i hlt
    change i<s.out+rooms.length at hi
    have hget := getElem?_eq_getElem (by omega : i-s.out<rooms.length)
    have hfit := hh.fit _ _ hget
    rwa [hrooms _ (getElem_mem _),Nat.add_sub_cancel' (Nat.le_of_not_lt hlt)] at hfit

theorem Supplies.rule (h : Supplies dst P size) (b : Batch) :
    Rule b dst (Supplied P size) (Supplied P size) (Supplied P size) where
  enter _ _ hs _ _ := hs
  turn _ _ _ _ hs _ _ ht _ := h.turn hs ht
  stop _ _ _ hs _ _ ht := h.turn hs ht
  rest _ hs _ := hs
  back _ _ hs _ := hs
  done _ _ hs _ := hs

end

section
variable {first count k : Nat} {r : FrameMemory} {p₀ : Pool.Frames} {t : Taking}

structure Taking.Sound (first count k : Nat) (p₀ : Pool.Frames) (t : Taking) : Prop where
  pool : t.pool.Inv first count k
  clean : t.pool.rejected=p₀.rejected
  all : (t.pool.free : Multiset UInt64)+bases k t.descs=p₀.free
  descs : ∀ d∈t.descs, ∃ a∈frameStarts first count (2^k), d.addr.toNat=a.toNat+frameHeadroom

theorem Taking.Sound.none (h : p₀.Inv first count k) :
    Taking.Sound first count k p₀ { pool := p₀ } :=
  ⟨h,rfl,by rw [bases_nil,add_zero],by simp⟩

theorem Taking.Sound.frameOf (h : t.Sound first count k p₀) (hk : frameHeadroom<2^k) {d : Desc}
    (hd : d∈t.descs) : frameOf k d∈frameStarts first count (2^k) ∧
      d.addr.toNat=(frameOf k d).toNat+frameHeadroom := by
  obtain ⟨a,ha,haddr⟩ := h.descs d hd
  rw [frameOf_inside h.pool.shape.fits ha hk haddr]
  exact ⟨ha,haddr⟩

variable (hr : r.Made k) (hk : frameHeadroom<2^k) (hin : (first+count)*2^k≤r.b.len)
include hr hk hin

theorem Taking.Sound.writable (h : t.Sound first count k p₀) {i : Nat} (hi : i<t.descs.length) :
    t.writable r i=(some (2^k-frameHeadroom),some t) := by
  obtain ⟨hown,haddr⟩ := h.frameOf hk (getElem_mem hi)
  have hend := frameStarts_end h.pool.shape.fits hown
  obtain ⟨-,hw⟩ := writable_some hr (by omega : (t.descs[i]).addr.toNat<r.b.len)
  rw [Taking.writable,getElem?_eq_getElem hi]
  simp only [hw,map_some,← frameOf_toNat]
  refine congrArg (fun n => (some n,some t)) ?_
  omega

theorem takeFrame_spec (h : t.Sound first count k p₀) {i : Nat} (hi : i≤t.descs.length) :
    ∃ t', t'.Sound first count k p₀ ∧ (∀ d∈t'.descs, d∈t.descs ∨ d.options=0) ∧
      ((takeFrame r (some t) i=(none,some t') ∧ i=t'.descs.length ∧ t'.pool.free=[]) ∨
        (takeFrame r (some t) i=(some (2^k-frameHeadroom),some t') ∧ i<t'.descs.length)) := by
  simp only [takeFrame]
  split
  case isTrue hlt => exact ⟨t,h,fun _ hd => .inl hd,.inr ⟨h.writable hr hk hin hlt,hlt⟩⟩
  rename_i hge
  obtain ⟨pool,taken,hpop,hinv,hfree,hlen,hrej,-⟩ := h.pool.pop 1 []
  have hall := h.all
  rw [hpop]
  rcases taken with _ | ⟨a,rest⟩
  · rw [append_nil] at hfree
    rw [length_nil] at hlen
    refine ⟨⟨pool,t.descs⟩,⟨hinv,hrej.trans h.clean,?_,h.descs⟩,fun _ hd => .inl hd,
      .inl ⟨rfl,Nat.le_antisymm hi (Nat.le_of_not_lt hge),?_⟩⟩
    · rwa [← hfree]
    · exact length_eq_zero_iff.mp (by rw [← hfree]; omega)
  have hone : rest = [] := length_eq_zero_iff.mp (by simp at hlen; omega)
  subst hone
  have hown := h.pool.own a (by rw [hfree]; simp)
  obtain ⟨haddr,hbase⟩ := frameOf_headroom h.pool.shape.fits hown hk 0 0
  let d : Desc := ⟨a+UInt64.ofNat frameHeadroom,0,0⟩
  have hsound : Taking.Sound first count k p₀ ⟨pool,t.descs++[d]⟩ := by
    refine ⟨hinv,hrej.trans h.clean,?_,fun e he => ?_⟩
    · have hd : bases k [d] = {a} :=
        congrArg (fun x => ({x} : Multiset UInt64)) hbase
      rw [← hall,hfree,bases_append,hd,← coe_add]
      simp only [coe_singleton]
      rw [add_right_comm,add_assoc]
    · rcases mem_append.mp he with he | he
      · exact h.descs e he
      · rw [List.mem_singleton.mp he]
        exact ⟨a,hown,haddr⟩
  have hlast : i<(t.descs++[d]).length := by
    rw [length_append,length_singleton]
    omega
  refine ⟨_,hsound,fun e he => ?_,.inr ⟨hsound.writable hr hk hin hlast,hlast⟩⟩
  exact (List.mem_append.mp he).imp_right fun he => by rw [List.mem_singleton.mp he]

theorem takeFrame_supplies : Supplies (takeFrame r)
    (fun st n => ∃ t, st=some t ∧ (t.Sound first count k p₀ ∧ ∀ d∈t.descs, d.options=0) ∧
      n≤t.descs.length) (2^k-frameHeadroom) := by
  have hplain {t t' : Taking} (h : ∀ d∈t.descs, d.options=0)
      (h' : ∀ d∈t'.descs, d∈t.descs ∨ d.options=0) : ∀ d∈t'.descs, d.options=0 :=
    fun d hd => (h' d hd).elim (h d) id
  constructor
  · rintro st n m ⟨t,ht,hs,hn⟩ hm
    exact ⟨t,ht,hs,hm.trans hn⟩
  · rintro st st' i ⟨t,rfl,⟨hs,hun⟩,hi⟩ hd
    obtain ⟨t',hs',hold,⟨hres,hi',-⟩ | ⟨hres,-⟩⟩ := takeFrame_spec hr hk hin hs hi
    · rw [hres] at hd
      exact ⟨t',(congrArg Prod.snd hd).symm,⟨hs',hplain hun hold⟩,le_of_eq hi'⟩
    · rw [hres] at hd
      cases hd
  · rintro st st' i room ⟨t,rfl,⟨hs,hun⟩,hi⟩ hd
    obtain ⟨t',hs',hold,⟨hres,-⟩ | ⟨hres,hi'⟩⟩ := takeFrame_spec hr hk hin hs hi
    · rw [hres] at hd
      cases hd
    · rw [hres] at hd
      cases hd
      exact ⟨⟨t',rfl,⟨hs',hplain hun hold⟩,hi'⟩,rfl⟩

theorem takeFrame_none (h : t.Sound first count k p₀) {i : Nat} (hi : i≤t.descs.length)
    {st : Option Taking} (hd : takeFrame r (some t) i=(none,st)) : i=p₀.free.length := by
  obtain ⟨t',hs,-,⟨-,hlen,hfree⟩ | ⟨hres,-⟩⟩ := takeFrame_spec hr hk hin h hi
  · have hcard := congrArg card hs.all
    rw [hfree,bases,card_add,coe_card,coe_card,coe_card,length_map,length_nil,zero_add] at hcard
    exact hlen.trans hcard
  · rw [hres] at hd
    cases hd

end

/-! A call of receive -/

theorem landAll_alike (bufs : Nat → Nat → UInt8) (i : Nat) (ds : List Desc) (r : FrameMemory) :
    r.Alike (landAll bufs i ds r) := by
  induction ds generalizing i r with
  | nil => exact .refl r
  | cons d ds ih =>
    refine .trans ?_ (ih (i+1) _)
    split
    · exact ⟨rfl,rfl,rfl⟩
    · exact .refl r

theorem FrameMemory.Made.alike {k : Nat} {r r' : FrameMemory} (h : r.Made k) (ha : r.Alike r') :
    r'.Made k :=
  ⟨by rw [ha.frameSize,h.size],h.small,by rw [ha.frameMask,h.mask],by rw [ha.len]; exact h.whole⟩

namespace RxQueue
variable {first count k : Nat} {q q' : RxQueue}

structure Sound (first count k : Nat) (q : RxQueue) : Prop where
  region : q.region.Made k
  headroom : frameHeadroom<2^k
  short : 2^k≤2^32
  inside : (first+count)*2^k≤q.region.b.len
  pool : q.pool.Inv first count k
  clean : q.pool.rejected=0
  ring : q.ring.Mapped

structure Received (k : Nat) (q : RxQueue) (s : Reading (Option Taking)) (descs : List Desc) :
    Prop where
  length : descs.length=s.out
  slot : ∀ i d, descs[i]? = some d → d.len.toNat=s.o.lens i ∧
    ∃ a∈q.pool.free, d.addr.toNat=a.toNat+frameHeadroom ∧
      d.addr.toNat+d.len.toNat≤a.toNat+2^k

theorem desc_addrs (o : Output) (chain : Bool) (ds : List Desc) :
    (ds.mapIdx (o.desc chain)).map Desc.addr=ds.map Desc.addr := by
  rw [mapIdx_eq_zipIdx_map,List.map_map]
  conv_rhs => rw [← zipIdx_map_fst 0 ds,List.map_map]
  rfl

section
variable (h : q.Sound first count k)
include h

theorem Sound.settle {s : Reading (Option Taking)} {t : Taking}
    (ht : t.Sound first count k q.pool) (hout : s.out≤t.descs.length)
    (hlens : ∀ i<s.out, s.o.lens i≤2^k-frameHeadroom) (hring : s.ring.Mapped) :
    ∃ q' descs, q.settle s t=some (q',descs) ∧ q'.Sound first count k ∧ Received k q s descs ∧
      (q'.pool.free : Multiset UInt64)+bases k descs=q.pool.free ∧ q'.ring=s.ring := by
  have hshort := h.short
  have hhead := h.headroom
  have hpos : 0<frameHeadroom := by decide
  have hdescs : (bases k (t.descs.drop s.out).reverse : Multiset UInt64) =
    bases k (t.descs.drop s.out) := by
    rw [bases,bases,map_reverse]
    exact coe_eq_coe.mpr (reverse_perm _)
  have hsplit : bases k t.descs=bases k (t.descs.take s.out)+bases k (t.descs.drop s.out) := by
    rw [← bases_append,take_append_drop]
  have hall := ht.all
  obtain ⟨pool,hpush,hinv,hrej,hfree⟩ := pushBases_spec ht.pool (t.descs.drop s.out).reverse
    (fun d hd => (ht.frameOf h.headroom (mem_of_mem_drop (mem_reverse.mp hd))).1) (by
      rw [hdescs]
      refine nodup_of_le ?_ (coe_nodup.mpr h.pool.nodup)
      rw [← hall,hsplit]
      exact add_le_add (le_refl _) (le_add_left _ _))
  have halike := landAll_alike s.o.bufs 0 t.descs q.region
  rw [RxQueue.settle,if_neg (by omega),hpush]
  refine ⟨_,_,rfl,⟨h.region.alike halike,h.headroom,h.short,?_,hinv,?_,hring⟩,⟨?_,?_⟩,?_,rfl⟩
  · rw [halike.len]
    exact h.inside
  · rw [hrej,ht.clean,h.clean]
  · rw [length_mapIdx,length_take,min_eq_left hout]
  · intro i d hd
    rw [getElem?_mapIdx,map_eq_some_iff] at hd
    obtain ⟨e,he,rfl⟩ := hd
    have hi : i<s.out := by
      have := (List.getElem?_eq_some_iff.mp he).1
      rw [length_take] at this
      omega
    have hmem := mem_of_mem_take (mem_of_getElem? he)
    have hlen := hlens i hi
    have hnat : (UInt32.ofNat (s.o.lens i)).toNat=s.o.lens i :=
      UInt32.toNat_ofNat_of_lt' (by change _<2^32; omega)
    refine ⟨hnat,frameOf k e,?_,(ht.frameOf h.headroom hmem).2,?_⟩
    · have hle : bases k t.descs≤(q.pool.free : Multiset UInt64) := hall ▸ le_add_left _ _
      exact mem_coe.mp (mem_of_le hle (mem_coe.mpr (mem_map_of_mem hmem)))
    · change e.addr.toNat+(UInt32.ofNat (s.o.lens i)).toNat≤_
      rw [(ht.frameOf h.headroom hmem).2,hnat]
      omega
  · rw [bases_congr k (desc_addrs s.o s.ring.chain _),hfree,hdescs,← hall,hsplit,add_assoc,
      add_comm (bases k (t.descs.drop _))]

theorem Sound.walk (n : Nat) (wantTimestamps : Bool) :
    ∃ s t, q.walk n wantTimestamps=some s ∧ s.st=some t ∧ t.Sound first count k q.pool ∧
      s.out≤t.descs.length ∧ (∀ i<s.out, s.o.lens i≤2^k-frameHeadroom) ∧ s.ring.Mapped ∧
      ∀ d∈t.descs, d.options=0 := by
  have hsupplies := @takeFrame_supplies first count k q.region q.pool h.region h.headroom h.inside
  obtain ⟨s,j,hread,-,hhanded,⟨t,hst,⟨ht,hun⟩,hout⟩,hlens⟩ := read_rule
    (hsupplies.rule (q.batch n wantTimestamps)) h.ring _ q.output
    ⟨⟨_,rfl,⟨.none h.pool,by simp⟩,zero_le _⟩,fun i hi => absurd hi (not_lt_zero i)⟩
  have hmapped := hhanded.mapped h.ring
  exact ⟨_,t,hread,hst,ht,hout,hlens,⟨hmapped.hdr,hmapped.size,hmapped.block⟩,hun⟩

theorem Sound.finish (descs : List Desc) :
    ∃ q', q.finish descs=some q' ∧ q'.Sound first count k ∧ q'.pool=q.pool ∧ q'.ring=q.ring := by
  rw [RxQueue.finish]
  split
  case isTrue => exact ⟨q,rfl,h,rfl,rfl⟩
  obtain ⟨r,offs,bad,hdone,halike⟩ := completeOffloads_some
    (if q.ring.chain then some q.cont.cells else none) 0 descs q.region q.offs.cells
  simp only [hdone,bind_eq_bind,bind_some]
  refine ⟨_,rfl,{ h with region := h.region.alike halike, inside := ?_ },rfl,rfl⟩
  rw [halike.len]
  exact h.inside

end

theorem newRxQueue_sound {r : FrameMemory} {rg : Ring} (checked : Bool) (hr : r.Made k)
    (hk : frameHeadroom<2^k) (hshort : 2^k≤2^32) (hin : (first+count)*2^k≤r.b.len)
    (hring : rg.Mapped) : (newRxQueue checked r rg first count).Sound first count k ∧
      (newRxQueue checked r rg first count).pool.free=(frameStarts first count (2^k)).reverse := by
  have hlen := r.b.len_lt
  refine ⟨⟨hr,hk,hshort,hin,?_,rfl,hring⟩,?_⟩
  · change (newFrames checked first count r.frameSize).Inv first count k
    rw [hr.size]
    exact newFrames_inv checked hr.small (by omega)
  · change (newFrames checked first count r.frameSize).free=_
    rw [hr.size,newFrames_free]

theorem Sound.prepare (h : q.Sound first count k) (n : Nat) (wantTimestamps : Bool) :
    (q.prepare n wantTimestamps).Sound first count k :=
  { h with }

theorem Sound.receive (h : q.Sound first count k) (max : Int) (wantTimestamps : Bool) :
    ∃ q' descs offs, q.receive max wantTimestamps=some (q',descs,offs) ∧ q'.Sound first count k ∧
      (q'.pool.free : Multiset UInt64)+bases k descs=q.pool.free ∧
      ((q.closed=true ∨ max≤0) ∧ descs = [] ∨
        ∃ s, (q.prepare max.toNat wantTimestamps).walk max.toNat wantTimestamps=some s ∧
          Received k q s descs ∧ q'.ring=s.ring) := by
  rw [RxQueue.receive]
  split
  case isTrue hshut => exact ⟨q,[],[],rfl,h,by rw [bases_nil,add_zero],.inl ⟨hshut,rfl⟩⟩
  have hp := h.prepare max.toNat wantTimestamps
  obtain ⟨s,t,hwalk,hst,ht,hout,hlens,hring,-⟩ := hp.walk max.toNat wantTimestamps
  obtain ⟨q1,descs,hsettle,hq1,hgot,hall,hr1⟩ := hp.settle ht hout hlens hring
  obtain ⟨q2,hfinish,hq2,hpool,hr2⟩ := hq1.finish descs
  simp only [hwalk,hst,hsettle,hfinish,bind_eq_bind,bind_some]
  refine ⟨q2,descs,_,rfl,hq2,?_,.inr ⟨s,rfl,⟨hgot.length,hgot.slot⟩,hr2.trans hr1⟩⟩
  rw [hpool,hall]
  rfl

end RxQueue

end Packetio.Afpacket

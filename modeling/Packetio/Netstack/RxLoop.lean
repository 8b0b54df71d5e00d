import Packetio.Frame

/-! The goroutine of a receive queue (rx.go, rxLoop) as the calls it makes, against a queue that
answers in any way. A packet over several frames is counted, not delivered. -/
namespace Packetio.Netstack
open List

def rxBatch : Nat := 64
def idleBeforeSleep : Int := 5000000
def idleCheckEvery : Nat := 64
def errCheckEvery : Int := 1000000000

structure RxConfig where
  gro : Bool
  blocking : Bool
  busyPoll : Bool
  afterBatch : Bool

inductive Polled where
  | closed
  | failed
  | ready (n : Nat)

structure Round where
  stop : Bool
  freeFillSlots : Nat
  polled : Polled
  now : Int
  err : Bool
  descs : List Desc

structure Chain where
  inChain : Bool := false
  chained : UInt64 := 0

structure RxState where
  quiet : Nat := 0
  quietSince : Option Int := none
  lastErrCheck : Int
  chain : Chain := {}

inductive RxCall where
  | fill (n : Nat)
  | poll (blocking : Bool)
  | receive (max : Nat) (descs : List Desc)
  | deliver (d : Desc)
  | recycle (descs : List Desc)
  | flush
  | afterBatch
  | gosched
  | sleep
  | err
  | fail

abbrev Turned := Bool × RxState × List RxCall

def call (b : Bool) (c : RxCall) : List RxCall := if b then [c] else []

def RxState.spell (s : RxState) (spins : Bool) (now : Int) : RxState :=
  if spins && s.quietSince.isNone then { s with quietSince := some now } else s

def idle (c : RxConfig) (r : Round) (s : RxState) : Turned :=
  let s := { s with quiet := s.quiet+1 }
  if !c.blocking && s.quiet%idleCheckEvery ≠ 0 then
    (true,s,call c.gro .flush++call (!c.busyPoll) .gosched)
  else
    let spins := !c.blocking && !c.busyPoll
    let sleeps := s.quietSince.any fun t => decide (idleBeforeSleep<r.now-t)
    let s := s.spell spins r.now
    let calls := call c.gro .flush++call c.afterBatch .afterBatch++call (spins && sleeps) .sleep++
      call spins .gosched
    if errCheckEvery<r.now-s.lastErrCheck then
      let s := { s with lastErrCheck := r.now }
      (!r.err,s,calls++(.err::call r.err .fail))
    else (true,s,calls)

def deliverBatch : List Desc → Chain → Chain × List Desc
  | [], s => (s,[])
  | d::ds, s =>
    if d.continued || s.inChain then deliverBatch ds ⟨d.continued,s.chained+1⟩
    else
      let (s,delivered) := deliverBatch ds s
      (s,d::delivered)

def turn (c : RxConfig) (r : Round) (s : RxState) : Turned :=
  match r.polled with
  | .closed => (false,s,[])
  | .failed => (false,s,[.fail])
  | .ready 0 => idle c r s
  | .ready _ =>
    let (chain,delivered) := deliverBatch r.descs s.chain
    (true,{ s with quiet := 0, quietSince := none, chain },
      [.receive rxBatch r.descs]++delivered.map .deliver++call c.gro .flush++[.recycle r.descs]++
        call c.afterBatch .afterBatch)

def rxLoop (c : RxConfig) : List Round → RxState → RxState × List RxCall
  | [], s => (s,[])
  | r::rest, s =>
    if r.stop then (s,[])
    else
      let (goes,s',calls) := turn c r s
      let (s'',more) := if goes then rxLoop c rest s' else (s',[])
      (s'',[.fill r.freeFillSlots,.poll c.blocking]++calls++more)

/-! What is handed on -/

def RxCall.received : RxCall → List Desc
  | .receive _ ds => ds
  | _ => []

def RxCall.delivered : RxCall → List Desc
  | .deliver d => [d]
  | _ => []

def RxCall.recycled : RxCall → List Desc
  | .recycle ds => ds
  | _ => []

def IsPacket (p : List Desc) : Prop :=
  ∃ init last, p=init++[last] ∧ (∀ d∈init, d.continued=true) ∧ last.continued=false

def singles (ps : List (List Desc)) : List Desc := (ps.filter fun p => p.length=1).flatten

def pieces (ps : List (List Desc)) : List Desc := (ps.filter fun p => p.length≠1).flatten

theorem deliverBatch_append (as bs : List Desc) (s : Chain) : deliverBatch (as++bs) s =
    ((deliverBatch bs (deliverBatch as s).1).1,
      (deliverBatch as s).2++(deliverBatch bs (deliverBatch as s).1).2) := by
  induction as generalizing s with
  | nil => rfl
  | cons a as ih =>
    rw [cons_append,deliverBatch,deliverBatch]
    split
    case isTrue => exact ih _
    case isFalse => rw [ih]; rfl

theorem deliverBatch_pieces {init : List Desc} {last : Desc} (hinit : ∀ d∈init, d.continued=true)
    (hlast : last.continued=false) (n : UInt64) :
    deliverBatch (init++[last]) ⟨true,n⟩=(⟨false,n+UInt64.ofNat (init.length+1)⟩,[]) := by
  induction init generalizing n with
  | nil => simp [deliverBatch,hlast]
  | cons d ds ih =>
    rw [cons_append,deliverBatch,Bool.or_true,if_pos rfl,hinit d mem_cons_self,
      ih fun x hx => hinit x (.tail _ hx)]
    rw [length_cons,Nat.add_comm (ds.length+1),UInt64.ofNat_add 1,← UInt64.add_assoc]
    rfl

theorem deliverBatch_packet {p : List Desc} (hp : IsPacket p) (n : UInt64) :
    deliverBatch p ⟨false,n⟩=(⟨false,n+UInt64.ofNat (pieces [p]).length⟩,singles [p]) := by
  obtain ⟨init,last,rfl,hinit,hlast⟩ := hp
  rcases init with _ | ⟨d,ds⟩
  · simp [deliverBatch,hlast,pieces,singles]
  rw [cons_append,deliverBatch,hinit d mem_cons_self,Bool.true_or,if_pos rfl,
    deliverBatch_pieces (fun x hx => hinit x (.tail _ hx)) hlast]
  have htwo : pieces [d::(ds++[last])]=d::(ds++[last]) := by simp [pieces]
  rw [htwo,length_cons,length_append,Nat.add_comm (ds.length+_),UInt64.ofNat_add 1,
    ← UInt64.add_assoc]
  simp [singles]

theorem deliverBatch_stream {ps : List (List Desc)} (hps : ∀ p∈ps, IsPacket p) (n : UInt64) :
    deliverBatch ps.flatten ⟨false,n⟩=(⟨false,n+UInt64.ofNat (pieces ps).length⟩,singles ps) := by
  induction ps generalizing n with
  | nil => simp [deliverBatch,pieces,singles]
  | cons p ps ih =>
    have hone : ∀ f : List Desc → Bool, ((p::ps).filter f).flatten =
        ([p].filter f).flatten++(ps.filter f).flatten := by
      intro f
      rw [← flatten_append,← filter_append,singleton_append]
    rw [flatten_cons,deliverBatch_append,deliverBatch_packet (hps p mem_cons_self),
      ih fun q hq => hps q (.tail _ hq)]
    simp only [singles,pieces,hone,length_append,UInt64.ofNat_add,UInt64.add_assoc]

structure Handles (s s' : Chain) (calls : List RxCall) : Prop where
  chain : s'=(deliverBatch (calls.flatMap RxCall.received) s).1
  delivered : calls.flatMap RxCall.delivered=(deliverBatch (calls.flatMap RxCall.received) s).2
  recycled : calls.flatMap RxCall.recycled=calls.flatMap RxCall.received

theorem Handles.trans {s s' s'' : Chain} {as bs : List RxCall} (ha : Handles s s' as)
    (hb : Handles s' s'' bs) : Handles s s'' (as++bs) := by
  obtain ⟨rfl,hda,hra⟩ := ha
  obtain ⟨rfl,hdb,hrb⟩ := hb
  constructor
  · rw [flatMap_append,deliverBatch_append]
  · rw [flatMap_append,flatMap_append,deliverBatch_append,hda,hdb]
  · rw [flatMap_append,flatMap_append,hra,hrb]

def RxCall.quiet : RxCall → Bool
  | .receive _ _ => false
  | .deliver _ => false
  | .recycle _ => false
  | _ => true

theorem call_hands (b : Bool) (x : RxCall) (hx : x.quiet=true) :
    (call b x).flatMap RxCall.received=[] ∧
    (call b x).flatMap RxCall.delivered=[] ∧ (call b x).flatMap RxCall.recycled=[] := by
  cases b with
  | false => exact ⟨rfl,rfl,rfl⟩
  | true =>
    cases x with
    | receive | deliver | recycle => cases hx
    | _ => exact ⟨rfl,rfl,rfl⟩

theorem Handles.call {s : Chain} (b : Bool) {x : RxCall} (hx : x.quiet=true) :
    Handles s s (call b x) := by
  obtain ⟨hrec,hdel,hret⟩ := call_hands b x hx
  exact ⟨by rw [hrec]; rfl,by rw [hrec,hdel]; rfl,by rw [hrec,hret]⟩

theorem RxState.spell_chain (s : RxState) (spins : Bool) (now : Int) :
    (s.spell spins now).chain=s.chain := by
  rw [spell]
  split
  · rfl
  · rfl

theorem idle_handles (c : RxConfig) (r : Round) (s : RxState) :
    Handles s.chain (idle c r s).2.1.chain (idle c r s).2.2 := by
  rw [idle]
  dsimp only
  split
  case isTrue => exact (Handles.call _ rfl).trans (.call _ rfl)
  split
  · rw [RxState.spell_chain]
    exact ((((Handles.call _ rfl).trans (.call _ rfl)).trans (.call _ rfl)).trans
      (.call _ rfl)).trans
      ((Handles.call true (x := .err) rfl).trans (.call _ rfl))
  · rw [RxState.spell_chain]
    exact (((Handles.call _ rfl).trans (.call _ rfl)).trans (.call _ rfl)).trans (.call _ rfl)

theorem turn_handles (c : RxConfig) (r : Round) (s : RxState) :
    Handles s.chain (turn c r s).2.1.chain (turn c r s).2.2 := by
  rw [turn]
  split
  case h_1 | h_2 => exact ⟨rfl,rfl,rfl⟩
  case h_3 => exact idle_handles c r s
  case h_4 =>
    have hnil (ds : List Desc) : ds.flatMap (fun _ => ([] : List Desc))=[] := by
      simp [flatMap_eq_nil_iff]
    have hflush := call_hands c.gro .flush rfl
    have hafter := call_hands c.afterBatch .afterBatch rfl
    constructor
    · simp [hflush,hafter,hnil,RxCall.received,flatMap_map]
    · simp [hflush,hafter,hnil,RxCall.received,RxCall.delivered,flatMap_map]
    · simp [hflush,hafter,hnil,RxCall.received,RxCall.recycled,flatMap_map]

theorem rxLoop_handles (c : RxConfig) (rs : List Round) (s : RxState) :
    Handles s.chain (rxLoop c rs s).1.chain (rxLoop c rs s).2 := by
  induction rs generalizing s with
  | nil => exact ⟨rfl,rfl,rfl⟩
  | cons r rs ih =>
    rw [rxLoop]
    split
    case isTrue => exact ⟨rfl,rfl,rfl⟩
    have hturn := turn_handles c r s
    have hstart : Handles s.chain s.chain [.fill r.freeFillSlots,.poll c.blocking] := ⟨rfl,rfl,rfl⟩
    generalize turn c r s=t at hturn
    obtain ⟨goes,s',calls⟩ := t
    cases goes with
    | true => exact (hstart.trans hturn).trans (ih s')
    | false => simpa using hstart.trans hturn

/-- However the batches cut the stream of packets: what is in one piece is delivered, in order,
each piece of the others is counted, and every descriptor is recycled once. -/
theorem rxLoop_stream (c : RxConfig) (rs : List Round) (s : RxState) (hs : s.chain.inChain=false)
    (ps : List (List Desc)) (hps : ∀ p∈ps, IsPacket p)
    (hstream : (rxLoop c rs s).2.flatMap RxCall.received=ps.flatten) :
    (rxLoop c rs s).2.flatMap RxCall.delivered=singles ps ∧
    (rxLoop c rs s).1.chain.chained=s.chain.chained+UInt64.ofNat (pieces ps).length ∧
    (rxLoop c rs s).2.flatMap RxCall.recycled=ps.flatten := by
  obtain ⟨hchain,hdel,hrec⟩ := rxLoop_handles c rs s
  have hall : deliverBatch ps.flatten s.chain =
      (⟨false,s.chain.chained+UInt64.ofNat (pieces ps).length⟩,singles ps) := by
    rw [← deliverBatch_stream hps,← hs]
  rw [hstream,hall] at hchain hdel
  exact ⟨hdel,congrArg Chain.chained hchain,hrec.trans hstream⟩

def onePiece (addr : UInt64) (options : UInt32) : Desc := { addr, len := 60, options }

def cutRounds : List Round :=
  [⟨false,0,.ready 2,0,false,[onePiece 0 0,onePiece 2048 1]⟩,
    ⟨false,2,.ready 2,1,false,[onePiece 4096 0,onePiece 6144 0]⟩]

def cutStream : List (List Desc) :=
    [[onePiece 0 0],[onePiece 2048 1,onePiece 4096 0],[onePiece 6144 0]]

theorem rxLoop_stream_cut : (rxLoop ⟨true,true,false,false⟩ cutRounds ⟨0,none,0,{}⟩).2.flatMap
      RxCall.delivered=singles cutStream ∧
    (rxLoop ⟨true,true,false,false⟩ cutRounds ⟨0,none,0,{}⟩).1.chain.chained =
      0+UInt64.ofNat (pieces cutStream).length ∧
    (rxLoop ⟨true,true,false,false⟩ cutRounds ⟨0,none,0,{}⟩).2.flatMap RxCall.recycled =
      cutStream.flatten := by
  refine rxLoop_stream _ _ _ rfl cutStream (fun p hp => ?_) (by decide +kernel)
  simp only [cutStream,mem_cons,not_mem_nil,or_false] at hp
  rcases hp with rfl | rfl | rfl
  · exact ⟨[],_,rfl,by simp,rfl⟩
  · exact ⟨[onePiece 2048 1],_,rfl,by decide,rfl⟩
  · exact ⟨[],_,rfl,by simp,rfl⟩

end Packetio.Netstack

import Packetio.Dpdk.ReceiveArea
import Packetio.Lib.Views

/-! A receive queue that looks by taking (queues.go): what Poll and NumReceived find is kept
in a stash for the next Receive. The slices are views of arrays, since the stash is handed
out in parts and appended to behind them. -/
namespace Packetio.Dpdk
open Lib Pool Dpdk.Mbuf List

structure Answer where
  region : Region
  got : Int
  out : List UInt64

def errClosed : String := "packetio: closed"

def pollBatch : Int := 64

structure RxQueue where
  q : Rx
  descs : View
  stash : View := .none
  closed : Bool := false
  mem : Arrays Desc
  bursts : List Desc := []

def newRxQueue (q : Rx) : RxQueue where
  q := q
  descs := ⟨0,0,0,q.depth⟩
  mem := ⟨fun _ _ => ⟨0,0,0⟩,1⟩

namespace RxQueue
variable (spare : Nat → Nat → Nat)

def take (x : RxQueue) (max : Int) (a : Answer) : Option (RxQueue × View) :=
  match x.q.receive a.region max a.got a.out with
  | none => none
  | some (q,ds) =>
    if !x.q.polls max || decide (a.got≤0 ∨ a.got > min max x.q.depth) then
      some ({ x with q := q },.none)
    else
      let r := x.mem.appendEach spare x.descs.cleared ds
      some ({ x with
        q := q
        descs := r.2
        mem := r.1
        bursts := x.bursts++((x.q.burst max a.got a.out).filterMap
          (x.q.delivered a.region)).map Prod.snd },
        r.2)

def pollOnce (x : RxQueue) (a : Answer) : Option (RxQueue × Nat × Bool) :=
  if x.closed then some (x,0,true)
  else match x.take spare pollBatch a with
    | none => none
    | some (x,got) =>
      if 0<got.len then
        let r := x.mem.append spare x.stash (x.mem.read got)
        some ({ x with mem := r.1, stash := r.2 },r.2.len,false)
      else some (x,x.stash.len,false)

def look (x : RxQueue) : List Answer → Option (RxQueue × Except String Nat)
  | [] => some (x,.ok 0)
  | a::more => match x.pollOnce spare a with
    | none => none
    | some (x,_,true) => some (x,.error errClosed)
    | some (x,n,false) => if 0<n then some (x,.ok n) else x.look more

def poll (x : RxQueue) (a : Answer) (more : List Answer) : Option (RxQueue × Except String Nat) :=
  if x.closed then some (x,.error errClosed)
  else if 0<x.stash.len then some (x,.ok x.stash.len)
  else x.look spare (a::more)

def receive (x : RxQueue) (max : Int) (a : Answer) : Option (RxQueue × View) :=
  if x.closed ∨ max≤0 then some (x,.none)
  else if 0<x.stash.len then
    if max ≥ x.stash.len then some ({ x with stash := x.stash.upTo 0 },x.stash)
    else some ({ x with stash := x.stash.beyond max.toNat },x.stash.upTo max.toNat)
  else x.take spare max a

def numReceived (x : RxQueue) (a : Answer) : Option (RxQueue × Nat) :=
  if x.closed then some (x,0)
  else match x.pollOnce spare a with
    | none => none
    | some (x,n,_) => some (x,n)

def fill (x : RxQueue) (r : Region) (n : Int) : Option (RxQueue × Region × Int) :=
  if x.closed then some (x,r,0)
  else match x.q.drainReturned with
    | none => none
    | some (q,_) => match q.fill r n with
      | none => none
      | some (q,r,n) => some ({ x with q := q },r,n)

def recycle (x : RxQueue) (descs : List Desc) : Option RxQueue :=
  match x.q.recycle descs with
  | none => none
  | some q => some { x with q := q }

end RxQueue

/-! The queue below -/

theorem Rx.burst_length (q : Rx) (max got : Int) (out : List UInt64) :
    (q.burst max got out).length ≤ max.toNat := by
  rw [Rx.burst]
  split
  case isTrue => exact Nat.zero_le _
  split
  case isTrue => exact Nat.zero_le _
  rename_i hgot
  rw [length_take]
  omega

structure Rx.Ready (k total : Nat) (q : Rx) : Prop where
  shape : q.toFixed.Shape k total
  pool : q.pool.Shape q.firstFrame q.frames k

variable {n : Nat} {res : Except String Nat} {a : Answer} {as more : List Answer}

namespace Rx.Ready
variable {k total : Nat} {q q' : Rx} (h : q.Ready k total) {r : Region}
include h

theorem kept (hk : q.Kept q') : q'.Ready k total := by
  obtain ⟨hfixed,hpool⟩ := hk
  refine ⟨hfixed ▸ h.shape,?_⟩
  rw [hfixed]
  exact h.pool.alike hpool

theorem refuse (st : RxStats) (frame : UInt64) :
    ∃ q', Rx.refuse { q with stats := st } frame=some q' := by
  obtain ⟨p,hp⟩ := h.pool.push_total frame
  exact ⟨{ q with pool := p, stats := st },by simp [Rx.refuse,hp]⟩

theorem deliver (hr : r.len=total*2^k) (acc : Rx.Delivery) (va : UInt64) :
    ∃ q' acc', q.deliver r acc va=some (q',acc') := by
  rw [Rx.deliver]
  rcases hframe : q.frameOfVA va with _ | frame
  · exact ⟨_,_,rfl⟩
  have hfits := h.shape.mbuf_fits hr (h.shape.frameOfVA_mem hframe)
  obtain ⟨f,hf,-⟩ := rxRead_fields hfits
  simp only [hf]
  split
  case isTrue =>
    obtain ⟨q',hq'⟩ := h.refuse _ frame
    exact ⟨q',_,by rw [hq']; rfl⟩
  split
  case isTrue =>
    obtain ⟨q',hq'⟩ := h.refuse _ frame
    exact ⟨q',_,by rw [hq']; rfl⟩
  case isFalse => exact ⟨_,_,rfl⟩

theorem delivers (hr : r.len=total*2^k) (vas : List UInt64) (acc : Rx.Delivery) :
    ∃ q' acc', vas.foldlM (fun x va => x.1.deliver r x.2 va) (q,acc)=some (q',acc') := by
  induction vas generalizing q acc with
  | nil => exact ⟨q,acc,rfl⟩
  | cons va vas ih =>
    obtain ⟨q1,acc1,h1⟩ := h.deliver hr acc va
    obtain ⟨q',acc',hrest⟩ := ih (h.kept (Rx.deliver_descs h1).1) acc1
    refine ⟨q',acc',?_⟩
    rwa [foldlM_cons,h1]

theorem receive (hr : r.len=total*2^k) (max got : Int) (out : List UInt64) :
    ∃ q' ds, q.receive r max got out=some (q',ds) := by
  rw [Rx.receive]
  split
  case isTrue => exact ⟨_,_,rfl⟩
  split
  case isTrue => exact ⟨_,_,rfl⟩
  obtain ⟨q',acc,hd⟩ := h.delivers hr (out.take got.toNat) {}
  rw [hd]
  dsimp only
  split
  case isTrue | isFalse => exact ⟨_,_,rfl⟩

theorem recycle {descs : List Desc} (hq : q.recycle descs=some q') : q'.Ready k total := by
  obtain ⟨p,hp,rfl⟩ := Rx.recycle_some hq
  rw [pushBases_eq h.pool.mask] at hp
  exact h.kept ⟨rfl,Frames.pushAll_alike hp⟩

theorem drainReturned (hq : q.drainReturned=some (q',n)) : q'.Ready k total := by
  cases Rx.drainReturned_some hq with
  | inl hq => exact hq ▸ h
  | inr hq =>
    obtain ⟨back,p,ring,dead,outstanding,foreign,hp,rfl⟩ := hq
    exact h.kept ⟨rfl,Frames.pushAll_alike hp⟩

theorem fill {n m : Int} {r' : Region} (hq : q.fill r n=some (q',r',m)) : q'.Ready k total := by
  cases Rx.fill_some hq with
  | inl hq =>
    obtain ⟨st,rfl,-⟩ := hq
    exact h.kept ⟨rfl,.refl _⟩
  | inr hq =>
    obtain ⟨n1,p,addrs,rest,p',supply,outstanding,filled,hp,hp',rfl⟩ := hq
    exact h.kept ⟨rfl,(Frames.pop_alike hp).trans (Frames.pushAll_alike hp')⟩

end Rx.Ready

/-! The stash -/

namespace RxQueue
variable {k total : Nat} {spare : Nat → Nat → Nat} {x x' x'' : RxQueue} {a : Answer}

structure Sound (k total : Nat) (x : RxQueue) : Prop where
  ready : x.q.Ready k total
  stash : x.mem.Within x.stash
  descs : x.mem.Within x.descs
  apart : x.stash.Apart x.descs

theorem Sound.below (h : x.Sound k total) {q : Rx} (hq : q.Ready k total) :
    { x with q := q }.Sound k total :=
  { h with ready := hq }

structure Takes (k total : Nat) (x x' : RxQueue) (v : View) : Prop where
  sound : x'.Sound k total
  made : x.mem.made≤x'.mem.made
  stash : x'.stash=x.stash
  kept : x'.mem.read x.stash=x.mem.read x.stash
  within : x'.mem.Within v
  apart : x.stash.Apart v
  bursts : x'.bursts=x.bursts++x'.mem.read v
  closed : x'.closed=x.closed

theorem none_within (m : Arrays Desc) : m.Within .none :=
    ⟨le_refl _,fun hc => absurd hc (lt_irrefl 0)⟩

theorem apart_none (v : View) : v.Apart .none := (View.apart_of_cap rfl v).symm

theorem Sound.take (h : x.Sound k total) {max : Int} {v : View}
    (ht : x.take spare max a=some (x',v)) : Takes k total x x' v ∧ v.len ≤ max.toNat ∧
      x.q.receive a.region max a.got a.out=some (x'.q,x'.mem.read v) := by
  rw [RxQueue.take] at ht
  rcases hq : x.q.receive a.region max a.got a.out with _ | ⟨q,ds⟩
  · simp [hq] at ht
  obtain ⟨hkept,hds⟩ := Rx.receive_descs hq
  have hready := h.ready.kept hkept
  simp only [hq] at ht
  split at ht
  case isTrue hno =>
    cases ht
    have hnil : x.q.burst max a.got a.out = [] := by
      rw [Rx.burst]
      grind
    rw [hnil] at hds
    exact ⟨⟨h.below hready,le_refl _,rfl,rfl,none_within _,apart_none _,
      (append_nil _).symm,rfl⟩,Nat.zero_le _,by rw [hds]; rfl⟩
  have hspec := Arrays.appendEach_spec spare h.descs.cleared ds
  obtain ⟨hread,happart⟩ := hspec.apart x.stash h.stash h.apart
  have hback : (x.mem.appendEach spare x.descs.cleared ds).1.read
      (x.mem.appendEach spare x.descs.cleared ds).2=ds := hspec.read
  cases ht
  refine ⟨⟨⟨hready,h.stash.mono hspec.made,hspec.within,happart⟩,hspec.made,rfl,hread,hspec.within,
    happart,?_,rfl⟩,?_,by rw [hback]⟩
  · rw [hback,hds]
  · rw [← Arrays.read_length,hback,hds,length_map]
    exact (length_filterMap_le _ _).trans (x.q.burst_length max a.got a.out)

structure Grown (k total : Nat) (x x' : RxQueue) : Prop where
  sound : x'.Sound k total
  made : x.mem.made≤x'.mem.made
  more : ∃ ds, x'.mem.read x'.stash=x.mem.read x.stash++ds ∧ x'.bursts=x.bursts++ds
  apart : ∀ v, x.mem.Within v → x.stash.Apart v → x'.stash.Apart v

theorem Grown.refl (h : x.Sound k total) : Grown k total x x :=
  ⟨h,le_refl _,⟨[],(append_nil _).symm,(append_nil _).symm⟩,fun _ _ ha => ha⟩

theorem Grown.trans (h : Grown k total x x') (h' : Grown k total x' x'') : Grown k total x x'' := by
  obtain ⟨ds,hread,hbursts⟩ := h.more
  obtain ⟨ds',hread',hbursts'⟩ := h'.more
  refine ⟨h'.sound,h.made.trans h'.made,⟨ds++ds',?_,?_⟩,fun v hv ha => ?_⟩
  · rw [hread',hread,append_assoc]
  · rw [hbursts',hbursts,append_assoc]
  · exact h'.apart v (hv.mono h.made) (h.apart v hv ha)

theorem Sound.pollOnce (h : x.Sound k total) {closed : Bool}
    (hp : x.pollOnce spare a=some (x',n,closed)) : Grown k total x x' := by
  rw [RxQueue.pollOnce] at hp
  split at hp
  case isTrue =>
    cases hp
    exact .refl h
  rcases ht : x.take spare pollBatch a with _ | ⟨x1,got⟩
  · simp [ht] at hp
  obtain ⟨htakes,-⟩ := h.take ht
  simp only [ht] at hp
  split at hp
  case isTrue =>
    cases hp
    have hspec := Arrays.append_spec spare htakes.sound.stash (x1.mem.read got)
    have hdescs := hspec.apart _ htakes.sound.descs htakes.sound.apart.symm
    refine ⟨⟨htakes.sound.ready,hspec.within,htakes.sound.descs.mono hspec.made,hdescs.2.symm⟩,
      htakes.made.trans hspec.made,⟨x1.mem.read got,?_,htakes.bursts⟩,fun v hv ha => ?_⟩
    · rw [← htakes.kept,← htakes.stash]
      exact hspec.read
    · rw [← htakes.stash] at ha
      exact (hspec.apart v (hv.mono htakes.made) ha.symm).2.symm
  case isFalse hempty =>
    cases hp
    have hnil : x'.mem.read got = [] := by
      rw [← length_eq_zero_iff,Arrays.read_length]
      omega
    refine ⟨htakes.sound,htakes.made,⟨[],?_,?_⟩,fun v _ ha => htakes.stash.symm ▸ ha⟩
    · rw [htakes.stash,htakes.kept,append_nil]
    · rw [htakes.bursts,hnil]

end RxQueue

namespace RxQueue
variable {k total : Nat} {spare : Nat → Nat → Nat} {x x' : RxQueue} (h : x.Sound k total)
include h

theorem Sound.look (hl : x.look spare as=some (x',res)) : Grown k total x x' := by
  induction as generalizing x with
  | nil =>
    cases hl
    exact .refl h
  | cons a as ih =>
    rw [RxQueue.look] at hl
    rcases hp : x.pollOnce spare a with _ | ⟨x1,n,closed⟩
    · simp [hp] at hl
    have hgrown := h.pollOnce hp
    cases closed with
    | true =>
      simp only [hp] at hl
      cases hl
      exact hgrown
    | false =>
      simp only [hp] at hl
      split at hl
      case isTrue =>
        cases hl
        exact hgrown
      case isFalse => exact hgrown.trans (ih hgrown.sound hl)

theorem Sound.poll (hp : x.poll spare a more=some (x',res)) : Grown k total x x' := by
  rw [RxQueue.poll] at hp
  split at hp
  case isTrue =>
    cases hp
    exact .refl h
  split at hp
  case isTrue =>
    cases hp
    exact .refl h
  case isFalse => exact h.look hp

theorem Sound.numReceived (hp : x.numReceived spare a=some (x',n)) : Grown k total x x' := by
  rw [RxQueue.numReceived] at hp
  split at hp
  case isTrue =>
    cases hp
    exact .refl h
  cases hp' : x.pollOnce spare a with
  | none => simp [hp'] at hp
  | some y =>
    simp only [hp'] at hp
    cases hp
    exact h.pollOnce hp'

omit h in
theorem fill_some {r r' : Region} {n m : Int} (hf : x.fill r n=some (x',r',m)) : x'=x ∨
    ∃ q1 n1 q2, x.q.drainReturned=some (q1,n1) ∧ q1.fill r n=some (q2,r',m) ∧
      x' = { x with q := q2 } := by
  rw [RxQueue.fill] at hf
  split at hf
  case isTrue =>
    cases hf
    exact .inl rfl
  rcases hd : x.q.drainReturned with _ | ⟨q1,n1⟩
  · simp [hd] at hf
  cases hq : q1.fill r n with
  | none => simp [hd,hq] at hf
  | some z =>
    simp only [hd,hq] at hf
    cases hf
    exact .inr ⟨q1,n1,_,rfl,hq,rfl⟩

omit h in
theorem recycle_some {descs : List Desc} (hr : x.recycle descs=some x') :
    ∃ q, x.q.recycle descs=some q ∧ x' = { x with q := q } := by
  rw [RxQueue.recycle] at hr
  cases hq : x.q.recycle descs with
  | none => simp [hq] at hr
  | some q =>
    simp only [hq] at hr
    cases hr
    exact ⟨q,rfl,rfl⟩

/-! Every call returns, over memory of the region's length. -/

variable (spare)

section
variable {a : Answer} (hr : a.region.len=total*2^k)
include hr

theorem Sound.take_total (max : Int) : ∃ y, x.take spare max a=some y := by
  obtain ⟨q,ds,hq⟩ := h.ready.receive hr max a.got a.out
  simp only [RxQueue.take,hq]
  split
  case isTrue | isFalse => exact ⟨_,rfl⟩

theorem Sound.pollOnce_total : ∃ x' n closed, x.pollOnce spare a=some (x',n,closed) := by
  rw [RxQueue.pollOnce]
  split
  case isTrue => exact ⟨_,_,_,rfl⟩
  obtain ⟨⟨x',v⟩,hy⟩ := h.take_total spare hr pollBatch
  simp only [hy]
  split
  case isTrue | isFalse => exact ⟨_,_,_,rfl⟩

theorem Sound.numReceived_total : ∃ y, x.numReceived spare a=some y := by
  obtain ⟨x',n,closed,hp⟩ := h.pollOnce_total spare hr
  rw [RxQueue.numReceived,hp]
  split
  case isTrue | isFalse => exact ⟨_,rfl⟩

theorem Sound.receive_total (max : Int) : ∃ x' v, x.receive spare max a=some (x',v) := by
  rw [RxQueue.receive]
  split
  case isTrue => exact ⟨_,_,rfl⟩
  split
  case isTrue =>
    split
    case isTrue | isFalse => exact ⟨_,_,rfl⟩
  obtain ⟨⟨x',v⟩,hy⟩ := h.take_total spare hr max
  exact ⟨x',v,hy⟩

end

theorem Sound.look_total (hr : ∀ a∈as, a.region.len=total*2^k) : ∃ y, x.look spare as=some y := by
  induction as generalizing x with
  | nil => exact ⟨_,rfl⟩
  | cons a as ih =>
    obtain ⟨x',n,closed,hp⟩ := h.pollOnce_total spare (hr a mem_cons_self)
    rw [RxQueue.look,hp]
    cases closed with
    | true => exact ⟨_,rfl⟩
    | false =>
      dsimp only
      split
      case isTrue => exact ⟨_,rfl⟩
      case isFalse => exact ih (h.pollOnce hp).sound fun b hb => hr b (mem_cons_of_mem a hb)

theorem Sound.poll_total
    (hr : ∀ b∈a::more, b.region.len=total*2^k) : ∃ y, x.poll spare a more=some y := by
  rw [RxQueue.poll]
  split
  case isTrue => exact ⟨_,rfl⟩
  split
  case isTrue => exact ⟨_,rfl⟩
  case isFalse => exact h.look_total spare hr

end RxQueue

end Packetio.Dpdk

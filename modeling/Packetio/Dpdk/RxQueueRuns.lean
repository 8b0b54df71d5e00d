import Packetio.Dpdk.RxQueue

/-! Runs of a receive queue under one goroutine, which keeps the slices it gets and may
write to them. -/
namespace Packetio.Dpdk
open Lib List

inductive RxEvent where
  | poll (a : Answer) (more : List Answer)
  | numReceived (a : Answer)
  | receive (max : Int) (a : Answer)
  | fill (r : Region) (n : Int)
  | recycle (descs : List Desc)
  | write (v : View) (i : Nat) (d : Desc)
  | close

structure Served where
  x : RxQueue
  given : List View := []
  returned : List Desc := []

namespace Served
variable (spare : Nat → Nat → Nat)

def step (s : Served) : RxEvent → Option Served
  | .poll a more => (s.x.poll spare a more).map fun y => { s with x := y.1 }
  | .numReceived a => (s.x.numReceived spare a).map fun y => { s with x := y.1 }
  | .receive max a => (s.x.receive spare max a).map fun y =>
      ⟨y.1,y.2::s.given,s.returned++y.1.mem.read y.2⟩
  | .fill r n => (s.x.fill r n).map fun y => { s with x := y.1 }
  | .recycle descs => (s.x.recycle descs).map fun x => { s with x := x }
  | .write v i d => some { s with x.mem := s.x.mem.put v.array (v.start+i) [d] }
  | .close => some { s with x.closed := true }

def Allows (s : Served) : RxEvent → Prop
  | .write v i _ => v∈s.given ∧ i<v.cap
  | _ => True

def Run : Served → Served → Prop :=
  Relation.ReflTransGen fun s s' => ∃ ev, s.Allows ev ∧ s.step spare ev=some s'

end Served

namespace Served
variable {k total : Nat} {spare : Nat → Nat → Nat} {s s' : Served}

structure Kept (k total : Nat) (s : Served) : Prop where
  sound : s.x.Sound k total
  given : ∀ v∈s.given, s.x.mem.Within v ∧ s.x.stash.Apart v
  all : s.returned++s.x.mem.read s.x.stash=s.x.bursts

section
variable (h : s.Kept k total)
include h

theorem Kept.grown {x : RxQueue} (hx : RxQueue.Grown k total s.x x) :
    { s with x := x }.Kept k total := by
  obtain ⟨ds,hread,hbursts⟩ := hx.more
  refine ⟨hx.sound,fun v hv => ?_,?_⟩
  · obtain ⟨hw,ha⟩ := h.given v hv
    exact ⟨hw.mono hx.made,hx.apart v hw ha⟩
  · rw [hread,hbursts,← h.all,append_assoc]

theorem Kept.below {q : Rx} (hq : q.Ready k total) : { s with x.q := q }.Kept k total :=
  ⟨h.sound.below hq,h.given,h.all⟩

theorem Kept.split {out rest : View} (hout : s.x.mem.Within out)
    (hrest : s.x.mem.Within rest) (hpart : rest.Part s.x.stash) (ha : rest.Apart out)
    (hread : s.x.mem.read out++s.x.mem.read rest=s.x.mem.read s.x.stash) :
    Kept k total ⟨{ s.x with stash := rest },out::s.given,s.returned++s.x.mem.read out⟩ := by
  refine ⟨⟨h.sound.ready,hrest,h.sound.descs,(h.sound.apart.symm.part hpart).symm⟩,
    fun v hv => ?_,?_⟩
  · cases mem_cons.mp hv with
    | inl hv =>
      subst hv
      exact ⟨hout,ha⟩
    | inr hv =>
      obtain ⟨hw,hapart⟩ := h.given v hv
      exact ⟨hw,(hapart.symm.part hpart).symm⟩
  · rw [append_assoc,hread,h.all]

theorem Kept.takes (hempty : s.x.stash.len=0) {x : RxQueue} {v : View}
    (ht : RxQueue.Takes k total s.x x v) :
    Kept k total ⟨x,v::s.given,s.returned++x.mem.read v⟩ := by
  have hnil : s.x.mem.read s.x.stash = [] := by
    rw [← length_eq_zero_iff,Arrays.read_length,hempty]
  have hall := h.all
  rw [hnil,append_nil] at hall
  refine ⟨ht.sound,fun w hw => ?_,?_⟩
  · rw [ht.stash]
    cases mem_cons.mp hw with
    | inl hw =>
      subst hw
      exact ⟨ht.within,ht.apart⟩
    | inr hw => exact ⟨(h.given w hw).1.mono ht.made,(h.given w hw).2⟩
  · rw [ht.stash,ht.kept,hnil,append_nil,hall,ht.bursts]

theorem Kept.receive {max : Int} {a : Answer} {x : RxQueue} {v : View}
    (hr : s.x.receive spare max a=some (x,v)) :
    Kept k total ⟨x,v::s.given,s.returned++x.mem.read v⟩ ∧ v.len ≤ max.toNat := by
  have hlen := h.sound.stash.len
  rw [RxQueue.receive] at hr
  split at hr
  case isTrue =>
    cases hr
    have hpart : s.x.stash.Part s.x.stash := ⟨rfl,le_refl _,le_refl _⟩
    exact ⟨h.split (RxQueue.none_within _) h.sound.stash hpart (RxQueue.apart_none _) rfl,
      Nat.zero_le _⟩
  split at hr
  case isTrue =>
    split at hr
    case isTrue hmax =>
      cases hr
      refine ⟨h.split h.sound.stash (h.sound.stash.upTo (Nat.zero_le _))
        (View.upTo_part (Nat.zero_le _)) (View.apart_of_cap rfl _) (append_nil _),?_⟩
      omega
    rename_i hmax
    cases hr
    have hcap : max.toNat ≤ s.x.stash.cap := by omega
    exact ⟨h.split (h.sound.stash.upTo hcap) (h.sound.stash.beyond _) (View.beyond_part hcap)
      (View.beyond_apart_upTo _ _) (Arrays.read_upTo_beyond (by omega)),le_refl _⟩
  case isFalse hempty =>
    obtain ⟨ht,hle,-⟩ := h.sound.take hr
    exact ⟨h.takes (by omega) ht,hle⟩

theorem Kept.untouched {v : View} (hv : v∈s.given) {i : Nat} (hi : i<v.cap)
    (d : Desc) : (s.x.mem.put v.array (v.start+i) [d]).read s.x.stash=s.x.mem.read s.x.stash :=
  Arrays.read_put h.sound.stash.len (h.given v hv).2 hi

theorem Kept.step {ev : RxEvent} (ha : s.Allows ev)
    (hs : s.step spare ev=some s') : s'.Kept k total := by
  cases ev with
  | poll a more =>
    obtain ⟨⟨x,res⟩,hp,rfl⟩ := Option.map_eq_some_iff.mp hs
    exact h.grown (h.sound.poll hp)
  | numReceived a =>
    obtain ⟨⟨x,n⟩,hp,rfl⟩ := Option.map_eq_some_iff.mp hs
    exact h.grown (h.sound.numReceived hp)
  | receive max a =>
    obtain ⟨⟨x,v⟩,hr,rfl⟩ := Option.map_eq_some_iff.mp hs
    exact (h.receive hr).1
  | fill r n =>
    obtain ⟨⟨x,r',m⟩,hf,rfl⟩ := Option.map_eq_some_iff.mp hs
    cases RxQueue.fill_some hf with
    | inl hf =>
      subst hf
      exact h
    | inr hf =>
      obtain ⟨q1,n1,q2,hd,hq,rfl⟩ := hf
      exact h.below ((h.sound.ready.drainReturned hd).fill hq)
  | recycle descs =>
    obtain ⟨x,hr,rfl⟩ := Option.map_eq_some_iff.mp hs
    obtain ⟨q,hq,rfl⟩ := RxQueue.recycle_some hr
    exact h.below (h.sound.ready.recycle hq)
  | write v i d =>
    obtain ⟨hv,hi⟩ := ha
    cases hs
    refine ⟨⟨h.sound.ready,h.sound.stash.mono (le_refl _),h.sound.descs.mono (le_refl _),
      h.sound.apart⟩,
      fun w hw => ⟨(h.given w hw).1.mono (le_refl _),(h.given w hw).2⟩,?_⟩
    rw [h.untouched hv hi]
    exact h.all
  | close =>
    cases hs
    exact ⟨{ h.sound with },h.given,h.all⟩

theorem Kept.run (hrun : Run spare s s') : s'.Kept k total := by
  induction hrun with
  | refl => exact h
  | tail _ hstep ih =>
    obtain ⟨ev,ha,hs⟩ := hstep
    exact ih.step ha hs

end

end Served

theorem newRxQueue_kept {k total : Nat} {q : Rx} (h : q.Ready k total) :
    Served.Kept k total ⟨newRxQueue q,[],[]⟩ := by
  refine ⟨⟨h,RxQueue.none_within _,⟨Nat.zero_le _,fun _ => Nat.one_pos⟩,View.apart_of_cap rfl _⟩,
    fun v hv => ?_,rfl⟩
  cases hv

theorem newRx_ready {checked : Bool} {region : Region} {c : Config} {q : Rx}
    (hva : c.regionVA.toNat+region.len ≤ 2^64) (hnew : newRx checked region c = .ok q) :
    ∃ k total, region.len=total*2^k ∧ q.Ready k total := by
  obtain ⟨b,supply,hb,-,rfl⟩ := newRx_ok hnew
  obtain ⟨k,-,hlen,hshape,hinv⟩ := initBase_shape hb hva
  exact ⟨k,_,hlen,hshape,hinv.shape⟩

/-- For every interleaving of the methods of a receive queue and of writes to what it
returned: what Receive returned and then the stash are what came of the bursts, in order;
no such write reaches the stash; Receive returns no more than it was asked for; and each
call returns. -/
theorem polled_packets_kept (checked : Bool) (region : Region) (c : Config) (q₀ : Rx)
    (hva : c.regionVA.toNat+region.len ≤ 2^64) (hnew : newRx checked region c = .ok q₀)
    (spare : Nat → Nat → Nat) (s : Served) (hrun : Served.Run spare ⟨newRxQueue q₀,[],[]⟩ s) :
    s.returned++s.x.mem.read s.x.stash = s.x.bursts ∧ (∀ v ∈ s.given, ∀ i < v.cap, ∀ d,
      (s.x.mem.put v.array (v.start+i) [d]).read s.x.stash = s.x.mem.read s.x.stash) ∧
    (∀ max a, a.region.len = region.len →
      ∃ x v, s.x.receive spare max a = some (x,v) ∧ (x.mem.read v).length ≤ max.toNat) ∧
    (∀ a more, (∀ b ∈ a::more, b.region.len = region.len) → ∃ y, s.x.poll spare a more = some y) ∧
    ∀ a, a.region.len = region.len → ∃ y, s.x.numReceived spare a = some y := by
  obtain ⟨k,total,hlen,hready⟩ := newRx_ready hva hnew
  have hkept := (newRxQueue_kept hready).run hrun
  refine ⟨hkept.all,fun v hv i hi d => hkept.untouched hv hi d,fun max a ha =>
    ?_,fun a more ha => ?_,
    fun a ha => hkept.sound.numReceived_total spare (ha.trans hlen)⟩
  · obtain ⟨x,v,hr⟩ := hkept.sound.receive_total spare (ha.trans hlen) max
    refine ⟨x,v,hr,?_⟩
    rw [Arrays.read_length]
    exact (hkept.receive hr).2
  · exact hkept.sound.poll_total spare fun b hb => (ha b hb).trans hlen

def twice : Answer := ⟨packetAt 128,2,[0x10440,0x10440]⟩

def polledOnce : Served :=
  (Served.step (fun _ _ => 0) ⟨newRxQueue pairRx,[],[]⟩ (.poll twice [])).get (by decide)

def receivedOne : Served := (polledOnce.step (fun _ _ => 0) (.receive 1 twice)).get (by decide)

theorem polled_packets_kept_twice :
    receivedOne.returned = [⟨0x540,64,0⟩] ∧ receivedOne.x.bursts = [⟨0x540,64,0⟩,⟨0x540,64,0⟩] ∧
      receivedOne.returned++receivedOne.x.mem.read receivedOne.x.stash = receivedOne.x.bursts ∧
      ∃ x v, receivedOne.x.receive (fun _ _ => 0) 1 twice = some (x,v) ∧
        (x.mem.read v).length ≤ 1 := by
  have hrun : Served.Run (fun _ _ => 0) ⟨newRxQueue pairRx,[],[]⟩ receivedOne := by
    have hpoll : Served.Run (fun _ _ => 0) ⟨newRxQueue pairRx,[],[]⟩ polledOnce :=
      .single ⟨.poll twice [],trivial,rfl⟩
    exact hpoll.tail ⟨.receive 1 twice,trivial,rfl⟩
  have hkept := polled_packets_kept true smallRegion pairRxConfig pairRx (by decide) rfl _ _ hrun
  exact ⟨by decide,by decide,hkept.1,hkept.2.2.1 1 twice rfl⟩

end Packetio.Dpdk

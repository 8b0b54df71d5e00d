import Packetio.Mlx5.Ring.RxSystem

/-! Every buffer comes back from a ring of at most 2^16 entries. On a longer one the 16
bits of a completion do not tell which buffer it is for, and the queue is lost. -/
namespace Packetio.Mlx5.Ring
open Lib List Nat

/-- A packet of no bytes in buffer `n`, on an even lap of the completion queue. -/
def plainCQE (n : Nat) : CQE := fun i => if i<60 then 0 else beByte 4 (n%2^16*2^16+0x20) (i-60)

theorem header_plainCQE (n : Nat) : (header (plainCQE n)).toNat=n%2^16*2^16+0x20 := by
  have hbytes : beNat 4 (fun i => plainCQE n (60+i))=beNat 4 (beByte 4 (n%2^16*2^16+0x20)) := by
    refine beNat_congr 4 _ _ fun i _ => ?_
    rw [plainCQE,if_neg (by omega),Nat.add_sub_cancel_left]
  rw [header,hbytes,beNat_beByte,toNat_small _ (by omega)]
  omega

theorem plainCQE_completes (f : RxFixed) (n : Nat) :
    f.Completes n (plainCQE n) ∧ (owner (header (plainCQE n))).toNat=0 := by
  have hh := header_plainCQE n
  have hop : opcode (header (plainCQE n))=cqeRespSend := by
    rw [← UInt8.toNat_inj,opcode,UInt8.toNat_and,UInt32.toNat_toUInt8,UInt32.toNat_shiftRight,hh]
    change (n%2^16*2^16+32) >>> 4%2^8 &&& (2^4-1)=2
    rw [and_two_pow_sub_one_eq_mod,shiftRight_eq_div_pow]
    omega
  have hf : format (header (plainCQE n))=cqeFormatNoData := by
    rw [← UInt8.toNat_inj,format,UInt8.toNat_and,UInt32.toNat_toUInt8,UInt32.toNat_shiftRight,hh]
    change (n%2^16*2^16+32) >>> 2%2^8 &&& (2^2-1)=0
    rw [and_two_pow_sub_one_eq_mod,shiftRight_eq_div_pow]
    omega
  have hc : (wqeCounter (header (plainCQE n))).toNat=n%2^16 := by
    rw [wqeCounter,UInt32.toNat_toUInt16,UInt32.toNat_shiftRight,hh]
    change (n%2^16*2^16+32) >>> 16%2^16=_
    omega
  refine ⟨⟨hf,.inl hop,by rw [hc]⟩,?_⟩
  rw [owner,UInt32.toNat_and,hh]
  change _ &&& (2^1-1)=0
  rw [and_two_pow_sub_one_eq_mod]
  omega

theorem fill_count (r : Rx) (descs : List Desc) :
    (r.fill descs).2=min descs.length r.freeSlots := by
  simp only [Rx.fill]
  split_ifs with h
  · exact h.symm
  · rfl

theorem Serves.lost {f : RxFixed} {cq : CQ} {room j n : Nat} {live : List Desc} {h : Haul}
    (hs : Serves f cq room j n live h) (hroom : room≠0) (hlive : live ≠ []) (hripe : Ripe cq j)
    (hc : (wqeCounter (header (cq.entry (UInt32.ofNat j)))).toUInt32 &&& f.mask ≠
      UInt32.ofNat n &&& f.mask) (hop : opcode (header (cq.entry (UInt32.ofNat j)))=cqeRespSend ∨
      opcode (header (cq.entry (UInt32.ofNat j)))=cqeRespErr) : h.taken = [] ∧ h.latched=true := by
  cases hs with
  | full => exact absurd rfl hroom
  | stop hs =>
    cases hs with
    | idle live hno => exact absurd hripe hno
    | undecodable | lost => exact ⟨rfl,rfl⟩
  | go hg _ =>
    cases hg with
    | stray live _ _ hs =>
      cases hs with
      | inl hnil => exact absurd hnil hlive
      | inr hno => exact (hop.elim hno.1 hno.2).elim
    | refused _ _ _ hr | given _ _ _ hr => exact absurd hr.counter hc

section
variable {f : RxFixed} {k : Nat} {s : RxSys} {done : List Desc} (h : s.Conforms f k done [] [])
  (hlap : done.length<2^k) (hreg : 0<f.region.len)
include h hlap hreg

theorem RxSys.Conforms.one : ∃ s' x, Relation.ReflTransGen (RxSys.Step False inRegion) s s' ∧
      s'.Conforms f k done [⟨0,0,0⟩] [x] := by
  have hin : inRegion s.rx [⟨0,0,0⟩] := by
    intro d hd
    rwa [mem_singleton.mp hd,h.fixed]
  have hall : [(⟨0,0,0⟩ : Desc)].take (s.rx.fill [⟨0,0,0⟩]).2 = [⟨0,0,0⟩] := by
    have hpos := h.pos
    rw [fill_count,h.owns.freeSlots,take_of_length_le]
    simp only [length_nil,length_singleton]
    omega
  have hfill := h.fill hin
  have hcount := hfill.queue.count
  have hdone := hfill.count
  simp only [length_nil,add_zero] at hcount hdone
  obtain ⟨hx,hown⟩ := plainCQE_completes (s.rx.fill [⟨0,0,0⟩]).1.toRxFixed s.written
  have hlt : s.written<(s.accepted++[(⟨0,0,0⟩ : Desc)].take (s.rx.fill [⟨0,0,0⟩]).2).length := by
    rw [hall,h.accepted]
    simp only [append_nil,length_append,length_singleton]
    omega
  have hown' : (owner (header (plainCQE s.written))).toNat =
      s.written/(s.rx.fill [⟨0,0,0⟩]).1.cq.entries.toNat%2 := by
    have hent := hfill.sized.entries
    rw [hown,hent,div_eq_of_lt (by omega)]
  refine ⟨_,plainCQE s.written,(Relation.ReflTransGen.single (.fill s [⟨0,0,0⟩] hin)).tail
    (.deliver _ (plainCQE s.written) hlt hx hown'),?_⟩
  have hnext := hfill.deliver hlt hx hown'
  rw [hall] at hnext ⊢
  exact hnext

theorem RxSys.Conforms.round
    (htold : done.length%2^16%f.entries.toNat=done.length%f.entries.toNat) :
    ∃ s', Relation.ReflTransGen (RxSys.Step False inRegion) s s' ∧
      s'.Conforms f k (done++[⟨0,0,0⟩]) [] [] := by
  obtain ⟨s1,x,hrun,h1⟩ := h.one hlap hreg
  have hrep : ∀ i (hi : i < [x].length), s1.rx.Reports (done.length+i) [x][i] := by
    intro i hi
    have hi0 : i=0 := lt_one_iff.mp hi
    subst hi0
    have hx := h1.reports 0 hi
    refine ⟨hx.format,hx.opcode,(hx.counter_iff h1.owns.built h1.pos).mpr ?_⟩
    rwa [h1.fixed]
  have hyes : ¬ ((1 : Int)≤0 ∨ s1.rx.dead.isSome=true) := by
    rw [h1.healthy]
    decide
  obtain ⟨r,ts',haul,hr,hserved,hs⟩ := h1.owns.receive h1.cqci h1.sized h1.inside
    (lt_succ_self (2^k)) hyes [] none
  obtain ⟨hlatch,hread,hle,hend⟩ := h1.serves hrep hs
  have hsplit := hs.shared.2.length
  have hone : haul.read=1 := by
    rw [length_singleton] at hle hend
    omega
  have hnext := h1.served hserved hlatch hread hle hs.shared.1 hs.shared.2
  have htaken : haul.taken = [⟨0,0,0⟩] := by
    obtain ⟨rest,hrest⟩ := hs.shared.1
    obtain ⟨d,hd⟩ := length_eq_one_iff.mp (hread.symm.trans hone)
    rw [hd] at hrest ⊢
    injection hrest with hrest
    rw [hrest]
  rw [hone,htaken] at hnext
  exact ⟨_,hrun.tail (.receive s1 _ 1 none ts' r haul.out hr),hnext⟩

end

theorem rounds {cfg : RxConfig} {r0 : Rx} (hnew : newRx cfg = .ok r0)
    (hlong : 2^16<r0.entries.toNat) (hreg : 0<r0.region.len) {k : Nat}
    (hinit : ({ rx := r0 } : RxSys).Conforms r0.toRxFixed k [] [] []) (n : Nat) (hn : n≤2^16) :
    ∃ s done, RxSys.Reach False inRegion cfg s ∧ s.Conforms r0.toRxFixed k done [] [] ∧
      done.length=n := by
  have hroom : r0.entries.toNat≤2^k := hinit.room
  induction n with
  | zero => exact ⟨_,[],⟨r0,hnew,.refl⟩,hinit,rfl⟩
  | succ n ih =>
    obtain ⟨s,done,⟨r,hr,hrun⟩,hc,hlen⟩ := ih (by omega)
    obtain ⟨s',hrun',hc'⟩ := hc.round (by omega) hreg
      (by rw [hlen,mod_eq_of_lt (by omega : n<2^16)])
    exact ⟨s',_,⟨r,hr,hrun.trans hrun'⟩,hc',by rw [length_append,hlen]; rfl⟩

theorem long_ring_loses {cfg : RxConfig} {r0 : Rx} (hfresh : cfg.Fresh) (hnew : newRx cfg = .ok r0)
    (hlong : 2^16<r0.entries.toNat) (hreg : 0<r0.region.len) :
    ∃ s, RxSys.Reach False inRegion cfg s ∧ s.accepted.length=2^16+1 ∧ s.written=2^16+1 ∧
      s.received.length+s.refused.length=2^16 ∧ ∀ turns, r0.cq.entries.toNat<turns → ∃ r ts',
        s.rx.receive turns 1 [] none = .ok (r,[],ts') ∧ r.failed = [] ∧ r.dead.isSome=true := by
  obtain ⟨k,hinit⟩ := RxSys.Conforms.init hfresh hnew (by omega)
  have hroom : r0.entries.toNat≤2^k := hinit.room
  obtain ⟨s0,done,⟨r1,hr1,hrun⟩,hc0,hlen⟩ := rounds hnew hlong hreg hinit (2^16) (le_refl _)
  obtain ⟨s,x,hrun',hc⟩ := hc0.one (by omega) hreg
  have hcount := hc.queue.count
  have hdone := hc.count
  have hshared := hc.shared.length
  rw [length_singleton] at hcount
  refine ⟨s,⟨r1,hr1,hrun.trans hrun'⟩,?_,by omega,by omega,fun turns hturns => ?_⟩
  · rw [hc.accepted,length_append,hlen]
    rfl
  · have hyes : ¬ ((1 : Int)≤0 ∨ s.rx.dead.isSome=true) := by
      rw [hc.healthy]
      decide
    have hcq : r0.cq.entries.toNat=2^k := hinit.sized.entries
    obtain ⟨r,ts',haul,hr,hserved,hs⟩ := hc.owns.receive hc.cqci hc.sized hc.inside
      (hcq ▸ hturns) hyes [] none
    obtain ⟨hx,hripe⟩ := CQ.Holds.next hc.sized hc.queue
    have hrep := hc.reports 0 (by simp)
    have hne : ¬ (wqeCounter (header x)).toUInt32 &&& s.rx.mask =
        UInt32.ofNat done.length &&& s.rx.mask := by
      have hent : s.rx.entries.toNat=r0.entries.toNat := by rw [hc.fixed]
      have hiff := hrep.counter_iff hc.owns.built hc.pos
      rw [Nat.add_zero] at hiff
      refine hiff.not.mpr ?_
      rw [hlen,hent,mod_self,zero_mod,mod_eq_of_lt hlong]
      decide
    obtain ⟨htaken,hlatch⟩ := hs.lost (by decide) (cons_ne_nil _ _) hripe
      (by rw [hx]; exact hne) (by rw [hx]; exact hrep.opcode)
    have hsplit := hs.shared.2.length
    rw [htaken,length_nil] at hsplit
    have hout : haul.out = [] := List.length_eq_zero_iff.mp (by omega)
    have hfailed : haul.failed = [] := List.length_eq_zero_iff.mp (by omega)
    rw [hout] at hr
    refine ⟨r,ts',hr,hserved.failed.trans hfailed,?_⟩
    rw [hserved.dead,hlatch]
    rfl

/-- Every buffer comes back once and in order, from Receive with its own address and
no more than its size or in Failed, and not before it was completed. No more buffers
are outstanding than the ring holds and no more completions unread than their queue
holds. Whatever the receive queue memory holds, a Fill leaves the entries of the
buffers outstanding as they were; and a Receive comes back with all that was completed
unless it is full. -/
theorem buffers_come_back (cfg : RxConfig) (hrq : cfg.rqLen ≤ 16*65536) (hfresh : cfg.Fresh)
    (s : RxSys) (h : RxSys.Reach False inRegion cfg s) :
    ∃ n, n ≤ s.written ∧ s.written ≤ s.accepted.length ∧
      Shared cfg.bufferSize (s.accepted.take n) s.received s.refused ∧
      s.rx.outstanding = s.accepted.length-n ∧ s.rx.outstanding ≤ s.rx.entries.toNat ∧
      s.consumed ≤ s.written ∧ s.written-s.consumed ≤ s.rx.cq.entries.toNat ∧
      (∀ mem descs i, n ≤ i → i < s.accepted.length → ∀ b < 16,
        (({ s.rx with rq := mem } : Rx).fill descs).1.rq (16*(i % s.rx.entries.toNat)+b) =
          mem (16*(i % s.rx.entries.toNat)+b)) ∧
      ∀ (turns : Nat) (max : Int) ts, s.rx.cq.entries.toNat < turns → 0 < max →
        ∃ r out ts', s.rx.receive turns max [] ts = .ok (r,out,ts') ∧ r.dead = none ∧
          (n+out.length+r.failed.length = s.written ∨ (out.length : Int) = max) := by
  obtain ⟨r0,k,done,live,xs,hnew,hc⟩ := h.conforms hrq hfresh
  have hcount := hc.queue.count
  have hdone := hc.count
  have hlen := hc.length_le
  have hle := hc.owns.le
  have hroom := hc.room
  have hout := hc.owns.outstanding
  have hacc : s.accepted.length=done.length+live.length := by rw [hc.accepted,length_append]
  have hbuf : s.rx.bufSize=cfg.bufferSize := by
    obtain ⟨-,-,-,-,-,-,_,_,_,hr⟩ := newRx_ok hnew
    rw [hc.fixed,hr]
  refine ⟨done.length,by omega,by omega,?_,?_,?_,by omega,?_,?_,?_⟩
  · rw [hc.accepted,take_left,← hbuf]
    exact hc.shared
  · rw [Rx.outstanding,hout]
    omega
  · rwa [Rx.outstanding,hout]
  · rw [hc.sized.entries]
    omega
  · intro mem descs i hlo hhi b hb
    have ho : ({ s.rx with rq := mem } : Rx).Owns done live := hc.owns.congr rfl rfl rfl rfl
    exact (ho.fill descs).rq i hlo (by omega) b hb
  · intro turns max ts hturns hmax
    rw [hc.sized.entries] at hturns
    have hyes : ¬ (max≤0 ∨ s.rx.dead.isSome=true) := by
      rw [hc.healthy]
      simp only [Option.isSome_none,Bool.false_eq_true,or_false]
      omega
    obtain ⟨r,ts',haul,hr,hserved,hs⟩ :=
      hc.owns.receive hc.cqci hc.sized hc.inside hturns hyes [] ts
    obtain ⟨hlatch,hread,-,hend⟩ := hc.serves (hc.reported (newRx_small hrq hnew).2) hs
    have hdead := hserved.dead
    rw [hlatch,hc.healthy] at hdead
    have hsplit := hs.shared.2.length
    refine ⟨r,haul.out,ts',hr,by simpa using hdead,?_⟩
    rw [hserved.failed]
    omega

def tinyRx : RxConfig where
  rq := fun _ => 0
  rqLen := 64
  cq := fun _ i => if i=63 then 0xf0 else 0
  cqLen := 256
  rqDbrec := some 0
  cqDbrec := some 0
  stride := 16
  lkey := 9
  region := ⟨fun i => UInt8.ofNat i,512,by decide⟩
  regionVA := 4096
  bufferSize := 64

def RxConfig.rx (cfg : RxConfig) (h : (newRx cfg).toOption.isSome=true) : Rx :=
  (newRx cfg).toOption.get h

theorem RxConfig.newRx_eq (cfg : RxConfig) (h : (newRx cfg).toOption.isSome=true) :
    newRx cfg = .ok (cfg.rx h) := by
  rw [RxConfig.rx]
  revert h
  cases newRx cfg with
  | error e => intro h; cases h
  | ok r => intro _; rfl

theorem tinyRx_opens : (newRx tinyRx).toOption.isSome=true := by decide

theorem tinyRx_fresh : tinyRx.Fresh := by
  refine ⟨by decide,fun j => ?_⟩
  change opcode (header fun i => if i=63 then 0xf0 else 0)=cqeInvalid
  decide

def tinyCQE : CQE := fun i => if i=63 then 0x20 else 0

def tinyDelivered (ds : List Desc) : RxSys where
  rx :=
    let r := ((tinyRx.rx tinyRx_opens).fill ds).1
    { r with cq := { r.cq with buf := Function.update r.cq.buf (0%r.cq.entries.toNat) tinyCQE } }
  written := 1
  accepted := []++ds.take ((tinyRx.rx tinyRx_opens).fill ds).2

theorem tinyDelivered_reach (rogue : Prop) {fills : Rx → List Desc → Prop} (ds : List Desc)
    (hd : fills (tinyRx.rx tinyRx_opens) ds)
    (hlt : 0<(ds.take ((tinyRx.rx tinyRx_opens).fill ds).2).length)
    (hent : ((tinyRx.rx tinyRx_opens).fill ds).1.entries.toNat=4) :
    RxSys.Reach rogue fills tinyRx (tinyDelivered ds) := by
  refine ⟨_,tinyRx.newRx_eq tinyRx_opens,(Relation.ReflTransGen.single (.fill _ ds hd)).tail
    (.deliver _ tinyCQE hlt ⟨by decide,by decide,?_⟩ ?_)⟩
  · simp only [hent]
    decide
  · rw [Nat.zero_div]
    decide

theorem tinyDelivered_two (rogue : Prop) :
    RxSys.Reach rogue inRegion tinyRx (tinyDelivered [⟨0,0,0⟩,⟨64,0,0⟩]) := by
  refine tinyDelivered_reach rogue _ ?_ (by decide) (by decide)
  change ∀ d ∈ [(⟨0,0,0⟩ : Desc),⟨64,0,0⟩], d.addr.toNat<512
  decide

theorem buffers_come_back_tiny :
    ∃ s, RxSys.Reach False inRegion tinyRx s ∧ s.accepted = [⟨0,0,0⟩,⟨64,0,0⟩] ∧ s.written = 1 ∧
      ∃ n, n ≤ s.written ∧ Shared tinyRx.bufferSize (s.accepted.take n) s.received s.refused ∧
        ∃ r out ts', s.rx.receive 5 1 [] none = .ok (r,out,ts') ∧
          (n+out.length+r.failed.length = s.written ∨ (out.length : Int) = 1) := by
  have hreach := tinyDelivered_two False
  obtain ⟨n,hn,-,hsh,-,-,-,-,-,hrecv⟩ := buffers_come_back tinyRx (by decide) tinyRx_fresh _ hreach
  obtain ⟨r,out,ts',hr,-,hall⟩ := hrecv 5 1 none (by decide) (by decide)
  exact ⟨_,hreach,by decide,rfl,n,hn,hsh,r,out,ts',hr,hall⟩

def longRx : RxConfig := { tinyRx with rqLen := 16*131072, cqLen := 64*131072 }

/-- A ring of 131072 entries loses the completion of buffer 65536, and the buffer never comes
back. -/
theorem buffers_lost :
    ∃ s r ts', RxSys.Reach False inRegion longRx s ∧ s.accepted.length = 2^16+1 ∧
      s.written = 2^16+1 ∧ s.received.length+s.refused.length = 2^16 ∧
      s.rx.receive (2^17+1) 1 [] none = .ok (r,[],ts') ∧ r.failed = [] ∧ r.dead.isSome = true := by
  have hnew := longRx.newRx_eq (by decide)
  have hent := newRx_entries hnew
  have hfresh : longRx.Fresh := ⟨by decide,tinyRx_fresh.invalid⟩
  obtain ⟨s,hreach,ha,hw,hback,hrecv⟩ := long_ring_loses hfresh hnew (by rw [hent]; decide)
    (by decide)
  obtain ⟨r,ts',hr,hf,hd⟩ := hrecv (2^17+1) (by decide)
  exact ⟨s,r,ts',hreach,ha,hw,hback,hr,hf,hd⟩

end Packetio.Mlx5.Ring

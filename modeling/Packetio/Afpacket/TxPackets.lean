import Packetio.Afpacket.TxMessages

/-! Which packets a call on a transmit queue sends. A batch is cut into packets by its
descriptors' marks; every path offers the kernel the packets in order, and takes those that the
kernel took. -/
namespace Packetio.Afpacket
open Pool List Option Int Nat UInt32

structure FrameMemory.Made (k : Nat) (r : FrameMemory) : Prop where
  size : r.frameSize=2^k
  small : k<63
  mask : r.frameMask.toNat=2^k-1
  whole : 2^k ∣ r.b.len

theorem dvd_bmod {k : Nat} (hk : k≤64) {x : Int} (h : ((2^k : Nat) : Int) ∣ x) :
    ((2^k : Nat) : Int) ∣ Int.bmod x (2^64) := by
  have hm := natCast_dvd_natCast.mpr (pow_dvd_pow 2 hk)
  rw [bmod_eq_emod,emod_def]
  refine Int.dvd_sub (Int.dvd_sub h (dvd_mul_of_dvd_left hm _)) ?_
  split
  case isTrue => exact hm
  case isFalse => exact dvd_zero _

variable {r : FrameMemory} {m n total : Nat} {ds : List Desc} {bound room : Int}

theorem newRegion_made {frames frameSize : Int} {mapped : Bool}
    (h : newRegion frames frameSize mapped = .ok r) : ∃ k, r.Made k := by
  obtain ⟨hpos,h⟩ := passed h nofun
  obtain ⟨hpow,h⟩ := passed h nofun
  split at h
  case isFalse => simp at h
  rename_i hm
  rw [Except.ok.injEq] at h
  obtain ⟨k,hk⟩ := (and_sub_one_eq_zero_iff_isPowerOfTwo (by omega)).mp (not_not.mp hpow)
  have hfs : frameSize=((2^k : Nat) : Int) := by omega
  have hk64 : k≤64 := by
    by_contra hgt
    have hz : bmod (frames*frameSize) (2^64)=0 := by
      rw [hfs]
      exact bmod_eq_zero_of_dvd (dvd_mul_of_dvd_right (by
        rw [natCast_dvd_natCast]; exact pow_dvd_pow 2 (by omega)) _)
    omega
  have hdvd : (2^k : Nat) ∣ (bmod (frames*frameSize) (2^64)).toNat := by
    rw [← natCast_dvd_natCast,toNat_of_nonneg (by omega)]
    exact dvd_bmod hk64 (hfs ▸ Dvd.intro_left frames rfl)
  have hlt : 2^k<2^63 := by
    have := le_of_dvd (by omega) hdvd
    omega
  refine ⟨k,by rw [← h]; exact hk,?_,?_,?_⟩
  · exact (Nat.pow_lt_pow_iff_right (by decide)).mp hlt
  · rw [← h]
    rw [hk,toNat_small64 _ (by omega)]
  · rwa [← h]

def FrameMemory.InFrame (r : FrameMemory) (d : Desc) : Prop :=
  0<d.len.toNat ∧ ∃ f, f*r.frameSize≤d.addr.toNat ∧
    d.addr.toNat+d.len.toNat≤(f+1)*r.frameSize ∧ (f+1)*r.frameSize≤r.b.len

section
variable {k : Nat} {r : FrameMemory} (hr : r.Made k)
include hr

theorem writable_some {d : Desc} (hin : d.addr.toNat<r.b.len) :
    d.addr.toNat/2^k*2^k+2^k≤r.b.len ∧ r.writable d =
      some (some ⟨r.b.mem,d.addr.toNat,d.addr.toNat/2^k*2^k+2^k-d.addr.toNat⟩) := by
  have hlen := r.b.len_lt
  have hpos := Nat.two_pow_pos k
  have hlt : d.addr.toNat<d.addr.toNat/2^k*2^k+2^k := Nat.lt_div_mul_add hpos
  have hend : d.addr.toNat/2^k*2^k+2^k≤r.b.len := by
    obtain ⟨c,hc⟩ := hr.whole
    rw [← Nat.succ_mul,hc,mul_comm]
    exact Nat.mul_le_mul_left _ (Nat.div_lt_of_lt_mul (by rw [← hc]; omega))
  have hstop : ((d.addr &&& ~~~r.frameMask)+r.frameMask+1).toNat=d.addr.toNat/2^k*2^k+2^k := by
    rw [and_not_mask hr.mask,← frameOf,UInt64.toNat_add,UInt64.toNat_add,frameOf_toNat,hr.mask]
    change ((_+_)%2^64+1)%2^64=_
    omega
  have hslice : r.b.slice d.addr ((d.addr &&& ~~~r.frameMask)+r.frameMask+1) =
      some ⟨r.b.mem,d.addr.toNat,d.addr.toNat/2^k*2^k+2^k-d.addr.toNat⟩ := by
    rw [Region.slice,
      if_pos ⟨by rw [UInt64.le_iff_toNat_le, hstop]; omega,by rw [hstop]; exact hend⟩,
      hstop]
  refine ⟨hend,?_⟩
  rw [FrameMemory.writable,if_neg (by omega)]
  simp only [if_neg (by omega : ¬ d.addr.toNat/2^k*2^k+2^k > r.b.len),hstop,hslice]
  rfl

theorem writable_spec (d : Desc) : ∃ w, r.writable d=some w ∧
    (outside w d=false ↔ r.InFrame d) := by
  have hiff := @inFrame_iff (2^k) r.b.len 0 d.addr.toNat d.len.toNat (Nat.two_pow_pos k) hr.whole
  rw [FrameMemory.InFrame,hr.size]
  by_cases hin : d.addr.toNat<r.b.len
  · obtain ⟨-,hw⟩ := writable_some hr hin
    have hdm := Nat.div_add_mod' d.addr.toNat (2^k)
    refine ⟨_,hw,Iff.trans ?_ hiff.symm⟩
    simp only [outside,Bool.or_eq_false_iff,decide_eq_false_iff_not,← UInt32.toNat_inj]
    change ¬ d.len.toNat=0 ∧ _ ↔ _
    omega
  · exact ⟨none,if_pos (Nat.le_of_not_lt hin),iff_of_false (by simp [outside]) fun h =>
      hin (hiff.mp h).1⟩

end

def chains : List Desc → List (List Desc)
  | [] => []
  | d::ds =>
    if d.continued then match chains ds with
      | [] => []
      | c::cs => (d::c)::cs
    else [d]::chains ds

/-- The packets with their offloads, when the first of them is at descriptor `i`. -/
def packets (offs : Option (List Offload)) : Nat → List (List Desc) → List (Offload × List Desc)
  | _, [] => []
  | i, c::cs => (offloadOf offs i,c)::packets offs (i+c.length) cs

def messages {α : Type} (piece : α → Piece) (gso : Bool) (ps : List (Offload × List α)) :
    List (List Piece) := ps.map fun p => packetMessage gso p.1 (p.2.map piece)

structure OffloadFits (o : Offload) (n : Nat) : Prop where
  csum : o.flags &&& offloadNeedsCsum≠0 → o.csumStart.toNat+o.csumOff.toNat+2≤n
  hdr : o.segmented=true → o.hdrLen.toNat≤n

structure PacketOK (r : FrameMemory) (p : Offload × List Desc) : Prop where
  frames : ∀ d∈p.2, r.InFrame d
  offload : OffloadFits p.1 (p.2.map fun d => d.len.toNat).sum

theorem offloadFits_zero (n : Nat) : OffloadFits {} n := ⟨fun h => absurd rfl h,fun _ => zero_le n⟩

theorem checkOffload_fits {o : Offload} {n : UInt32} (h : checkOffload o n=none)
    (hn : n.toNat ≤ m) : OffloadFits o m := by
  obtain ⟨hcsum,h⟩ := passed h nofun
  have ho := o.csumOff.toNat_lt
  refine ⟨fun hflag => ?_,fun hseg => ?_⟩
  · have hin := not_and.mp hcsum hflag
    rw [not_or,not_or,gt_iff_lt,gt_iff_lt,gt_iff_lt,UInt32.not_lt,UInt32.not_lt,UInt32.not_lt,
      le_iff_toNat_le,le_iff_toNat_le,le_iff_toNat_le,
      UInt32.toNat_add,UInt16.toNat_toUInt32,UInt16.toNat_toUInt32] at hin
    obtain ⟨hstart,hoff,htwo⟩ := hin
    rw [toNat_sub (by rw [UInt16.toNat_toUInt32]; exact hstart),UInt16.toNat_toUInt32] at htwo
    change (_+2)%2^32≤_ at htwo
    omega
  · rw [if_pos hseg] at h
    obtain ⟨_,h⟩ := passed h nofun
    obtain ⟨hle,_⟩ := passed h nofun
    rw [gt_iff_lt,UInt32.not_lt,UInt32.le_iff_toNat_le,UInt16.toNat_toUInt32] at hle
    omega

/-- What `checkBatch` finds from descriptor `i` of a batch on: the first of them may be sent each
alone, and all of them may where nothing is refused. -/
def Checks (r : FrameMemory) (offs : Option (List Offload)) (off i : Nat) (ds : List Desc)
    (res : Option (Nat × Option TxError)) : Prop :=
  ∃ n refused, res=some (i+n,refused) ∧ n≤ds.length ∧ (refused=none → n=ds.length) ∧
    ∀ j d, (ds.take n)[j]? = some d → PacketOK r (offloadOf offs (off+i+j),[d])

section
variable {k : Nat} {r : FrameMemory} {offs : Option (List Offload)} {off i : Nat} {d : Desc}
  {ds : List Desc} {res : Option (Nat × Option TxError)}

theorem Checks.stop (e : TxError) : Checks r offs off i ds (some (i,some e)) :=
  ⟨0,some e,rfl,zero_le _,nofun,nofun⟩

theorem Checks.next (hok : PacketOK r (offloadOf offs (off+i),[d]))
    (h : Checks r offs off (i+1) ds res) : Checks r offs off i (d::ds) res := by
  obtain ⟨n,refused,hres,hn,hall,hgood⟩ := h
  refine ⟨n+1,refused,?_,succ_le_succ hn,fun h => ?_,fun j d' hj => ?_⟩
  · rw [hres,add_assoc,add_comm 1]
  · rw [hall h,length_cons]
  · rw [take_succ_cons] at hj
    cases j with
    | zero =>
      rw [getElem?_cons_zero,some_inj] at hj
      exact hj ▸ hok
    | succ j =>
      have := hgood j d' hj
      rwa [(by omega : off+(i+1)+j=off+i+(j+1))] at this

theorem checkBatch_spec (hr : r.Made k) (off : Nat) (ds : List Desc) (i : Nat)
    (hoffs : Covers offs (off+i+ds.length)) :
    Checks r offs off i ds (checkBatch r offs off i ds) := by
  induction ds generalizing i with
  | nil => exact ⟨0,none,rfl,le_refl 0,fun _ => rfl,nofun⟩
  | cons d ds ih =>
    rw [length_cons] at hoffs
    have hrest := ih (i+1) fun os hos => by have := hoffs os hos; omega
    obtain ⟨w,hw,hin⟩ := writable_spec hr d
    simp only [checkBatch,hw,bind_eq_bind,bind_some]
    cases hout : outside w d with
    | true => exact .stop _
    | false =>
      have hframe : ∀ d' ∈ [d], r.InFrame d' := fun d' hd' => mem_singleton.mp hd' ▸ hin.mp hout
      rcases offs with _ | os
      · exact .next ⟨hframe,offloadFits_zero _⟩ hrest
      have hlt : off+i<os.length := by have := hoffs os rfl; omega
      simp only [getElem?_eq_getElem hlt,bind_some]
      cases hc : checkOffload os[off+i] d.len with
      | some text => exact .stop _
      | none =>
        refine .next ⟨hframe,?_⟩ hrest
        rw [offloadOf,getD_some,getD_eq_getElem _ _ hlt]
        exact checkOffload_fits hc (by simp)

end

section
variable (offs : Option (List Offload))

theorem packets_append (cs cs' : List (List Desc)) (i : Nat) :
    packets offs i (cs++cs')=packets offs i cs++packets offs (i+cs.flatten.length) cs' := by
  induction cs generalizing i with
  | nil => rfl
  | cons c cs ih =>
    rw [cons_append,packets,ih,packets,flatten_cons,length_append,add_assoc]
    rfl

section
variable (cs : List (List Desc))

theorem packets_length (i : Nat) : (packets offs i cs).length=cs.length := by
  induction cs generalizing i with
  | nil => rfl
  | cons c cs ih => rw [packets,length_cons,length_cons,ih]

theorem packets_flat (i : Nat) : (packets offs i cs).flatMap Prod.snd=cs.flatten := by
  induction cs generalizing i with
  | nil => rfl
  | cons c cs ih => rw [packets,flatMap_cons,ih,flatten_cons]

theorem packets_take (i n : Nat) : (packets offs i cs).take n=packets offs i (cs.take n) := by
  induction cs generalizing i n with
  | nil => rw [take_nil]; exact take_nil
  | cons c cs ih =>
    cases n with
    | zero => rfl
    | succ n => rw [packets,take_succ_cons,take_succ_cons,ih,packets]

theorem packets_drop (i n : Nat) :
    (packets offs i cs).drop n=packets offs (i+(cs.take n).flatten.length) (cs.drop n) := by
  have hsplit : packets offs i cs =
      (packets offs i cs).take n++packets offs (i+(cs.take n).flatten.length) (cs.drop n) := by
    rw [packets_take,← packets_append,take_append_drop]
  exact append_cancel_left ((take_append_drop n _).trans hsplit)

end

def singles (ds : List Desc) : List (List Desc) := ds.map fun d => [d]

theorem singles_flat (ds : List Desc) : (singles ds).flatten=ds := by
  induction ds with
  | nil => rfl
  | cons d ds ih =>
    rw [singles,map_cons,flatten_cons,← singles,ih]
    rfl

theorem packets_singles (ds : List Desc) (i j : Nat) : (packets offs i (singles ds))[j]? =
    ds[j]?.map fun d => (offloadOf offs (i+j),[d]) := by
  induction ds generalizing i j with
  | nil => rfl
  | cons d ds ih =>
    rw [singles,map_cons,← singles,packets]
    cases j with
    | zero => rfl
    | succ j =>
      rw [getElem?_cons_succ,getElem?_cons_succ,ih,length_singleton,add_assoc,add_comm 1]

theorem packets_singles_drop (ds : List Desc) (i n : Nat) (hn : n≤ds.length) :
    (packets offs i (singles ds)).drop n=packets offs (i+n) (singles (ds.drop n)) := by
  rw [packets_drop]
  simp only [singles,← map_take,← map_drop]
  rw [← singles,singles_flat,length_take,min_eq_left hn]

end

structure Sends (msgs : List (List Piece)) (q : TxQueue) (sock : Sock) (q' : TxQueue) (sock' : Sock)
    (m : Nat) : Prop where
  ready : q'.wires.Ready
  gso : q'.wires.gso=q.wires.gso
  region : q'.region=q.region
  pool : q'.pool=q.pool
  closed : q'.closed=q.closed
  kernel : sock'.kernel=sock.kernel
  offers : ∃ es, sock'.log=sock.log++es ∧ Offers msgs 0 es m

structure Takes (ps : List (Offload × List Desc)) (q : TxQueue) (sock : Sock)
    (q' : TxQueue) (sock' : Sock) (m : Nat) : Prop
    extends Sends (messages descPiece q.wires.gso ps) q sock q' sock' m where
  le : m≤ps.length
  pending : q'.pending=q.pending++(ps.take m).flatMap Prod.snd
  good : ∀ p∈ps.take m, PacketOK q.region p

section
variable {k m m' n : Nat} {msgs batch : List (List Piece)} {ps : List (Offload × List Desc)}
  {q q1 q' : TxQueue} {sock sock1 sock' : Sock} {wires : Wiring}

theorem Sends.refl (h : q.wires.Ready) : Sends msgs q sock q sock 0 :=
  ⟨h,rfl,rfl,rfl,rfl,rfl,[],(append_nil _).symm,.nil⟩

theorem Sends.trans (h : Sends msgs q sock q1 sock1 m)
    (h' : Sends (msgs.drop m) q1 sock1 q' sock' m') : Sends msgs q sock q' sock' (m+m') := by
  obtain ⟨es,hlog,hoff⟩ := h.offers
  obtain ⟨es',hlog',hoff'⟩ := h'.offers
  refine ⟨h'.ready,h'.gso.trans h.gso,h'.region.trans h.region,h'.pool.trans h.pool,
    h'.closed.trans h.closed,h'.kernel.trans h.kernel,es++es',?_,?_⟩
  · rw [hlog',hlog,append_assoc]
  · exact hoff.append (hoff'.within (prefix_refl _))

theorem Sends.refuse (h : Sends msgs q sock q' sock' m) (e : Option TxError) :
    Sends msgs q sock (q'.refuse e) sock' m := by
  cases e with
  | none => exact h
  | some e => exact { h with }

theorem Takes.refl (h : q.wires.Ready) : Takes ps q sock q sock 0 :=
  ⟨.refl h,zero_le _,(append_nil _).symm,nofun⟩

theorem Takes.trans (h : Takes ps q sock q1 sock1 m) (h' : Takes (ps.drop m) q1 sock1 q' sock' m') :
    Takes ps q sock q' sock' (m+m') := by
  have hs := h'.toSends
  rw [messages,map_drop,← messages,h.gso] at hs
  have hle := h'.le
  have hm := h.le
  rw [length_drop] at hle
  refine ⟨h.toSends.trans hs,by omega,?_,fun p hp => ?_⟩
  · rw [h'.pending,h.pending,append_assoc,← flatMap_append,← take_add]
  · rw [take_add,mem_append] at hp
    cases hp with
    | inl hp => exact h.good p hp
    | inr hp => exact h.region ▸ h'.good p hp

theorem Takes.refuse (h : Takes ps q sock q' sock' m) (e : Option TxError) :
    Takes ps q sock (q'.refuse e) sock' m := by
  refine ⟨h.toSends.refuse e,h.le,?_,h.good⟩
  cases e with
  | none | some _ => exact h.pending

theorem sendAll_sends (q : TxQueue) (sock : Sock) (hw : wires.Ready) (hg : wires.gso=q.wires.gso)
    (hm : (List.range n).map wires.message=batch) (hb : batch <+: msgs) :
    ∃ q' sock' m, sendAll n { q with wires } sock=some (q',sock',m) ∧ m≤n ∧
      q'.wires=wires ∧ q'.pending=q.pending ∧ Sends msgs q sock q' sock' m := by
  obtain ⟨q',sock',m,es,hres,hsent,hk,hlog,hle,hoff⟩ := sendAll_spec n { q with wires } sock
  rw [hm] at hoff
  have hwires := hsent.wires
  refine ⟨q',sock',m,hres,hle,hwires,hsent.pending,?_,?_,hsent.region,hsent.pool,hsent.closed,hk,es,
    hlog,?_⟩
  · rwa [hwires]
  · rwa [hwires]
  · have := hoff.within (p := 0) hb
    simpa only [zero_add] using this

theorem Sends.took (h : Sends (messages descPiece q.wires.gso ps) q sock q' sock' m)
    (hp : q'.pending=q.pending) (hle : m≤ps.length) (hgood : ∀ p∈ps.take m, PacketOK q.region p) :
    Takes ps q sock (q'.took ((ps.take m).flatMap Prod.snd)) sock' m :=
  ⟨{ h with },hle,by rw [← hp]; rfl,hgood⟩

end

section
variable {k : Nat} {descs : List Desc} {offs : Option (List Offload)} {q : TxQueue} {sock : Sock}

theorem single_batch (sock : Sock) {off : Nat} {batch : List Desc} (hw : q.wires.Ready)
    (hc : q.wires.msgsChained=false) (hn : n≤batch.length) (hlen : batch.length≤txBatch)
    (hoffs : Covers offs (off+batch.length))
    (hgood : ∀ j d, (batch.take n)[j]? = some d → PacketOK q.region (offloadOf offs (off+j),[d]))
    (hds : batch <+: ds) : ∃ wires q' sock' m,
      aimAll q.region offs off 0 (batch.take n) q.wires=some wires ∧
      sendAll n { q with wires } sock=some (q',sock',m) ∧ m≤n ∧
      (q'.took (batch.take m)).wires.msgsChained=false ∧
      Takes (packets offs off (singles ds)) q sock (q'.took (batch.take m)) sock' m := by
  have hlen' : (batch.take n).length=n := by rw [length_take,min_eq_left hn]
  have hpick {j : Nat} {d : Desc} (hj : (batch.take n)[j]? = some d) :
      PacketOK q.region (offloadOf offs (off+j),[d]) := hgood j d hj
  have hin : ∀ d∈batch.take n, d.addr.toNat<q.region.b.len := by
    intro d hd
    obtain ⟨j,hj⟩ := mem_iff_getElem?.mp hd
    obtain ⟨hpos,f,_,hhi,hend⟩ := (hpick hj).frames d (mem_singleton_self d)
    omega
  have hcov : Covers offs (off+0+(batch.take n).length) := fun os hos => by
    have := hoffs os hos
    omega
  obtain ⟨wires,ha,hready,hc',hg,_,hmsg⟩ := aimAll_spec (batch.take n) hw hc (by omega) hin hcov
  have hfirst : ∀ j, j<n → (packets offs off (singles ds))[j]? =
      (batch.take n)[j]?.map fun d => (offloadOf offs (off+j),[d]) := by
    intro j hj
    obtain ⟨rest,rfl⟩ := hds
    rw [packets_singles,getElem?_append_left (by omega),getElem?_take_of_lt hj]
  have hmsgs : (List.range n).map wires.message <+:
      messages descPiece q.wires.gso (packets offs off (singles ds)) := by
    rw [prefix_iff_getElem?]
    intro j hj
    rw [length_map,length_range] at hj
    have hbj : (batch.take n)[j]? = some (batch.take n)[j] := getElem?_eq_getElem (by omega)
    have := hmsg j _ hbj
    rw [messages,getElem?_map,hfirst j hj,hbj,getElem_map,getElem_range]
    rw [zero_add,add_zero] at this
    rw [this]
    rfl
  obtain ⟨q',sock',m,hsend,hle,hwires,hp,hs⟩ := sendAll_sends q sock hready hg rfl hmsgs
  have hmle : m≤(packets offs off (singles ds)).length := by
    rw [packets_length,singles,length_map]
    have := hds.length_le
    omega
  have htook : ((packets offs off (singles ds)).take m).flatMap Prod.snd=batch.take m := by
    obtain ⟨rest,rfl⟩ := hds
    rw [packets_take,packets_flat,singles,← map_take,← singles,singles_flat,
      take_append_of_le_length (by omega)]
  have htakes := hs.took hp hmle fun p hp => by
    obtain ⟨j,hj⟩ := mem_iff_getElem?.mp hp
    have hjm : j < m := by
      by_contra hge
      rw [getElem?_eq_none (by rw [length_take]; omega)] at hj
      simp at hj
    rw [getElem?_take_of_lt hjm,hfirst j (by omega),map_eq_some_iff] at hj
    obtain ⟨d,hd,rfl⟩ := hj
    exact hpick hd
  rw [htook] at htakes
  refine ⟨wires,q',sock',m,ha,hsend,hle,?_,htakes⟩
  change q'.wires.msgsChained=false
  rwa [hwires]

theorem transmitLoop_takes (fuel off total : Nat) (sock : Sock) (hr : q.region.Made k)
    (hw : q.wires.Ready) (hc : q.wires.msgsChained=false) (hoffs : Covers offs descs.length)
    (hfuel : descs.length-off<fuel) : ∃ q' sock' m err,
      transmitLoop descs offs fuel off total q sock=some (q',sock',total+m,err) ∧
      Takes (packets offs off (singles (descs.drop off))) q sock q' sock' m := by
  induction fuel generalizing off total q sock with
  | zero => omega
  | succ fuel ih =>
    rw [transmitLoop]
    split
    case isFalse => exact ⟨q,sock,0,none,rfl,.refl hw⟩
    rename_i hlt
    obtain ⟨batch,hbatch⟩ : ∃ batch, batch=(descs.drop off).take txBatch := ⟨_,rfl⟩
    have hblen : batch.length=min txBatch (descs.length-off) := by
      rw [hbatch,length_take,length_drop]
    have hds : batch <+: descs.drop off := hbatch ▸ take_prefix _ _
    obtain ⟨n,refused,hcheck,hn,hall,hgood⟩ := checkBatch_spec hr off batch 0
      fun os hos => by have := hoffs os hos; omega
    rw [zero_add] at hcheck
    simp only [add_zero] at hgood
    simp only [← hbatch,hcheck,bind_eq_bind,bind_some]
    obtain ⟨wires,q1,sock1,m,ha,hsend,hm,hc1,htakes⟩ := single_batch sock hw hc hn (by omega)
      (fun os hos => by have := hoffs os hos; omega) hgood hds
    have htx : txBatch=256 := rfl
    by_cases hpos : 0<n
    · simp only [if_pos hpos,ha,bind_some,hsend]
      by_cases hstop : m<n ∨ refused.isSome=true
      · exact ⟨_,sock1,m,refused,if_pos hstop,htakes.refuse refused⟩
      rw [if_neg hstop]
      rw [not_or,Bool.not_eq_true,isSome_eq_false_iff,isNone_iff_eq_none] at hstop
      have hmb : m=batch.length := by
        have := hall hstop.2
        omega
      obtain ⟨q',sock',m',err,hres,htakes'⟩ := ih (off+txBatch) (total+m)
        sock1 (htakes.region.symm ▸ hr) htakes.ready hc1 (by omega)
      rw [hres,add_assoc]
      refine ⟨q',sock',m+m',err,rfl,htakes.trans ?_⟩
      rw [packets_singles_drop _ _ _ _ (by rw [length_drop]; omega),drop_drop]
      -- the last batch may be a short one
      by_cases hfull : m=txBatch
      · rwa [← hfull] at htakes'
      · rw [drop_eq_nil_of_le (by omega)] at htakes' ⊢
        exact htakes'
    · simp only [if_neg hpos]
      have hsome : refused.isSome=true := by
        by_contra hnone
        rw [Bool.not_eq_true,isSome_eq_false_iff,isNone_iff_eq_none] at hnone
        have := hall hnone
        omega
      rw [if_pos hsome]
      exact ⟨_,sock,0,refused,rfl,(Takes.refl hw).refuse refused⟩

end

/-! Packets of several frames -/

theorem chainLen_ok (h : chainLen m ds = .ok n) :
    ∃ c rest, ds=c++rest ∧ c ≠ [] ∧ n=m+c.length ∧ chains ds=c::chains rest := by
  induction ds generalizing m with
  | nil => simp [chainLen] at h
  | cons d ds ih =>
    rw [chainLen] at h
    cases hd : d.continued with
    | false =>
      rw [hd,if_pos (by rfl)] at h
      obtain ⟨_,h⟩ := passed h nofun
      rw [Except.ok.injEq] at h
      refine ⟨[d],ds,rfl,by simp,h.symm,?_⟩
      rw [chains,hd,if_neg (by simp)]
    | true =>
      rw [hd,if_neg (by simp)] at h
      obtain ⟨c,rest,hds,_,hn,hchains⟩ := ih h
      refine ⟨d::c,rest,by rw [hds]; rfl,by simp,by rw [hn,length_cons]; omega,?_⟩
      rw [chains,hd,if_pos rfl,hchains]

section
variable {k : Nat} {r : FrameMemory} (hr : r.Made k) {offs : Option (List Offload)}

include hr in
theorem chainBytes_spec (ds : List Desc) (i : Nat) (length : UInt32) :
    ∃ res, chainBytes r i ds length=some res ∧ ∀ len, res = .ok len → (∀ d∈ds, r.InFrame d) ∧
      len.toNat≤length.toNat+(ds.map fun d => d.len.toNat).sum := by
  induction ds generalizing i length with
  | nil => exact ⟨_,rfl,fun len h => by cases h; exact ⟨nofun,le_refl _⟩⟩
  | cons d ds ih =>
    obtain ⟨w,hw,hin⟩ := writable_spec hr d
    simp only [chainBytes,hw,bind_eq_bind,bind_some]
    cases hout : outside w d with
    | true => exact ⟨_,rfl,nofun⟩
    | false =>
      obtain ⟨res,hres,hok⟩ := ih (i+1) (length+d.len)
      refine ⟨res,hres,fun len hlen => ?_⟩
      obtain ⟨hall,hle⟩ := hok len hlen
      rw [UInt32.toNat_add] at hle
      have hmod : (length.toNat+d.len.toNat)%2^32≤length.toNat+d.len.toNat := mod_le _ _
      refine ⟨fun e he => ?_,?_⟩
      · cases mem_cons.mp he with
        | inl he => exact he ▸ hin.mp hout
        | inr he => exact hall e he
      · rw [map_cons,sum_cons]
        omega

theorem strayOffload_some {os : List Offload} {pos i : Nat} (base : Nat) (h : pos+i+n≤os.length) :
    ∃ e, strayOffload os pos base i n=some e := by
  induction n generalizing i with
  | zero => exact ⟨none,rfl⟩
  | succ n ih =>
    rw [strayOffload,getElem?_eq_getElem (by omega : pos+i<os.length)]
    simp only [bind_eq_bind,bind_some]
    split
    case isTrue => exact ⟨_,rfl⟩
    case isFalse => exact ih (by omega)

include hr in
theorem checkChain_spec {chain : List Desc} (pos base : Nat) (hne : chain ≠ [])
    (hoffs : Covers offs (pos+chain.length)) : ∃ res, checkChain r chain offs pos base=some res ∧
      (res=none → PacketOK r (offloadOf offs pos,chain)) := by
  obtain ⟨res,hres,hok⟩ := chainBytes_spec hr chain (base+pos) 0
  rw [checkChain,hres]
  rcases res with e | length
  · exact ⟨_,rfl,nofun⟩
  obtain ⟨hin,hle⟩ := hok length rfl
  rw [UInt32.toNat_zero,zero_add] at hle
  rcases offs with _ | os
  · exact ⟨none,rfl,fun _ => ⟨hin,offloadFits_zero _⟩⟩
  have hpos := length_pos_iff.mpr hne
  have hlen := hoffs os rfl
  obtain ⟨e,he⟩ := strayOffload_some base (by omega : pos+1+(chain.length-1)≤os.length)
  simp only [he]
  cases e with
  | some e => exact ⟨_,rfl,nofun⟩
  | none =>
    have hlt : pos<os.length := by omega
    simp only [getElem?_eq_getElem hlt,bind_eq_bind,bind_some]
    refine ⟨_,rfl,fun h => ⟨hin,?_⟩⟩
    rw [map_eq_none_iff] at h
    rw [offloadOf,getD_some,getD_eq_getElem _ _ hlt]
    exact checkOffload_fits h hle

end

theorem needs (gso : Bool) (n : Nat) :
    (if gso then n+1 else n)=n+hdrIovs gso := by cases gso <;> rfl

structure Planned (r : FrameMemory) (gso : Bool) (rest : List Desc)
    (offs : Option (List Offload)) (bound : Int) (p : Plan) (cs : List (List Desc)) : Prop where
  cut : chains rest=cs++chains (rest.drop p.count)
  flat : cs.flatten=rest.take p.count
  le : p.count≤rest.length
  lens : p.lens=cs.map List.length
  iovs : p.iovN=p.lens.sum+p.lens.length*hdrIovs gso
  bound : (p.count : Int)≤bound
  some : ∀ c∈cs, c ≠ []
  good : ∀ x∈packets offs 0 cs, PacketOK r x

section
variable {k : Nat} {r : FrameMemory} {gso : Bool} {rest : List Desc} {offs : Option (List Offload)}
  {p : Plan} {cs : List (List Desc)}

theorem Planned.sum (h : Planned r gso rest offs bound p cs) : p.lens.sum=p.count := by
  rw [h.lens,← length_flatten,h.flat,length_take,min_eq_left h.le]

theorem Planned.pos (h : Planned r gso rest offs bound p cs) (hne : cs.length≠0) : 0<p.count := by
  cases cs with
  | nil => exact absurd rfl hne
  | cons c cs =>
    have hc := length_pos_iff.mpr (h.some c mem_cons_self)
    rw [← h.sum,h.lens,map_cons,sum_cons]
    omega

theorem planChains_spec (left : Nat) (hr : r.Made k) (hoffs : Covers offs rest.length)
    (h : Planned r gso rest offs (room-total) p cs) (hleft : p.lens.length+left≤txBatch) :
    ∃ p' cs', planChains r gso rest offs room total left p=Option.some p' ∧
      Planned r gso rest offs (room-total) p' cs' ∧ p'.lens.length≤txBatch := by
  induction left generalizing p cs with
  | zero => exact ⟨p,cs,rfl,h,by omega⟩
  | succ left ih =>
    have hsame (e : Option TxError) :
      Planned r gso rest offs (room-total) { p with refused := e } cs :=
      { h with }
    have hle : p.lens.length≤txBatch := by omega
    rw [planChains]
    split
    case isFalse => exact ⟨p,cs,rfl,h,hle⟩
    rename_i hlt
    rcases hc : chainLen 0 (rest.drop p.count) with text | n
    · exact ⟨_,cs,rfl,hsame _,hle⟩
    simp only [needs]
    split
    case isTrue => exact ⟨p,cs,rfl,h,hle⟩
    rename_i hfit
    obtain ⟨c,tail,hdrop,hne,hn,hchains⟩ := chainLen_ok hc
    rw [zero_add] at hn
    have hcl : p.count+c.length≤rest.length := by
      have := congrArg length hdrop
      rw [length_drop,length_append] at this
      omega
    have htake : (rest.drop p.count).take n=c := by rw [hdrop,hn,take_left]
    have htail : rest.drop (p.count+n)=tail := by rw [← drop_drop,hdrop,hn,drop_left]
    have hcov : Covers offs (p.count+c.length) := fun os hos => by have := hoffs os hos; omega
    obtain ⟨res,hres,hok⟩ := checkChain_spec hr p.count total hne hcov
    rw [htake,hres]
    cases res with
    | some e => exact ⟨_,cs,rfl,hsame _,hle⟩
    | none =>
      refine @ih _ (cs++[c]) ⟨?_,?_,?_,?_,?_,?_,?_,?_⟩ ?_
      · rw [h.cut,hchains,htail,append_assoc,singleton_append]
      · rw [flatten_append,h.flat,take_add,htake,flatten_singleton]
      · change p.count+n≤_
        omega
      · rw [h.lens,map_append,hn]
        rfl
      · change p.iovN+(n+hdrIovs gso)=(p.lens++[n]).sum+(p.lens++[n]).length*hdrIovs gso
        rw [h.iovs,List.sum_append,sum_singleton,length_append,length_singleton,succ_mul]
        omega
      · change ((p.count+n : Nat) : Int)≤_
        omega
      · intro c' hc'
        cases mem_append.mp hc' with
        | inl hc' => exact h.some c' hc'
        | inr hc' => exact mem_singleton.mp hc' ▸ hne
      · intro x hx
        rw [packets_append,h.flat,length_take,min_eq_left h.le,zero_add,mem_append] at hx
        cases hx with
        | inl hx => exact h.good x hx
        | inr hx => exact mem_singleton.mp hx ▸ hok rfl
      · rw [length_append,length_singleton]
        omega

end

theorem mapM_some {α β : Type} {f : α → Option β} {g : α → β} {xs : List α}
    (h : ∀ x∈xs, f x=some (g x)) : xs.mapM f=some (xs.map g) := by
  induction xs with
  | nil => rfl
  | cons x xs ih =>
    rw [mapM_cons,h x mem_cons_self,ih fun y hy => h y (mem_cons_of_mem x hy)]
    rfl

theorem packets_shift (offs : Option (List Offload)) (total : Nat)
    (cs : List (List Desc)) (i : Nat) :
    packets (offs.map (List.drop total)) i cs=packets offs (total+i) cs := by
  have hoff : ∀ i, offloadOf (offs.map (drop total)) i=offloadOf offs (total+i) := by
    intro i
    cases offs with
    | none => rfl
    | some os =>
      simp [offloadOf]
  induction cs generalizing i with
  | nil => rfl
  | cons c cs ih => rw [packets,packets,ih,hoff,add_assoc]

section
variable {k : Nat} {gso : Bool} {rest : List Desc} {offs : Option (List Offload)}
  {cs : List (List Desc)} {q : TxQueue} {sock : Sock}

theorem chainPieces_cut (gso : Bool) {i : Nat} (hcs : cs.flatten <+: rest.drop i)
    (hne : ∀ c∈cs, c ≠ []) (hin : ∀ d∈cs.flatten, d.addr.toNat<r.b.len)
    (hoffs : Covers offs rest.length) : ∃ es,
      Cut (chainPieces r gso rest offs) m i (cs.map List.length) es ∧ (∀ e∈es, ∀ v∈e.2, v.Free) ∧
      (es.map fun e => packetMessage gso e.1 (e.2.map plain)) =
        messages descPiece gso (packets offs i cs) := by
  induction cs generalizing m i with
  | nil => exact ⟨[],.nil,nofun,rfl⟩
  | cons c cs ih =>
    obtain ⟨tail,htail⟩ := hcs
    rw [flatten_cons,append_assoc] at htail
    have hlen := congrArg length htail
    rw [length_append,length_drop] at hlen
    have hc0 : 0<c.length := length_pos_iff.mpr (hne c mem_cons_self)
    obtain ⟨o,ho,hmsg⟩ := offloadAt_some gso hoffs (by omega : i<rest.length)
    have hpre : cs.flatten <+: rest.drop (i+c.length) := by
      rw [← drop_drop,← htail,drop_left]
      exact prefix_append _ _
    obtain ⟨es,hcut,hfree,hmsgs⟩ :=
      ih (m := m+1) hpre (fun c' hc' => hne c' (mem_cons_of_mem c hc'))
      fun d hd => hin d (by rw [flatten_cons]; exact mem_append_right c hd)
    have hvs : (rest.drop i).take c.length=c := by rw [← htail,take_left]
    have hmap : c.mapM (regionIovec r) =
        some (c.map fun d => ⟨some (.region d.addr.toNat),d.len.toNat⟩) :=
      mapM_some fun d hd => regionIovec_some
        (hin d (by rw [flatten_cons]; exact mem_append_left _ hd))
    refine ⟨(o,c.map fun d => ⟨some (.region d.addr.toNat),d.len.toNat⟩)::es,
      .cons ?_ (length_map _) hcut,fun e he v hv => ?_,?_⟩
    · simp [chainPieces,ho,hvs,hmap,if_pos (by omega : i+c.length≤rest.length)]
    · cases mem_cons.mp he with
      | inl he =>
        rw [he] at hv
        obtain ⟨d,_,rfl⟩ := mem_map.mp hv
        exact nofun
      | inr he => exact hfree e he v hv
    · rw [map_cons,hmsgs,packets,messages,messages,map_cons,hmsg,List.map_map]
      rfl

theorem chained_batch (sock : Sock) {p : Plan} (hw : q.wires.Ready)
    (h : Planned q.region q.wires.gso rest (offs.map (List.drop total)) bound p cs)
    (hoffs : Covers (offs.map (List.drop total)) rest.length)
    (hne : p.lens ≠ []) (hlen : p.lens.length≤txBatch) : ∃ wires q' sock' m,
      (q.wires.grow p.iovN p.lens.length).layMessages (chainPieces q.region
        (q.wires.grow p.iovN p.lens.length).gso rest (offs.map (List.drop total))) p.lens 0 0 0 =
          some wires ∧
      sendAll p.lens.length { q with wires } sock=some (q',sock',m) ∧ m≤p.lens.length ∧
      (p.lens.take m).sum=((chains rest).take m).flatten.length ∧
      Takes (packets offs total (chains rest)) q sock
      (q'.took (rest.take (p.lens.take m).sum)) sock' m := by
  have hflat : cs.flatten <+: rest := h.flat ▸ take_prefix _ _
  have hin : ∀ d∈cs.flatten, d.addr.toNat<q.region.b.len := by
    intro d hd
    rw [← packets_flat (offs.map (drop total)) cs 0,mem_flatMap] at hd
    obtain ⟨x,hx,hd⟩ := hd
    obtain ⟨hpos,f,_,hhi,hend⟩ := (h.good x hx).frames d hd
    omega
  obtain ⟨es,hcut,hfree,hmsgs⟩ :=
    chainPieces_cut q.wires.gso (m := 0) (i := 0) hflat h.some hin hoffs
  rw [← h.lens] at hcut
  obtain ⟨wires,hlay,hready,hg,hmsg⟩ := lay_batch hw hcut hne hlen (le_of_eq h.iovs.symm) hfree
  rw [hmsgs,packets_shift,add_zero] at hmsg
  have hps : packets offs total (chains rest)=packets offs total cs++
      packets offs (total+cs.flatten.length) (chains (rest.drop p.count)) := by
    rw [h.cut,packets_append]
  have hpre : messages descPiece q.wires.gso (packets offs total cs) <+:
      messages descPiece q.wires.gso (packets offs total (chains rest)) := by
    rw [hps,messages,messages,map_append]
    exact prefix_append _ _
  obtain ⟨q',sock',m,hsend,hle,_,hp,hs⟩ := sendAll_sends q sock hready hg hmsg hpre
  have hcl : p.lens.length=cs.length := by rw [h.lens,length_map]
  have htake : (chains rest).take m=cs.take m := by rw [h.cut,take_append_of_le_length (by omega)]
  have hsum : (p.lens.take m).sum=((chains rest).take m).flatten.length := by
    rw [htake,length_flatten,h.lens,map_take]
  have hframes : ((packets offs total (chains rest)).take m).flatMap Prod.snd =
      rest.take (p.lens.take m).sum := by
    rw [packets_take,packets_flat,hsum,htake]
    refine prefix_iff_eq_take.mp (List.IsPrefix.trans ?_ hflat)
    exact ⟨(cs.drop m).flatten,by rw [← flatten_append,take_append_drop]⟩
  have htakes := hs.took hp (by rw [packets_length,h.cut,length_append]; omega)
    fun x hx => by
      rw [packets_take,htake,← packets_take] at hx
      have := packets_shift offs total cs 0
      exact h.good x (this ▸ mem_of_mem_take hx)
  rw [hframes] at htakes
  exact ⟨wires,q',sock',m,by rw [grow_gso]; exact hlay,hsend,hle,hsum,htakes⟩

theorem transmitChained_takes {descs : List Desc} (fuel total : Nat) (sock : Sock)
    (hr : q.region.Made k) (hw : q.wires.Ready) (hoffs : Covers offs descs.length)
    (hroom : (total : Int)≤room) (hfuel : descs.length-total<fuel) : ∃ q' sock' m n err,
      transmitChained descs offs room fuel total q sock=some (q',sock',total+n,err) ∧
      n=((chains (descs.drop total)).take m).flatten.length ∧ ((total+n : Nat) : Int)≤room ∧
      Takes (packets offs total (chains (descs.drop total))) q sock q' sock' m := by
  induction fuel generalizing total q sock with
  | zero => omega
  | succ fuel ih =>
    rw [transmitChained]
    have hstay : (0:Nat)=((chains (descs.drop total)).take 0).flatten.length := rfl
    split
    case isFalse => exact ⟨q,sock,0,0,none,rfl,hstay,hroom,.refl hw⟩
    rename_i hlt
    have hcov : Covers (offs.map (drop total)) (descs.drop total).length := by
      intro os hos
      obtain ⟨os',hos',rfl⟩ := map_eq_some_iff.mp hos
      have := hoffs os' hos'
      rw [length_drop,length_drop]
      omega
    have hstart : Planned q.region q.wires.gso (descs.drop total) (offs.map (drop total))
        (room-total) {} [] :=
      ⟨rfl,rfl,zero_le _,rfl,by simp,by change (0:Int)≤_; omega,
        nofun,fun x hx => by simp [packets] at hx⟩
    obtain ⟨p,cs,hplan,h,hlen⟩ := planChains_spec txBatch hr hcov hstart
      (le_of_eq (zero_add _))
    simp only [hplan,bind_eq_bind,bind_some]
    by_cases hempty : p.lens.length=0
    · rw [if_pos hempty]
      split
      case isTrue => exact ⟨_,sock,0,0,p.refused,rfl,hstay,hroom,(Takes.refl hw).refuse _⟩
      exact ⟨_,sock,0,0,none,rfl,hstay,hroom,⟨⟨hw,rfl,rfl,rfl,rfl,rfl,[],(append_nil _).symm,.nil⟩,
        zero_le _,(append_nil _).symm,nofun⟩⟩
    rw [if_neg hempty]
    obtain ⟨wires,q1,sock1,m,hlay,hsend,hm,hsum,htakes⟩ := chained_batch sock hw h hcov
      (fun hnil => hempty (by rw [hnil]; rfl)) hlen
    simp only [hlay,bind_some,hsend]
    have hpart : (p.lens.take m).sum≤p.count := by
      have hall := congrArg sum (take_append_drop m p.lens)
      rw [List.sum_append,h.sum] at hall
      omega
    have hbound := h.bound
    by_cases hstop : m<p.lens.length ∨ p.refused.isSome=true
    · exact ⟨_,sock1,m,_,p.refused,if_pos hstop,hsum,by omega,htakes.refuse p.refused⟩
    rw [if_neg hstop]
    have hall : m=p.lens.length := by omega
    have hcs : cs.length=m := by rw [hall,h.lens,length_map]
    have hcount : (p.lens.take m).sum=p.count := by rw [hall,take_length,h.sum]
    have hpos := h.pos (by rwa [hcs,hall])
    rw [hcount] at htakes hsum ⊢
    obtain ⟨q',sock',m',n',err,hres,hn',hroom',htakes'⟩ := ih (total+p.count) sock1
      (htakes.region.symm ▸ hr) htakes.ready (by omega) (by omega)
    have hrest : chains (descs.drop (total+p.count))=(chains (descs.drop total)).drop m := by
      rw [h.cut,← hcs,drop_left,drop_drop]
    rw [hrest] at hn' htakes'
    rw [hres,add_assoc]
    refine ⟨q',sock',m+m',p.count+n',err,rfl,?_,by omega,htakes.trans ?_⟩
    · rw [take_add,flatten_append,length_append,← hsum,hn']
    · rwa [packets_drop,← hsum]

end

end Packetio.Afpacket

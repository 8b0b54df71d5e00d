import Packetio.Mlx5.WqeLayout
import Packetio.Mlx5.Ring.TxRogue

/-! Which bytes of the send queue Post writes: those of the blocks behind the ones
in flight, and no other, in every mode and across the end of the buffer. -/
namespace Packetio.Mlx5.Ring
open Lib List Nat UInt32

structure TxFixed.Small (f : TxFixed) : Prop where
  bbs : f.bbs.toNat≤2^16
  copied : ∀ m, f.mpw=some m → m.pointer=false → m.maxLen≤64*f.bbs.toNat

section
variable {f : TxFixed} (hb : f.Built) (hs : f.Small)
include hb hs

theorem TxFixed.Small.sized : f.sender.sq.Sized (64*f.bbs.toNat) := by
  obtain ⟨k,-,hk⟩ := hb.rings.bbs
  have hle := hs.bbs
  have hk16 : k≤16 := by
    rw [hk] at hle
    exact (Nat.pow_le_pow_iff_right (by decide)).mp hle
  have hsq := hb.sq
  rw [hb.sqLen] at hsq
  rw [hsq]
  refine ⟨rfl,⟨k+6,by omega,by omega,?_⟩,?_⟩
  · rw [hk,pow_add,mul_comm]
    rfl
  · exact toNat_small _ (by omega)

theorem TxFixed.Small.offset (n : Nat) :
    At (64*f.bbs.toNat) (64*n) (f.sender.sq.offset (UInt32.ofNat n).toUInt16.toUInt32) 0 := by
  obtain ⟨k,-,hk⟩ := hb.rings.bbs
  have hle := hs.bbs
  have hdvd : f.bbs.toNat ∣ 2^16 := by
    rw [hk] at hle ⊢
    exact Nat.pow_dvd_pow 2 ((Nat.pow_le_pow_iff_right (by decide)).mp hle)
  have hx := (hs.sized hb).offset (ofNat n).toUInt16
  rw [At] at hx ⊢
  rw [hx,toUInt16_ofNat',UInt16.toNat_ofNat',add_zero,add_zero,mul_mod_mul_left,mul_mod_mul_left]
  exact congrArg _ (mod_mod_of_dvd _ hdvd)

end

inductive TxFixed.Form (f : TxFixed) (P : Nat) : Entry → List (Piece UInt8) → Prop
  | single (n : Nat) (d : Desc) (signal : Bool)
    (hn : n=(f.sender.octowords (f.region.frame d).len+3)/4) :
    Form f P ⟨n,[d]⟩ (f.sender.pieces (UInt32.ofNat P).toUInt16 (f.region.frame d)
      (f.regionVA+d.addr) signal)
  | pointers (n : Nat) (m : MPWSender) (ds : List Desc) (hm : f.mpw=some m)
    (hp : m.pointer=true) (h2 : 2≤ds.length) (hk : ds.length ≤ m.maxPackets)
    (hn : n=(2+ds.length+3)/4) :
    Form f P ⟨n,ds⟩ (m.headPieces (UInt32.ofNat P).toUInt16 (UInt32.ofNat (2+ds.length)) false++
      pointerPieces m.lkey 32 (ds.map f.segment))
  | copied (n : Nat) (m : MPWSender) (ds : List Desc) (hm : f.mpw=some m)
    (hp : m.pointer=false) (h2 : 2≤ds.length)
    (hds : (mpwOctowords (ds.map f.region.frame)).toNat =
      2+((ds.map f.region.frame).map packetOctowords).sum)
    (hle : (mpwOctowords (ds.map f.region.frame)).toNat≤60)
    (hn : n=(2+((ds.map f.region.frame).map packetOctowords).sum+3)/4) :
    Form f P ⟨n,ds⟩ (m.headPieces (UInt32.ofNat P).toUInt16
      (mpwOctowords (ds.map f.region.frame)) false++packetsPieces 32 (ds.map f.region.frame))

variable {e : Entry} {ds descs : List Desc} {m : MPWSender} {p : Put} {x n : Nat}

theorem TxFixed.Form.between {f : TxFixed} {P : Nat} {ps : List (Piece UInt8)}
    (h : f.Form P e ps) : Between 0 (64*e.bbs) ps := by
  have hwide : ∀ {n m ps}, Between 0 n ps → n ≤ m → Between 0 m ps := fun hb hle =>
    ⟨hb.increasing,hb.lower,fun f hf => (hb.upper f hf).trans hle⟩
  cases h with
  | single n d signal hn =>
    refine hwide (.of_tiles (f.sender.pieces_tiles _ (toNat_lt _) _ _)) ?_
    simp only
    omega
  | pointers n m ds hm hp h2 hk hn =>
    refine hwide (.of_tiles ((m.headPieces_tiles _ _ _).append (pointerPieces_tiles _ _ _))) ?_
    simp only [length_map]
    omega
  | copied n m ds hm hp h2 hds hle hn =>
    refine hwide (.of_tiles ((m.headPieces_tiles _ _ _).append (packetsPieces_tiles _ _))) ?_
    simp only
    omega

section
variable {t : Tx} {done live : List Entry} (h : t.Inv done live) (hs : t.toTxFixed.Small)
include h hs

theorem Tx.Inv.offset : At (64*t.bbs.toNat) (64*blocks t.entries)
    (t.sender.sq.offset t.pi.toUInt16.toUInt32) 0 := by
  have hx := hs.offset h.built (blocks t.entries)
  rwa [← h.owns.pi_entries] at hx

theorem single_shows (d : Desc) (signal : Bool)
    (hput : p=t.sender.put t.sqBytes t.pi.toUInt16 (t.region.frame d) (t.regionVA+d.addr) signal)
    (hfit : p.bbs.toNat≤t.bbs.toNat) : Shows (64*t.bbs.toNat) (64*blocks t.entries) t.sqBytes p.buf
      (t.sender.pieces t.pi.toUInt16 (t.region.frame d) (t.regionVA+d.addr) signal) ∧
    p.bbs.toNat=(t.sender.octowords (t.region.frame d).len+3)/4 := by
  have hlen : (t.region.frame d).len<2^32 := toNat_lt _
  have hb := t.sender.toNat_put_bbs h.built.inlineLen t.sqBytes t.pi.toUInt16 _ hlen
    (t.regionVA+d.addr) signal
  rw [← hput] at hb
  refine ⟨?_,hb⟩
  rw [hput]
  exact Sender.put_shows (hs.sized h.built) (dvd_mul_right _ _) h.built.inlineLen (h.offset hs)
    hlen (by omega) _ _ _

theorem pointers_shows (hm : t.mpw=some m) (hp : m.pointer=true) (hk : ds.length ≤ m.maxPackets)
    (hput : p=m.putPointers t.sqBytes t.pi.toUInt16 (ds.map t.segment) false)
    (hfit : p.bbs.toNat≤t.bbs.toNat) : Shows (64*t.bbs.toNat) (64*blocks t.entries) t.sqBytes p.buf
      (m.headPieces t.pi.toUInt16 (UInt32.ofNat (2+ds.length)) false++
        pointerPieces m.lkey 32 (ds.map t.segment)) ∧ p.bbs.toNat=(2+ds.length+3)/4 := by
  have hmul := h.built.multi m hm
  obtain ⟨hmax,-⟩ := hmul.pointer hp
  have hsq := hs.sized h.built
  have hx := h.offset hs
  rw [← hmul.sq] at hsq hx
  have hlen : (ofNat (2+(ds.map t.segment).length)).toNat=2+ds.length := by
    rw [length_map,toNat_small _ (by omega)]
  have hb : p.bbs.toNat=(2+ds.length+3)/4 := by
    rw [hput]
    change (blocksFor _).toNat=_
    rw [toNat_blocksFor _ (by omega),hlen]
  have hle : 32+16*(ds.map t.segment).length≤64*t.bbs.toNat := by
    rw [length_map]
    omega
  have hshow := MPWSender.putPointers_shows hsq (dvd_mul_right _ _) hx t.sqBytes hle false
  rw [length_map] at hshow
  rw [hput] at hb ⊢
  exact ⟨hshow,hb⟩

theorem copied_shows (hm : t.mpw=some m) (hp : m.pointer=false)
    (hk : fitsFrom m.maxLen 2 (ds.map t.region.frame)=ds.length)
    (hput : p=m.put t.sqBytes t.pi.toUInt16 (ds.map t.region.frame) false)
    (hfit : p.bbs.toNat≤t.bbs.toNat) : Shows (64*t.bbs.toNat) (64*blocks t.entries) t.sqBytes p.buf
      (m.headPieces t.pi.toUInt16 (mpwOctowords (ds.map t.region.frame)) false++
        packetsPieces 32 (ds.map t.region.frame)) ∧
    p.bbs.toNat=(2+((ds.map t.region.frame).map packetOctowords).sum+3)/4 ∧
    (mpwOctowords (ds.map t.region.frame)).toNat =
      2+((ds.map t.region.frame).map packetOctowords).sum ∧
    (mpwOctowords (ds.map t.region.frame)).toNat≤60 := by
  have hmul := h.built.multi m hm
  have hsq := hs.sized h.built
  have hx := h.offset hs
  rw [← hmul.sq] at hsq hx
  have hfits := hk.trans (length_map t.region.frame).symm
  obtain ⟨hall,-,hhi⟩ := fitsFrom_eq_length hfits (by decide)
  change (mpwOctowords _).toNat≤60 at hhi
  have hlen : ∀ f∈ds.map t.region.frame, f.len+19<2^32 := by
    intro f hf
    have h1 := (hall f hf).2
    have h2 := hs.copied m hm hp
    have h3 := hs.bbs
    omega
  have hsum : (mpwOctowords (ds.map t.region.frame)).toNat=2+_ :=
    toNat_foldl_octowords hfits (by decide) hlen
  have hb : p.bbs.toNat=(2+((ds.map t.region.frame).map packetOctowords).sum+3)/4 := by
    rw [hput]
    change (blocksFor (mpwOctowords _)).toNat=_
    rw [toNat_blocksFor _ (by omega),hsum]
  refine ⟨?_,hb,hsum,hhi⟩
  rw [hput]
  exact MPWSender.put_shows hsq (dvd_mul_right _ _) hx _ hlen (by omega) false

theorem Writes.shows (hw : Writes t ds p) (hfit : p.bbs.toNat≤t.bbs.toNat) :
    ∃ ps, t.Form (blocks t.entries) ⟨p.bbs.toNat,ds⟩ ps ∧
      Shows (64*t.bbs.toNat) (64*blocks t.entries) t.sqBytes p.buf ps := by
  have hpi := h.owns.pi_entries
  cases hw with
  | single d signal =>
    obtain ⟨hshow,hb⟩ := single_shows h hs d signal rfl hfit
    rw [hpi] at hshow hb ⊢
    exact ⟨_,.single _ d signal hb,hshow⟩
  | pointers m ds hm hp h2 hk =>
    obtain ⟨hshow,hb⟩ := pointers_shows h hs hm hp hk rfl hfit
    rw [hpi] at hshow hb ⊢
    exact ⟨_,.pointers _ m ds hm hp h2 hk hb,hshow⟩
  | copied m ds hm hp h2 hk =>
    obtain ⟨hshow,hb,hds,hle⟩ := copied_shows h hs hm hp hk rfl hfit
    rw [hpi] at hshow hb ⊢
    exact ⟨_,.copied _ m ds hm hp h2 hds hle hb,hshow⟩

theorem Turn.untouched {t' : Tx} (ht : Turn t ds p t')
    (hlo : 64*blocks done≤x) (hhi : x<64*blocks t.entries) :
    t'.sqBytes (x%(64*t.bbs.toNat))=t.sqBytes (x%(64*t.bbs.toNat)) := by
  have hfits := ht.fits
  rw [Tx.free,h.owns.free] at hfits
  have hle := h.owns.blocks_le
  obtain ⟨ps,hform,hps⟩ := ht.writes.shows h hs (by omega)
  have hbuf : t'.sqBytes=p.buf := by
    obtain ⟨_,_,_,rfl,-,-⟩ := ht.next
    rfl
  rw [hbuf]
  refine hps.frame hform.between.upper hhi ?_
  rw [h.owns.entries,blocks_append]
  simp only
  omega

theorem setSignaled_sqBytes (n : Nat) : (t.setSignaled (UInt32.ofNat n).toUInt16).sqBytes =
      Function.update t.sqBytes ((64*n+11)%(64*t.bbs.toNat))
        (t.sqBytes ((64*n+11)%(64*t.bbs.toNat)) ||| ctrlCQUpdate.toUInt8) := by
  have hsq := hs.sized h.built
  have hx := hs.offset h.built n
  have hbbs := hs.bbs
  have hmask : UInt32.ofNat t.sqLen-1=t.sender.sq.mask := by
    apply UInt32.toNat_inj.mp
    have hpos := pos_of_pow h.built.rings.bbs
    rw [hsq.mask,h.built.sqLen,UInt32.toNat_sub,toNat_small _ (by omega)]
    change (2^32-1+_)%2^32=_
    omega
  have hcell : (((UInt32.ofNat n).toUInt16.toUInt32*wqebb &&& (UInt32.ofNat t.sqLen-1))+
      ctrlFMCESE).toNat=(64*n+11)%(64*t.bbs.toNat) := by
    rw [hmask]
    change (t.sender.sq.offset _+ctrlFMCESE).toNat=_
    have hlt : (t.sender.sq.offset (UInt32.ofNat n).toUInt16.toUInt32).toNat<64*t.bbs.toNat := by
      rw [SQ.offset,UInt32.toNat_and,hsq.mask]
      have hpos := pos_of_pow h.built.rings.bbs
      exact Nat.lt_of_le_of_lt and_le_right (by omega)
    rw [At,mod_eq_of_lt hlt,Nat.add_zero,mul_mod_mul_left] at hx
    have hmod : (64*n+11)%(64*t.bbs.toNat)=64*(n%t.bbs.toNat)+11 := by
      rw [add_mod,mul_mod_mul_left]
      have := mod_lt n (pos_of_pow h.built.rings.bbs)
      rw [mod_eq_of_lt (by omega : 11<64*t.bbs.toNat),mod_eq_of_lt (by omega)]
    have := mod_lt n (pos_of_pow h.built.rings.bbs)
    rw [UInt32.toNat_add,hx,hmod]
    change (_+11)%2^32=_
    omega
  rw [Tx.setSignaled]
  simp only [hcell]

end

section
variable {t t' : Tx} {done live es : List Entry}

theorem Turns.untouched (ht : Turns t es t') (h : t.Inv done live) (hs : t.toTxFixed.Small)
    (hlo : 64*blocks done≤x) (hhi : x<64*blocks t.entries) :
    t'.sqBytes (x%(64*t.bbs.toNat))=t.sqBytes (x%(64*t.bbs.toNat)) := by
  induction ht generalizing live with
  | done ha =>
    obtain ⟨_,_,_,rfl,-,-⟩ := ha
    rfl
  | @turn t t1 t' ds p es hp _ ih =>
    have hi := hp.inv h
    have hfix := hp.fixed
    have hmore : x<64*blocks t1.entries := by
      rw [hi.owns.entries,← append_assoc,← h.owns.entries,blocks_append]
      omega
    have hrest := ih hi (hfix ▸ hs) hmore
    rw [hfix] at hrest
    exact hrest.trans (hp.untouched h hs hlo hhi)

theorem Tx.Inv.small (h : t.Inv done live) (hbbs : t.bbs.toNat≤2^16) (hroom : 0<t.freeSlots) :
    t.toTxFixed.Small := by
  refine ⟨hbbs,fun m hm hp => ?_⟩
  have hfree := h.owns.free
  have hpos : 0<byBlocks m t.free := by
    rw [Tx.freeSlots,hm] at hroom
    simp only at hroom
    split_ifs at hroom
    · omega
    · exact (lt_min_iff.mp hroom).1
  rw [byBlocks,hp] at hpos
  simp only [Bool.false_eq_true,if_false] at hpos
  have hle := Nat.div_pos_iff.mp hpos
  rw [Tx.free,hfree] at hle
  omega

theorem Tx.Inv.lastBlock (h : t.Inv done (live++[e])) :
    t.pi-UInt32.ofNat e.bbs=UInt32.ofNat (blocks (done++live)) := by
  rw [h.owns.pi,← append_assoc,blocks_append,ofNat_add]
  simp [blocks]

theorem Tx.Inv.mark_eq (h : t.Inv done (live++[e])) : t.mark [e]=if t.mpw=none then t
      else t.setSignaled (UInt32.ofNat (blocks (done++live))).toUInt16 := by
  cases hm : t.mpw with
  | none => simp [Tx.mark,hm]
  | some m => simp [Tx.mark,hm,h.lastBlock]

theorem mark_concat (t : Tx) (es : List Entry) (e : Entry) : t.mark (es++[e])=t.mark [e] := by
  rw [Tx.mark,Tx.mark,getLast?_concat,getLast?_singleton]

theorem ring_sqBytes (t : Tx) (n : Nat) (b : UInt64) : (t.ring n b).sqBytes=t.sqBytes := by
  simp only [Tx.ring,Tx.tick,Tx.publish]
  split_ifs <;> rfl

section
variable (hp : Posting t descs es n t')
include hp

theorem Posting.room (hb : t.toTxFixed.Built) : 0<t.freeSlots := by
  obtain ⟨t1,hts,-⟩ := hp.turns
  have hpos := hts.packets_pos hb hp.nonempty
  have hoff := hp.offered
  have hcount := hp.count
  omega

theorem Posting.last (h : t.Inv done live) : ∃ t1 es' e, Turns t es t1 ∧ es=es'++[e] ∧
      t'=(t1.mark es).ring n (sumLens 0 (Ring.frames es)) ∧ t1.Inv done (live++es'++[e]) := by
  obtain ⟨t1,hts,ht'⟩ := hp.turns
  obtain ⟨es',e,rfl⟩ := (eq_nil_or_concat' es).resolve_left hp.nonempty
  refine ⟨t1,es',e,hts,rfl,ht',?_⟩
  rw [append_assoc]
  exact hts.inv h

theorem Posting.untouched (h : t.Inv done live) (hs : t.toTxFixed.Small)
    (hlo : 64*blocks done≤x) (hhi : x<64*blocks t.entries) :
    t'.sqBytes (x%(64*t.bbs.toNat))=t.sqBytes (x%(64*t.bbs.toNat)) := by
  obtain ⟨t1,es',e,hts,rfl,rfl,h₁⟩ := hp.last h
  have hfix := hts.fixed
  have hs1 : t1.toTxFixed.Small := hfix ▸ hs
  rw [ring_sqBytes,mark_concat,h₁.mark_eq]
  split_ifs with hm
  · exact hts.untouched h hs hlo hhi
  · rw [setSignaled_sqBytes h₁ hs1,hfix,Function.update_of_ne]
    · exact hts.untouched h hs hlo hhi
    · -- the mark is behind everything in flight and less than a lap ahead of it
      refine mod_ne_of_near _ _ _ ?_ ?_
      · rw [h.owns.entries] at hhi
        rw [← append_assoc,blocks_append]
        omega
      · have hle := h₁.owns.blocks_le
        have hsh := h₁.owns.shape e (by rw [h₁.owns.entries]; simp)
        rw [hfix,blocks_append] at hle
        rw [blocks_append]
        simp only [blocks_cons,blocks_nil] at hle
        omega

end

end

section
variable {t t' : Tx} {done live : List Entry}

theorem post_untouched (h : t.Inv done live) (hbbs : t.bbs.toNat≤2^16)
    (hp : t.post descs=some (t',n)) {pre post : List Entry}
    (hlive : live=pre++e::post) {i : Nat} (hi : i<64*e.bbs) :
    t'.sqBytes ((64*blocks (done++pre)+i)%t.sqLen) =
      t.sqBytes ((64*blocks (done++pre)+i)%t.sqLen) := by
  rcases post_cases h.built hp with hno | hes
  · obtain ⟨-,_,_,_,rfl,-,-⟩ := hno
    rfl
  obtain ⟨es,hes⟩ := hes
  rw [h.built.sqLen]
  refine hes.untouched h (h.small hbbs (hes.room h.built)) ?_ ?_
  · rw [blocks_append]
    omega
  · rw [h.owns.entries,hlive]
    simp only [blocks_append,blocks_cons]
    omega

end

/-- The room is never overdrawn: at most the queue's blocks and slots are in
flight and at most its cells are written and unread. Whatever the queue memory
holds, a Post leaves every byte of the entries not yet given back as it was. -/
theorem post_keeps_live_blocks (cfg : TxConfig) (hin : cfg.inlineLen ≤ 960)
    (hsq : cfg.sqLen ≤ 64*32768) (hfresh : cfg.Fresh) (s : TxSys)
    (h : TxSys.Reach False anyBatch cfg s) :
    (s.tx.pi-s.tx.head).toNat ≤ s.tx.bbs.toNat ∧ s.tx.inFlight ≤ s.tx.numSlots.toNat ∧
      s.consumed ≤ s.written ∧ s.written-s.consumed ≤ s.tx.cq.entries.toNat ∧
      ∃ done live, s.tx.entries = done++live ∧ s.returned = frames done ∧
        s.tx.head = UInt32.ofNat (blocks done) ∧
        ∀ mem descs t n, ({ s.tx with sqBytes := mem } : Tx).post descs = some (t,n) →
          ∀ pre e post, live = pre++e::post → ∀ i < 64*e.bbs,
            t.sqBytes ((64*blocks (done++pre)+i) % s.tx.sqLen) =
              mem ((64*blocks (done++pre)+i) % s.tx.sqLen) := by
  obtain ⟨k,done,live,xs,hc⟩ := h.conforms hin (by omega) hfresh
  have hcount := hc.queue.count
  obtain ⟨hlen,hcap⟩ := hc.length_le
  have hfin := hc.finished
  refine ⟨?_,?_,by omega,?_,done,live,hc.inv.owns.entries,hc.returned,hc.inv.owns.head,?_⟩
  · rw [hc.inv.owns.inFlight_blocks]
    exact hc.inv.owns.blocks_le
  · rw [Ledger.inFlight,hc.inv.owns.inFlight_packets]
    exact hc.inv.owns.packets_le
  · rw [hc.sized.entries]
    omega
  · intro mem descs t n hp pre e post hlive i hi
    have hinv : ({ s.tx with sqBytes := mem } : Tx).Inv done live := hc.inv.congr rfl rfl
    exact post_untouched hinv hc.small hp hlive hi

theorem post_keeps_live_blocks_tiny :
    ∃ s, TxSys.Reach False anyBatch tinyTx s ∧ s.tx.inFlight = 1 ∧
      (s.tx.pi-s.tx.head).toNat ≤ s.tx.bbs.toNat ∧ s.consumed ≤ s.written ∧
      ∃ done live, s.tx.entries = done++live ∧
        ∀ mem descs t n, ({ s.tx with sqBytes := mem } : Tx).post descs = some (t,n) →
          ∀ pre e post, live = pre++e::post → ∀ i < 64*e.bbs,
            t.sqBytes ((64*blocks (done++pre)+i) % s.tx.sqLen) =
              mem ((64*blocks (done++pre)+i) % s.tx.sqLen) := by
  have hreach := tinySent_reach False
  obtain ⟨hpi,-,hcons,-,done,live,hent,-,-,hkeep⟩ :=
    post_keeps_live_blocks tinyTx (by decide) (by decide) tinyTx_fresh tinySent hreach
  exact ⟨tinySent,hreach,by decide,hpi,hcons,done,live,hent,hkeep⟩

end Packetio.Mlx5.Ring

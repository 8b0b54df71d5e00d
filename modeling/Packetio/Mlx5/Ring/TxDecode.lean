import Packetio.Mlx5.NicDecode
import Packetio.Mlx5.Ring.TxBytes
import Packetio.Mlx5.Ring.TxRoom
import Packetio.Mlx5.Ring.TxSignal

/-! What the NIC makes of a Post: between the old and the new producer index it
reads the packets that were taken, in order. -/
namespace Packetio.Mlx5.Ring
open Lib List UInt32 Nat

structure TxFixed.Serves (f : TxFixed) (n : Nic) : Prop where
  sized : n.Sized (64*f.bbs.toNat)
  region : n.region=f.region
  regionVA : n.regionVA=f.regionVA
  lkey : n.lkey=f.sender.lkey
  qpn : n.qpn=f.sender.qpn &&& 0xffffff
  mapped : n.regionVA.toNat+n.region.len<2^64

def TxFixed.Short (f : TxFixed) (ds : List Desc) : Prop :=
  ∀ m, f.mpw=some m → m.pointer=true → 2≤ds.length → ∀ d∈ds, d.len.toNat<2^31

def Tx.Flagless (t : Tx) (descs : List Desc) : Prop :=
  ∀ m, t.mpw=some m → m.pointer=true →
    ∀ i d, ((t.offered descs).takeWhile t.descOK)[i]? = some d → 2^31≤d.len.toNat →
      i%m.maxPackets=0 ∧ i+1=((t.offered descs).takeWhile t.descOK).length

variable {e : Entry} {mem : Nat → UInt8} {descs : List Desc} {n : Nat} {post pre : List Entry}

section
variable {f : TxFixed} (hb : f.Built) {n : Nic} (hn : f.Serves n)
include hb hn

theorem TxFixed.Serves.points {d : Desc} (hd : f.descOK d=true) : n.Points (f.segment d) := by
  obtain ⟨hpos,i,-,hhi,hend⟩ := (hb.descOK_iff d).mp hd
  refine ⟨by rw [hn.region]; rfl,?_,hpos,?_⟩
  · rw [hn.regionVA]
    simp [TxFixed.segment,Region.frame]
  · rw [hn.region]
    exact hhi.trans hend

theorem TxFixed.Form.decodes {P : Nat} {ps : List (Piece UInt8)} (hform : f.Form P e ps)
    (hps : Holds (64*f.bbs.toNat) (64*P) mem ps)
    (hok : ∀ d∈e.descs, f.descOK d=true) (hshort : f.Short e.descs) (hfit : e.bbs≤f.bbs.toNat) :
    ∃ pkts b, n.processOne mem (UInt32.ofNat P)=some (pkts,b) ∧ b.toNat=e.bbs ∧
      pkts.map Packet.bytes=e.descs.map f.region.bytes := by
  have hpoint : ∀ d∈e.descs, n.Points (f.segment d) := fun d hd => hn.points hb (hok d hd)
  cases hform with
  | single k d signal hk =>
    simp only at hfit
    have hlen : (f.region.frame d).len<2^32 := toNat_lt _
    have hds := f.sender.toNat_ds hb.inlineLen (ofNat (f.region.frame d).len)
    rw [toNat_small _ hlen] at hds
    have hle := f.sender.octowords_le (f.region.frame d).len
    have hin := hb.inlineLen
    obtain ⟨pkt,hone,hbytes⟩ := processOne_single hn.sized hps hb.inlineLen (fun _ hg => hg) hn.qpn
      hn.lkey hn.mapped (hpoint d (by simp)) hlen (by omega)
    refine ⟨_,_,hone,?_,by simp [hbytes,Region.bytes]⟩
    rw [toNat_blocksFor _ (by omega),hds,hk]
  | pointers k m ds hm hp h2 hk hkk =>
    have hmul := hb.multi m hm
    obtain ⟨hmax,-⟩ := hmul.pointer hp
    have hlen : (ds.map f.segment).length=ds.length := length_map _
    have hne : ds.map f.segment ≠ [] := by
      rw [← length_pos_iff]
      omega
    rw [← hlen] at hps
    have hone := processOne_pointers hn.sized hps (fun _ hg => hg) (hmul.qpn ▸ hn.qpn)
      (hn.lkey.trans hmul.lkey.symm) hn.mapped (by
        intro p hpm
        obtain ⟨d,hd,rfl⟩ := mem_map.mp hpm
        exact ⟨hpoint d hd,hshort m hm hp h2 d hd⟩) hne (by omega)
    refine ⟨_,_,hone,?_,?_⟩
    · have hsmall : (ofNat (2+ds.length)).toNat=2+ds.length := toNat_small _ (by omega)
      rw [hlen,toNat_blocksFor _ (by omega),hsmall,hkk]
    · rw [map_map,map_map]
      rfl
  | copied k m ds hm hp h2 hds hle hk =>
    simp only at hfit
    have hmul := hb.multi m hm
    have hne : ds.map f.region.frame ≠ [] := by
      rw [← length_pos_iff,length_map]
      omega
    have hone := processOne_packets hn.sized hps (fun _ hg => hg) (hmul.qpn ▸ hn.qpn) (by
      intro s hs
      obtain ⟨d,hd,rfl⟩ := mem_map.mp hs
      exact (hpoint d hd).pos) hne hds hle (by omega)
    refine ⟨_,_,hone,?_,?_⟩
    · rw [toNat_blocksFor _ (by omega),hds,hk]
    · rw [map_map,map_map]
      rfl

theorem TxFixed.Serves.poll (es : List Entry) {P fuel : Nat}
    (hlaid : ∀ pre e post, es=pre++e::post → ∃ ps, f.Form (P+blocks pre) e ps ∧
      Holds (64*f.bbs.toNat) (64*(P+blocks pre)) mem ps)
    (hes : ∀ e∈es, 1≤e.bbs ∧ (∀ d∈e.descs, f.descOK d=true) ∧ f.Short e.descs)
    (hfit : blocks es≤f.bbs.toNat) (hfuel : es.length≤fuel) :
    ∃ pkts, n.poll mem (UInt32.ofNat (P+blocks es)) fuel (UInt32.ofNat P)=some pkts ∧
      pkts.map Packet.bytes=(frames es).map f.region.bytes := by
  induction es generalizing P fuel with
  | nil =>
    refine ⟨[],?_,rfl⟩
    cases fuel with
    | zero | succ _ => exact if_pos rfl
  | cons e es ih =>
    obtain ⟨hpos,hok,hshort⟩ := hes e (by simp)
    obtain ⟨ps,hform,hps⟩ := hlaid [] e es rfl
    rw [blocks_cons] at hfit ⊢
    rw [blocks_nil,add_zero] at hform hps
    obtain ⟨pkts,b,hone,hbb,hbytes⟩ := hform.decodes hb hn hps hok hshort (by omega)
    have hnext : ofNat P+b=ofNat (P+e.bbs) := by
      rw [UInt32.ofNat_add,← hbb,UInt32.ofNat_toNat]
    have hne : ofNat P≠ofNat (P+(e.bbs+blocks es)) := by
      have hlt := f.bbs.toNat_lt
      intro he
      rw [← UInt32.toNat_inj,UInt32.toNat_ofNat',UInt32.toNat_ofNat'] at he
      exact mod_ne_of_near _ _ _ (by omega) (by omega) he
    cases fuel with
    | zero => simp at hfuel
    | succ fuel =>
      have hlaid' : ∀ pre e' post, es=pre++e'::post → ∃ ps, f.Form (P+e.bbs+blocks pre) e' ps ∧
          Holds (64*f.bbs.toNat) (64*(P+e.bbs+blocks pre)) mem ps := by
        rintro pre e' post rfl
        have := hlaid (e::pre) e' post rfl
        rwa [blocks_cons,← add_assoc] at this
      obtain ⟨rest,hrest,hbytes'⟩ := ih hlaid' (fun e' he' => hes e' (by simp [he'])) (by omega)
        (by simpa using hfuel : es.length≤fuel)
      rw [add_assoc] at hrest
      refine ⟨pkts++rest,?_,?_⟩
      · rw [Nic.poll,if_neg hne,hone]
        simp only [hnext,hrest,Option.map_some]
      · rw [frames_cons,map_append,map_append,hbytes,hbytes']

end

section
variable {t t' : Tx} {done live es : List Entry}

theorem Turns.laid (ht : Turns t es t') (h : t.Inv done live) (hs : t.toTxFixed.Small)
    (he : es=pre++e::post) :
    ∃ ps, t.Form (blocks t.entries+blocks pre) e ps ∧
      Holds (64*t.bbs.toNat) (64*(blocks t.entries+blocks pre)) t'.sqBytes ps := by
  induction ht generalizing live pre with
  | done ha => simp at he
  | @turn t t1 t' ds p es hp hts ih =>
    have hi := hp.inv h
    have hfix := hp.fixed
    have hent : t1.entries=t.entries++[⟨p.bbs.toNat,ds⟩] := by
      rw [hi.owns.entries,h.owns.entries,append_assoc]
    cases pre with
    | nil =>
      injection he with he hes
      subst he
      have hfits := hp.fits
      rw [Tx.free,h.owns.free] at hfits
      obtain ⟨ps,hform,hshow⟩ := hp.writes.shows h hs (by omega)
      have hbuf : t1.sqBytes=p.buf := by
        obtain ⟨_,_,_,rfl,-,-⟩ := hp.next
        rfl
      have hin := hform.between
      have hwrote : Holds (64*t.bbs.toNat) (64*blocks t.entries) t1.sqBytes ps := by
        intro g hg i hi' _
        have hup := hin.upper g hg
        rw [hbuf]
        refine hshow.piece hin.increasing hg ?_ hi'
        simp only at hup
        omega
      refine ⟨ps,hform,hwrote.congr hin fun a ha _ => ?_⟩
      · have hrest := fun x => hts.untouched hi (hfix ▸ hs) (x := x)
        rw [hfix] at hrest
        refine hrest _ ?_ ?_
        · rw [h.owns.entries,blocks_append]
          omega
        · rw [hent,blocks_append]
          simp only [blocks_cons,blocks_nil] at ha ⊢
          omega
    | cons e' pre =>
      injection he with he hes
      have hrest := ih hi (hfix ▸ hs) hes
      rwa [hfix,hent,blocks_append,he,blocks_cons,blocks_nil,add_zero,add_assoc] at hrest

section
variable (hp : Posting t descs es n t')
include hp

theorem Posting.laid (h : t.Inv done live) (hs : t.toTxFixed.Small)
    (he : es=pre++e::post) : ∃ ps, t.Form (blocks t.entries+blocks pre) e ps ∧
      Holds (64*t.bbs.toNat) (64*(blocks t.entries+blocks pre)) t'.sqBytes ps := by
  obtain ⟨t1,hts,rfl⟩ := hp.turns
  obtain ⟨ps,hform,hps⟩ := hts.laid h hs he
  refine ⟨ps,hform,hps.congr hform.between fun a ha h11 => ?_⟩
  obtain ⟨es',last,rfl⟩ := (eq_nil_or_concat' es).resolve_left hp.nonempty
  have hfix := hts.fixed
  have h1 : t1.Inv done (live++es'++[last]) := by
    rw [append_assoc]
    exact hts.inv h
  rw [ring_sqBytes,mark_concat,h1.mark_eq]
  split_ifs with hm
  · rfl
  · have hle := h1.owns.blocks_le
    have hsh := h1.owns.shape last (by rw [h1.owns.entries]; simp)
    rw [hfix] at hle
    rw [setSignaled_sqBytes h1 (hfix ▸ hs),hfix,Function.update_of_ne]
    rw [h.owns.entries]
    simp only [blocks_append,blocks_cons,blocks_nil] at hle ⊢
    cases eq_nil_or_concat' post with
    | inl hnil =>
      -- the last entry itself: another byte of it
      subst hnil
      obtain ⟨rfl,hlast⟩ := append_inj' he rfl
      cases hlast
      cases lt_or_gt_of_ne h11 with
      | inl hlt => exact mod_ne_of_near _ _ _ (by omega) (by omega)
      | inr hgt => exact (mod_ne_of_near _ _ _ (by omega) (by omega)).symm
    | inr hcat =>
      obtain ⟨post',last',rfl⟩ := hcat
      rw [← cons_append,← append_assoc] at he
      have hes := (append_inj' he rfl).1
      subst hes
      simp only [blocks_append,blocks_cons] at hle ⊢
      exact mod_ne_of_near _ _ _ (by omega) (by omega)

theorem Posting.good (hb : t.toTxFixed.Built) (he : e∈es) : ∀ d∈e.descs, t.descOK d=true := by
  obtain ⟨t1,hts,-⟩ := hp.turns
  intro d hd
  exact (hb.descOK_iff d).mpr ((hts.uses hb).1 d (mem_flatMap.mpr ⟨e,he,hd⟩))

theorem Posting.short (h : t.Inv done live) (hs : t.toTxFixed.Small) (hflag : t.Flagless descs)
    (he : e∈es) : t.Short e.descs := by
  intro m hm hptr h2 d hd
  by_contra hlong
  obtain ⟨pre,post,hsplit⟩ := append_of_mem he
  obtain ⟨ps,hform,-⟩ := hp.laid h hs hsplit
  have hlen : e.descs.length ≤ m.maxPackets := by
    cases hform with
    | single k d signal hk => simp at h2
    | pointers k m' ds hm' hp' h2' hk hn =>
      rw [hm] at hm'
      injection hm' with hm'
      exact hm' ▸ hk
    | copied k m' ds hm' hp' =>
      rw [hm] at hm'
      cases hm'
      cases hptr.symm.trans hp'
  -- the entries before this one are full
  have hpre : packets pre=m.maxPackets*pre.length := by
    have hfull : ∀ e'∈pre, e'.descs.length=m.maxPackets := fun e' he' =>
      hp.full m hm hptr e' (by
        rw [hsplit,dropLast_append_of_ne_nil (cons_ne_nil e post)]
        exact mem_append_left _ he')
    rw [packets,Ring.frames,length_flatMap,map_congr_left hfull]
    simp [mul_comm]
  obtain ⟨r,hr,hget⟩ := getElem_of_mem hd
  -- what was taken is the beginning of the good descriptors
  obtain ⟨rest,hgood⟩ : ∃ rest, (t.offered descs).takeWhile t.descOK=Ring.frames es++rest := by
    have htake : t.offered descs=Ring.frames es++(t.offered descs).drop n := by
      have hn := take_append_drop n (t.offered descs)
      rw [Tx.offered,take_take,min_eq_left hp.offered,← hp.frames] at hn
      exact hn.symm
    rw [htake,takeWhile_append_of_pos]
    · exact ⟨_,rfl⟩
    · intro d' hd'
      obtain ⟨e',he',hd''⟩ := mem_flatMap.mp hd'
      exact hp.good h.built he' d' hd''
  have hat : ((t.offered descs).takeWhile t.descOK)[packets pre+r]? = some d := by
    rw [hgood,hsplit,frames_append,frames_cons,append_assoc,packets,
      getElem?_append_right (Nat.le_add_right _ _),Nat.add_sub_cancel_left,append_assoc,
      getElem?_append_left hr,getElem?_eq_getElem hr,hget]
  obtain ⟨hmod,hend⟩ := hflag m hm hptr _ d hat (not_lt.mp hlong)
  rw [hpre,mul_add_mod,mod_eq_of_lt (by omega)] at hmod
  have hcount := congrArg length hgood
  rw [← hend,hsplit,frames_append,frames_cons] at hcount
  simp only [length_append] at hcount
  rw [packets] at hcount
  omega

theorem Posting.decodes
    (h : t.Inv done live) (hbbs : t.bbs.toNat≤2^16) (hflag : t.Flagless descs) {nic : Nic}
    (hn : t.Serves nic) : ∃ pkts, nic.poll t'.sqBytes t'.pi (t'.pi-t.pi).toNat t.pi=some pkts ∧
      pkts.map Packet.bytes=(descs.take n).map t.region.bytes := by
  have hs := h.small hbbs (hp.room h.built)
  have h' := hp.inv h
  have hle := h'.owns.blocks_le
  rw [hp.rest.1,blocks_append] at hle
  have hpi := h.owns.pi_entries
  have hpi' : t'.pi=ofNat (blocks t.entries+blocks es) := by
    rw [h'.owns.pi,h.owns.entries,← append_assoc,blocks_append]
  have hpos : ∀ e∈es, 1≤e.bbs := fun e he =>
    (h'.owns.shape e (by rw [h'.owns.entries]; simp [he])).1
  have hfuel : (t'.pi-t.pi).toNat=blocks es := by
    rw [hpi,hpi',UInt32.ofNat_add,UInt32.add_comm,UInt32.add_sub_cancel,toNat_small _ (by omega)]
  rw [hfuel,hpi,hpi',← hp.frames]
  exact hn.poll h.built es (fun pre e post he => hp.laid h hs he)
    (fun e he => ⟨hpos e he,hp.good h.built he,hp.short h hs hflag he⟩) (by omega)
    (length_le_blocks hpos)

end

end

def TxConfig.nic (cfg : TxConfig) : Nic where
  sqLen := cfg.sqLen
  region := cfg.region
  regionVA := cfg.regionVA
  lkey := cfg.lkey
  qpn := cfg.qpn &&& 0xffffff

section
variable {cfg : TxConfig} (hin : cfg.inlineLen≤960)
include hin

theorem newTx_serves {t : Tx} (h : newTx cfg = .ok t) (hsq : cfg.sqLen≤64*65536)
    (hva : cfg.regionVA.toNat+cfg.region.len<2^64) :
    t.Serves cfg.nic ∧ t.bbs.toNat≤2^16 ∧ t.region=cfg.region := by
  have hb := newTx_built h hin
  obtain ⟨sq,sender,-,-,hs,-,-,-,-,-,_,_,ht⟩ := newTx_ok h
  obtain ⟨-,hqpn,hkey,-⟩ := newSender_ok hs (by omega)
  have hcfg : t.sqLen=cfg.sqLen ∧ t.region=cfg.region ∧ t.regionVA=cfg.regionVA ∧
      t.sender=sender := by
    rw [ht]
    exact ⟨rfl,rfl,rfl,rfl⟩
  have hlen := hb.sqLen
  rw [hcfg.1] at hlen
  obtain ⟨k,-,hk⟩ := hb.rings.bbs
  have hk16 : k≤16 := by
    have hle : 2^k≤2^16 := by omega
    exact (Nat.pow_le_pow_iff_right (by decide)).mp hle
  refine ⟨⟨⟨hlen,k+6,by omega,by omega,?_⟩,hcfg.2.1.symm,hcfg.2.2.1.symm,?_,?_,hva⟩,
    by omega,hcfg.2.1⟩
  · rw [hk,pow_add,mul_comm]
    rfl
  · rw [hcfg.2.2.2,hkey]
    rfl
  · rw [hcfg.2.2.2,hqpn]
    rfl

theorem TxSys.Reachable.fixed {s : TxSys} (h : s.Reachable cfg) :
    ∃ t, newTx cfg = .ok t ∧ s.tx.toTxFixed=t.toTxFixed :=
  h.elim (fun h => h.1.fixed hin) (fun h => h.1.fixed hin)

end

/-- Between the old and the new producer index the NIC finds the packets Post
took: in order, byte for byte, and ending exactly on the new index. -/
theorem post_decodes (cfg : TxConfig) (hin : cfg.inlineLen ≤ 960)
    (hva : cfg.regionVA.toNat+cfg.region.len < 2^64) (hsq : cfg.sqLen ≤ 64*65536) (s : TxSys)
    (h : s.Reachable cfg) (descs : List Desc) (hflag : s.tx.failed = none → s.tx.Flagless descs) :
    ∃ t n pkts, s.tx.post descs = some (t,n) ∧
      cfg.nic.poll t.sqBytes t.pi (t.pi-s.tx.pi).toNat s.tx.pi = some pkts ∧
      pkts.map Packet.bytes = (descs.take n).map cfg.region.bytes := by
  obtain ⟨done,live,hinv⟩ := h.inv hin
  obtain ⟨t0,hnew,hfix⟩ := h.fixed hin
  obtain ⟨hn,hbbs,hreg⟩ := newTx_serves hin hnew hsq hva
  rw [← hfix] at hn hbbs hreg
  cases hf : s.tx.failed with
  | some e => exact ⟨s.tx,0,[],by rw [Tx.post,hf]; rfl,by simp [Nic.poll],rfl⟩
  | none =>
    obtain ⟨t,n,hp,hout⟩ := post_spec hinv.built descs
    cases hout with
    | inl hno =>
      obtain ⟨rfl,_,_,_,rfl,-,-⟩ := hno
      exact ⟨_,0,[],hp,by simp [Nic.poll],rfl⟩
    | inr hes =>
      obtain ⟨es,hes⟩ := hes
      obtain ⟨pkts,hpoll,hbytes⟩ := hes.decodes hinv hbbs (hflag hf) hn
      exact ⟨t,n,pkts,hp,hpoll,by rw [hbytes,hreg]⟩

theorem post_decodes_tiny : ∃ s : TxSys, s.Reachable tinyPointer ∧ s.tx.Flagless tinyDescs ∧
      ∃ t n pkts, s.tx.post tinyDescs = some (t,n) ∧
        tinyPointer.nic.poll t.sqBytes t.pi (t.pi-s.tx.pi).toNat s.tx.pi = some pkts ∧
        pkts.map Packet.bytes = (tinyDescs.take n).map tinyPointer.region.bytes := by
  have hreach := tinyPointer.reachable (by decide)
  have hflag : (tinyPointer.tx (by decide)).Flagless tinyDescs := by
    intro m hm hp i d hd hlong
    have hmem := mem_of_mem_take
      ((takeWhile_sublist _).subset (mem_of_getElem? hd))
    have hshort : ∀ d∈tinyDescs, d.len.toNat<2^31 := by decide
    exact absurd (hshort d hmem) (not_lt.mpr hlong)
  exact ⟨_,hreach,hflag,
    post_decodes tinyPointer (by decide) (by decide) (by decide) _ hreach tinyDescs fun _ => hflag⟩

def longPointer : TxConfig :=
  { tinyPointer with
    region := ⟨fun _ => 0,2^31,by decide⟩, frameSize := 2^31, frameSize_lt := by decide }

/-- The top bit of a length of 2^31 is the flag for a packet copied into the
entry: two such packets are taken and the NIC cannot read the entry they share. -/
theorem long_pointers_misread : ∃ s : TxSys, s.Reachable longPointer ∧
      (s.tx.post [⟨0,0x80000000,0⟩,⟨0,0x80000000,0⟩]).map (fun r => (r.2,
        longPointer.nic.poll r.1.sqBytes r.1.pi (r.1.pi-s.tx.pi).toNat s.tx.pi)) = some (2,none) :=
  ⟨_,longPointer.reachable (by decide),by decide⟩

end Packetio.Mlx5.Ring

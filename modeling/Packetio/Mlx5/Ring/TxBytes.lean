import Packetio.Mlx5.Ring.TxRogue

/-! Which frame memory Post uses: only bytes inside one frame of a descriptor that
passed the check, whatever the descriptors say. -/
namespace Packetio.Mlx5.Ring
open List

def Touch.Inside (f : TxFixed) : Touch → Prop
  | .copied off n => f.InFrame off n
  | .pointed addr n => ∃ off, addr=f.regionVA+UInt64.ofNat off ∧ f.InFrame off n

theorem TxFixed.InFrame.sub {f : TxFixed} {a n a' n' : Nat} (h : f.InFrame a n) (hlo : a≤a')
    (hhi : a'+n'≤a+n) (hn : 0<n') : f.InFrame a' n' := by
  obtain ⟨-,i,h1,h2,h3⟩ := h
  exact ⟨hn,i,h1.trans hlo,hhi.trans h2,h3⟩

section
variable {t t' : Tx} (hb : t.toTxFixed.Built)
include hb

theorem Writes.inside {ds : List Desc} {p : Put} (hw : Writes t ds p)
    (hok : ∀ d∈ds, t.descOK d=true) : ∀ u∈p.touched, Touch.Inside t.toTxFixed u := by
  have hin : ∀ d∈ds, t.InFrame d.addr.toNat d.len.toNat := fun d hd =>
    (hb.descOK_iff d).mp (hok d hd)
  have haddr : ∀ d : Desc, t.regionVA+d.addr=t.regionVA+UInt64.ofNat d.addr.toNat := fun d => by
    rw [UInt64.ofNat_toNat]
  cases hw with
  | single d signal =>
    have hd := hin d (by simp)
    have hlen : (UInt32.ofNat (t.region.frame d).len)=d.len := UInt32.ofNat_toNat
    have hle := t.sender.toNat_inlined d.len
    intro u hu
    simp only [Sender.put,hlen,mem_append] at hu
    rcases hu with hu | hu
    · split_ifs at hu with hpos
      · rw [mem_singleton.mp hu]
        rw [gt_iff_lt,UInt32.lt_iff_toNat_lt] at hpos
        exact hd.sub (le_refl _) (by change d.addr.toNat+_≤_; omega) hpos
      · cases hu
    split_ifs at hu with hpos
    · rw [mem_singleton.mp hu]
      rw [gt_iff_lt,UInt32.lt_iff_toNat_lt] at hpos
      have hrest : (d.len-t.sender.inlined d.len).toNat =
          d.len.toNat-(t.sender.inlined d.len).toNat :=
        UInt32.toNat_sub_of_le _ _ (UInt32.le_iff_toNat_le.mpr (by omega))
      refine ⟨d.addr.toNat+(t.sender.inlined d.len).toNat,?_,?_⟩
      · rw [UInt64.ofNat_add,UInt64.ofNat_toNat,← UInt64.add_assoc]
        congr 1
        have hlt := (t.sender.inlined d.len).toNat_lt
        rw [← UInt64.toNat_inj,UInt32.toNat_toUInt64,toNat_small64 _ (by omega)]
      · exact hd.sub (by omega) (by rw [hrest]; omega) hpos
    · cases hu
  | pointers m ds hm hp h2 hk =>
    intro u hu
    simp only [MPWSender.putPointers,map_map,mem_map] at hu
    obtain ⟨d,hd,rfl⟩ := hu
    exact ⟨d.addr.toNat,haddr d,hin d hd⟩
  | copied m ds hm hp h2 hk =>
    intro u hu
    simp only [MPWSender.put,map_map,mem_map] at hu
    obtain ⟨d,hd,rfl⟩ := hu
    exact hin d hd

theorem Turns.uses {es : List Entry} (hts : Turns t es t') :
    (∀ d∈frames es, t.InFrame d.addr.toNat d.len.toNat) ∧
      (∃ us, t'.touched=t.touched++us ∧ ∀ u∈us, Touch.Inside t.toTxFixed u) ∧
      t'.c.packets=t.c.packets ∧ t'.c.bytes=t.c.bytes := by
  induction hts with
  | done ha =>
    obtain ⟨_,_,_,rfl,hp,hbytes⟩ := ha
    exact ⟨by simp,⟨[],by simp,by simp⟩,hp,hbytes⟩
  | @turn t t1 t' ds p es hp _ ih =>
    have hfix := hp.fixed
    obtain ⟨hin,⟨us,hus,hall⟩,hpk,hby⟩ := ih (hfix ▸ hb)
    rw [hfix] at hin hall
    have hone : t1.touched=t.touched++p.touched ∧ t1.c.packets=t.c.packets ∧
        t1.c.bytes=t.c.bytes := by
      obtain ⟨_,_,_,rfl,hp',hby'⟩ := hp.next
      exact ⟨rfl,hp',hby'⟩
    refine ⟨?_,⟨p.touched++us,by rw [hus,hone.1,append_assoc],?_⟩,hpk.trans hone.2.1,
      hby.trans hone.2.2⟩
    · intro d hd
      simp only [frames_cons,mem_append] at hd
      cases hd with
      | inl hd => exact (hb.descOK_iff d).mp (hp.ok d hd)
      | inr hd => exact hin d hd
    · intro u hu
      cases mem_append.mp hu with
      | inl hu => exact hp.writes.inside hb hp.ok u hu
      | inr hu => exact hall u hu

end

theorem ring_counts (t : Tx) (n : Nat) (b : UInt64) :
    (t.ring n b).c.packets=t.c.packets+UInt64.ofNat n ∧ (t.ring n b).c.bytes=t.c.bytes+b ∧
      (t.ring n b).touched=t.touched := by
  simp only [Tx.ring,Tx.tick,Tx.publish]
  split_ifs <;> exact ⟨rfl,rfl,rfl⟩

theorem mark_counts (t : Tx) (es : List Entry) :
    (t.mark es).c=t.c ∧ (t.mark es).touched=t.touched := by
  rw [Tx.mark]
  split <;> exact ⟨rfl,rfl⟩

/-- Post takes any descriptors without a slice out of range. What it takes is a
leading part that names bytes inside one frame each, what it copies or points the
NIC at lies inside one frame, and the counters grow by just what it takes. -/
theorem post_uses_frames (cfg : TxConfig) (hin : cfg.inlineLen ≤ 960) (s : TxSys)
    (h : TxSys.Reach True anyBatch cfg s) (descs : List Desc) :
    ∃ t n us, s.tx.post descs = some (t,n) ∧ n ≤ descs.length ∧
      (∀ d ∈ descs.take n, s.tx.InFrame d.addr.toNat d.len.toNat) ∧
      t.touched = s.tx.touched++us ∧ (∀ u ∈ us, Touch.Inside s.tx.toTxFixed u) ∧
      t.c.packets = s.tx.c.packets+UInt64.ofNat n ∧
      t.c.bytes = s.tx.c.bytes+sumLens 0 (descs.take n) := by
  have hb := h.built hin
  obtain ⟨t,n,hp,hout⟩ := post_spec hb descs
  rcases hout with hno | hes
  · obtain ⟨rfl,_,_,_,rfl,hpk,hby⟩ := hno
    refine ⟨_,0,[],hp,Nat.zero_le _,by simp,by simp,by simp,?_,?_⟩
    · rw [hpk]
      exact (UInt64.add_zero _).symm
    · rw [hby]
      exact (UInt64.add_zero _).symm
  obtain ⟨es,hes⟩ := hes
  obtain ⟨t1,hts,rfl⟩ := hes.turns
  obtain ⟨hin,⟨us,hus,hall⟩,hpk,hby⟩ := hts.uses hb
  have hlen : n≤descs.length := by
    have hcount := hes.count
    rw [packets,hes.frames,length_take] at hcount
    omega
  obtain ⟨h1,h2,h3⟩ := ring_counts (t1.mark es) n (sumLens 0 (frames es))
  obtain ⟨h4,h5⟩ := mark_counts t1 es
  rw [hes.frames] at hin
  refine ⟨_,n,us,hp,hlen,hin,by rw [h3,h5,hus],hall,by rw [h1,h4,hpk],?_⟩
  rw [h2,h4,hby,hes.frames]

theorem post_uses_frames_tiny : TxSys.Reach True anyBatch tinyTx tinySent ∧
      ∃ t n us, tinySent.tx.post [⟨64,64,0⟩,⟨0xffffffffffffffff,64,0⟩] = some (t,n) ∧
        (∀ d ∈ [(⟨64,64,0⟩ : Desc),⟨0xffffffffffffffff,64,0⟩].take n,
          tinySent.tx.InFrame d.addr.toNat d.len.toNat) ∧
        t.touched = tinySent.tx.touched++us ∧ ∀ u ∈ us, Touch.Inside tinySent.tx.toTxFixed u := by
  have hreach := tinySent_reach True
  obtain ⟨t,n,us,hp,-,hin,hus,hall,-⟩ := post_uses_frames tinyTx (by decide) tinySent hreach
    [⟨64,64,0⟩,⟨0xffffffffffffffff,64,0⟩]
  exact ⟨hreach,t,n,us,hp,hin,hus,hall⟩

end Packetio.Mlx5.Ring

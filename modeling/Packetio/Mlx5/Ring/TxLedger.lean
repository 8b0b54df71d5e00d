import Packetio.Mlx5.Ring.Tx

/-! Frame ownership of the send ring. The entries ever written are a list; the
finished ones come first, the ones in flight after them, and the counters, the
slot ring and the per-entry records are what `Ledger.Owns` says of that list. -/
namespace Packetio.Mlx5.Ring
open Lib List UInt32

def blocks (es : List Entry) : Nat := (es.map Entry.bbs).sum
def frames (es : List Entry) : List Desc := es.flatMap Entry.descs
def packets (es : List Entry) : Nat := (frames es).length

@[simp] theorem blocks_nil : blocks [] = 0 := rfl
@[simp] theorem blocks_cons (e : Entry) (es : List Entry) :
    blocks (e::es) = e.bbs+blocks es := by simp [blocks]
@[simp] theorem blocks_append (as bs : List Entry) :
    blocks (as++bs) = blocks as+blocks bs := by simp [blocks]
@[simp] theorem frames_nil : frames [] = [] := rfl
@[simp] theorem frames_cons (e : Entry) (es : List Entry) :
    frames (e::es) = e.descs++frames es := by simp [frames]
@[simp] theorem frames_append (as bs : List Entry) :
    frames (as++bs) = frames as++frames bs := by simp [frames]
@[simp] theorem packets_nil : packets [] = 0 := rfl
@[simp] theorem packets_cons (e : Entry) (es : List Entry) :
    packets (e::es) = e.descs.length+packets es := by simp [packets]
@[simp] theorem packets_append (as bs : List Entry) :
    packets (as++bs) = packets as+packets bs := by simp [packets]

/-- What is kept at the first block of an entry written after `pre`. -/
def entryRecord (pre : List Entry) (e : Entry) : EntryMeta :=
  ⟨UInt32.ofNat (packets (pre++[e])),UInt16.ofNat e.bbs⟩

structure TxFixed.Rings (f : TxFixed) : Prop where
  bbs : ∃ k<32, f.bbs.toNat=2^k
  bbMask : f.bbMask.toNat=f.bbs.toNat-1
  numSlots : ∃ j<32, f.numSlots.toNat=2^j
  slotMask : f.slotMask.toNat=f.numSlots.toNat-1

theorem cell_of_mask {n m : UInt32} (hn : ∃ k<32, n.toNat=2^k) (hm : m.toNat=n.toNat-1)
    (i : Nat) : (UInt32.ofNat i &&& m).toNat=i%n.toNat := by
  obtain ⟨k,hk,he⟩ := hn
  rw [he] at hm ⊢
  exact ofNat_and_mask i k m (by omega) hm

theorem pos_of_pow {n : UInt32} (hn : ∃ k<32, n.toNat=2^k) : 0<n.toNat := by
  obtain ⟨k,-,he⟩ := hn
  rw [he]
  exact Nat.two_pow_pos k

structure Ledger.Owns (f : TxFixed) (l : Ledger) (done live : List Entry) : Prop where
  entries : l.entries=done++live
  shape : ∀ e∈l.entries, 1≤e.bbs ∧ e.bbs<2^16 ∧ e.descs ≠ []
  pi : l.pi=UInt32.ofNat (blocks (done++live))
  head : l.head=UInt32.ofNat (blocks done)
  slotTail : l.slotTail=UInt32.ofNat (packets (done++live))
  slotHead : l.slotHead=UInt32.ofNat (packets done)
  blocks_le : blocks live≤f.bbs.toNat
  packets_le : packets live≤f.numSlots.toNat
  slots : Cells f.numSlots.toNat l.slots (packets done) (frames live)
  recorded : ∀ pre e post, live=pre++e::post →
    l.entryMeta (blocks (done++pre)%f.bbs.toNat)=entryRecord (done++pre) e
  stale : ∀ c, l.entryMeta c = {} ∨ ∃ pre e post, l.entries=pre++e::post ∧
    blocks pre%f.bbs.toNat=c ∧ l.entryMeta c=entryRecord pre e

theorem Ledger.Owns.pi_entries {f : TxFixed} {l : Ledger} {done live : List Entry}
    (h : l.Owns f done live) : l.pi=UInt32.ofNat (blocks l.entries) := by
  rw [h.pi,h.entries]

section putSlots
variable {f : TxFixed}

theorem putSlots_rest (ds : List Desc) (l : Ledger) :
    ds.foldl (Ledger.putSlot f) l =
      { l with slots := (ds.foldl (Ledger.putSlot f) l).slots
               slotTail := l.slotTail+UInt32.ofNat ds.length } := by
  induction ds generalizing l with
  | nil => simp
  | cons d ds ih =>
    rw [foldl_cons,ih]
    simp only [Ledger.putSlot,length_cons,ofNat_add]
    congr 1
    rw [UInt32.add_assoc,UInt32.add_comm (UInt32.ofNat ds.length)]
    rfl

theorem putSlots_cells (hf : f.Rings) (ds : List Desc) (l : Ledger) (h : Nat) (items : List Desc)
    (hc : Cells f.numSlots.toNat l.slots h items) (ht : l.slotTail=UInt32.ofNat (h+items.length))
    (hroom : items.length+ds.length≤f.numSlots.toNat) :
    Cells f.numSlots.toNat (ds.foldl (Ledger.putSlot f) l).slots h (items++ds) := by
  induction ds generalizing l items with
  | nil => simpa using hc
  | cons d ds ih =>
    rw [length_cons] at hroom
    have hcell := cell_of_mask hf.numSlots hf.slotMask (h+items.length)
    have hpush := hc.push (by omega) d
    rw [← hcell,← ht] at hpush
    have hnext := ih (l.putSlot f d) (items++[d]) hpush
      (by simp only [Ledger.putSlot,ht,length_append,length_singleton,
            ← add_assoc,ofNat_add]; rfl)
      (by simp; omega)
    simpa using hnext

section
variable (l : Ledger) (ds : List Desc) (b : UInt32)

@[simp] theorem record_pi : (l.record f ds b).pi = l.pi+b := by rw [Ledger.record,putSlots_rest]
@[simp] theorem record_head : (l.record f ds b).head = l.head := by rw [Ledger.record,putSlots_rest]
@[simp] theorem record_slotTail :
    (l.record f ds b).slotTail = l.slotTail+UInt32.ofNat ds.length := by
  rw [Ledger.record,putSlots_rest]
@[simp] theorem record_slotHead :
    (l.record f ds b).slotHead = l.slotHead := by rw [Ledger.record,putSlots_rest]
@[simp] theorem record_entries :
    (l.record f ds b).entries = l.entries++[⟨b.toNat,ds⟩] := by rw [Ledger.record,putSlots_rest]

theorem free_record (hb : b.toNat≤(l.free f).toNat) :
    ((l.record f ds b).free f).toNat=(l.free f).toNat-b.toNat := by
  rw [Ledger.free] at hb ⊢
  rw [Ledger.free,record_pi,record_head]
  simp only [UInt32.toNat_sub,UInt32.toNat_add] at hb ⊢
  have := f.bbs.toNat_lt
  have := l.pi.toNat_lt
  have := l.head.toNat_lt
  have := b.toNat_lt
  omega

end

end putSlots

theorem split_snoc {α : Type*} {es pre post : List α} {x e : α} (h : es++[x]=pre++e::post) :
    (pre=es ∧ e=x ∧ post = []) ∨ ∃ post', post=post'++[x] ∧ es=pre++e::post' := by
  rcases eq_nil_or_concat post with rfl | ⟨post',y,rfl⟩
  · have hh := append_inj' h rfl
    obtain ⟨rfl,hx⟩ := hh
    simp at hx
    exact .inl ⟨rfl,hx.symm,rfl⟩
  have h' : es++[x]=(pre++e::post')++[y] := by simpa using h
  have hh := append_inj' h' rfl
  obtain ⟨he,hx⟩ := hh
  simp at hx
  exact .inr ⟨post',by simp [hx],he⟩

namespace Ledger.Owns
variable {f : TxFixed} {l : Ledger} {done live : List Entry}

theorem inFlight_blocks (h : l.Owns f done live) : (l.pi-l.head).toNat=blocks live := by
  have hb := h.blocks_le
  have hlt := f.bbs.toNat_lt
  rw [h.pi,h.head,toNat_distance _ _ (by simp) (by simp; omega)]
  simp

theorem inFlight_packets (h : l.Owns f done live) : (l.slotTail-l.slotHead).toNat=packets live := by
  have hb := h.packets_le
  have hlt := f.numSlots.toNat_lt
  rw [h.slotTail,h.slotHead,toNat_distance _ _ (by simp) (by simp; omega)]
  simp

theorem free (h : l.Owns f done live) : (l.free f).toNat=f.bbs.toNat-blocks live := by
  have hi := h.inFlight_blocks
  have hb := h.blocks_le
  rw [Ledger.free,UInt32.toNat_sub_of_le,hi]
  rwa [le_iff_toNat_le,hi]

theorem empty : Owns f {} [] [] where
  entries := rfl
  shape e he := by cases he
  pi := rfl
  head := rfl
  slotTail := rfl
  slotHead := rfl
  blocks_le := by simp
  packets_le := by simp
  slots := Cells.nil
  recorded pre e post h := by simp at h
  stale c := .inl rfl

theorem record (hf : f.Rings) (h : l.Owns f done live) {ds : List Desc} {bbs : UInt32}
    (hds : ds ≠ []) (hpos : 1≤bbs.toNat) (hlt : bbs.toNat<2^16)
    (hfree : bbs.toNat≤(l.free f).toNat) (hroom : packets live+ds.length≤f.numSlots.toNat) :
    (l.record f ds bbs).Owns f done (live++[⟨bbs.toNat,ds⟩]) := by
  have hfr := h.free
  have hb := h.blocks_le
  have hpi := cell_of_mask hf.bbs hf.bbMask (blocks (done++live))
  rw [← h.pi] at hpi
  have htail : l.slotTail+ofNat ds.length=ofNat (packets (done++live)+ds.length) := by
    rw [h.slotTail,ofNat_add]
  have hrec : (⟨ofNat (packets (done++live)+ds.length),bbs.toUInt16⟩ : EntryMeta) =
      entryRecord (done++live) ⟨bbs.toNat,ds⟩ := by
    simp [entryRecord,add_assoc]
  rw [Ledger.record,putSlots_rest]
  simp only [htail,hrec,hpi]
  constructor
  · simp [h.entries]
  · intro e he
    rcases mem_append.mp he with he | he
    · exact h.shape e he
    · rw [mem_singleton.mp he]
      exact ⟨hpos,hlt,hds⟩
  · rw [h.pi,← append_assoc,blocks_append (done++live),ofNat_add]
    simp
  · exact h.head
  · simp [add_assoc]
  · exact h.slotHead
  · simp only [blocks_append,blocks_cons,blocks_nil]
    omega
  · simpa using hroom
  · simpa using putSlots_cells hf ds l (packets done) (frames live) h.slots
      (by rw [h.slotTail,packets_append]; rfl) hroom
  · intro pre e post hsplit
    rcases split_snoc hsplit with ⟨rfl,rfl,rfl⟩ | ⟨post',rfl,hlive⟩
    · exact Function.update_self ..
    -- an older entry in flight: its first block is another cell
    have hsh := h.shape e (by rw [h.entries,hlive]; simp)
    have hbl : blocks live=blocks pre+(e.bbs+blocks post') := by rw [hlive]; simp
    have hne := mod_ne_of_near f.bbs.toNat (blocks (done++pre)) (blocks (done++live))
      (by simp; omega) (by simp; omega)
    refine (Function.update_of_ne hne ..).trans ?_
    exact h.recorded pre e post' hlive
  · intro c
    by_cases hc : c=blocks (done++live)%f.bbs.toNat
    · refine .inr ⟨done++live,⟨bbs.toNat,ds⟩,[],by simp [h.entries],hc.symm,?_⟩
      rw [hc]
      exact Function.update_self ..
    simp only [Function.update_of_ne hc]
    rcases h.stale c with h0 | ⟨pre,e,post,he,hcell,hm⟩
    · exact .inl h0
    · exact .inr ⟨pre,e,post++[⟨bbs.toNat,ds⟩],by simp [he],hcell,hm⟩

theorem release {pre post : List Entry} (h : l.Owns f done (pre++post)) :
    ({ l with slotHead := UInt32.ofNat (packets (done++pre))
              head := UInt32.ofNat (blocks (done++pre)) } : Ledger).Owns f (done++pre) post where
  entries := by simp [h.entries]
  shape := h.shape
  pi := by simpa using h.pi
  head := rfl
  slotTail := by simpa using h.slotTail
  slotHead := rfl
  blocks_le := by have := h.blocks_le; simp at this; omega
  packets_le := by have := h.packets_le; simp at this; omega
  slots := by
    have hd := h.slots.drop (packets pre)
    rw [frames_append,show packets pre=(frames pre).length from rfl,drop_left] at hd
    rwa [packets_append]
  recorded p e q hq := by
    have hr := h.recorded (pre++p) e q (by simp [hq])
    simpa using hr
  stale := h.stale

section
variable (hf : f.Rings) (h : l.Owns f done live)
include hf h

theorem slotRun (n : Nat) (hn : n≤packets live) :
    l.slotRun f n l.slotHead=(frames live).take n := by
  have key : ∀ m i, i+m≤packets live →
      l.slotRun f m (ofNat (packets done+i))=((frames live).drop i).take m := by
    intro m
    induction m with
    | zero => intro i _; simp [Ledger.slotRun]
    | succ m ih =>
      intro i hi
      have hlen : i<(frames live).length := by rw [← packets]; omega
      have hcell := cell_of_mask hf.numSlots hf.slotMask (packets done+i)
      have hnext : ofNat (packets done+i)+1=ofNat (packets done+(i+1)) := by
        rw [← add_assoc,ofNat_add _ 1]
        rfl
      rw [Ledger.slotRun,hcell,h.slots i hlen,hnext,ih (i+1) (by omega),
        drop_eq_getElem_cons hlen,take_succ_cons]
  have h0 := key n 0 (by omega)
  simpa [h.slotHead] using h0

theorem entryFor_live {pre post : List Entry} {e : Entry}
    (hlive : live=pre++e::post) {header : UInt32}
    (hc : wqeCounter header=UInt16.ofNat (blocks (done++pre))) (hb : blocks pre<2^16) :
    l.entryFor f header=some (UInt32.ofNat (packets (done++pre++[e])),
      UInt32.ofNat (blocks (done++pre++[e]))) := by
  obtain ⟨hpos,hlt,hds⟩ := h.shape e (by rw [h.entries,hlive]; simp)
  have hlen : 0<e.descs.length := length_pos_iff.mpr hds
  have hbl : blocks live=blocks pre+(e.bbs+blocks post) := by rw [hlive]; simp
  have hpl : packets live=packets pre+(e.descs.length+packets post) := by rw [hlive]; simp
  have hpn := h.packets_le
  have hn := f.numSlots.toNat_lt
  have hdelta : (wqeCounter header-l.head.toUInt16).toUInt32=ofNat (blocks pre) := by
    rw [← UInt32.toNat_inj,UInt16.toNat_toUInt32,hc,h.head,toUInt16_ofNat',
      toNat_distance16 _ _ (by simp) (by simp; omega),blocks_append,
      toNat_small _ (by omega)]
    omega
  have hpos' : l.head+ofNat (blocks pre)=ofNat (blocks (done++pre)) := by
    rw [h.head,blocks_append,ofNat_add]
  have hbbs : (UInt16.ofNat e.bbs).toUInt32=ofNat e.bbs := by
    rw [← UInt32.toNat_inj,UInt16.toNat_toUInt32,toNat_small16 _ hlt,toNat_small _ (by omega)]
  have hused : (ofNat (packets (done++pre++[e]))-l.slotHead).toNat =
      packets pre+e.descs.length := by
    rw [h.slotHead,toNat_distance _ _ (by simp) (by simp; omega)]
    simp
  have hin : ¬ ofNat (blocks pre) ≥ l.pi-l.head := by
    rw [ge_iff_le,le_iff_toNat_le,h.inFlight_blocks,toNat_small _ (by omega)]
    omega
  have hb0 : UInt16.ofNat e.bbs≠0 := by
    rw [ne_eq,← UInt16.toNat_inj,toNat_small16 _ hlt]
    change e.bbs≠0
    omega
  have hok : ¬ (ofNat (packets (done++pre++[e]))-l.slotHead=0 ∨
      ofNat (packets (done++pre++[e]))-l.slotHead > l.slotTail-l.slotHead) := by
    rw [← UInt32.toNat_inj,gt_iff_lt,lt_iff_toNat_lt,hused,h.inFlight_packets]
    change ¬ (packets pre+e.descs.length=0 ∨ _)
    omega
  have hcell := cell_of_mask hf.bbs hf.bbMask (blocks (done++pre))
  simp only [Ledger.entryFor,hdelta,hpos',hcell,h.recorded pre e post hlive,entryRecord]
  rw [if_neg hin,if_neg hb0,if_neg hok,hbbs,blocks_append (done++pre),ofNat_add]
  simp

theorem entryFor_some (hsmall : packets l.entries<2^31)
    {header : UInt32} {r : UInt32 × UInt32} (hr : l.entryFor f header=some r) :
    ∃ pre e post, live=pre++e::post ∧ blocks pre<2^16 ∧
      wqeCounter header=UInt16.ofNat (blocks (done++pre)) := by
  have hb := h.blocks_le
  have htot : packets done+packets live<2^31 := by
    rwa [h.entries,packets_append] at hsmall
  simp only [Ledger.entryFor] at hr
  split_ifs at hr with hin hb0 hok
  set delta := (wqeCounter header-l.head.toUInt16).toUInt32 with hdelta
  have hd16 : delta.toNat<2^16 := by
    rw [hdelta,UInt16.toNat_toUInt32]
    exact UInt16.toNat_lt _
  have hdl : delta.toNat<blocks live := by
    rw [ge_iff_le,le_iff_toNat_le,h.inFlight_blocks] at hin
    omega
  have hpos : l.head+delta=ofNat (blocks done+delta.toNat) := by
    rw [h.head,ofNat_add,UInt32.ofNat_toNat]
  rw [hpos,cell_of_mask hf.bbs hf.bbMask] at hb0 hok
  rcases h.stale ((blocks done+delta.toNat)%f.bbs.toNat) with h0 | ⟨pre,e,post,he,hcell,hm⟩
  · rw [h0] at hb0
    exact absurd rfl hb0
  rw [hm] at hok
  -- the record belongs to a finished entry or to one in flight
  have hlive : ∃ p, pre=done++p ∧ live=p++e::post := by
    rw [h.entries] at he
    rcases append_eq_append_iff.mp he with ⟨p,hp,hl⟩ | ⟨c,hdone,hc⟩
    · exact ⟨p,hp,hl⟩
    rcases c with _ | ⟨x,c⟩
    · exact ⟨[],by simpa using hdone.symm,by simpa using hc.symm⟩
    injection hc with hx _
    subst hx
    have hp : packets done=packets (pre++[e])+packets c := by rw [hdone]; simp; omega
    exfalso
    apply hok
    simp only [entryRecord]
    rcases Nat.eq_zero_or_pos (packets c) with hz | hz
    · left
      rw [h.slotHead,hp,hz,Nat.add_zero,UInt32.sub_self]
    right
    rw [gt_iff_lt,lt_iff_toNat_lt,h.inFlight_packets,h.slotHead,
      toNat_distance_neg _ _ (by omega) (by omega)]
    omega
  obtain ⟨p,rfl,hl⟩ := hlive
  have hshape := h.shape e (by rw [he]; simp)
  have hbl : blocks live=blocks p+(e.bbs+blocks post) := by rw [hl]; simp
  rw [blocks_append] at hcell
  have hpd := mod_inj_of_window f.bbs.toNat (blocks done) (blocks done+blocks p)
    (blocks done+delta.toNat) (by omega) (by omega) (by omega) (by omega) hcell
  refine ⟨p,e,post,hl,by omega,?_⟩
  have h16 : wqeCounter header-l.head.toUInt16=UInt16.ofNat (blocks p) := by
    rw [← UInt16.toNat_inj,toNat_small16 _ (by omega)]
    rw [hdelta,UInt16.toNat_toUInt32] at hpd
    omega
  rw [h.head,toUInt16_ofNat'] at h16
  rw [blocks_append,UInt16.ofNat_add,← h16,UInt16.add_comm,UInt16.sub_add_cancel]

end

end Ledger.Owns
end Packetio.Mlx5.Ring

import Packetio.Mlx5.NicDecode
import Packetio.Mlx5.Ring.TxBuilt

/-! Work queue entries fill what they claim: a builder writes every byte of its entry, whatever was
there before, and none behind the blocks it reports. -/
namespace Packetio.Mlx5
open Lib List UInt32

/-- An entry of `ds` octowords at block `idx` of a queue of `n` bytes; bytes are counted from its
start, around the end of the queue. -/
structure Fills (n : Nat) (idx : UInt16) (write : (Nat → UInt8) → Put) (ds : Nat) : Prop where
  short : ds≤60
  blocks : ∀ buf, (write buf).bbs.toNat=(ds+3)/4
  stated : ∀ buf, window n (write buf).buf (64*idx.toNat) 7=UInt8.ofNat ds
  kept : ∀ buf a, 64*((ds+3)/4)≤a → a<n →
    window n (write buf).buf (64*idx.toNat) a=window n buf (64*idx.toNat) a
  fresh : ∀ old old' a, a<16*ds →
    window n (write old).buf (64*idx.toNat) a=window n (write old').buf (64*idx.toNat) a

/-- The three builders, with the length each was configured for and what goes before it. -/
inductive Writer (q : SQ) (idx : UInt16) : Int → ((Nat → UInt8) → Put) → Prop
  | single {qpn lkey : UInt32} {inlineLen : Int} {csFlags : UInt8} {s : Sender}
    (h : newSender q qpn lkey inlineLen csFlags = .ok s) (frame : Slice) (addr : UInt64)
    (signaled : Bool) :
    Writer q idx (inlineLen%2^32+29) fun buf => s.put buf idx frame addr signaled
  | copied {qpn lkey : UInt32} {maxLen : Int} {csFlags : UInt8} {s : MPWSender}
    (h : newMPWSender q qpn csFlags maxLen false lkey = .ok s) (frames : List Slice)
    (signaled : Bool) :
    Writer q idx (maxLen+19) fun buf => s.put buf idx (frames.take (s.fits frames)) signaled
  | pointed {qpn lkey : UInt32} {maxLen : Int} {csFlags : UInt8} {s : MPWSender}
    (h : newMPWSender q qpn csFlags maxLen true lkey = .ok s) (frames : List (Slice × UInt64))
    (signaled : Bool) : Writer q idx 0 fun buf =>
      s.putPointers buf idx (frames.take (s.fits (frames.map Prod.fst))) signaled

theorem newSQ_sized {n : Nat} {q : SQ} (h : newSQ n = .ok q) (hn : n<2^32) : q.Sized n := by
  obtain ⟨h0,h⟩ := passed h nofun
  obtain ⟨h64,h⟩ := passed h nofun
  obtain ⟨hpow,h⟩ := passed h nofun
  cases h
  obtain ⟨m,rfl⟩ := (Nat.and_sub_one_eq_zero_iff_isPowerOfTwo h0).mp (not_not.mp hpow)
  refine ⟨rfl,⟨m,?_,(Nat.pow_lt_pow_iff_right (by decide)).mp hn,rfl⟩,toNat_small _ (by omega)⟩
  exact (Nat.pow_dvd_pow_iff_le_right (by decide : 1<2)).mp
    (Nat.dvd_of_mod_eq_zero (not_not.mp h64))

theorem Fills.of_tiles {n ds : Nat} {idx : UInt16} {write : (Nat → UInt8) → Put}
    {qpn d : UInt32} {ps : List (Piece UInt8)} (hd : d.toNat=ds) (hshort : ds≤60)
    (hblocks : ∀ buf, (write buf).bbs=blocksFor d) (hfit : ∀ buf, 64*(write buf).bbs.toNat≤n)
    (hshow : 16*ds≤n → ∀ buf, Shows n (64*idx.toNat) buf (write buf).buf ps)
    (htiles : Tiles 0 (16*ds) ps) (hctrl : bePiece 4 4 (qpn <<< 8 ||| d).toNat∈ps) :
    Fills n idx write ds := by
  have hbbs : ∀ buf, (write buf).bbs.toNat=(ds+3)/4 := fun buf => by
    rw [hblocks,toNat_blocksFor _ (by omega),hd]
  have hle : 16*ds≤n := by
    have h := hfit fun _ => 0
    rw [hbbs] at h
    omega
  refine ⟨hshort,hbbs,fun buf => ?_,fun buf a hlo hhi => ?_,fun old old' a ha => ?_⟩
  · have hin := (htiles.inside.2 _ hctrl).2
    refine ((hshow hle buf).piece htiles.increasing hctrl (hin.trans hle)
      (by decide : 3<4)).trans ?_
    change UInt8.ofNat ((qpn <<< 8 ||| d).toNat/256^0)=_
    rw [toNat_qpn_ds _ _ (by omega),hd,pow_zero,Nat.div_one,UInt8.ofNat_add,UInt8.ofNat_mul]
    simp
  · rw [hshow hle buf a hhi,image_outside]
    intro f hf
    have hin := (htiles.inside.2 f hf).2
    omega
  · rw [hshow hle old a (by omega),hshow hle old' a (by omega)]
    exact htiles.image_eq _ _ (Nat.zero_le a) ha

theorem Sender.put_upTo (s : Sender) (buf : Nat → UInt8) (idx : UInt16) (frame : Slice)
    (addr : UInt64) (signaled : Bool) : s.put buf idx frame addr signaled =
      s.put buf idx (frame.upTo (frame.len%2^32)) addr signaled := by
  have hlen : ofNat (frame.len%2^32)=ofNat frame.len := ofNat_mod_size
  simp only [Sender.put,Slice.upTo,hlen]

/-- Where no configured length wraps, every entry that fits the queue fills its stated length. -/
theorem Writer.fills {n : Nat} {q : SQ} (hq : newSQ n = .ok q) (hn : n<2^32) {idx : UInt16}
    {len : Int} {write : (Nat → UInt8) → Put}
    (h : Writer q idx len write) (hlen : len<2^32) (hfit : ∀ buf, 64*(write buf).bbs.toNat≤n) :
    ∃ ds, Fills n idx write ds := by
  have hsized := newSQ_sized hq hn
  have hbase : 64 ∣ 64*idx.toNat := dvd_mul_right _ _
  have hx := hsized.offset idx
  cases h with
  | @single qpn lkey inlineLen csFlags s hs frame addr signaled =>
    obtain ⟨rfl,-,-,-,hin,-⟩ := Ring.newSender_ok hs fun _ => hlen
    simp only [s.put_upTo _ _ frame] at hfit ⊢
    have hlt : (frame.upTo (frame.len%2^32)).len<2^32 := Nat.mod_lt _ (by decide)
    have hds := s.toNat_ds hin (ofNat (frame.upTo (frame.len%2^32)).len)
    rw [toNat_small _ hlt] at hds
    have hle := s.octowords_le (frame.upTo (frame.len%2^32)).len
    exact ⟨_,.of_tiles hds (by omega) (fun _ => rfl) hfit (fun hfits buf =>
      Sender.put_shows hsized hbase hin hx hlt hfits buf addr signaled)
      (s.pieces_tiles idx hlt addr signaled) (.tail _ (.head _))⟩
  | @copied qpn lkey maxLen csFlags s hs frames signaled =>
    obtain ⟨rfl,-,-,hp,rfl,-⟩ := Ring.newMPWSender_multi hs
    simp only [MPWSender.fits,hp,Bool.false_eq_true,if_false] at hfit ⊢
    have hfits : fitsFrom s.maxLen 2 (frames.take (fitsFrom s.maxLen 2 frames)) =
        (frames.take (fitsFrom s.maxLen 2 frames)).length := by
      rw [fitsFrom_take,length_take,min_eq_left (fitsFrom_le_length _ _ _)]
    generalize frames.take (fitsFrom s.maxLen 2 frames)=fs at *
    obtain ⟨hall,-,hhi⟩ := fitsFrom_eq_length hfits (by decide)
    have hwrap : ∀ f∈fs, f.len+19<2^32 := fun f hf => by
      have hmax := (hall f hf).2
      omega
    have hds : (mpwOctowords fs).toNat=2+_ := toNat_foldl_octowords hfits (by decide) hwrap
    change (mpwOctowords fs).toNat≤60 at hhi
    have htiles := (s.headPieces_tiles idx (mpwOctowords fs) signaled).append
      (packetsPieces_tiles 32 fs)
    have hsum : 32+16*(fs.map packetOctowords).sum=16*(2+(fs.map packetOctowords).sum) := by omega
    exact ⟨_,.of_tiles hds (by omega) (fun _ => rfl) hfit (fun hle buf =>
      MPWSender.put_shows hsized hbase hx buf hwrap (by omega) signaled) (hsum ▸ htiles)
      (.tail _ (.head _))⟩
  | @pointed qpn lkey maxLen csFlags s hs frames signaled =>
    obtain ⟨rfl,-,-,hp,-,hmax,-⟩ := Ring.newMPWSender_multi hs
    have hle := leadingNonEmpty_le_length ((frames.map Prod.fst).take s.maxPackets)
    have hfew : (frames.take (s.fits (frames.map Prod.fst))).length≤58 := by
      rw [length_take] at hle ⊢
      rw [MPWSender.fits,hp,if_pos rfl]
      have h58 := (hmax hp).1
      omega
    generalize frames.take (s.fits (frames.map Prod.fst))=fs at *
    have hds : (ofNat (2+fs.length)).toNat=2+fs.length := toNat_small _ (by omega)
    have htiles := (s.headPieces_tiles idx (ofNat (2+fs.length)) signaled).append
      (pointerPieces_tiles s.lkey 32 fs)
    have hsum : 32+16*fs.length=16*(2+fs.length) := by omega
    exact ⟨_,.of_tiles hds (by omega) (fun _ => rfl) hfit (fun hle buf =>
      MPWSender.putPointers_shows hsized hbase hx buf (by omega) signaled) (hsum ▸ htiles)
      (.tail _ (.head _))⟩

theorem fills_second : ∃ ds, Fills 128 3 (fun buf =>
    (⟨⟨128,127,2⟩,0,0,0,18,4,1⟩ : Sender).put buf 3 ⟨fun _ => 7,0,60⟩ 0 false) ds :=
  Writer.fills (n := 128) (q := ⟨128,127,2⟩) rfl (by decide)
    (.single (rfl : newSender ⟨128,127,2⟩ 0 0 18 0 = .ok ⟨⟨128,127,2⟩,0,0,0,18,4,1⟩) _ _ _)
    (by decide) fun _ => (by decide : 64*(blocksFor 4).toNat≤128)

end Packetio.Mlx5

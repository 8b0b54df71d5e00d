import Packetio.Lib.Cyclic

/-! Objects laid out piece by piece in cyclic memory. A piece has a position
relative to the start of its object; `Shows` says that a memory holds the pieces
of an object written at `base` over what was there before. -/
namespace Packetio.Lib
variable {α : Type*}

structure Piece (α : Type*) where
  pos : Nat
  len : Nat
  src : Nat → α

def image (fs : List (Piece α)) (mem : Nat → α) : Nat → α :=
  fs.foldl (fun m f => blit m f.pos f.len f.src) mem

def Increasing (fs : List (Piece α)) : Prop := fs.Pairwise fun f g => f.pos+f.len≤g.pos

theorem image_snoc (fs : List (Piece α)) (f : Piece α) (mem : Nat → α) :
    image (fs++[f]) mem=blit (image fs mem) f.pos f.len f.src := by
  simp [image]

theorem image_outside (fs : List (Piece α)) (mem : Nat → α) (a : Nat)
    (h : ∀ f∈fs, a<f.pos ∨ f.pos+f.len≤a) : image fs mem a=mem a := by
  induction fs generalizing mem with
  | nil => rfl
  | cons f fs ih =>
    have hrest := ih (blit mem f.pos f.len f.src) fun g hg => h g (by simp [hg])
    rwa [blit_outside _ _ _ _ _ (h f (by simp))] at hrest

theorem image_piece {fs : List (Piece α)} (hi : Increasing fs) (mem : Nat → α) {f : Piece α}
    (hf : f∈fs) {i : Nat} (h : i<f.len) : image fs mem (f.pos+i)=f.src i := by
  induction fs generalizing mem with
  | nil => cases hf
  | cons g gs ih =>
    obtain ⟨hg,hgs⟩ := List.pairwise_cons.mp hi
    cases hf with
    | head =>
      have hout := image_outside gs (blit mem f.pos f.len f.src) (f.pos+i) fun x hx =>
        .inl (by have := hg x hx; omega)
      rwa [blit_inside _ _ _ _ _ (by omega) (by omega),Nat.add_sub_cancel_left] at hout
    | tail _ hf => exact ih hgs (blit mem g.pos g.len g.src) hf

/-- `new` is `old` with the pieces `fs` written from `base` on. -/
def Shows (size base : Nat) (old new : Nat → α) (fs : List (Piece α)) : Prop :=
  ∀ a, a<size → window size new base a=image fs (window size old base) a

namespace Shows
variable {size base : Nat} {old new : Nat → α} {fs : List (Piece α)}

theorem refl : Shows size base old old [] := fun _ _ => rfl

section
variable (h : Shows size base old new fs)
include h

theorem blit (f : Piece α) (hfit : (base+f.pos)%size+f.len ≤ size) (hc : f.pos+f.len ≤ size) :
    Shows size base old (Lib.blit new ((base+f.pos)%size) f.len f.src) (fs++[f]) := by
  intro a ha
  rw [window_blit size base f.pos f.len a new f.src hfit hc ha,image_snoc]
  exact blit_congr (h a ha) fun _ _ => rfl

theorem wrapBlit (f : Piece α) (hc : f.pos+f.len ≤ size) :
    Shows size base old (Lib.wrapBlit size new ((base+f.pos)%size) f.len f.src) (fs++[f]) := by
  intro a ha
  rw [window_wrapBlit size base f.pos f.len a new f.src hc ha,image_snoc]
  exact blit_congr (h a ha) fun _ _ => rfl

theorem nothing (f : Piece α) (hf : f.len=0) : Shows size base old new (fs++[f]) := by
  intro a ha
  rw [h a ha,image_snoc,blit_outside _ _ _ _ _ (by omega)]

theorem frame {n : Nat} (hn : ∀ f∈fs, f.pos+f.len≤n)
    {p : Nat} (hp : p<base) (hlap : base+n≤p+size) : new (p%size)=old (p%size) := by
  refine window_frame size base n p old new (fun a hna ha => ?_) hp hlap
  rw [h a ha]
  exact image_outside fs _ a fun f hf => .inr ((hn f hf).trans hna)

theorem piece (hi : Increasing fs) {f : Piece α} (hf : f∈fs)
    (hc : f.pos+f.len ≤ size) {i : Nat} (hlt : i<f.len) :
    window size new base (f.pos+i)=f.src i := by
  rw [h _ (by omega),image_piece hi _ hf hlt]

end

end Shows

/-- The pieces follow one another from `lo` to `hi`, with no gap. -/
def Tiles : Nat → Nat → List (Piece α) → Prop
  | lo, hi, [] => lo=hi
  | lo, hi, f::fs => f.pos=lo ∧ Tiles (lo+f.len) hi fs

namespace Tiles
variable {lo mid hi : Nat} {fs gs : List (Piece α)}

theorem append (h : Tiles lo mid fs) (h' : Tiles mid hi gs) : Tiles lo hi (fs++gs) := by
  induction fs generalizing lo with
  | nil =>
    cases h
    exact h'
  | cons f fs ih => exact ⟨h.1,ih h.2⟩

section
variable (h : Tiles lo hi fs)
include h

theorem inside : lo≤hi ∧ ∀ f∈fs, lo≤f.pos ∧ f.pos+f.len≤hi := by
  induction fs generalizing lo with
  | nil => exact ⟨h.le,nofun⟩
  | cons f fs ih =>
    obtain ⟨rfl,h⟩ := h
    obtain ⟨hle,hall⟩ := ih h
    refine ⟨by omega,fun g hg => ?_⟩
    cases hg with
    | head => exact ⟨le_refl _,hle⟩
    | tail _ hg =>
      have hin := hall g hg
      omega

theorem increasing : Increasing fs := by
  induction fs generalizing lo with
  | nil => exact .nil
  | cons f fs ih =>
    obtain ⟨rfl,h⟩ := h
    exact .cons (fun g hg => (h.inside.2 g hg).1) (ih h)

theorem covers {a : Nat} (hlo : lo≤a) (hhi : a<hi) : ∃ f∈fs, f.pos≤a ∧ a<f.pos+f.len := by
  induction fs generalizing lo with
  | nil =>
    cases h
    omega
  | cons f fs ih =>
    obtain ⟨rfl,h⟩ := h
    by_cases ha : a<f.pos+f.len
    · exact ⟨f,List.mem_cons_self,hlo,ha⟩
    · obtain ⟨g,hg,hin⟩ := ih h (Nat.le_of_not_lt ha)
      exact ⟨g,List.mem_cons_of_mem _ hg,hin⟩

/-- Nothing of the memory under the pieces is left. -/
theorem image_eq (mem mem' : Nat → α) {a : Nat} (hlo : lo≤a) (hhi : a<hi) :
    image fs mem a=image fs mem' a := by
  obtain ⟨f,hf,hpos,hlt⟩ := h.covers hlo hhi
  obtain ⟨i,rfl⟩ := Nat.exists_eq_add_of_le hpos
  have hi : i<f.len := by omega
  rw [image_piece h.increasing mem hf hi,image_piece h.increasing mem' hf hi]

end

end Tiles
end Packetio.Lib

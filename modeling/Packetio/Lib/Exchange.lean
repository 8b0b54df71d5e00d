import Packetio.Lib.Shares
import Packetio.Lib.Update

/-! Items that go back and forth between parties and one holder. A party has some of them at
home and some away; a trade moves items and makes none. -/
namespace Packetio.Lib
open List Multiset

structure Exchange (Q α : Type*) where
  parties : List Q
  held : Multiset α := 0

structure Trade (Q α : Type*) where
  party : Q
  gives : Multiset α := 0
  takes : Multiset α := 0

namespace Exchange
variable {Q α : Type*} [DecidableEq α]

def after (x : Exchange Q α) (i : Nat) (t : Trade Q α) : Exchange Q α :=
  ⟨x.parties.set i t.party,x.held-t.takes+t.gives⟩

inductive Step (May : Q → Multiset α → Trade Q α → Prop) : Exchange Q α → Exchange Q α → Prop
  | trade {x : Exchange Q α} {i : Nat} {q : Q} {t : Trade Q α} (hi : x.parties[i]? = some q)
      (ht : May q x.held t) : Step May x (x.after i t)

def Run (May : Q → Multiset α → Trade Q α → Prop) : Exchange Q α → Exchange Q α → Prop :=
  Relation.ReflTransGen (Step May)

structure Balanced (home away : Q → Multiset α) (Fits : Q → Multiset α → Prop)
    (shares : List (Multiset α)) (x : Exchange Q α) : Prop where
  parties : List.Forall₂ Fits x.parties shares
  all : (x.parties.map fun q => home q+away q).sum+x.held=shares.sum
  nodup : shares.sum.Nodup

variable {home away : Q → Multiset α} {Fits : Q → Multiset α → Prop} {shares : List (Multiset α)}
  {x y : Exchange Q α} (h : x.Balanced home away Fits shares)
include h

omit [DecidableEq α] in
theorem Balanced.nodup_party {q : Q} (hq : q∈x.parties) : (home q+away q+x.held).Nodup := by
  have hle : home q+away q≤(x.parties.map fun q => home q+away q).sum :=
    le_sum_of_mem (mem_map.mpr ⟨q,hq,rfl⟩)
  refine nodup_of_le ?_ (h.all ▸ h.nodup)
  exact add_le_add hle (le_refl _)

theorem Balanced.after {i : Nat} {q : Q} {n : Multiset α} {t : Trade Q α}
    (hi : x.parties[i]? = some q)
    (hn : shares[i]? = some n) (hfits : Fits t.party n) (hle : t.takes≤x.held)
    (hmove : home t.party+away t.party+t.gives=home q+away q+t.takes) :
    (x.after i t).Balanced home away Fits shares := by
  refine ⟨forall₂_set_left h.parties hn hfits,?_,h.nodup⟩
  rw [← h.all,Exchange.after,sum_map_set_trade _ hi hmove,Multiset.sub_add_cancel hle]

theorem Balanced.run {May : Q → Multiset α → Trade Q α → Prop}
    (hmay : ∀ q n held t, Fits q n → (home q+away q+held).Nodup → May q held t →
      Fits t.party n ∧ t.takes≤held ∧ home t.party+away t.party+t.gives=home q+away q+t.takes)
    (hrun : x.Run May y) : y.Balanced home away Fits shares := by
  induction hrun with
  | refl => exact h
  | tail _ hstep ih =>
    cases hstep with
    | trade hi ht =>
      obtain ⟨n,hn,hfits⟩ := forall₂_get ih.parties hi
      obtain ⟨hfits',hle,hmove⟩ := hmay _ n _ _ hfits (ih.nodup_party (mem_of_getElem? hi)) ht
      exact ih.after hi hn hfits' hle hmove

theorem Balanced.count_eq_one (hhome : ∀ q n, Fits q n → home q≤n) {i : Nat} {q : Q}
    {n : Multiset α} (hi : x.parties[i]? = some q) (hn : shares[i]? = some n) {a : α} (ha : a∈n) :
    (home q+(x.parties.map away).sum+x.held).count a=1 := by
  have hall : ((x.parties.map fun q => home q+away q).sum+x.held).count a=1 := by
    rw [h.all]
    exact count_eq_one_of_mem h.nodup
      (mem_of_le (le_sum_of_mem (mem_of_getElem? hn)) ha)
  have hle := forall₂_map_left_iff.mpr (h.parties.imp hhome)
  have hmap : (x.parties.map home)[i]? = some (home q) := by rw [getElem?_map,hi,Option.map_some]
  rw [List.sum_map_add,count_add,count_add,count_sum_of_share hle h.nodup hmap hn ha] at hall
  rw [count_add,count_add,hall]

end Exchange

end Packetio.Lib

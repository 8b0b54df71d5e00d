import Mathlib.Data.List.Perm.Basic
import Mathlib.Data.List.Sort

/-! The order in which processors are handed out (internal/affinity, packedCPUs): one per core,
cache complex by cache complex, and then the other threads of those cores. -/
namespace Packetio.Affinity
open List

structure Topology where
  onlineCPUs : List Nat
  siblings : Nat → List Nat
  sharedCPUs : Nat → Nat → List Nat
  cpuNode : Nat → Int
  deviceNode : Int

structure Complex where
  lead : Nat
  node : Int
  cores : List Nat := []
  sibs : List Nat := []

def Complex.addCore (c : Nat) (cx : Complex) : Complex := { cx with cores := cx.cores++[c] }

def Complex.addSib (c : Nat) (cx : Complex) : Complex := { cx with sibs := cx.sibs++[c] }

structure Scan where
  complexes : List Complex := []
  seenCore : List Nat := []
  leadComplex : Nat → Nat := fun _ => 0
  strayS : List Nat := []

namespace Scan
variable (s : Scan)

def keys : List Nat := s.complexes.map Complex.lead

def change (key : Nat) (f : Complex → Complex) : Scan :=
  { s with complexes := s.complexes.map fun cx => if cx.lead=key then f cx else cx }

def opened (key : Nat) (node : Int) : Scan :=
  if key∈s.keys then s else { s with complexes := s.complexes++[{ lead := key, node }] }

end Scan

namespace Topology
variable (t : Topology)

def sharedCacheCPUs (cpu : Nat) : List Nat :=
  (([4,3,2,1,0].map (t.sharedCPUs cpu)).find? (1<·.length)).getD []

def lead (c : Nat) : Nat := (t.siblings c).headD c

def key (c : Nat) : Nat := (t.sharedCacheCPUs c).headD c

def look (s : Scan) (c : Nat) : Scan :=
  let lead := t.lead c
  if lead≠c then
    if s.leadComplex lead∈s.keys then s.change (s.leadComplex lead) (.addSib c)
    else { s with strayS := s.strayS++[c] }
  else if lead∈s.seenCore then s
  else
    let key := t.key c
    let s := s.opened key (t.cpuNode c)
    { s.change key (.addCore c) with
      seenCore := lead::s.seenCore
      leadComplex := Function.update s.leadComplex lead key }

def lookAgain (s : Scan) (c : Nat) : Scan :=
  match t.siblings c with
  | [] => s
  | lead::_ => if s.leadComplex lead∈s.keys then s.change (s.leadComplex lead) (.addSib c) else s

def before (a b : Complex) : Bool :=
  if 0≤t.deviceNode ∧ (a.node==t.deviceNode) != (b.node==t.deviceNode) then a.node==t.deviceNode
  else if a.cores.length≠b.cores.length then b.cores.length<a.cores.length
  else a.lead<b.lead

def usable (allowed : Option (Nat → Bool)) : List Nat :=
  t.onlineCPUs.filter fun c => allowed.all (· c)

def packedCPUs (allowed : Option (Nat → Bool)) : List Nat × String :=
  let s := (t.usable allowed).foldl t.look {}
  let s := s.strayS.foldl t.lookAgain s
  if s.complexes.isEmpty then ([],"")
  else
    let complexes := s.complexes.insertionSort fun a b => !t.before b a
    let cores := complexes.flatMap (·.cores.insertionSort (·≤·))
    let sibs := complexes.flatMap (·.sibs.insertionSort (·≤·))
    let note := s!"{cores.length} cores over {complexes.length} cache complexes"
    let note := if 0<sibs.length then note++s!", then {sibs.length} sibling threads" else note
    let note := if 0≤t.deviceNode then note++s!", card on memory node {t.deviceNode}" else note
    (cores++sibs,note)

def group (c : Nat) : List Nat := if t.sharedCacheCPUs c=[] then [c] else t.sharedCacheCPUs c

structure Consistent : Prop where
  online : t.onlineCPUs.Nodup
  own : ∀ c∈t.onlineCPUs, c∈t.siblings c
  core : ∀ c∈t.onlineCPUs, ∀ d∈t.siblings c, t.siblings d=t.siblings c
  cache : ∀ c∈t.onlineCPUs, ∀ d∈t.group c, t.group d=t.group c

end Topology

/-! The scan -/

section
variable {s : Scan} {k c : Nat} {f : Complex → Complex}

theorem change_keys (hf : ∀ cx, (f cx).lead=cx.lead) : (s.change k f).keys=s.keys := by
  rw [Scan.keys,Scan.keys,Scan.change,map_map]
  refine map_congr_left fun cx _ => ?_
  change (if cx.lead=k then f cx else cx).lead=cx.lead
  split
  · exact hf cx
  · rfl

theorem change_same {g : Complex → List Nat} (hg : ∀ cx, g (f cx)=g cx) :
    (s.change k f).complexes.flatMap g=s.complexes.flatMap g := by
  rw [Scan.change,flatMap_map]
  refine flatMap_congr fun cx _ => ?_
  split
  · exact hg cx
  · rfl

theorem change_adds {g : Complex → List Nat} (hg : ∀ cx, g (f cx)=g cx++[c]) (hnd : s.keys.Nodup)
    (hk : k∈s.keys) : (s.change k f).complexes.flatMap g ~ s.complexes.flatMap g++[c] := by
  rw [Scan.keys] at hnd hk
  rw [Scan.change]
  generalize s.complexes=l at hnd hk ⊢
  induction l with
  | nil => cases hk
  | cons cx l ih =>
    rw [map_cons,nodup_cons] at hnd
    rw [map_cons,mem_cons] at hk
    rw [map_cons,flatMap_cons,flatMap_cons,append_assoc]
    by_cases hcx : cx.lead=k
    · have hrest : (l.map fun cx => if cx.lead=k then f cx else cx)=l := by
        refine (map_congr_left fun x hx => if_neg fun hxk => hnd.1 ?_).trans (map_id l)
        rw [hcx,← hxk]
        exact mem_map_of_mem hx
      rw [if_pos hcx,hg,hrest,append_assoc]
      exact perm_append_comm.append_left _
    · rw [if_neg hcx]
      exact (ih hnd.2 (hk.resolve_left fun he => hcx he.symm)).append_left _

theorem opened_rest (s : Scan) (key : Nat) (node : Int) :
    (∀ k, k∈(s.opened key node).keys ↔ k∈s.keys ∨ k=key) ∧
      (s.opened key node).complexes.flatMap Complex.sibs=s.complexes.flatMap Complex.sibs ∧
      (s.opened key node).leadComplex=s.leadComplex := by
  rw [Scan.opened]
  split
  case isTrue hin => exact ⟨fun k => ⟨.inl,fun h => h.elim id (· ▸ hin)⟩,rfl,rfl⟩
  case isFalse => simp [Scan.keys]

end

variable {t : Topology}

structure Scanned (t : Topology) (xs : List Nat) (s : Scan) : Prop where
  keys : s.keys.Nodup
  cores : s.complexes.flatMap Complex.cores ~ xs.filter fun c => t.lead c=c
  sibs : s.complexes.flatMap Complex.sibs++s.strayS ~ xs.filter fun c => t.lead c≠c
  keyed : ∀ cx∈s.complexes, ∀ c∈cx.cores, t.key c=cx.lead
  seen : ∀ c∈s.seenCore, c∈xs
  placed : ∀ c∈xs, t.lead c=c → s.leadComplex c=t.key c ∧ t.key c∈s.keys

namespace Scanned
variable {xs : List Nat} {s : Scan} {c k : Nat} (h : Scanned t xs s)
include h

theorem addSib {ys l : List Nat} (hk : k∈s.keys) (hin : ∀ c∈xs, c∈ys)
    (hcores : (ys.filter fun c => t.lead c=c)=xs.filter fun c => t.lead c=c)
    (hsibs : s.complexes.flatMap Complex.sibs++[c]++l ~ ys.filter fun c => t.lead c≠c) :
    Scanned t ys { s.change k (.addSib c) with strayS := l } := by
  have hkeys : (s.change k (.addSib c)).keys=s.keys := change_keys fun _ => rfl
  have hsame : (s.change k (.addSib c)).complexes.flatMap Complex.cores=_ :=
    change_same fun _ => rfl
  constructor
  case keys => exact hkeys ▸ h.keys
  case cores => exact (Perm.of_eq hsame).trans (hcores ▸ h.cores)
  case sibs => exact ((change_adds (fun _ => rfl) h.keys hk).append_right l).trans hsibs
  case keyed =>
    intro cx hcx
    obtain ⟨old,hold,rfl⟩ := mem_map.mp hcx
    split
    · exact h.keyed old hold
    · exact h.keyed old hold
  case seen => exact fun d hd => hin d (h.seen d hd)
  case placed =>
    intro d hd hlead
    have hmem : d∈ys.filter fun c => t.lead c=c := mem_filter.mpr ⟨hd,by simpa using hlead⟩
    rw [hcores] at hmem
    obtain ⟨hmap,hkey⟩ := h.placed d (mem_filter.mp hmem).1 hlead
    exact ⟨hmap,hkeys.symm ▸ hkey⟩

theorem opened (key : Nat) (node : Int) :
    Scanned t xs (s.opened key node) ∧ key∈(s.opened key node).keys := by
  rw [Scan.opened]
  split
  case isTrue hin => exact ⟨h,hin⟩
  rename_i hout
  have hkeys : Scan.keys { s with complexes := s.complexes++[{ lead := key, node }] } =
    s.keys++[key] :=
    map_append
  refine ⟨⟨?_,?_,?_,?_,h.seen,?_⟩,?_⟩
  · rw [hkeys,← concat_eq_append]
    exact h.keys.concat hout
  · simpa using h.cores
  · simpa using h.sibs
  · intro cx hcx c hc
    rcases mem_append.mp hcx with hold | hnew
    · exact h.keyed cx hold c hc
    · rw [mem_singleton.mp hnew] at hc
      cases hc
  · intro d hd hlead
    obtain ⟨hmap,hkey⟩ := h.placed d hd hlead
    exact ⟨hmap,hkeys.symm ▸ mem_append_left _ hkey⟩
  · rw [hkeys]
    exact mem_append_right _ (mem_singleton_self key)

theorem addCore (hk : t.key c∈s.keys) (hc : t.lead c=c) : Scanned t (xs++[c])
    { s.change (t.key c) (.addCore c) with
      seenCore := c::s.seenCore, leadComplex := Function.update s.leadComplex c (t.key c) } := by
  have hkeys : (s.change (t.key c) (.addCore c)).keys=s.keys := change_keys fun _ => rfl
  have hsame : (s.change (t.key c) (.addCore c)).complexes.flatMap Complex.sibs=_ :=
    change_same fun _ => rfl
  constructor
  case keys => exact hkeys ▸ h.keys
  case cores =>
    refine (change_adds (fun _ => rfl) h.keys hk).trans ?_
    rw [filter_append,filter_singleton,decide_eq_true hc]
    exact h.cores.append_right _
  case sibs =>
    refine (Perm.of_eq (congrArg (·++s.strayS) hsame)).trans (h.sibs.trans ?_)
    rw [filter_append,filter_singleton,decide_eq_false (not_not.mpr hc)]
    exact Perm.of_eq (append_nil _).symm
  case keyed =>
    intro cx hcx
    obtain ⟨old,hold,rfl⟩ := mem_map.mp hcx
    split
    case isTrue hlead =>
      intro d hd
      rcases mem_append.mp hd with hd | hd
      · exact h.keyed old hold d hd
      · rw [mem_singleton.mp hd]
        exact hlead.symm
    case isFalse => exact h.keyed old hold
  case seen =>
    intro d hd
    rcases mem_cons.mp hd with rfl | hd
    · exact mem_append_right _ (mem_singleton_self d)
    · exact mem_append_left _ (h.seen d hd)
  case placed =>
    intro d hd hlead
    change Function.update s.leadComplex c (t.key c) d=_ ∧ _∈(s.change (t.key c) (.addCore c)).keys
    rw [hkeys]
    by_cases hdc : d=c
    · rw [hdc,Function.update_self]
      exact ⟨rfl,hk⟩
    · rw [Function.update_of_ne hdc]
      exact h.placed d ((mem_append.mp hd).resolve_right (hdc ∘ mem_singleton.mp)) hlead

theorem look (hc : c∉xs) : Scanned t (xs++[c]) (t.look s c) := by
  rw [Topology.look]
  split
  case isTrue hne =>
    have hcores : ((xs++[c]).filter fun c => t.lead c=c)=xs.filter fun c => t.lead c=c := by
      rw [filter_append,filter_singleton,decide_eq_false hne]
      exact append_nil _
    have hsibs : s.complexes.flatMap Complex.sibs++s.strayS++[c] ~
        (xs++[c]).filter fun c => t.lead c≠c := by
      rw [filter_append,filter_singleton,decide_eq_true hne]
      exact h.sibs.append_right _
    split
    case isTrue hk =>
      refine h.addSib hk (fun _ => mem_append_left _) hcores (.trans ?_ hsibs)
      rw [append_assoc,append_assoc]
      exact perm_append_comm.append_left _
    refine ⟨h.keys,hcores ▸ h.cores,(append_assoc _ _ _) ▸ hsibs,h.keyed,
      fun d hd => mem_append_left _ (h.seen d hd),fun d hd hlead => ?_⟩
    refine h.placed d ((mem_append.mp hd).resolve_right fun hdc => hne ?_) hlead
    rw [← mem_singleton.mp hdc,hlead]
  case isFalse heq =>
    have heq : t.lead c=c := not_not.mp heq
    rw [heq,if_neg fun hseen => hc (h.seen c hseen)]
    obtain ⟨hopened,hk⟩ := h.opened (t.key c) (t.cpuNode c)
    exact hopened.addCore hk heq

end Scanned

/-- A core whose first processor is not usable has complex 0, if there is one. -/
structure Homed (t : Topology) (xs : List Nat) (s : Scan) : Prop where
  opened : ∀ k∈s.keys, ∃ d∈xs, t.lead d=d ∧ t.key d=k
  unled : ∀ d, (d∈xs → t.lead d≠d) → s.leadComplex d=0
  homed : ∀ c∈s.complexes.flatMap Complex.sibs, s.leadComplex (t.lead c)∈s.keys

theorem Homed.look {xs : List Nat} {s : Scan} {c : Nat} (h : Homed t xs s) (hs : Scanned t xs s)
    (hc : c∉xs) : Homed t (xs++[c]) (t.look s c) := by
  have hopen (k : Nat) (hk : k∈s.keys) : ∃ d∈xs++[c], t.lead d=d ∧ t.key d=k := by
    obtain ⟨d,hd,hkey⟩ := h.opened k hk
    exact ⟨d,mem_append_left _ hd,hkey⟩
  have hunled (d : Nat) (hd : d∈xs++[c] → t.lead d≠d) : s.leadComplex d=0 :=
    h.unled d fun hin => hd (mem_append_left _ hin)
  rw [Topology.look]
  split
  case isTrue =>
    split
    case isTrue hk =>
      have hkeys : (s.change (s.leadComplex (t.lead c)) (.addSib c)).keys=s.keys :=
        change_keys fun _ => rfl
      refine ⟨hkeys.symm ▸ hopen,hunled,fun x hx => hkeys.symm ▸ ?_⟩
      rcases mem_append.mp ((change_adds (fun _ => rfl) hs.keys hk).subset hx) with hold | hnew
      · exact h.homed x hold
      · rwa [mem_singleton.mp hnew]
    case isFalse => exact ⟨hopen,hunled,h.homed⟩
  rename_i heq
  have heq : t.lead c=c := not_not.mp heq
  rw [heq,if_neg fun hseen => hc (hs.seen c hseen)]
  obtain ⟨hkeys,hsibs,hled⟩ := opened_rest s (t.key c) (t.cpuNode c)
  have hchange : ((s.opened (t.key c) (t.cpuNode c)).change (t.key c) (.addCore c)).keys=_ :=
    change_keys fun _ => rfl
  refine ⟨fun k hk => ?_,fun d hd => ?_,fun x hx => ?_⟩
  · rcases (hkeys k).mp (hchange ▸ hk) with hold | rfl
    · exact hopen k hold
    · exact ⟨c,mem_append_right _ (mem_singleton_self c),heq,rfl⟩
  · have hdc : d≠c := by
      rintro rfl
      exact hd (mem_append_right _ (mem_singleton_self d)) heq
    exact (Function.update_of_ne hdc ..).trans (hled ▸ hunled d hd)
  · refine hchange.symm ▸ (hkeys _).mpr ?_
    have hsame :
      ((s.opened (t.key c) (t.cpuNode c)).change (t.key c) (.addCore c)).complexes.flatMap
      Complex.sibs=_ := change_same fun _ => rfl
    have hx : x∈s.complexes.flatMap Complex.sibs := hsibs ▸ hsame ▸ hx
    by_cases hxc : t.lead x=c
    · exact .inr (by rw [hxc]; exact Function.update_self ..)
    refine .inl ?_
    change Function.update (s.opened _ _).leadComplex c _ (t.lead x)∈_
    rw [Function.update_of_ne hxc,hled]
    exact h.homed x hx

theorem scanned_all (xs ys : List Nat) (s : Scan) (hnd : (xs++ys).Nodup)
    (h : Scanned t xs s ∧ Homed t xs s) :
    Scanned t (xs++ys) (ys.foldl t.look s) ∧ Homed t (xs++ys) (ys.foldl t.look s) := by
  induction ys generalizing xs s with
  | nil => exact (append_nil xs).symm ▸ h
  | cons c ys ih =>
    have hc : c∉xs := fun hc => (nodup_append.mp hnd).2.2 c hc c mem_cons_self rfl
    rw [foldl_cons,append_cons] at *
    exact ih _ _ hnd ⟨h.1.look hc,h.2.look h.1 hc⟩

/-- The second loop places the strays whose complex exists and drops the others. -/
theorem strays_placed {xs : List Nat} (r l : List Nat) (s : Scan)
    (h : Scanned t xs { s with strayS := r++l }) :
    Scanned t xs { l.foldl t.lookAgain s with
      strayS := r++l.filter fun c => s.leadComplex (t.lead c)∉s.keys } := by
  induction l generalizing r s with
  | nil => exact h
  | cons c l ih =>
    have hmem : c∈xs.filter fun c => t.lead c≠c :=
      h.sibs.subset (mem_append_right _ (mem_append_right _ mem_cons_self))
    have hagain : t.lookAgain s c=if s.leadComplex (t.lead c)∈s.keys then
        s.change (s.leadComplex (t.lead c)) (.addSib c) else s := by
      rw [Topology.lookAgain]
      cases hs : t.siblings c with
      | nil => simp [Topology.lead,hs] at hmem
      | cons d ds => rw [Topology.lead,hs]; rfl
    rw [foldl_cons,hagain,filter_cons]
    by_cases hk : s.leadComplex (t.lead c)∈s.keys
    · have hkeys : (s.change (s.leadComplex (t.lead c)) (.addSib c)).keys=s.keys :=
        change_keys fun _ => rfl
      have hrest :=
        ih r (s.change (s.leadComplex (t.lead c)) (.addSib c)) (h.addSib hk (fun _ => id) rfl ?_)
      · rw [hkeys] at hrest
        rwa [if_pos hk,decide_eq_false (not_not.mpr hk)]
      · refine .trans ?_ h.sibs
        rw [append_assoc]
        exact (@perm_middle _ _ r _).symm.append_left _
    · have hrest := ih (r++[c]) s (append_cons r c l ▸ h)
      simpa [hk] using hrest

/-! The list -/

structure Packs (t : Topology) (usable : List Nat) (blocks : List (List Nat)) (sibs : List Nat) :
    Prop where
  all : blocks.flatten++sibs ~ usable
  first : ∀ c∈usable, ∃! d, d∈blocks.flatten ∧ d∈t.siblings c
  together : ∀ b∈blocks, ∀ x∈b, ∀ y∈b, t.group x=t.group y
  apart : blocks.Pairwise fun b b' => ∀ x∈b, ∀ y∈b', t.group x≠t.group y

def Topology.Represented (t : Topology) (allowed : Option (Nat → Bool)) : Prop :=
  ∀ c∈t.usable allowed, t.lead c∈t.usable allowed

theorem group_head (c : Nat) : (t.group c).head?=some (t.key c) := by
  rw [Topology.group,Topology.key]
  cases t.sharedCacheCPUs c with
  | nil | cons _ _ => rfl

namespace Topology.Consistent
variable (ht : t.Consistent) {c : Nat} (hc : c∈t.onlineCPUs)
include ht hc

theorem lead_mem : t.lead c∈t.siblings c := by
  have hown := ht.own c hc
  rw [lead]
  cases hs : t.siblings c with
  | nil => simp [hs] at hown
  | cons d ds => exact mem_cons_self

theorem lead_eq {d : Nat} (hd : d∈t.siblings c) : t.lead d=t.lead c := by
  rw [lead,ht.core c hc d hd,lead]
  cases hs : t.siblings c with
  | nil => simp [hs] at hd
  | cons e es => rfl

end Topology.Consistent

theorem sorted_flatMap {l cxs : List Complex} (h : cxs ~ l) (g : Complex → List Nat) :
    cxs.flatMap (fun cx => (g cx).insertionSort (·≤·)) ~ l.flatMap g :=
  h.flatMap fun cx _ => perm_insertionSort _ (g cx)

section
variable {usable : List Nat} {s : Scan} (h : Scanned t usable s) {cxs : List Complex}
include h

theorem Scanned.placedAll (hhome : Homed t usable s)
    (hself : ∀ c∈usable, t.lead (t.lead c)=t.lead c) :
    (∀ c∈s.strayS, s.leadComplex (t.lead c)∈s.keys) ↔
      (∀ c∈usable, t.lead c∈usable) ∨ ∃ d∈usable, t.lead d=d ∧ t.key d=0 := by
  constructor
  · intro hall
    rw [or_iff_not_imp_left]
    intro hno
    push Not at hno
    obtain ⟨c,hc,hlead⟩ := hno
    have hzero : s.leadComplex (t.lead c)=0 := hhome.unled _ fun hin => absurd hin hlead
    have hne : t.lead c≠c := fun heq => hlead (heq.symm ▸ hc)
    have hmem := h.sibs.symm.subset (mem_filter.mpr ⟨hc,decide_eq_true hne⟩)
    refine hhome.opened 0 (hzero ▸ ?_)
    exact (mem_append.mp hmem).elim (hhome.homed c) (hall c)
  · intro hor c hc
    have hin := (mem_filter.mp (h.sibs.subset (mem_append_right _ hc))).1
    by_cases hlead : t.lead c∈usable
    · obtain ⟨hmap,hkey⟩ := h.placed _ hlead (hself c hin)
      exact hmap.symm ▸ hkey
    obtain ⟨d,hd,hdlead,hzero⟩ := hor.resolve_left fun hrep => hlead (hrep c hin)
    rw [hhome.unled _ fun hin => absurd hin hlead,← hzero]
    exact (h.placed d hd hdlead).2

theorem Scanned.listed (hcxs : cxs ~ s.complexes) :
    (cxs.map fun cx => cx.cores.insertionSort (·≤·)).flatten++
      cxs.flatMap (fun cx => cx.sibs.insertionSort (·≤·)) ~ usable ↔ s.strayS=[] := by
  have hcores := (sorted_flatMap hcxs Complex.cores).trans h.cores
  have hsibs := ((sorted_flatMap hcxs Complex.sibs).append_right s.strayS).trans h.sibs
  have hall :=
    (hcores.append hsibs).trans (by simpa using filter_append_perm (fun c => t.lead c=c) usable)
  rw [← append_assoc,flatMap_def] at hall
  constructor
  · intro hperm
    have hlen := hall.length_eq
    rw [length_append,hperm.length_eq] at hlen
    exact length_eq_zero_iff.mp (by omega)
  · intro hno
    rwa [hno,append_nil] at hall

theorem Scanned.packs (hno : s.strayS=[])
    (ht : t.Consistent) (hon : ∀ c∈usable, c∈t.onlineCPUs) (hrep : ∀ c∈usable, t.lead c∈usable)
    (hcxs : cxs ~ s.complexes) : Packs t usable (cxs.map fun cx => cx.cores.insertionSort (·≤·))
      (cxs.flatMap fun cx => cx.sibs.insertionSort (·≤·)) := by
  have hcores := (sorted_flatMap hcxs Complex.cores).trans h.cores
  have hkey {cx : Complex} (hcx : cx∈cxs) {x : Nat} (hx : x∈cx.cores.insertionSort (·≤·)) :
      t.key x=cx.lead ∧ t.group x=t.group cx.lead := by
    have hmem := (perm_insertionSort _ _).subset hx
    have hin : x∈usable :=
      (mem_filter.mp (h.cores.subset (mem_flatMap_of_mem (hcxs.subset hcx) hmem))).1
    have hlead := h.keyed cx (hcxs.subset hcx) x hmem
    rw [← hlead]
    exact ⟨rfl,(ht.cache x (hon x hin) _ (mem_of_mem_head? (group_head x))).symm⟩
  constructor
  case all => exact (h.listed hcxs).mpr hno
  case first =>
    intro c hc
    have hself := ht.lead_eq (hon c hc) (ht.lead_mem (hon c hc))
    refine ⟨t.lead c,⟨hcores.symm.subset ?_,ht.lead_mem (hon c hc)⟩,fun d hd => ?_⟩
    · exact mem_filter.mpr ⟨hrep c hc,decide_eq_true hself⟩
    · rw [← ht.lead_eq (hon c hc) hd.2]
      exact (of_decide_eq_true (mem_filter.mp (hcores.subset hd.1)).2).symm
  case together =>
    intro b hb x hx y hy
    obtain ⟨cx,hcx,rfl⟩ := mem_map.mp hb
    rw [(hkey hcx hx).2,(hkey hcx hy).2]
  case apart =>
    have hnd : (cxs.map Complex.lead).Nodup := (hcxs.map _).nodup_iff.mpr h.keys
    refine pairwise_map.mpr
      ((pairwise_map.mp hnd).imp_of_mem fun hcx hcx' hne x hx y hy hxy => hne ?_)
    have hheads := group_head (t := t) x
    rw [hxy,group_head] at hheads
    rw [← (hkey hcx hx).1,← (hkey hcx' hy).1,Option.some_inj.mp hheads]

end

theorem packedCPUs_complexes (t : Topology) (allowed : Option (Nat → Bool)) {s : Scan}
    (hs : (t.usable allowed).foldl t.look {}=s) :
    ∃ cxs, cxs ~ (s.strayS.foldl t.lookAgain s).complexes ∧ (t.packedCPUs allowed).1 =
      (cxs.map fun cx => cx.cores.insertionSort (·≤·)).flatten++
        cxs.flatMap fun cx => cx.sibs.insertionSort (·≤·) := by
  simp only [Topology.packedCPUs,hs]
  split
  case isTrue hnil => exact ⟨[],Perm.of_eq (isEmpty_iff.mp hnil).symm,rfl⟩
  case isFalse => exact ⟨_,perm_insertionSort (fun a b => !t.before b a) _,by rw [← flatMap_def]⟩

/-- Every usable processor is listed exactly where each usable core has its first processor usable
or there is a complex 0; in the first case the cores come first, packed by complex. -/
theorem packedCPUs_lists (t : Topology) (ht : t.Consistent) (allowed : Option (Nat → Bool)) :
    ((t.packedCPUs allowed).1 ~ t.usable allowed ↔
      t.Represented allowed ∨ ∃ d∈t.usable allowed, t.lead d=d ∧ t.key d=0) ∧
    (t.Represented allowed → ∃ blocks sibs,
      (t.packedCPUs allowed).1=blocks.flatten++sibs ∧ Packs t (t.usable allowed) blocks sibs) := by
  have hon (c : Nat) (hc : c∈t.usable allowed) : c∈t.onlineCPUs := (mem_filter.mp hc).1
  obtain ⟨s,hs⟩ : ∃ s, (t.usable allowed).foldl t.look {}=s := ⟨_,rfl⟩
  obtain ⟨hscan,hhome⟩ : Scanned t (t.usable allowed) s ∧ Homed t (t.usable allowed) s := by
    rw [← hs]
    refine scanned_all [] _ {} (ht.online.filter _) ⟨⟨nodup_nil,?_,?_,?_,?_,?_⟩,⟨?_,?_,?_⟩⟩
    all_goals simp [Scan.keys]
  obtain ⟨cxs,hcxs,hout⟩ := packedCPUs_complexes t allowed hs
  have hagain := strays_placed [] s.strayS s hscan
  have hall := hscan.placedAll hhome fun c hc => ht.lead_eq (hon c hc) (ht.lead_mem (hon c hc))
  refine ⟨hout ▸ (hagain.listed hcxs).trans (filter_eq_nil_iff.trans ?_),fun hrep => ?_⟩
  · simpa [Topology.Represented] using hall
  · refine ⟨_,_,hout,hagain.packs ?_ ht hon hrep hcxs⟩
    exact filter_eq_nil_iff.mpr (by simpa using hall.mpr (.inl hrep))

def twoCores : Topology where
  onlineCPUs := [0,1,2,3]
  siblings := fun c => [c%2,c%2+2]
  sharedCPUs := fun c level => if level=2 then [c%2,c%2+2] else []
  cpuNode := fun _ => 0
  deviceNode := -1

theorem twoCores_consistent : twoCores.Consistent := by
  constructor
  all_goals decide

theorem packedCPUs_lists_three : (twoCores.packedCPUs (some (·<3))).1 = [0,1,2] ∧
    ∃ blocks sibs, (twoCores.packedCPUs (some (·<3))).1=blocks.flatten++sibs ∧
      Packs twoCores [0,1,2] blocks sibs :=
  ⟨by decide,(packedCPUs_lists twoCores twoCores_consistent (some (·<3))).2
    (by unfold Topology.Represented; decide)⟩

theorem packedCPUs_drops : twoCores.Consistent ∧
    (∀ c∈twoCores.onlineCPUs, ∀ d∈twoCores.siblings c, d∈twoCores.group c) ∧
    twoCores.usable (some (0<·)) = [1,2,3] ∧ (twoCores.packedCPUs (some (0<·))).1 = [1,3] :=
  ⟨twoCores_consistent,by decide,by decide,by decide⟩

end Packetio.Affinity

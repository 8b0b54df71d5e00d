import Mathlib.Data.Fintype.Pi
import Mathlib.Data.List.AList
import Packetio.Match

/-! The IPv4-to-MAC table of the endpoint (neigh.go). A writer copies the table, with one
entry left out when it is full, and publishes the copy; the order in which a map hands out
its entries is the runtime's. -/
namespace Packetio.Netstack
open List

abbrev IPv4 := Fin 4 → UInt8

structure Neighbor where
  mac : MAC
  pinned : Bool := false
  deriving DecidableEq

abbrev Table := AList fun _ : IPv4 => Neighbor

abbrev Entry := Sigma fun _ : IPv4 => Neighbor

structure Neighbors where
  lastWrite : Int64 := 0
  m : Table := ∅

def newNeighbors : Neighbors := {}

def maxNeighbors : Nat := 4096

def writeInterval : Int64 := 10000000

structure Change where
  changed : Bool := false
  evicted : Option IPv4 := none
  deriving DecidableEq

structure Copying where
  m : Table := ∅
  evict : Bool
  evicted : Option IPv4 := none

def copyTable : List Entry → Copying → Copying
  | [], c => c
  | ⟨k,v⟩::rest, c =>
    if c.evict && !v.pinned then copyTable rest { c with evict := false, evicted := some k }
    else copyTable rest { c with m := c.m.insert k v }

namespace Neighbors

def size (n : Neighbors) : Nat := n.m.entries.length

def lookup (n : Neighbors) (ip : IPv4) : Option MAC := (n.m.lookup ip).map Neighbor.mac

/-- Under the lock, at time `now`; `order` is how the old table is handed out. -/
def write (n : Neighbors) (order : List Entry) (now : Int64) (ip : IPv4) (nb : Neighbor) :
    Neighbors × Change :=
  let known := n.m.lookup ip
  if known=some nb then (n,{})
  else if known.any (·.pinned) && !nb.pinned then (n,{})
  else
    let evict := known.isNone && decide (maxNeighbors≤n.size)
    if !nb.pinned && (known.isSome || evict) && decide (now-n.lastWrite<writeInterval) then (n,{})
    else
      let c := copyTable order { evict := evict }
      -- every entry is pinned: nothing to make room with
      if c.evict then (n,{})
      else ({ lastWrite := now, m := c.m.insert ip nb },{ changed := true, evicted := c.evicted })

/-- `seen` is the table as it was when learn looked at it outside of the lock, at time
`looked`; others may have written since. -/
def learn (seen n : Neighbors) (order : List Entry) (looked now : Int64) (ip : IPv4) (mac : MAC) :
    Neighbors × Change :=
  let known := seen.m.lookup ip
  if known.any fun nb => decide (nb.mac=mac) || nb.pinned then (n,{})
  else if (known.isSome || decide (maxNeighbors ≤ seen.size)) &&
      decide (looked-seen.lastWrite<writeInterval) then (n,{})
  else n.write order now ip { mac := mac }

def pin (n : Neighbors) (order : List Entry) (now : Int64) (ip : IPv4) (mac : MAC) :
    Neighbors × Change :=
  n.write order now ip { mac := mac, pinned := true }

end Neighbors

structure BadNeighbor where
  ip : Option IPAddr
  mac : List UInt8

def Neighbors.addNeighbor (n : Neighbors) (order : List Entry) (now : Int64) (ip : Option IPAddr)
    (mac : List UInt8) : Neighbors × Except BadNeighbor Unit :=
  match ip with
  | some (.v4 a) =>
    if h : mac.length=6 then ((n.pin order now a fun i => mac.get (i.cast h.symm)).1,.ok ())
    else (n,.error ⟨ip,mac⟩)
  | _ => (n,.error ⟨ip,mac⟩)

/-! Copies -/

theorem copyTable_evict (l : List Entry) (c : Copying) :
    (copyTable l c).evict=(c.evict && l.all fun e => e.2.pinned) := by
  induction l generalizing c with
  | nil => simp [copyTable]
  | cons e l ih =>
    obtain ⟨k,v⟩ := e
    rw [copyTable,all_cons]
    cases hevict : c.evict with
    | false => simp [ih]
    | true =>
      cases hpin : v.pinned with
      | false | true => simp [ih]

variable {l : List Entry} {nb : Neighbor} {c : Copying} {now : Int64} {next : Neighbors}
  {r : Change}

theorem copyTable_lookup_other {ip : IPv4} (h : ip∉l.keys) (c : Copying) :
    (copyTable l c).m.lookup ip=c.m.lookup ip := by
  induction l generalizing c with
  | nil => rfl
  | cons e l ih =>
    rw [keys_cons,mem_cons,not_or] at h
    rw [copyTable]
    split
    case isTrue => rw [ih h.2]
    case isFalse => rw [ih h.2,AList.lookup_insert_ne h.1]

theorem copyTable_pinned {ip : IPv4} (hpin : nb.pinned=true)
    (hl : l.NodupKeys) (h : ⟨ip,nb⟩∈l) (c : Copying) : (copyTable l c).m.lookup ip=some nb := by
  induction l generalizing c with
  | nil => cases h
  | cons e l ih =>
    obtain ⟨hk,hl⟩ := nodupKeys_cons.mp hl
    rw [copyTable]
    cases mem_cons.mp h with
    | inl heq =>
      cases heq
      rw [hpin,Bool.not_true,Bool.and_false,if_neg (by simp),copyTable_lookup_other hk,
        AList.lookup_insert]
    | inr hmem =>
      split
      case isTrue | isFalse => exact ih hl hmem _

theorem insert_fresh {m : Table} {k : IPv4} {v : Neighbor} (hk : k∉l.keys)
    (hnew : ∀ e∈⟨k,v⟩::l, e.1∉m) : ∀ e∈l, e.1∉m.insert k v := by
  intro e he hmem
  cases (AList.mem_insert m).mp hmem with
  | inl heq =>
    have hkey : e.1∈l.keys := mem_map_of_mem he
    exact hk (heq ▸ hkey)
  | inr hmem => exact hnew e (mem_cons_of_mem _ he) hmem

theorem copyTable_entries (hl : l.NodupKeys) (hroom : c.evict=false)
    (hnew : ∀ e∈l, e.1∉c.m) : (copyTable l c).m.entries=l.reverse++c.m.entries := by
  induction l generalizing c with
  | nil => rfl
  | cons e l ih =>
    obtain ⟨k,v⟩ := e
    obtain ⟨hk,hl⟩ := nodupKeys_cons.mp hl
    have hfresh : k∉c.m := hnew ⟨k,v⟩ mem_cons_self
    rw [copyTable,hroom,Bool.false_and,if_neg (by simp),ih hl rfl]
    · rw [AList.entries_insert_of_notMem hfresh,reverse_cons,append_assoc,singleton_append]
    · exact insert_fresh hk hnew

theorem copyTable_evicted (h : c.evict=false) : (copyTable l c).evicted=c.evicted := by
  induction l generalizing c with
  | nil => rfl
  | cons e l ih => rw [copyTable,h,Bool.false_and,if_neg (by simp),ih rfl]

theorem copyTable_kept (hl : l.NodupKeys) (hnone : c.evicted=none) (hnew : ∀ e∈l, e.1∉c.m) :
    ∃ kept, (copyTable l c).m.entries=kept.reverse++c.m.entries ∧
      ((copyTable l c).evicted=none ∧ (copyTable l c).evict=c.evict ∧ kept=l ∨
        ∃ k v, (copyTable l c).evicted=some k ∧ c.evict=true ∧ v.pinned=false ∧
          l.Perm (⟨k,v⟩::kept)) := by
  induction l generalizing c with
  | nil => exact ⟨[],rfl,.inl ⟨hnone,rfl,rfl⟩⟩
  | cons e l ih =>
    obtain ⟨k,v⟩ := e
    obtain ⟨hk,hl⟩ := nodupKeys_cons.mp hl
    have hfresh : k∉c.m := hnew ⟨k,v⟩ mem_cons_self
    rw [copyTable]
    split
    case isTrue hgoes =>
      rw [Bool.and_eq_true,Bool.not_eq_true'] at hgoes
      refine ⟨l,?_,.inr ⟨k,v,copyTable_evicted rfl,hgoes.1,hgoes.2,List.Perm.refl _⟩⟩
      exact copyTable_entries hl rfl fun e he => hnew e (mem_cons_of_mem _ he)
    obtain ⟨kept,hentries,hcase⟩ := ih hl (c := { c with m := c.m.insert k v }) hnone
      (insert_fresh hk hnew)
    refine ⟨⟨k,v⟩::kept,?_,?_⟩
    · rw [hentries,AList.entries_insert_of_notMem hfresh,reverse_cons,append_assoc,
        singleton_append]
    · rcases hcase with ⟨hev,he,hkept⟩ | ⟨k',v',hev,he,hfree,hperm⟩
      · exact .inl ⟨hev,he,by rw [hkept]⟩
      · exact .inr ⟨k',v',hev,he,hfree,(hperm.cons _).trans (List.Perm.swap _ _ _)⟩

/-! Writes -/

namespace Neighbors
variable {n : Neighbors} {order : List Entry} {ip ip' : IPv4} {mac : MAC}

def Pinned (n : Neighbors) (ip : IPv4) (mac : MAC) : Prop := n.m.lookup ip=some ⟨mac,true⟩

theorem Pinned.lookup (h : n.Pinned ip mac) : n.lookup ip=some mac := by
  rw [Neighbors.lookup,h,Option.map_some]

theorem entry_mem (ho : order.Perm n.m.entries) (h : n.m.lookup ip=some nb) :
    ⟨ip,nb⟩∈order := ho.mem_iff.mpr (AList.mem_lookup_iff.mp h)

theorem order_nodup (ho : order.Perm n.m.entries) : order.NodupKeys :=
  (perm_nodupKeys ho).mpr n.m.nodupKeys

structure Differs (old new : Table) (ip : IPv4) (nb : Neighbor) (evicted : Option IPv4) : Prop where
  news : old.lookup ip≠some nb
  entry : new.lookup ip=some nb
  gone : ∀ a, evicted=some a → new.lookup a=none ∧ ∃ v, old.lookup a=some v ∧ v.pinned=false
  rest : ∀ a, a≠ip → evicted≠some a → new.lookup a=old.lookup a

theorem insert_length (m : Table) (ip : IPv4) (nb : Neighbor) :
    (m.insert ip nb).entries.length=if ip∈m then m.entries.length else m.entries.length+1 := by
  have hlen : ∀ m : Table, m.entries.length=m.keys.length := fun m => (length_map _).symm
  rw [hlen,hlen,AList.keys_insert,length_cons]
  split
  case isTrue hmem => exact length_erase_add_one (AList.mem_keys.mp hmem)
  case isFalse hnot => rw [erase_of_not_mem fun hk => hnot (AList.mem_keys.mpr hk)]

theorem differs_all {m : Table} (hm : m.entries.Perm n.m.entries)
    (hnews : n.m.lookup ip≠some nb) : Differs n.m (m.insert ip nb) ip nb none where
  news := hnews
  entry := AList.lookup_insert _
  gone a ha := by cases ha
  rest a ha _ := by rw [AList.lookup_insert_ne ha,AList.perm_lookup hm]

theorem differs_one {m : Table} {v : Neighbor} {k : IPv4}
    (hm : n.m.entries.Perm (⟨k,v⟩::m.entries)) (hv : v.pinned=false) (hnew : n.m.lookup ip=none) :
    Differs n.m (m.insert ip nb) ip nb (some k) where
  news := by simp [hnew]
  entry := AList.lookup_insert _
  gone a ha := by
    cases ha
    have hold : n.m.lookup k=some v := AList.mem_lookup_iff.mpr (hm.mem_iff.mpr mem_cons_self)
    have hne : k≠ip := by
      intro heq
      rw [heq,hnew] at hold
      cases hold
    have hk := (nodupKeys_cons.mp ((perm_nodupKeys hm).mp n.m.nodupKeys)).1
    exact ⟨by rw [AList.lookup_insert_ne hne,AList.lookup_eq_none]; exact hk,v,hold,hv⟩
  rest a ha hk := by
    rw [AList.lookup_insert_ne ha]
    refine Option.ext fun v' => ?_
    rw [← Option.mem_def,← Option.mem_def,AList.mem_lookup_iff,AList.mem_lookup_iff,
      hm.mem_iff,mem_cons]
    refine ⟨.inr,fun h => h.resolve_left fun heq => ?_⟩
    cases heq
    exact hk rfl

structure Grown (n : Neighbors) (ip : IPv4) (m : Table) (evicted : Option IPv4) : Prop where
  same : (n.m.lookup ip).isSome=true ∨ evicted.isSome=true → m.entries.length=n.size
  more : (n.m.lookup ip).isSome=false → evicted.isSome=false →
    n.size < maxNeighbors ∧ m.entries.length=n.size+1

theorem Grown.bounds {m : Table} {evicted : Option IPv4} (h : Grown n ip m evicted) :
    n.size ≤ m.entries.length ∧ (n.size ≤ maxNeighbors → m.entries.length ≤ maxNeighbors) := by
  by_cases hold : (n.m.lookup ip).isSome=true ∨ evicted.isSome=true
  · have := h.same hold
    omega
  rw [not_or,Bool.not_eq_true,Bool.not_eq_true] at hold
  have := h.more hold.1 hold.2
  omega

theorem copied (ho : order.Perm n.m.entries)
    (hc : copyTable order { evict := (n.m.lookup ip).isNone && decide (maxNeighbors≤n.size) }=c)
    (hroom : ¬ c.evict=true) (hnews : n.m.lookup ip≠some nb) :
    Differs n.m (c.m.insert ip nb) ip nb c.evicted ∧ Grown n ip (c.m.insert ip nb) c.evicted := by
  obtain ⟨kept,hentries,hkept⟩ := copyTable_kept (order_nodup ho)
    (c := { evict := (n.m.lookup ip).isNone && decide (maxNeighbors≤n.size) }) rfl
    fun e _ => AList.notMem_empty e.1
  rw [hc] at hentries hkept
  have hperm : c.m.entries.Perm kept := by
    rw [hentries,AList.empty_entries,append_nil]
    exact reverse_perm kept
  rcases hkept with ⟨hev,hsame,hall⟩ | ⟨k,v,hev,hfull,hfree,hone⟩
  · rw [hall] at hperm
    have hm := hperm.trans ho
    have hsize : c.m.entries.length=n.size := hm.length_eq
    have hmem : ip∈c.m ↔ (n.m.lookup ip).isSome=true := by
      rw [← AList.lookup_isSome,AList.perm_lookup hm]
    rw [hev]
    refine ⟨differs_all hm hnews,fun hold => ?_,fun hno _ => ?_⟩
    · rw [insert_length,if_pos (hmem.mpr (by simpa using hold)),hsize]
    · rw [insert_length,if_neg (by rw [hmem,hno]; simp),hsize]
      rw [hsame,Option.isNone_iff_eq_none.mpr (by simpa using hno)] at hroom
      exact ⟨by simpa using hroom,rfl⟩
  rw [Bool.and_eq_true,Option.isNone_iff_eq_none] at hfull
  have hm := ho.symm.trans (hone.trans (hperm.symm.cons _))
  have hsize : n.size=c.m.entries.length+1 := hm.length_eq
  have hdiff : Differs n.m (c.m.insert ip nb) ip nb _ := differs_one hm hfree hfull.1
  have hnot : ip∉c.m := by
    intro hmem
    have hold : ip∈n.m := AList.mem_keys.mpr ((hm.map Sigma.fst).mem_iff.mpr (.tail _ hmem))
    exact AList.lookup_eq_none.mp hfull.1 hold
  rw [hev]
  refine ⟨hdiff,fun _ => ?_,nofun⟩
  rw [insert_length,if_neg hnot,hsize]

def Throttled (n : Neighbors) (now : Int64) (ip : IPv4) (nb : Neighbor)
    (evicted : Option IPv4) : Prop :=
  nb.pinned=false → (n.m.lookup ip).isSome=true ∨ evicted.isSome=true →
    ¬ now-n.lastWrite<writeInterval

section
variable (ho : order.Perm n.m.entries)
include ho

theorem write_cases (now : Int64) (ip : IPv4) (nb : Neighbor) :
    n.write order now ip nb=(n,{}) ∨ ∃ m evicted,
      n.write order now ip nb =
      ({ lastWrite := now, m := m },{ changed := true, evicted := evicted }) ∧
      Differs n.m m ip nb evicted ∧ Grown n ip m evicted ∧ n.Throttled now ip nb evicted := by
  rw [Neighbors.write]
  simp only
  split
  case isTrue => exact .inl rfl
  rename_i hnews
  split
  case isTrue => exact .inl rfl
  split
  case isTrue => exact .inl rfl
  rename_i hthrottle
  split
  case isTrue => exact .inl rfl
  rename_i hroom
  obtain ⟨hdiff,hgrown⟩ := copied ho rfl hroom hnews
  refine .inr ⟨_,_,rfl,hdiff,hgrown,fun hlearn hold hearly => hthrottle ?_⟩
  have hevict : (n.m.lookup ip).isSome=true ∨
      ((n.m.lookup ip).isNone && decide (maxNeighbors≤n.size))=true := by
    refine hold.imp_right fun hev => ?_
    by_contra hno
    rw [copyTable_evicted (by simpa using hno)] at hev
    cases hev
  rwa [hlearn,Bool.not_false,Bool.true_and,decide_eq_true hearly,Bool.and_true,Bool.or_eq_true]

section
variable (h : n.write order now ip nb=(next,r))
include h

theorem write_made (hr : r.changed=true) : next.lastWrite=now ∧ Differs n.m next.m ip nb r.evicted ∧
      Grown n ip next.m r.evicted ∧ n.Throttled now ip nb r.evicted := by
  rcases write_cases ho now ip nb with hsame | ⟨m,evicted,hchange,hdiff⟩
  · rw [hsame] at h
    cases h
    cases hr
  · rw [hchange] at h
    cases h
    exact ⟨rfl,hdiff⟩

theorem write_changed (hr : r.changed=true) :
    Differs n.m next.m ip nb r.evicted ∧ (n.size ≤ maxNeighbors → next.size ≤ maxNeighbors) := by
  obtain ⟨-,hdiff,hgrown,-⟩ := write_made ho h hr
  exact ⟨hdiff,hgrown.bounds.2⟩

theorem write_unchanged (hr : r.changed=false) : r = {} := by
  rcases write_cases ho now ip nb with hsame | ⟨m,evicted,hchange,-⟩
  · rw [hsame] at h
    exact (congrArg Prod.snd h).symm
  · rw [hchange] at h
    cases h
    cases hr

end

end

theorem Pinned.write (h : n.Pinned ip mac) (ho : order.Perm n.m.entries) (now : Int64)
    (hother : ip'=ip → nb.pinned=false) : (n.write order now ip' nb).1.Pinned ip mac := by
  rw [Neighbors.write]
  simp only
  split
  case isTrue => exact h
  split
  case isTrue => exact h
  rename_i hlearn
  split
  case isTrue => exact h
  split
  case isTrue => exact h
  have hne : ip≠ip' := by
    intro heq
    subst heq
    rw [h,hother rfl] at hlearn
    simp at hlearn
  have hcopy := copyTable_pinned rfl (order_nodup ho) (entry_mem ho h)
  rw [Pinned,AList.lookup_insert_ne hne,hcopy]

def Room (n : Neighbors) (ip : IPv4) : Prop :=
  ip∈n.m ∨ n.size < maxNeighbors ∨ ∃ e∈n.m.entries, e.2.pinned=false

theorem pin_eq (n : Neighbors) (order : List Entry) (now : Int64) (ip : IPv4) (mac : MAC) :
    n.pin order now ip mac =
      let c := copyTable order
        { evict := (n.m.lookup ip).isNone && decide (maxNeighbors≤n.size) }
      if n.m.lookup ip=some ⟨mac,true⟩ then (n,{})
      else if c.evict then (n,{})
      else ({ lastWrite := now, m := c.m.insert ip ⟨mac,true⟩ },
        { changed := true, evicted := c.evicted }) := by
  simp [Neighbors.pin,Neighbors.write]

theorem evict_iff (ho : order.Perm n.m.entries) :
    (copyTable order { evict := (n.m.lookup ip).isNone && decide (maxNeighbors≤n.size) }).evict =
      true ↔ ¬ n.Room ip := by
  have hall : (order.all fun e => e.2.pinned)=true ↔ ¬ ∃ e∈n.m.entries, e.2.pinned=false := by
    rw [all_eq_true]
    push Not
    simp [ho.mem_iff]
  rw [copyTable_evict,Bool.and_eq_true,hall,Room,not_or,not_or,← AList.lookup_eq_none]
  simp [and_assoc]

theorem Room.pin (h : n.Room ip) (ho : order.Perm n.m.entries) (now : Int64) (mac : MAC) :
    (n.pin order now ip mac).1.Pinned ip mac := by
  rw [pin_eq]
  split
  case isTrue hsame => exact hsame
  rw [if_neg fun hevict => (evict_iff ho).mp hevict h]
  exact AList.lookup_insert _

theorem pin_full (h : ¬ n.Room ip) (ho : order.Perm n.m.entries) (now : Int64) (mac : MAC) :
    (n.pin order now ip mac).1=n ∧ n.lookup ip=none := by
  have hnone : n.m.lookup ip=none := AList.lookup_eq_none.mpr fun hmem => h (.inl hmem)
  constructor
  · rw [pin_eq]
    dsimp only
    rw [if_pos ((evict_iff ho).mpr h),ite_self]
  · rw [Neighbors.lookup,hnone,Option.map_none]

theorem pin_fresh (hnew : ip∉n.m) (hroom : n.size < maxNeighbors) (ho : order.Perm n.m.entries)
    (now : Int64) (mac : MAC) :
    (n.pin order now ip mac).1.m.entries=⟨ip,mac,true⟩::order.reverse := by
  have hnone := AList.lookup_eq_none.mpr hnew
  have hevict : ((none : Option Neighbor).isNone && decide (maxNeighbors≤n.size))=false := by
    simp [hroom]
  have hcopy := copyTable_entries (order_nodup ho) (c := { evict := false }) rfl
    fun e _ => AList.notMem_empty e.1
  have hfresh : ip∉(copyTable order { evict := false }).m := by
    have hkeys : order.keys.Perm n.m.keys := ho.map Sigma.fst
    rw [← AList.lookup_eq_none,copyTable_lookup_other,AList.lookup_empty]
    exact fun hmem => hnew (hkeys.mem_iff.mp hmem)
  rw [pin_eq,hnone,hevict]
  rw [if_neg (by simp),if_neg (by simp [copyTable_evict]),AList.entries_insert_of_notMem hfresh,
    hcopy,AList.empty_entries,append_nil]

theorem Pinned.learn (h : n.Pinned ip mac) (ho : order.Perm n.m.entries) (seen : Neighbors)
    (looked now : Int64) (mac' : MAC) :
    (seen.learn n order looked now ip' mac').1.Pinned ip mac := by
  rw [Neighbors.learn]
  split
  case isTrue => exact h
  split
  case isTrue => exact h
  case isFalse => exact h.write ho now fun _ => rfl

end Neighbors

/-! Histories -/

inductive NeighborEvent where
  | learn (seen : Neighbors) (order : List Entry) (looked now : Int64) (ip : IPv4) (mac : MAC)
  | add (order : List Entry) (now : Int64) (ip : Option IPAddr) (mac : List UInt8)

namespace NeighborEvent

def run (n : Neighbors) : NeighborEvent → Neighbors
  | .learn seen order looked now ip mac => (seen.learn n order looked now ip mac).1
  | .add order now ip mac => (n.addNeighbor order now ip mac).1

def Orders (n : Neighbors) : NeighborEvent → Prop
  | .learn _ order _ _ _ _ => order.Perm n.m.entries
  | .add order _ _ _ => order.Perm n.m.entries

/-- No AddNeighbor for `ip`. -/
def Spares (ip : IPv4) : NeighborEvent → Prop
  | .learn _ _ _ _ _ _ => True
  | .add _ _ ip' _ => ip'≠some (.v4 ip)

end NeighborEvent

namespace Neighbors

def Run : Neighbors → Neighbors → Prop :=
  Relation.ReflTransGen fun n n' => ∃ ev : NeighborEvent, ev.Orders n ∧ ev.run n=n'

/-- A history without an AddNeighbor for `ip`. -/
def Sparing (ip : IPv4) : Neighbors → Neighbors → Prop :=
  Relation.ReflTransGen fun n n' => ∃ ev : NeighborEvent, ev.Orders n ∧ ev.Spares ip ∧ ev.run n=n'

variable {n n' : Neighbors} {ip : IPv4} {mac : MAC}

theorem addNeighbor_cases (n : Neighbors) (order : List Entry) (now : Int64) (ip : Option IPAddr)
    (mac : List UInt8) : (∃ a m, ip=some (.v4 a) ∧ mac=List.ofFn m ∧
      n.addNeighbor order now ip mac=((n.pin order now a m).1,.ok ())) ∨
    n.addNeighbor order now ip mac=(n,.error ⟨ip,mac⟩) := by
  unfold Neighbors.addNeighbor
  split
  case h_2 => exact .inr rfl
  rename_i a
  split
  case isFalse => exact .inr rfl
  rename_i hlen
  refine .inl ⟨a,_,rfl,?_,rfl⟩
  refine ext_get (by simp [hlen]) fun i hi hi' => ?_
  rw [get_ofFn]
  rfl

theorem Pinned.step (h : n.Pinned ip mac) {ev : NeighborEvent} (ho : ev.Orders n)
    (hs : ev.Spares ip) : (ev.run n).Pinned ip mac := by
  cases ev with
  | learn seen order looked now ip' mac' => exact h.learn ho seen looked now mac'
  | add order now ip' mac' =>
    rw [NeighborEvent.run]
    rcases n.addNeighbor_cases order now ip' mac' with ⟨a,m,hip,-,hadd⟩ | hadd
    · rw [hadd]
      refine h.write ho now fun heq => ?_
      rw [← heq] at hs
      exact absurd hip hs
    · rwa [hadd]

theorem Pinned.run (h : n.Pinned ip mac) (hrun : Sparing ip n n') : n'.Pinned ip mac := by
  induction hrun with
  | refl => exact h
  | tail _ hstep ih =>
    obtain ⟨ev,ho,hs,rfl⟩ := hstep
    exact ih.step ho hs

end Neighbors

/-- Once AddNeighbor has returned nil, every later lookup yields its MAC until the next
AddNeighbor for that address, just if the table had the address, room for it or an entry
to leave out. -/
theorem neighbor_stays_iff (n n' : Neighbors) (order : List Entry) (now : Int64)
    (ip : Option IPAddr) (mac : List UInt8) (ho : order.Perm n.m.entries)
    (h : n.addNeighbor order now ip mac = (n',.ok ())) :
    ∃ a m, ip = some (.v4 a) ∧ mac = List.ofFn m ∧
      ((∀ n'', Neighbors.Sparing a n' n'' → n''.lookup a = some m) ↔ n.Room a) := by
  rcases n.addNeighbor_cases order now ip mac with ⟨a,m,hip,hmac,hadd⟩ | hadd
  · rw [hadd] at h
    injection h with hpin _
    refine ⟨a,m,hip,hmac,fun hall => ?_,fun hroom n'' hrun => ?_⟩
    · by_contra hfull
      obtain ⟨hsame,hnone⟩ := Neighbors.pin_full hfull ho now m
      have hfirst := hall n' .refl
      rw [← hpin,hsame,hnone] at hfirst
      cases hfirst
    · have hpinned := hroom.pin ho now m
      rw [hpin] at hpinned
      exact (hpinned.run hrun).lookup
  · rw [hadd] at h
    cases h

def nthIP (i : Nat) : IPv4 := [10,0,UInt8.ofNat (i/256),UInt8.ofNat i].get

def someMAC : List UInt8 := [2,0,0,0,0,1]

def seeded : Nat → Neighbors
  | 0 => newNeighbors
  | i+1 => ((seeded i).addNeighbor (seeded i).m.entries 0 (some (.v4 (nthIP i))) someMAC).1

theorem nthIP_inj {i j : Nat} (hi : i<65536) (hj : j<65536) (h : nthIP i=nthIP j) : i=j := by
  have hhigh : (UInt8.ofNat (i/256)).toNat=(UInt8.ofNat (j/256)).toNat :=
    congrArg (fun a : IPv4 => (a 2).toNat) h
  have hlow : (UInt8.ofNat i).toNat=(UInt8.ofNat j).toNat :=
    congrArg (fun a : IPv4 => (a 3).toNat) h
  simp only [UInt8.toNat_ofNat'] at hhigh hlow
  omega

theorem addNeighbor_someMAC (n : Neighbors) (order : List Entry) (a : IPv4) :
    n.addNeighbor order 0 (some (.v4 a)) someMAC=((n.pin order 0 a someMAC.get).1,.ok ()) := rfl

theorem seeded_run (i : Nat) : Neighbors.Run newNeighbors (seeded i) := by
  induction i with
  | zero => exact .refl
  | succ i ih =>
    exact ih.tail ⟨.add (seeded i).m.entries 0 (some (.v4 (nthIP i))) someMAC,List.Perm.refl _,rfl⟩

theorem seeded_entries {i : Nat} (hi : i ≤ maxNeighbors) : (seeded i).size=i ∧
    (∀ e∈(seeded i).m.entries, e.2.pinned=true) ∧ ∀ a∈(seeded i).m, ∃ j < i, a=nthIP j := by
  have hmax : maxNeighbors=4096 := rfl
  induction i with
  | zero => exact ⟨rfl,by simp [seeded,newNeighbors],by simp [seeded,newNeighbors]⟩
  | succ i ih =>
    obtain ⟨hsize,hpinned,hkeys⟩ := ih (by omega)
    have hnew : nthIP i∉(seeded i).m := by
      intro hmem
      obtain ⟨j,hj,heq⟩ := hkeys _ hmem
      have := nthIP_inj (by omega) (by omega) heq
      omega
    have hentries := Neighbors.pin_fresh hnew (by omega) (List.Perm.refl _) 0 someMAC.get
    rw [seeded,addNeighbor_someMAC]
    refine ⟨?_,fun e he => ?_,fun a ha => ?_⟩
    · rw [Neighbors.size,hentries,length_cons,length_reverse]
      exact congrArg (·+1) hsize
    · rw [hentries] at he
      cases mem_cons.mp he with
      | inl he => rw [he]
      | inr he => exact hpinned e (mem_reverse.mp he)
    · rw [AList.mem_keys,AList.keys,keys,hentries,map_cons,map_reverse] at ha
      cases mem_cons.mp ha with
      | inl ha => exact ⟨i,by omega,ha⟩
      | inr ha =>
        obtain ⟨j,hj,heq⟩ := hkeys a (mem_reverse.mp ha)
        exact ⟨j,by omega,heq⟩

theorem neighbor_stays_first :
    ∃ a m, some (IPAddr.v4 (nthIP 0)) = some (.v4 a) ∧ someMAC = List.ofFn m ∧
      ∀ n, Neighbors.Sparing a (seeded 1) n → n.lookup a = some m := by
  obtain ⟨a,m,ha,hm,hiff⟩ := neighbor_stays_iff newNeighbors (seeded 1) [] 0
    (some (.v4 (nthIP 0))) someMAC (List.Perm.refl _) rfl
  exact ⟨a,m,ha,hm,hiff.mpr (.inr (.inl (by decide)))⟩

theorem seeded_full : ¬ (seeded maxNeighbors).Room (nthIP maxNeighbors) := by
  obtain ⟨hsize,hpinned,hkeys⟩ := seeded_entries (le_refl maxNeighbors)
  have hmax : maxNeighbors=4096 := rfl
  rintro (hmem | hroom | ⟨e,he,hfree⟩)
  · obtain ⟨j,hj,heq⟩ := hkeys _ hmem
    have := nthIP_inj (by omega) (by omega) heq
    omega
  · exact hroom.ne hsize
  · rw [hpinned e he] at hfree
    cases hfree

theorem neighbor_lost_full : Neighbors.Run newNeighbors (seeded maxNeighbors) ∧
    ∃ n, (seeded maxNeighbors).addNeighbor (seeded maxNeighbors).m.entries 0
      (some (.v4 (nthIP maxNeighbors))) someMAC = (n,.ok ()) ∧
      n.lookup (nthIP maxNeighbors) = none := by
  obtain ⟨hsame,hnone⟩ := Neighbors.pin_full seeded_full (List.Perm.refl _) 0 someMAC.get
  exact ⟨seeded_run maxNeighbors,seeded maxNeighbors,by rw [addNeighbor_someMAC,hsame],hnone⟩

end Packetio.Netstack

import Mathlib.Data.List.Perm.Basic
import Packetio.Match

/-! What a filter expands to. Each rule takes one alternative of every kind the
filter has; the cap on the way only matters when there are too many in the end. -/
namespace Packetio
open List Option

/-! Validate -/

def Match.Fine (m : Match) : Prop :=
  match m.kind with
  | .srcIP | .dstIP => m.net.isValid=true
  | .vlan => m.vlan ≤ maxVLAN
  | .etherType => m.etherType≠0
  | .unknown _ => False
  | _ => True

def Match.isPort (m : Match) : Bool := m.kind = .srcPort || m.kind = .dstPort

def Match.named (m : Match) : Option UInt8 :=
  match m.kind with
  | .ipProto => some m.ipProto
  | .srcPort | .dstPort => if m.ipProto≠0 then some m.ipProto else none
  | _ => none

def AllEqual (l : List UInt8) : Prop := ∀ x∈l, ∀ y∈l, x=y

theorem name_ok {st st' next : ProtoState} {p : UInt8} {refuse : UInt8 → FilterError} :
    st.name p refuse next = .ok st' ↔ (∀ u∈st.proto, u=p) ∧ next=st' := by
  rw [ProtoState.name]
  cases st.proto with
  | none => simp
  | some u =>
    by_cases hu : u=p
    · simp [hu]
    · simp [hu]

theorem check_ok {c : Prop} [Decidable c] {e : FilterError} {st st' : ProtoState} :
    (if c then .error e else .ok st : Except FilterError ProtoState) = .ok st' ↔ ¬ c ∧ st=st' := by
  by_cases hc : c <;> simp [hc]

theorem validateMatch_ok {st st' : ProtoState} {m : Match} :
    validateMatch st m = .ok st' ↔ m.Fine ∧ (∀ v∈m.named, ∀ u∈st.proto, u=v) ∧
      ⟨m.named.or st.proto,st.wantPort || m.isPort⟩=st' := by
  cases hk : m.kind with
  | ipProto => simp [validateMatch,Match.Fine,Match.named,Match.isPort,hk,name_ok]
  | srcPort | dstPort =>
    by_cases h0 : m.ipProto=0
    · simp [validateMatch,Match.Fine,Match.named,Match.isPort,hk,h0]
    · simp [validateMatch,Match.Fine,Match.named,Match.isPort,hk,h0,name_ok]
  | srcIP | dstIP => simp [validateMatch,Match.Fine,Match.named,Match.isPort,hk,check_ok]
  | vlan | etherType => simp [validateMatch,Match.Fine,Match.named,Match.isPort,hk,check_ok]
  | dstMAC => simp [validateMatch,Match.Fine,Match.named,Match.isPort,hk]
  | unknown n => simp [validateMatch,Match.Fine,hk]

theorem allEqual_append {o : Option UInt8} {v : UInt8} {l : List UInt8} :
    AllEqual (o.toList++v::l) ↔ (∀ u∈o, u=v) ∧ AllEqual (v::l) := by
  constructor
  · intro h
    refine ⟨fun u hu => h u (by simp_all) v (by simp),fun x hx y hy => h x ?_ y ?_⟩
    · exact mem_append_right _ hx
    · exact mem_append_right _ hy
  · rintro ⟨ho,h⟩ x hx y hy
    have hv : ∀ z∈o.toList++v::l, z=v := by
      intro z hz
      cases mem_append.mp hz with
      | inl hz => exact ho z (mem_toList.mp hz)
      | inr hz => exact h z hz v (by simp)
    rw [hv x hx,hv y hy]

theorem validate_foldlM (ms : List Match) (st st' : ProtoState) :
    ms.foldlM validateMatch st = .ok st' ↔ (∀ m∈ms, m.Fine) ∧
      AllEqual (st.proto.toList++ms.filterMap Match.named) ∧
      ⟨(ms.filterMap Match.named).getLast?.or st.proto,st.wantPort || ms.any Match.isPort⟩=st' := by
  induction ms generalizing st with
  | nil =>
    have hall : AllEqual st.proto.toList := by
      intro x hx y hy
      rw [mem_toList] at hx hy
      exact mem_unique hx hy
    simp [hall,pure,Except.pure]
  | cons m ms ih =>
    have hbind : (m::ms).foldlM validateMatch st = .ok st' ↔
        ∃ st1, validateMatch st m = .ok st1 ∧ ms.foldlM validateMatch st1 = .ok st' := by
      rw [foldlM_cons]
      cases validateMatch st m with
      | error _ | ok _ => simp [bind,Except.bind]
    rw [hbind]
    simp only [validateMatch_ok,ih]
    rcases hn : m.named with _ | v
    · simp only [filterMap_cons,hn,mem_cons,forall_eq_or_imp,any_cons,none_or]
      constructor
      · rintro ⟨_,⟨hf,-,rfl⟩,hfs,hall,rfl⟩
        exact ⟨⟨hf,hfs⟩,hall,by simp [Bool.or_assoc]⟩
      · rintro ⟨⟨hf,hfs⟩,hall,rfl⟩
        exact ⟨_,⟨hf,by simp,rfl⟩,hfs,hall,by simp [Bool.or_assoc]⟩
    have hlast : ∀ l : List UInt8, ∀ o : Option UInt8,
        ((v::l).getLast?.or o)=l.getLast?.or (some v) := by
      intro l o
      rw [getLast?_cons]
      cases l.getLast? <;> rfl
    simp only [filterMap_cons,hn,mem_cons,forall_eq_or_imp,any_cons,some_or,allEqual_append,hlast]
    constructor
    · rintro ⟨_,⟨hf,hv,rfl⟩,hfs,hall,rfl⟩
      exact ⟨⟨hf,hfs⟩,⟨hv v rfl,hall⟩,by simp [Bool.or_assoc]⟩
    · rintro ⟨⟨hf,hfs⟩,⟨hv,hall⟩,rfl⟩
      refine ⟨_,⟨hf,?_,rfl⟩,hfs,hall,by simp [Bool.or_assoc]⟩
      rintro w hw
      injection hw with hw
      exact hw ▸ hv

theorem validate_ok_iff (f : SteeringFilter) :
    f.validate = .ok () ↔ ¬ (f.promiscuous=true ∧ f.ms ≠ []) ∧ (∀ m∈f.ms, m.Fine) ∧
      AllEqual (f.ms.filterMap Match.named) ∧
      (f.ms.any Match.isPort=true → f.ms.filterMap Match.named ≠ []) := by
  rw [SteeringFilter.validate]
  by_cases hp : f.promiscuous=true ∧ f.ms ≠ []
  · have hlen : f.promiscuous=true ∧ f.ms.length > 0 := ⟨hp.1,length_pos_of_ne_nil hp.2⟩
    simp [hlen,hp]
  have hlen : ¬ (f.promiscuous=true ∧ f.ms.length > 0) := fun h =>
    hp ⟨h.1,ne_nil_of_length_pos h.2⟩
  rw [if_neg hlen]
  have hfold := validate_foldlM f.ms {}
  cases hv : f.ms.foldlM validateMatch {} with
  | error e =>
    rw [hv] at hfold
    have hno : ¬ ((∀ m∈f.ms, m.Fine) ∧ AllEqual (f.ms.filterMap Match.named)) := fun h => by
      have := (hfold _).mpr ⟨h.1,h.2,rfl⟩
      cases this
    simp only [reduceCtorEq,false_iff]
    rintro ⟨-,h1,h2,-⟩
    exact hno ⟨h1,h2⟩
  | ok st =>
    obtain ⟨hfine,hall,rfl⟩ := (hfold st).mp hv
    simp only [toList_none,nil_append] at hall
    simp only [hp,not_false_eq_true,eq_true hfine,hall,true_and,Bool.false_or,or_none]
    cases hl : f.ms.filterMap Match.named with
    | nil => cases f.ms.any Match.isPort <;> simp
    | cons v l => simp [getLast?_cons]

/-! Expansion -/

def alternatives {α : Type} (l : List α) : List (Option α) :=
  if l.isEmpty then [none] else l.map some

def setAlt {α : Type} (put : Rule → α → Rule) (r : Rule) : Option α → Rule
  | none => r
  | some a => put r a

section
variable {α : Type} {rules : List Rule} {alts : List α} {put : Rule → α → Rule}

theorem mem_alternatives {l : List α} {o : Option α} :
    o∈alternatives l ↔ (o=none ∧ l = []) ∨ ∃ a∈l, o=some a := by
  cases l with
  | nil => simp [alternatives]
  | cons a l => simp [alternatives,eq_comm]

theorem mem_expandRules (hle : rules.length ≤ maxRules) {r : Rule} : r∈expandRules rules alts put ↔
      ∃ r₀∈rules, ∃ a∈alternatives alts, setAlt put r₀ a=r := by
  rw [expandRules]
  cases alts with
  | nil => simp [alternatives,setAlt]
  | cons a l =>
    rw [if_neg (by simp only [length_cons]; omega)]
    simp [alternatives,setAlt,eq_comm]

theorem expandRules_length : (expandRules rules alts put).length =
      if rules.length > maxRules then rules.length else rules.length*max 1 alts.length := by
  rw [expandRules]
  by_cases hgt : rules.length > maxRules
  · rw [if_pos (Or.inr hgt),if_pos hgt]
  rw [if_neg hgt]
  rcases alts with _ | ⟨a,l⟩
  · simp
  have hmax : max 1 (a::l).length=(a::l).length := by
    simp only [length_cons]
    omega
  rw [if_neg (by simp only [length_cons]; omega),hmax]
  simp [length_flatMap,map_const']

theorem length_le_expandRules : rules.length≤(expandRules rules alts put).length := by
  rw [expandRules_length]
  split
  · exact Nat.le_refl _
  · exact Nat.le_mul_of_pos_right _ (by omega)

end

structure Choice where
  mac : Option MAC
  vlan : Option UInt16
  etherType : Option UInt16
  ipProto : Option UInt8
  dstPort : Option UInt16
  srcPort : Option UInt16
  srcNet : Option Prefix
  dstNet : Option Prefix

def Choice.rule (c : Choice) : Rule where
  mac := c.mac.getD fun _ => 0
  macSet := c.mac.isSome
  vlan := c.vlan.getD 0
  vlanSet := c.vlan.isSome
  etherType := c.etherType.getD 0
  ipProto := c.ipProto.getD 0
  ipProtoSet := c.ipProto.isSome
  srcPrefix := c.srcNet.getD .invalid
  dstPrefix := c.dstNet.getD .invalid
  srcPort := c.srcPort.getD 0
  dstPort := c.dstPort.getD 0
  srcPortSet := c.srcPort.isSome
  dstPortSet := c.dstPort.isSome

structure Choice.From (f : SteeringFilter) (c : Choice) : Prop where
  mac : c.mac∈alternatives (f.collect .dstMAC Match.mac)
  vlan : c.vlan∈alternatives (f.collect .vlan Match.vlan)
  etherType : c.etherType∈alternatives (f.collect .etherType Match.etherType)
  ipProto : c.ipProto∈alternatives (dedupe (f.collect .ipProto Match.ipProto))
  dstPort : c.dstPort∈alternatives (f.collect .dstPort Match.port)
  srcPort : c.srcPort∈alternatives (f.collect .srcPort Match.port)
  srcNet : c.srcNet∈alternatives (f.collect .srcIP Match.net)
  dstNet : c.dstNet∈alternatives (f.collect .dstIP Match.net)

theorem Choice.rule_eq (c : Choice) :
    setAlt Rule.setDstPrefix (setAlt Rule.setSrcPrefix (setAlt Rule.setSrcPort
      (setAlt Rule.setDstPort (setAlt Rule.setIPProto (setAlt Rule.setEtherType
      (setAlt Rule.setVLAN (setAlt Rule.setMAC {} c.mac) c.vlan) c.etherType) c.ipProto) c.dstPort)
      c.srcPort) c.srcNet) c.dstNet=c.rule := by
  obtain ⟨m,v,e,p,d,s,sn,dn⟩ := c
  cases m <;> cases v <;> cases e <;> cases p <;> cases d <;> cases s <;> cases sn <;>
    cases dn <;> rfl

theorem mem_expand {f : SteeringFilter} (h : f.expand.length ≤ maxRules) (r : Rule) :
    r∈f.expand ↔ ∃ c : Choice, c.From f ∧ c.rule=r := by
  have h7 := Nat.le_trans length_le_expandRules h
  have h6 := Nat.le_trans length_le_expandRules h7
  have h5 := Nat.le_trans length_le_expandRules h6
  have h4 := Nat.le_trans length_le_expandRules h5
  have h3 := Nat.le_trans length_le_expandRules h4
  have h2 := Nat.le_trans length_le_expandRules h3
  have h1 := Nat.le_trans length_le_expandRules h2
  have h0 := Nat.le_trans length_le_expandRules h1
  constructor
  · intro hr
    obtain ⟨r7,hr7,dn,hdn,rfl⟩ := (mem_expandRules h7).mp hr
    obtain ⟨r6,hr6,sn,hsn,rfl⟩ := (mem_expandRules h6).mp hr7
    obtain ⟨r5,hr5,s,hs,rfl⟩ := (mem_expandRules h5).mp hr6
    obtain ⟨r4,hr4,d,hd,rfl⟩ := (mem_expandRules h4).mp hr5
    obtain ⟨r3,hr3,p,hp,rfl⟩ := (mem_expandRules h3).mp hr4
    obtain ⟨r2,hr2,e,he,rfl⟩ := (mem_expandRules h2).mp hr3
    obtain ⟨r1,hr1,v,hv,rfl⟩ := (mem_expandRules h1).mp hr2
    obtain ⟨r0,hr0,m,hm,rfl⟩ := (mem_expandRules h0).mp hr1
    rw [List.mem_singleton.mp hr0]
    exact ⟨⟨m,v,e,p,d,s,sn,dn⟩,⟨hm,hv,he,hp,hd,hs,hsn,hdn⟩,(Choice.rule_eq _).symm⟩
  · rintro ⟨c,hc,rfl⟩
    rw [← Choice.rule_eq]
    refine (mem_expandRules h7).mpr ⟨_,?_,_,hc.dstNet,rfl⟩
    refine (mem_expandRules h6).mpr ⟨_,?_,_,hc.srcNet,rfl⟩
    refine (mem_expandRules h5).mpr ⟨_,?_,_,hc.srcPort,rfl⟩
    refine (mem_expandRules h4).mpr ⟨_,?_,_,hc.dstPort,rfl⟩
    refine (mem_expandRules h3).mpr ⟨_,?_,_,hc.ipProto,rfl⟩
    refine (mem_expandRules h2).mpr ⟨_,?_,_,hc.etherType,rfl⟩
    refine (mem_expandRules h1).mpr ⟨_,?_,_,hc.vlan,rfl⟩
    exact (mem_expandRules h0).mpr ⟨_,List.mem_singleton.mpr rfl,_,hc.mac,rfl⟩

end Packetio

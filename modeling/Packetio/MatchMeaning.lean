import Mathlib.Algebra.BigOperators.Group.List.Basic
import Packetio.MatchRules

/-! A filter built with the constructors means what it says, and it is refused
for its size just when the alternatives multiply to more than the cap. A filter
built by hand can name a port and lose its protocol on the way to the rules. -/
namespace Packetio
open List

/-! How many rules -/

def SteeringFilter.count (f : SteeringFilter) (k : MatchKind) : Nat :=
  let n := (f.ms.filter (·.kind=k)).length
  if k = .ipProto then min 1 n else n

def ruleKinds : List MatchKind :=
  [.dstMAC,.vlan,.etherType,.ipProto,.dstPort,.srcPort,.srcIP,.dstIP]

def SteeringFilter.ruleCount (f : SteeringFilter) : Nat :=
  (ruleKinds.map fun k => max 1 (f.count k)).prod

def Capped (n full : Nat) : Prop := n=full ∨ maxRules<n ∧ maxRules<full

variable {α : Type} {l : List UInt8} {f : SteeringFilter} {rs : List Rule} {k : MatchKind}
  {m : Match}

theorem expandRules_capped {rules : List Rule} {alts : List α} {put : Rule → α → Rule}
    {full : Nat} (h : Capped rules.length full) :
    Capped (expandRules rules alts put).length (full*max 1 alts.length) := by
  have hle : full≤full*max 1 alts.length := Nat.le_mul_of_pos_right _ (by omega)
  rw [expandRules_length]
  by_cases hgt : rules.length > maxRules
  · rw [if_pos hgt]
    have hfull : maxRules<full := h.elim (fun he => he ▸ hgt) fun hx => hx.2
    exact .inr ⟨hgt,by omega⟩
  · rw [if_neg hgt,h.resolve_right fun hx => hgt hx.1]
    exact .inl rfl

theorem mem_dedupe {v : UInt8} : v∈dedupe l ↔ v∈l := by
  have hfold : ∀ (l out : List UInt8),
      v∈l.foldl (fun out v => if v∈out then out else out++[v]) out ↔ v∈out ∨ v∈l := by
    intro l
    induction l with
    | nil => simp
    | cons x l ih =>
      intro out
      rw [foldl_cons,ih,mem_cons]
      by_cases hx : x∈out
      · rw [if_pos hx]
        constructor
        · rintro (h | h)
          · exact .inl h
          · exact .inr (.inr h)
        · rintro (h | rfl | h)
          · exact .inl h
          · exact .inl hx
          · exact .inr h
      · rw [if_neg hx,mem_append,mem_singleton,or_assoc]
  rw [dedupe]
  split
  · exact Iff.rfl
  · rw [hfold]
    simp

theorem dedupe_length (h : AllEqual l) : (dedupe l).length=min 1 l.length := by
  have hfold : ∀ (x : UInt8) (l : List UInt8), (∀ y∈l, y=x) →
      l.foldl (fun out v => if v∈out then out else out++[v]) [x] = [x] := by
    intro x l hl
    induction l with
    | nil => rfl
    | cons y l ih =>
      rw [foldl_cons,hl y (by simp),if_pos (by simp)]
      exact ih fun z hz => hl z (by simp [hz])
  rw [dedupe]
  split
  · omega
  · cases l with
    | nil => rfl
    | cons x l =>
      rw [foldl_cons,if_neg (by simp),nil_append,
        hfold x l fun y hy => h y (by simp [hy]) x (by simp)]
      simp

theorem protos_sublist (f : SteeringFilter) :
    (f.collect .ipProto Match.ipProto).Sublist (f.ms.filterMap Match.named) := by
  rw [SteeringFilter.collect]
  induction f.ms with
  | nil => simp
  | cons m ms ih =>
    by_cases hk : m.kind = .ipProto
    · have hn : m.named=some m.ipProto := by simp [Match.named,hk]
      simpa [hk,filterMap_cons,hn] using ih
    rw [filter_cons_of_neg (by simpa using hk),filterMap_cons]
    cases m.named with
    | none => exact ih
    | some v => exact ih.cons v

theorem expand_capped (h : f.validate = .ok ()) : Capped f.expand.length f.ruleCount := by
  obtain ⟨-,-,hall,-⟩ := (validate_ok_iff f).mp h
  have hsub := protos_sublist f
  have hded : max 1 (dedupe (f.collect .ipProto Match.ipProto)).length =
      max 1 (f.count .ipProto) := by
    rw [dedupe_length fun x hx y hy => hall x (hsub.mem hx) y (hsub.mem hy)]
    simp [SteeringFilter.count,SteeringFilter.collect]
  have hone : Capped ([({} : Rule)]).length 1 := .inl rfl
  have hcount : f.ruleCount=1*max 1 (f.collect .dstMAC Match.mac).length*
      max 1 (f.collect .vlan Match.vlan).length*
      max 1 (f.collect .etherType Match.etherType).length*
      max 1 (dedupe (f.collect .ipProto Match.ipProto)).length*
      max 1 (f.collect .dstPort Match.port).length*max 1 (f.collect .srcPort Match.port).length*
      max 1 (f.collect .srcIP Match.net).length*max 1 (f.collect .dstIP Match.net).length := by
    rw [hded]
    simp [SteeringFilter.ruleCount,ruleKinds,SteeringFilter.count,SteeringFilter.collect,mul_assoc]
  rw [hcount,SteeringFilter.expand]
  exact expandRules_capped (expandRules_capped (expandRules_capped (expandRules_capped
    (expandRules_capped (expandRules_capped (expandRules_capped (expandRules_capped hone)))))))

theorem no_unknown (h : ∀ m∈f.ms, m.Fine) : f.ms.findSome? (·.kind.unknown?)=none := by
  rw [findSome?_eq_none_iff]
  intro m hm
  have hf := h m hm
  rw [Match.Fine] at hf
  cases hk : m.kind with
  | unknown n => simp [hk] at hf
  | _ => rfl

theorem rules_eq (h : f.validate = .ok ()) :
    f.rules=if f.promiscuous then .ok [{ promiscuous := true }]
      else if f.expand.length > maxRules then .error (.tooMany f.expand.length)
      else .ok f.expand := by
  obtain ⟨-,hfine,-,-⟩ := (validate_ok_iff f).mp h
  simp [SteeringFilter.rules,h,no_unknown hfine]

theorem rules_ok (h : f.rules = .ok rs) :
    f.validate = .ok () ∧ (f.promiscuous=true ∧ rs = [{ promiscuous := true }] ∨
      f.promiscuous=false ∧ f.expand.length ≤ maxRules ∧ rs=f.expand) := by
  have hv : f.validate = .ok () := by
    rw [SteeringFilter.rules] at h
    cases hv : f.validate with
    | error e =>
      rw [hv] at h
      cases h
    | ok u => rfl
  refine ⟨hv,?_⟩
  rw [rules_eq hv] at h
  cases hp : f.promiscuous with
  | true =>
    rw [hp,if_pos rfl] at h
    injection h with h
    exact .inl ⟨rfl,h.symm⟩
  | false =>
    rw [hp,if_neg (by simp)] at h
    by_cases hlen : f.expand.length > maxRules
    · rw [if_pos hlen] at h
      cases h
    rw [if_neg hlen] at h
    injection h with h
    exact .inr ⟨rfl,by omega,h.symm⟩

/-! What the rules mean -/

def SteeringFilter.Has (f : SteeringFilter) (k : MatchKind) : Prop := ∃ m∈f.ms, m.kind=k

theorem exists_alternative (f : SteeringFilter) (k : MatchKind) (get : Match → α) (P : α → Prop) :
    (∃ o∈alternatives (f.collect k get), ∀ a∈o, P a) ↔
      (f.Has k → ∃ m∈f.ms, m.kind=k ∧ P (get m)) := by
  have hmem : ∀ a, a∈f.collect k get ↔ ∃ m∈f.ms, m.kind=k ∧ get m=a := by
    simp [SteeringFilter.collect,and_assoc]
  constructor
  · rintro ⟨o,ho,hP⟩ ⟨m,hm,hk⟩
    rcases mem_alternatives.mp ho with ⟨-,hnil⟩ | ⟨a,ha,rfl⟩
    · have : get m∈f.collect k get := (hmem _).mpr ⟨m,hm,hk,rfl⟩
      rw [hnil] at this
      cases this
    · obtain ⟨m',hm',hk',rfl⟩ := (hmem a).mp ha
      exact ⟨m',hm',hk',hP _ rfl⟩
  · intro h
    by_cases hhas : f.Has k
    · obtain ⟨m,hm,hk,hP⟩ := h hhas
      refine ⟨some (get m),mem_alternatives.mpr (.inr ⟨_,(hmem _).mpr ⟨m,hm,hk,rfl⟩,rfl⟩),?_⟩
      rintro a ha
      injection ha with ha
      exact ha ▸ hP
    refine ⟨none,mem_alternatives.mpr (.inl ⟨rfl,?_⟩),by simp⟩
    rw [eq_nil_iff_forall_not_mem]
    intro a ha
    obtain ⟨m,hm,hk,-⟩ := (hmem a).mp ha
    exact hhas ⟨m,hm,hk⟩

theorem mem_collect_of_choice {get : Match → α}
    {a : α} (h : some a∈alternatives (f.collect k get)) : ∃ m∈f.ms, m.kind=k ∧ get m=a := by
  rcases mem_alternatives.mp h with ⟨h0,-⟩ | ⟨b,hb,hab⟩
  · cases h0
  · cases hab
    simpa [SteeringFilter.collect,and_assoc] using hb

theorem mem_alternatives_dedupe {o : Option UInt8} :
    o∈alternatives (dedupe l) ↔ o∈alternatives l := by
  have hnil : dedupe l = [] ↔ l = [] := by simp only [eq_nil_iff_forall_not_mem,mem_dedupe]
  simp [mem_alternatives,mem_dedupe,hnil]

theorem exists_choice_iff (f : SteeringFilter) (Mac : MAC → Prop) (Vlan Ether : UInt16 → Prop)
    (Proto : UInt8 → Prop) (Dst Src : UInt16 → Prop) (SrcNet DstNet : Prefix → Prop) :
    (∃ c : Choice, c.From f ∧ (∀ a∈c.mac, Mac a) ∧ (∀ a∈c.vlan, Vlan a) ∧
      (∀ a∈c.etherType, Ether a) ∧ (∀ a∈c.ipProto, Proto a) ∧ (∀ a∈c.dstPort, Dst a) ∧
      (∀ a∈c.srcPort, Src a) ∧ (∀ n∈c.srcNet, SrcNet n) ∧ ∀ n∈c.dstNet, DstNet n) ↔
      (f.Has .dstMAC → ∃ m∈f.ms, m.kind = .dstMAC ∧ Mac m.mac) ∧
      (f.Has .vlan → ∃ m∈f.ms, m.kind = .vlan ∧ Vlan m.vlan) ∧
      (f.Has .etherType → ∃ m∈f.ms, m.kind = .etherType ∧ Ether m.etherType) ∧
      (f.Has .ipProto → ∃ m∈f.ms, m.kind = .ipProto ∧ Proto m.ipProto) ∧
      (f.Has .dstPort → ∃ m∈f.ms, m.kind = .dstPort ∧ Dst m.port) ∧
      (f.Has .srcPort → ∃ m∈f.ms, m.kind = .srcPort ∧ Src m.port) ∧
      (f.Has .srcIP → ∃ m∈f.ms, m.kind = .srcIP ∧ SrcNet m.net) ∧
      (f.Has .dstIP → ∃ m∈f.ms, m.kind = .dstIP ∧ DstNet m.net) := by
  rw [← exists_alternative f .dstMAC Match.mac Mac,← exists_alternative f .vlan Match.vlan Vlan,
    ← exists_alternative f .etherType Match.etherType Ether,
    ← exists_alternative f .ipProto Match.ipProto Proto,
    ← exists_alternative f .dstPort Match.port Dst,← exists_alternative f .srcPort Match.port Src,
    ← exists_alternative f .srcIP Match.net SrcNet,← exists_alternative f .dstIP Match.net DstNet]
  constructor
  · rintro ⟨c,hc,h1,h2,h3,h4,h5,h6,h7,h8⟩
    exact ⟨⟨_,hc.mac,h1⟩,⟨_,hc.vlan,h2⟩,⟨_,hc.etherType,h3⟩,
      ⟨_,mem_alternatives_dedupe.mp hc.ipProto,h4⟩,⟨_,hc.dstPort,h5⟩,⟨_,hc.srcPort,h6⟩,
      ⟨_,hc.srcNet,h7⟩,⟨_,hc.dstNet,h8⟩⟩
  · rintro ⟨⟨m,hm,h1⟩,⟨v,hv,h2⟩,⟨e,he,h3⟩,⟨q,hq,h4⟩,⟨d,hd,h5⟩,⟨s,hs,h6⟩,⟨sn,hsn,h7⟩,⟨dn,hdn,h8⟩⟩
    exact ⟨⟨m,v,e,q,d,s,sn,dn⟩,⟨hm,hv,he,mem_alternatives_dedupe.mpr hq,hd,hs,hsn,hdn⟩,
      h1,h2,h3,h4,h5,h6,h7,h8⟩

theorem set_iff (P Set : α → Prop) {o : Option α} {d : α} (hd : ¬ Set d)
    (ho : ∀ a∈o, Set a) : (Set (o.getD d) → P (o.getD d)) ↔ ∀ a∈o, P a := by
  cases o with
  | none => simp [hd]
  | some a => simp [ho a rfl]

theorem isSome_iff (P : α → Prop) {o : Option α} {d : α} :
    (o.isSome=true → P (o.getD d)) ↔ ∀ a∈o, P a := by
  cases o <;> simp

section
variable {f : SteeringFilter} {c : Choice} {p : Packet}

theorem Choice.matches_iff (hc : c.From f) (hfine : ∀ m∈f.ms, m.Fine) :
    c.rule.Matches p ↔ (∀ a∈c.mac, p.dstMAC=a) ∧ (∀ a∈c.vlan, p.vlanID=some a) ∧
      (∀ a∈c.etherType, p.etherType=a) ∧ (∀ a∈c.ipProto, p.proto=some a) ∧
      (∀ a∈c.dstPort, p.dstPort=some a) ∧ (∀ a∈c.srcPort, p.srcPort=some a) ∧
      (∀ n∈c.srcNet, ∃ x∈p.src, n.Contains x) ∧ ∀ n∈c.dstNet, ∃ x∈p.dst, n.Contains x := by
  have het : ∀ a∈c.etherType, a≠0 := by
    intro a ha
    obtain ⟨m,hm,hk,rfl⟩ := mem_collect_of_choice (ha ▸ hc.etherType)
    have hf := hfine m hm
    rwa [Match.Fine,hk] at hf
  have hsn : ∀ n∈c.srcNet, n.isValid=true := by
    intro n hn
    obtain ⟨m,hm,hk,rfl⟩ := mem_collect_of_choice (hn ▸ hc.srcNet)
    have hf := hfine m hm
    rwa [Match.Fine,hk] at hf
  have hdn : ∀ n∈c.dstNet, n.isValid=true := by
    intro n hn
    obtain ⟨m,hm,hk,rfl⟩ := mem_collect_of_choice (hn ▸ hc.dstNet)
    have hf := hfine m hm
    rwa [Match.Fine,hk] at hf
  have he := set_iff (p.etherType = ·) (· ≠ 0) (by simp : ¬ (0 : UInt16)≠0) het
  have hs := set_iff (fun n => ∃ x∈p.src, Prefix.Contains n x) (Prefix.isValid · = true)
    (by simp [Prefix.isValid] : ¬ Prefix.invalid.isValid=true) hsn
  have hd := set_iff (fun n => ∃ x∈p.dst, Prefix.Contains n x) (Prefix.isValid · = true)
    (by simp [Prefix.isValid] : ¬ Prefix.invalid.isValid=true) hdn
  constructor
  · intro h
    exact ⟨(isSome_iff (p.dstMAC = ·)).mp h.mac,(isSome_iff (p.vlanID=some ·)).mp h.vlan,
      he.mp h.etherType,(isSome_iff (p.proto=some ·)).mp h.proto,
      (isSome_iff (p.dstPort=some ·)).mp h.dstPort,(isSome_iff (p.srcPort=some ·)).mp h.srcPort,
      hs.mp h.src,hd.mp h.dst⟩
  · rintro ⟨h1,h2,h3,h4,h5,h6,h7,h8⟩
    exact ⟨(isSome_iff (p.dstMAC = ·)).mpr h1,(isSome_iff (p.vlanID=some ·)).mpr h2,he.mpr h3,
      (isSome_iff (p.proto=some ·)).mpr h4,hs.mpr h7,hd.mpr h8,
      (isSome_iff (p.srcPort=some ·)).mpr h6,(isSome_iff (p.dstPort=some ·)).mpr h5⟩

theorem exists_rule_iff (hfine : ∀ m∈f.ms, m.Fine) (hlen : f.expand.length ≤ maxRules) :
    (∃ r∈f.expand, r.Matches p) ↔ (f.Has .dstMAC → ∃ m∈f.ms, m.kind = .dstMAC ∧ p.dstMAC=m.mac) ∧
      (f.Has .vlan → ∃ m∈f.ms, m.kind = .vlan ∧ p.vlanID=some m.vlan) ∧
      (f.Has .etherType → ∃ m∈f.ms, m.kind = .etherType ∧ p.etherType=m.etherType) ∧
      (f.Has .ipProto → ∃ m∈f.ms, m.kind = .ipProto ∧ p.proto=some m.ipProto) ∧
      (f.Has .dstPort → ∃ m∈f.ms, m.kind = .dstPort ∧ p.dstPort=some m.port) ∧
      (f.Has .srcPort → ∃ m∈f.ms, m.kind = .srcPort ∧ p.srcPort=some m.port) ∧
      (f.Has .srcIP → ∃ m∈f.ms, m.kind = .srcIP ∧ ∃ x∈p.src, m.net.Contains x) ∧
      (f.Has .dstIP → ∃ m∈f.ms, m.kind = .dstIP ∧ ∃ x∈p.dst, m.net.Contains x) := by
  rw [← exists_choice_iff f (p.dstMAC = ·) (p.vlanID=some ·) (p.etherType = ·)
    (p.proto=some ·) (p.dstPort=some ·) (p.srcPort=some ·)
    (fun n => ∃ x∈p.src, n.Contains x) (fun n => ∃ x∈p.dst, n.Contains x)]
  constructor
  · rintro ⟨r,hr,hm⟩
    obtain ⟨c,hc,rfl⟩ := (mem_expand hlen r).mp hr
    exact ⟨c,hc,(Choice.matches_iff hc hfine).mp hm⟩
  · rintro ⟨c,hc,hm⟩
    exact ⟨_,(mem_expand hlen _).mpr ⟨c,hc,rfl⟩,(Choice.matches_iff hc hfine).mpr hm⟩

end

inductive FromConstructor : List Match → Prop
  | dstMAC (mac : MAC) : FromConstructor [matchDstMAC mac]
  | vlan (id : UInt16) : FromConstructor [matchVLAN id]
  | etherType (t : UInt16) : FromConstructor [matchEtherType t]
  | ipProto (p : UInt8) : FromConstructor [matchIPProto p]
  | srcIP (n : Prefix) : FromConstructor [matchSrcIP n]
  | dstIP (n : Prefix) : FromConstructor [matchDstIP n]
  | srcPort (proto : UInt8) (port : UInt16) : FromConstructor (matchSrcPort proto port)
  | dstPort (proto : UInt8) (port : UInt16) : FromConstructor (matchDstPort proto port)

def SteeringFilter.Constructed (f : SteeringFilter) : Prop :=
  ∃ calls : List (List Match), (∀ l∈calls, FromConstructor l) ∧ f.ms.Perm calls.flatten

theorem SteeringFilter.Constructed.port_proto (h : f.Constructed)
    (hm : m∈f.ms) (hp : m.isPort=true) : matchIPProto m.ipProto∈f.ms := by
  obtain ⟨calls,hcalls,hperm⟩ := h
  obtain ⟨l,hl,hml⟩ := mem_flatten.mp (hperm.mem_iff.mp hm)
  refine hperm.mem_iff.mpr (mem_flatten.mpr ⟨l,hl,?_⟩)
  cases hcalls l hl with
  | srcPort proto port | dstPort proto port =>
    rcases mem_cons.mp hml with rfl | hml
    · cases hp
    · rw [mem_singleton.mp hml]
      exact mem_cons_self
  | dstMAC x | vlan x | etherType x | ipProto x | srcIP x | dstIP x =>
    rw [mem_singleton.mp hml] at hp
    cases hp

theorem port_names_proto {p : Packet} (h : f.Constructed) (hv : f.validate = .ok ())
    (hproto : f.Has .ipProto → ∃ m∈f.ms, m.kind = .ipProto ∧ p.proto=some m.ipProto) (hm : m∈f.ms)
    (hp : m.isPort=true) : p.proto=some m.ipProto := by
  obtain ⟨-,-,hall,-⟩ := (validate_ok_iff f).mp hv
  have hin := h.port_proto hm hp
  obtain ⟨m',hm',hk',hpp⟩ := hproto ⟨_,hin,rfl⟩
  have hn : m'.named=some m'.ipProto := by simp [Match.named,hk']
  have heq := hall m'.ipProto (mem_filterMap.mpr ⟨m',hm',hn⟩) m.ipProto
    (mem_filterMap.mpr ⟨_,hin,rfl⟩)
  rw [hpp,heq]

theorem kind_congr {P Q : Match → Prop} (h : ∀ m∈f.ms, m.kind=k → (P m ↔ Q m)) :
    (f.Has k → ∃ m∈f.ms, m.kind=k ∧ P m) ↔ (f.Has k → ∃ m∈f.ms, m.kind=k ∧ Q m) := by
  refine imp_congr_right fun _ => exists_congr fun m => and_congr_right fun hm => ?_
  exact and_congr_right fun hk => h m hm hk

theorem forall_kinds {R : MatchKind → Prop} :
    (∀ k, R k) ↔ R .dstMAC ∧ R .vlan ∧ R .etherType ∧ R .ipProto ∧ R .dstPort ∧ R .srcPort ∧
      R .srcIP ∧ R .dstIP ∧ ∀ n, R (.unknown n) := by
  constructor
  · intro h
    exact ⟨h _,h _,h _,h _,h _,h _,h _,h _,fun n => h _⟩
  · rintro ⟨h1,h2,h3,h4,h5,h6,h7,h8,h9⟩ k
    cases k <;> first | assumption | exact h9 _

theorem rules_mean_matches (h : f.Constructed) (hr : f.rules = .ok rs) (p : Packet) :
    (∃ r∈rs, r.Matches p) ↔ ∀ k, f.Has k → ∃ m∈f.ms, m.kind=k ∧ m.Matches p := by
  obtain ⟨hv,hrs⟩ := rules_ok hr
  obtain ⟨hprom,hfine,-,-⟩ := (validate_ok_iff f).mp hv
  rcases hrs with ⟨hp,rfl⟩ | ⟨-,hlen,rfl⟩
  · -- a promiscuous filter has no match
    have hnil : f.ms = [] := by
      by_contra hne
      exact hprom ⟨hp,hne⟩
    constructor
    · rintro - k ⟨m,hm,-⟩
      rw [hnil] at hm
      cases hm
    · intro _
      refine ⟨_,mem_singleton.mpr rfl,?_⟩
      constructor <;> simp [Prefix.isValid]
  have hunknown : ∀ n, f.Has (.unknown n) → ∃ m∈f.ms, m.kind = .unknown n ∧ m.Matches p := by
    rintro n ⟨m,hm,hk⟩
    have hf := hfine m hm
    rw [Match.Fine,hk] at hf
    exact hf.elim
  rw [exists_rule_iff hfine hlen,forall_kinds]
  refine and_congr (kind_congr ?_) <| and_congr (kind_congr ?_) <| and_congr (kind_congr ?_) <|
    Iff.trans (and_congr_right fun hproto => and_congr (kind_congr ?dst) <|
      and_congr (kind_congr ?src) <| and_congr (kind_congr ?_) <|
      (kind_congr ?_).trans (and_iff_left hunknown).symm) (and_congr_left' (kind_congr ?_))
  case dst | src =>
    -- a port's own test of the protocol is the protocol clause
    intro m hm hk
    have hport := port_names_proto h hv hproto hm (by simp [Match.isPort, hk])
    simp [Match.Matches,hk,hport]
  all_goals
    intro m _ hk
    simp [Match.Matches,hk]

section
variable {f g : SteeringFilter} (hprom : g.promiscuous=f.promiscuous) (hperm : g.ms.Perm f.ms)
include hperm

theorem ruleCount_perm : g.ruleCount=f.ruleCount := by
  have hcount : ∀ k, g.count k=f.count k := by
    intro k
    simp [SteeringFilter.count,(hperm.filter _).length_eq]
  simp [SteeringFilter.ruleCount,hcount]

include hprom

theorem validate_perm (h : f.validate = .ok ()) : g.validate = .ok () := by
  obtain ⟨h1,h2,h3,h4⟩ := (validate_ok_iff f).mp h
  have hnamed := hperm.filterMap Match.named
  refine (validate_ok_iff g).mpr ⟨?_,?_,?_,?_⟩
  · rintro ⟨hp,hne⟩
    exact h1 ⟨hprom ▸ hp,fun hnil => hne (Perm.eq_nil (hnil ▸ hperm))⟩
  · exact fun m hm => h2 m (hperm.mem_iff.mp hm)
  · exact fun x hx y hy => h3 x (hnamed.mem_iff.mp hx) y (hnamed.mem_iff.mp hy)
  · intro hany hnil
    rw [hperm.any_eq] at hany
    exact h4 hany (Perm.eq_nil (hnil ▸ hnamed.symm))

end

theorem rules_error_iff (h : f.validate = .ok ()) :
    (∃ e, f.rules = .error e) ↔ f.ruleCount > maxRules := by
  rw [rules_eq h]
  cases hp : f.promiscuous with
  | true =>
    have hnil : f.ms = [] := by
      by_contra hne
      exact ((validate_ok_iff f).mp h).1 ⟨hp,hne⟩
    simp [SteeringFilter.ruleCount,ruleKinds,SteeringFilter.count,hnil,maxRules]
  | false =>
    have hcap := expand_capped h
    by_cases hlen : f.expand.length > maxRules
    · have hfull : f.ruleCount > maxRules := hcap.elim (fun he => he ▸ hlen) fun hx => hx.2
      simp [hlen,hfull]
    have hfull : ¬ f.ruleCount > maxRules :=
      hcap.elim (fun he => he ▸ hlen) fun hx => absurd hx.1 hlen
    simp [hlen,hfull]

/-- A packet satisfies one of the rules of a filter built with the constructors
just when it satisfies, for every kind of match present, one of the matches of
that kind. Rules refuses a filter that Validate accepts just when the numbers of
alternatives multiply to more than the cap, whatever the order of the matches. -/
theorem rules_mean_filter (f : SteeringFilter) :
    (f.Constructed → ∀ rs, f.rules = .ok rs → ∀ p, (∃ r ∈ rs, r.Matches p) ↔
      ∀ k, f.Has k → ∃ m ∈ f.ms, m.kind = k ∧ m.Matches p) ∧
    (f.validate = .ok () → ∀ g : SteeringFilter, g.promiscuous = f.promiscuous →
      g.ms.Perm f.ms → ((∃ e, g.rules = .error e) ↔ f.ruleCount > maxRules)) := by
  constructor
  · intro h rs hr p
    exact rules_mean_matches h hr p
  · intro h g hprom hperm
    rw [rules_error_iff (validate_perm hprom hperm h),ruleCount_perm hperm]

def twoPorts : SteeringFilter := { ms := matchVLAN 10::matchDstPort 17 53++matchDstPort 17 80 }

theorem rules_mean_filter_two_ports :
    ∃ rs, twoPorts.rules = .ok rs ∧ rs.length = 2 ∧ twoPorts.ruleCount = 2 ∧
      ∀ p, (∃ r ∈ rs, r.Matches p) ↔
        ∀ k, twoPorts.Has k → ∃ m ∈ twoPorts.ms, m.kind = k ∧ m.Matches p := by
  have hcon : twoPorts.Constructed := by
    refine ⟨[[matchVLAN 10],matchDstPort 17 53,matchDstPort 17 80],?_,.refl _⟩
    intro l hl
    simp only [mem_cons,not_mem_nil,or_false] at hl
    rcases hl with rfl | rfl | rfl
    · exact .vlan 10
    · exact .dstPort 17 53
    · exact .dstPort 17 80
  exact ⟨_,rfl,rfl,rfl,fun p => (rules_mean_filter twoPorts).1 hcon _ rfl p⟩

/-! Ports without a protocol -/

def SteeringFilter.PortsCarryProtocol (f : SteeringFilter) (rs : List Rule) : Prop :=
  ∀ r∈rs, r.srcPortSet=true ∨ r.dstPortSet=true → r.ipProtoSet=true ∧
    ∀ m∈f.ms, m.isPort=true → m.ipProto≠0 → r.ipProto=m.ipProto ∧
      ∀ p, r.Matches p → p.proto=some m.ipProto

theorem exists_choice (f : SteeringFilter) : ∃ c : Choice, c.From f := by
  have hany : ∀ k, f.Has k → ∃ m∈f.ms, m.kind=k ∧ True := by
    rintro k ⟨m,hm,hk⟩
    exact ⟨m,hm,hk,trivial⟩
  obtain ⟨c,hc,-⟩ := (exists_choice_iff f (fun _ => True) (fun _ => True) (fun _ => True)
    (fun _ => True) (fun _ => True) (fun _ => True) (fun _ => True) (fun _ => True)).mpr
    ⟨hany _,hany _,hany _,hany _,hany _,hany _,hany _,hany _⟩
  exact ⟨c,hc⟩

theorem chosen_iff {get : Match → α}
    {o : Option α} (h : o∈alternatives (f.collect k get)) : o.isSome=true ↔ f.Has k := by
  cases o with
  | some a =>
    obtain ⟨m,hm,hk,-⟩ := mem_collect_of_choice h
    simpa using ⟨m,hm,hk⟩
  | none =>
    rcases mem_alternatives.mp h with ⟨-,hnil⟩ | ⟨a,-,ha⟩
    · simp only [Option.isSome_none,Bool.false_eq_true,false_iff]
      rintro ⟨m,hm,hk⟩
      have : get m∈f.collect k get := mem_map.mpr ⟨m,by simp [hm,hk],rfl⟩
      rw [hnil] at this
      cases this
    · cases ha

theorem isPort_iff : m.isPort=true ↔ m.kind = .srcPort ∨ m.kind = .dstPort := by simp [Match.isPort]

/-- The rules of an accepted filter carry the protocol with the port just when the
filter has no port match or it has a protocol match. -/
theorem ports_carry_protocol_iff (f : SteeringFilter) (rs : List Rule) (hr : f.rules = .ok rs) :
    f.PortsCarryProtocol rs ↔ ((∃ m ∈ f.ms, m.isPort = true) → f.Has .ipProto) := by
  obtain ⟨hv,hrs⟩ := rules_ok hr
  obtain ⟨hprom,hfine,hall,-⟩ := (validate_ok_iff f).mp hv
  rcases hrs with ⟨hp,rfl⟩ | ⟨-,hlen,rfl⟩
  · have hnil : f.ms = [] := by
      by_contra hne
      exact hprom ⟨hp,hne⟩
    constructor
    · rintro - ⟨m,hm,-⟩
      rw [hnil] at hm
      cases hm
    · intro _ r hr hport
      rw [mem_singleton.mp hr] at hport
      rcases hport with hport | hport <;> cases hport
  constructor
  · rintro h ⟨m,hm,hport⟩
    obtain ⟨c,hc⟩ := exists_choice f
    have hset : c.rule.srcPortSet=true ∨ c.rule.dstPortSet=true := by
      rcases isPort_iff.mp hport with hk | hk
      · exact .inl ((chosen_iff hc.srcPort).mpr ⟨m,hm,hk⟩)
      · exact .inr ((chosen_iff hc.dstPort).mpr ⟨m,hm,hk⟩)
    obtain ⟨hproto,-⟩ := h c.rule ((mem_expand hlen _).mpr ⟨c,hc,rfl⟩) hset
    exact (chosen_iff (mem_alternatives_dedupe.mp hc.ipProto)).mp hproto
  · intro h r hr hport
    obtain ⟨c,hc,rfl⟩ := (mem_expand hlen r).mp hr
    have hhas : f.Has .ipProto := by
      refine h ?_
      rcases hport with hport | hport
      · obtain ⟨m,hm,hk⟩ := (chosen_iff hc.srcPort).mp hport
        exact ⟨m,hm,isPort_iff.mpr (.inl hk)⟩
      · obtain ⟨m,hm,hk⟩ := (chosen_iff hc.dstPort).mp hport
        exact ⟨m,hm,isPort_iff.mpr (.inr hk)⟩
    have hfrom := mem_alternatives_dedupe.mp hc.ipProto
    have hset := (chosen_iff hfrom).mpr hhas
    refine ⟨hset,fun m hm hmp h0 => ?_⟩
    obtain ⟨q,hq⟩ := Option.isSome_iff_exists.mp hset
    obtain ⟨m',hm',hk',hmq⟩ := mem_collect_of_choice (hq ▸ hfrom)
    have hn' : m'.named=some q := by simp [Match.named,hk',hmq]
    have hn : m.named=some m.ipProto := by
      rcases isPort_iff.mp hmp with hk | hk <;> simp [Match.named,hk,h0]
    have heq : q=m.ipProto := hall q (mem_filterMap.mpr ⟨m',hm',hn'⟩) m.ipProto
      (mem_filterMap.mpr ⟨m,hm,hn⟩)
    have hrule : c.rule.ipProto=m.ipProto := by
      rwa [Choice.rule,hq]
    exact ⟨hrule,fun p hp => by rw [hp.proto hset,hrule]⟩

theorem ports_carry_protocol_iff_two_ports :
    ∃ rs, twoPorts.rules = .ok rs ∧ twoPorts.PortsCarryProtocol rs :=
  ⟨_,rfl,(ports_carry_protocol_iff twoPorts _ rfl).mpr fun _ =>
    ⟨matchIPProto 17,by simp [twoPorts,matchDstPort],rfl⟩⟩

def handPort : SteeringFilter := { ms := [{ kind := .dstPort, ipProto := 17, port := 53 }] }

def sctpPacket : Packet :=
  ⟨fun _ => 2,none,.ipv4 ⟨fun _ => 10,fun _ => 11,132,some (9,53)⟩⟩

/-- Validate accepts the filter for UDP port 53, its one rule names no protocol,
and an SCTP packet satisfies it. -/
theorem hand_port_takes_sctp :
    ∃ r, handPort.validate = .ok () ∧ handPort.rules = .ok [r] ∧ r.dstPortSet = true ∧
      r.ipProtoSet = false ∧ r.Matches sctpPacket ∧ ∀ m ∈ handPort.ms, ¬ m.Matches sctpPacket := by
  refine ⟨_,rfl,rfl,rfl,rfl,?_,?_⟩
  · constructor <;> simp [Rule.setDstPort,Prefix.isValid,sctpPacket,Packet.dstPort,Packet.ports]
  · intro m hm
    rw [mem_singleton.mp hm]
    simp [Match.Matches,sctpPacket,Packet.proto]

end Packetio

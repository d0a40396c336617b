import WritePlan.Proofs.WellFormedSpecs

namespace WritePlan

namespace Model

/-- `a` is the type `e`, or one that `e` derives from over any number of bases. -/
def SameOrBase (m : Model) (a e : EntityTypeId) : Prop :=
  Relation.ReflTransGen (fun d b => (m.entityType d).base = some b) e a

/-- The member `b` comes after `a`: its owner derives from that of `a`, or both have one owner and
`b` was declared later. -/
def Follows {α : Type} (m : Model) (owner : α → EntityTypeId) (place : α → Nat) (a b : α) : Prop :=
  (owner a ≠ owner b ∧ m.SameOrBase (owner a) (owner b)) ∨ (owner a = owner b ∧ place a < place b)

/-- The list holds the members that `e` and the types it derives from own, each once: those of a
base in front of those of what derives from it, those of one type in the order of declaration. -/
structure Inherits {α : Type} (m : Model) (e : EntityTypeId) (valid : α → Prop)
    (owner : α → EntityTypeId) (place : α → Nat) (members : List α) : Prop where
  mem_iff : ∀ a, a ∈ members ↔ valid a ∧ m.SameOrBase (owner a) e
  nodup : members.Nodup
  ordered : members.Pairwise (m.Follows owner place)

variable {m : Model}

theorem Follows.ne {α : Type} {owner : α → EntityTypeId} {place : α → Nat} {a b : α}
    (h : m.Follows owner place a b) : a ≠ b := by
  rintro rfl
  rcases h with ⟨hne, _⟩ | ⟨_, hlt⟩
  · exact hne rfl
  · exact Nat.lt_irrefl _ hlt

theorem sameOrBase_iff {a e : EntityTypeId} :
    m.SameOrBase a e ↔ a = e ∨ ∃ b, (m.entityType e).base = some b ∧ m.SameOrBase a b := by
  rw [SameOrBase, Relation.ReflTransGen.cases_head_iff]
  exact or_congr eq_comm Iff.rfl

theorem SameOrBase.trans {a b e : EntityTypeId} (hab : m.SameOrBase a b) (hbe : m.SameOrBase b e) :
    m.SameOrBase a e :=
  Relation.ReflTransGen.trans hbe hab

namespace Hierarchical

/-- The walk over the bases finds all of them, because their numbers fall. -/
theorem isSameOrBase_iff_sameOrBase (hm : m.Hierarchical) {a e : EntityTypeId} :
    m.isSameOrBase a e = true ↔ m.SameOrBase a e := by
  induction hn : e.index using Nat.strongRecOn generalizing e with
  | ind n ih =>
    subst hn
    rw [hm.isSameOrBase_iff, sameOrBase_iff]
    refine or_congr_right (exists_congr fun b => and_congr_right fun hb => ?_)
    exact ih b.index (hm.base_lt e b hb) rfl

theorem index_le (hm : m.Hierarchical) {a e : EntityTypeId} (h : m.SameOrBase a e) :
    a.index ≤ e.index := by
  induction h with
  | refl => exact Nat.le_refl _
  | tail _ hb ih => exact Nat.le_trans (Nat.le_of_lt (hm.base_lt _ _ hb)) ih

section Lists

variable {α : Type} {members : EntityType → List α} {valid : α → Prop}
  {owner : α → EntityTypeId} {place : α → Nat} (own : EntityTypeId → List α)

/-- Own members are in the order of their numbers, and after those of the base. -/
theorem ordered_of_own (hm : m.Hierarchical) (hnone : members default = [])
    (hown : ∀ e, ∀ a ∈ own e, owner a = e)
    (hascending : ∀ e, (own e).Pairwise (place · < place ·))
    (heq : ∀ e, e.index < m.entityTypes.length → members (m.entityType e) =
      Spec.inherited ((m.entityType e).base.map m.entityType) members ++ own e)
    (habove : ∀ e, ∀ a ∈ members (m.entityType e), m.SameOrBase (owner a) e)
    (e : EntityTypeId) : (members (m.entityType e)).Pairwise (m.Follows owner place) := by
  induction hn : e.index using Nat.strongRecOn generalizing e with
  | ind n ih =>
    subst hn
    by_cases he : e.index < m.entityTypes.length
    · rw [heq e he, List.pairwise_append]
      refine ⟨?_, ?_, fun a ha c hc => ?_⟩
      · cases hbase : (m.entityType e).base with
        | none => exact List.Pairwise.nil
        | some b => exact ih b.index (hm.base_lt e b hbase) b rfl
      · refine (hascending e).imp_of_mem fun ha hc hlt => .inr ⟨?_, hlt⟩
        rw [hown e _ ha, hown e _ hc]
      · obtain ⟨b, hbase, ha⟩ := Spec.mem_inherited.mp ha
        have hle := hm.index_le (habove b a ha)
        have hlt := hm.base_lt e b hbase
        have hstep : m.SameOrBase b e := sameOrBase_iff.mpr (.inr ⟨b, hbase, .refl⟩)
        left
        rw [hown e c hc]
        refine ⟨fun h => ?_, (habove b a ha).trans hstep⟩
        rw [h] at hle
        omega
    · rw [entityType_of_length_le (Nat.le_of_not_lt he), hnone]
      exact List.Pairwise.nil

/-- What holds of a list to which each type adds the members of its own. -/
theorem inherits (hm : m.Hierarchical) (hnone : members default = [])
    (hlt : ∀ a, valid a → (owner a).index < m.entityTypes.length)
    (hown : ∀ e a, a ∈ own e ↔ valid a ∧ owner a = e)
    (hascending : ∀ e, (own e).Pairwise (place · < place ·))
    (heq : ∀ e, e.index < m.entityTypes.length → members (m.entityType e) =
      Spec.inherited ((m.entityType e).base.map m.entityType) members ++ own e)
    (e : EntityTypeId) : m.Inherits e valid owner place (members (m.entityType e)) := by
  have hmem (e : EntityTypeId) (a : α) :
      a ∈ members (m.entityType e) ↔ valid a ∧ m.SameOrBase (owner a) e := by
    rw [← hm.isSameOrBase_iff_sameOrBase]
    refine hm.mem_members_iff valid owner hnone hlt (fun e he a => ?_) a e
    rw [heq e he, List.mem_append, Spec.mem_inherited, hown]
  have hordered := hm.ordered_of_own own hnone (fun e a ha => ((hown e a).mp ha).2) hascending heq
    (fun e a ha => ((hmem e a).mp ha).2) e
  exact ⟨hmem e, hordered.imp Follows.ne, hordered⟩

end Lists

end Hierarchical

end Model

namespace Spec

variable {s : Spec} {m : Model}

/-- What is left of a numbered list keeps the order of the numbers. -/
theorem pairwise_filter_mapIdx {α β γ : Type} {l : List α} {f : Nat → α → β} {idOf : β → γ}
    {place : γ → Nat} (hf : ∀ i a, place (idOf (f i a)) = i) (p : β → Bool) :
    (((l.mapIdx f).filter p).map idOf).Pairwise (place · < place ·) := by
  refine List.pairwise_map.mpr (List.Pairwise.filter p ?_)
  rw [List.pairwise_iff_getElem]
  intro i j hi hj hij
  rw [List.getElem_mapIdx, List.getElem_mapIdx, hf, hf]
  exact hij

theorem mem_propertyIds (s : Spec) (p : Property → Bool) (id : PropertyId) :
    id ∈ (s.modelProperties.filter p).map (·.id) ↔ id.index < s.modelProperties.length ∧
      p (s.modelProperties.getD id.index default) = true := by
  refine mem_map_filter_iff (fun a b h => ?_) (fun i b hi => ?_) p id
  · exact congrArg PropertyId.mk h
  · rw [modelProperties, List.getElem?_mapIdx, Option.map_eq_some_iff] at hi
    obtain ⟨_, _, rfl⟩ := hi
    rfl

theorem foreignKeys_inherit (h : s.build = .ok m) (e : EntityTypeId) :
    m.Inherits e (fun fk => fk.index < m.foreignKeys.length) (fun fk => (m.foreignKey fk).declaring)
      (·.index) (m.entityType e).foreignKeys := by
  have hm := hierarchical_of_build h
  refine hm.inherits (fun e => (s.foreignKeysOn e).map (·.id)) rfl hm.declaring_lt
    (fun e fk => ?_) (fun e => pairwise_filter_mapIdx (fun _ _ => rfl) _)
    (fun e he => (members_of_build h he).1) e
  obtain ⟨_, _, _, _, _, rfl⟩ := build_eq_ok h
  simp [foreignKeysOn, mem_foreignKeyIds, Model.foreignKey]

theorem referencing_inherit (h : s.build = .ok m) (e : EntityTypeId) :
    m.Inherits e (fun fk => fk.index < m.foreignKeys.length) (fun fk => (m.foreignKey fk).principal)
      (·.index) (m.entityType e).referencing := by
  have hm := hierarchical_of_build h
  refine hm.inherits (fun e => (s.foreignKeysTo e).map (·.id)) rfl hm.principal_lt
    (fun e fk => ?_) (fun e => pairwise_filter_mapIdx (fun _ _ => rfl) _)
    (fun e he => (members_of_build h he).2.1) e
  obtain ⟨_, _, _, _, _, rfl⟩ := build_eq_ok h
  simp [foreignKeysTo, mem_foreignKeyIds, Model.foreignKey]

theorem uniqueIndexes_inherit (h : s.build = .ok m) (e : EntityTypeId) :
    m.Inherits e (fun ix => ix.index < m.indexes.length ∧ (m.index ix).unique = true)
      (fun ix => (m.index ix).declaring) (·.index) (m.entityType e).uniqueIndexes := by
  have hm := hierarchical_of_build h
  refine hm.inherits (fun e => (s.uniqueIndexesOn e).map (·.id)) rfl
    (fun ix hix => hm.index_lt ix hix.1) (fun e ix => ?_)
    (fun e => pairwise_filter_mapIdx (fun _ _ => rfl) _)
    (fun e he => (members_of_build h he).2.2) e
  obtain ⟨_, _, _, _, _, rfl⟩ := build_eq_ok h
  simp [uniqueIndexesOn, mem_indexIds, Model.index, and_assoc]

theorem properties_inherit (h : s.build = .ok m) (e : EntityTypeId) :
    m.Inherits e (fun p => p.index < m.properties.length) (fun p => (m.property p).declaring)
      (·.index) (m.entityType e).properties := by
  have hm := hierarchical_of_build h
  refine hm.inherits (fun e => (s.propertiesOn e).map (·.id)) rfl (fun p hp => ?_)
    (fun e p => ?_) (fun e => pairwise_filter_mapIdx (fun _ _ => rfl) _) (fun e he => ?_) e
  · exact ((closed_of_build h).properties _ (Model.getD_mem hp _)).2
  · obtain ⟨_, _, _, _, _, rfl⟩ := build_eq_ok h
    simp [propertiesOn, mem_propertyIds, Model.property]
  · obtain ⟨_, htypes⟩ := entityType_of_build h
    obtain ⟨_, _, hmade, _⟩ := htypes e he
    exact (entityType_made hmade).2.1

theorem base_of_build (h : s.build = .ok m) (e : EntityTypeId) :
    (m.entityType e).base = s.baseOf e := by
  obtain ⟨hlen, _, _, hall⟩ := made_of_build h
  by_cases he : e.index < m.entityTypes.length
  · obtain ⟨d, _, hd, _, hmade, _⟩ := hall e he
    rw [baseOf, hd, Option.bind_some]
    exact (entityType_eq_ok hmade).1
  · rw [Model.entityType_of_length_le (Nat.le_of_not_lt he), baseOf,
      List.getElem?_eq_none (by omega)]
    rfl

theorem sameOrBase_of_build (h : s.build = .ok m) {a e : EntityTypeId} :
    m.SameOrBase a e ↔ s.SameOrBase a e := by
  simp only [Model.SameOrBase, SameOrBase, base_of_build h]

theorem property_of_build (h : s.build = .ok m) {p : PropertyId}
    (hp : p.index < m.properties.length) : ∃ d, s.properties[p.index]? = some d ∧
      (m.property p).name = d.name ∧ (m.property p).declaring = d.owner := by
  obtain ⟨_, _, _, _, _, rfl⟩ := build_eq_ok h
  obtain ⟨d, hd, heq⟩ := exists_getD_mapIdx hp default
  refine ⟨d, hd, ?_⟩
  rw [Model.property, modelProperties, heq]
  exact ⟨rfl, rfl⟩

theorem propertyNames_nodup (h : s.build = .ok m) (e : EntityTypeId) :
    ((m.entityType e).properties.map fun p => (m.property p).name).Nodup := by
  have hinherit := properties_inherit h e
  have hsound := build_ok_iff.mp ⟨m, h⟩
  obtain ⟨hlen, _⟩ := entityType_of_build h
  rw [List.nodup_map_iff_inj_on hinherit.nodup]
  intro p hp q hq hname
  by_cases he : e.index < s.entities.length
  · obtain ⟨hplt, habove⟩ := (hinherit.mem_iff p).mp hp
    obtain ⟨hqlt, hqabove⟩ := (hinherit.mem_iff q).mp hq
    obtain ⟨c, hc, hcname, hcowner⟩ := property_of_build h hplt
    obtain ⟨d, hd, hdname, hdowner⟩ := property_of_build h hqlt
    rw [hcowner, sameOrBase_of_build h] at habove
    rw [hdowner, sameOrBase_of_build h] at hqabove
    rw [hcname, hdname] at hname
    exact hsound.apart e he p q c d hc hd habove hqabove hname
  · rw [Model.entityType_of_length_le (by omega)] at hp
    exact absurd hp List.not_mem_nil

end Spec

/-- Among elements with distinct names a search by name finds the one that has it. -/
theorem find?_name_eq_some_iff {α : Type} {name : α → String} {l : List α}
    (hl : (l.map name).Nodup) (n : String) (a : α) :
    l.find? (name · = n) = some a ↔ a ∈ l ∧ name a = n := by
  constructor
  · intro h
    exact ⟨List.mem_of_find?_eq_some h, by simpa using List.find?_some h⟩
  · rintro ⟨ha, rfl⟩
    cases hfind : l.find? (name · = name a) with
    | none => simpa using List.find?_eq_none.mp hfind a ha
    | some b =>
      have hb : name b = name a := by simpa using List.find?_some hfind
      rw [List.inj_on_of_nodup_map hl (List.mem_of_find?_eq_some hfind) ha hb]

/-- A type has the members that are declared on it and on what it derives from, and no others. A
search for a property by name finds the only one that has the name. -/
theorem types_inherit_members {s : Spec} {m : Model} (h : s.build = .ok m) (e : EntityTypeId) :
    s.MembersOf m ∧ (m.entityType e).base = s.baseOf e ∧
      (∀ a, m.isSameOrBase a e = true ↔ m.SameOrBase a e) ∧
      m.Inherits e (fun fk => fk.index < m.foreignKeys.length)
        (fun fk => (m.foreignKey fk).declaring) (·.index) (m.entityType e).foreignKeys ∧
      m.Inherits e (fun fk => fk.index < m.foreignKeys.length)
        (fun fk => (m.foreignKey fk).principal) (·.index) (m.entityType e).referencing ∧
      m.Inherits e (fun ix => ix.index < m.indexes.length ∧ (m.index ix).unique = true)
        (fun ix => (m.index ix).declaring) (·.index) (m.entityType e).uniqueIndexes ∧
      m.Inherits e (fun p => p.index < m.properties.length)
        (fun p => (m.property p).declaring) (·.index) (m.entityType e).properties ∧
      ((m.entityType e).properties.map fun p => (m.property p).name).Nodup ∧
      (∀ name q, m.findProperty? e name = some q ↔
        (∃ p ∈ (m.entityType e).properties, m.property p = q) ∧ q.name = name) ∧
      ∀ name, m.findProperty? e name = none ↔
        ∀ p ∈ (m.entityType e).properties, (m.property p).name ≠ name := by
  have hnames := Spec.propertyNames_nodup h e
  refine ⟨?_, Spec.base_of_build h e,
    fun a => (Spec.hierarchical_of_build h).isSameOrBase_iff_sameOrBase,
    Spec.foreignKeys_inherit h e, Spec.referencing_inherit h e, Spec.uniqueIndexes_inherit h e,
    Spec.properties_inherit h e, hnames, fun name q => ?_, fun name => ?_⟩
  · obtain ⟨_, _, _, _, _, rfl⟩ := Spec.build_eq_ok h
    exact ⟨rfl, rfl, rfl, rfl⟩
  · rw [Model.findProperty?, find?_name_eq_some_iff (by rwa [List.map_map]), List.mem_map]
  · simp [Model.findProperty?]

namespace Depot

/-- Trucks are vehicles, which are assets; trips and other trucks refer to vehicles by plates. -/
def spec : Spec where
  entities := [⟨"Asset", .root ⟨none, "Assets"⟩⟩, ⟨"Vehicle", .derived ⟨0⟩ none⟩,
    ⟨"Truck", .derived ⟨1⟩ none⟩, ⟨"Trip", .root ⟨none, "Trips"⟩⟩]
  properties := [{ owner := ⟨2⟩, name := "Load" }, { owner := ⟨0⟩, name := "Id" },
    { owner := ⟨1⟩, name := "Plate" }, { owner := ⟨3⟩, name := "Id" },
    { owner := ⟨3⟩, name := "Plate" }, { owner := ⟨0⟩, name := "Code" },
    { owner := ⟨2⟩, name := "Tows" }]
  keys := [{ owner := ⟨0⟩, properties := [⟨1⟩] },
    { owner := ⟨1⟩, properties := [⟨2⟩], primary := false }, { owner := ⟨3⟩, properties := [⟨3⟩] }]
  foreignKeys := [⟨⟨3⟩, [⟨4⟩], ⟨1⟩⟩, ⟨⟨2⟩, [⟨6⟩], ⟨1⟩⟩]
  indexes := [{ owner := ⟨2⟩, name := "IX_Load", properties := [⟨0⟩] },
    { owner := ⟨0⟩, name := "IX_Code", properties := [⟨5⟩] }]

def model : Model :=
  spec.build.toOption.getD ⟨[], [], [], [], []⟩

theorem spec_build : spec.build = .ok model := by decide +kernel

/-- A truck can be referred to by its plate, which it has as a vehicle. -/
theorem types_inherit_members_truck :
    spec.build = .ok model ∧ model.SameOrBase ⟨1⟩ ⟨2⟩ ∧
      (model.entityType ⟨2⟩).properties = [⟨1⟩, ⟨5⟩, ⟨2⟩, ⟨0⟩, ⟨6⟩] ∧
      (model.entityType ⟨2⟩).uniqueIndexes = [⟨1⟩, ⟨0⟩] ∧
      ⟨0⟩ ∈ (model.entityType ⟨2⟩).referencing ∧ ⟨0⟩ ∉ (model.entityType ⟨2⟩).foreignKeys ∧
      (model.entityType ⟨2⟩).properties.Pairwise
        (model.Follows (fun p => (model.property p).declaring) (·.index)) ∧
      model.findProperty? ⟨2⟩ "Plate" = some (model.property ⟨2⟩) := by
  obtain ⟨_, _, hbase, hfks, hrefs, _, hproperties, _, hfind, _⟩ :=
    types_inherit_members spec_build ⟨2⟩
  have habove : model.SameOrBase ⟨1⟩ ⟨2⟩ := (hbase ⟨1⟩).mp (by decide +kernel)
  refine ⟨spec_build, habove, by decide +kernel, by decide +kernel, ?_, fun hmem => ?_,
    hproperties.ordered, (hfind _ _).mpr ⟨⟨⟨2⟩, by decide +kernel, rfl⟩, by decide +kernel⟩⟩
  · have hprincipal : (model.foreignKey ⟨0⟩).principal = ⟨1⟩ := by decide +kernel
    exact (hrefs.mem_iff ⟨0⟩).mpr ⟨by decide +kernel, hprincipal ▸ habove⟩
  · have htrip := (hbase _).mpr ((hfks.mem_iff ⟨0⟩).mp hmem).2
    exact absurd htrip (by decide +kernel)

end Depot

end WritePlan

import Mathlib.Data.List.Nodup
import Mathlib.Logic.Relation
import WritePlan.Proofs.Closure

namespace WritePlan

namespace Spec

/-- `a` is the type `e`, or one that `e` derives from over any number of bases. -/
def SameOrBase (s : Spec) (a e : EntityTypeId) : Prop :=
  Relation.ReflTransGen (fun d b => s.baseOf d = some b) e a

/-- A key, foreign key or index on `owner` over `ps`: the owner exists, and it or one of its bases
declares each of the properties, of which there is at least one. -/
structure MemberOn (s : Spec) (owner : EntityTypeId) (ps : List PropertyId) : Prop where
  owner_lt : owner.index < s.entities.length
  ne_nil : ps ≠ []
  declared : ∀ p ∈ ps, ∃ d, s.properties[p.index]? = some d ∧ s.SameOrBase d.owner owner

/-- The key is a primary one that `e` declares. -/
def PrimaryKeyOf (s : Spec) (e : EntityTypeId) (k : KeyId) : Prop :=
  ∃ d, s.keys[k.index]? = some d ∧ d.primary = true ∧ d.owner = e

/-- No two properties of the type, its own and those of its bases, have the same name. -/
def NamesApart (s : Spec) (e : EntityTypeId) : Prop :=
  ∀ (p q : PropertyId) (c d : PropertyDecl),
    s.properties[p.index]? = some c → s.properties[q.index]? = some d →
    s.SameOrBase c.owner e → s.SameOrBase d.owner e → c.name = d.name → p = q

/-- What must hold of declarations that make a model, said without the checks that find it out. -/
structure WellFormed (s : Spec) : Prop where
  names : (s.entities.map (·.name)).Nodup
  base_lt : ∀ e b, s.baseOf e = some b → b.index < e.index
  properties : ∀ d ∈ s.properties, d.owner.index < s.entities.length
  keys : ∀ d ∈ s.keys, s.MemberOn d.owner d.properties
  foreignKeys : ∀ d ∈ s.foreignKeys, s.MemberOn d.owner d.properties
  indexes : ∀ d ∈ s.indexes, s.MemberOn d.owner d.properties
  primary_root : ∀ d ∈ s.keys, d.primary = true → s.baseOf d.owner = none
  root_primary : ∀ e : EntityTypeId, e.index < s.entities.length → s.baseOf e = none →
    ∃! k, s.PrimaryKeyOf e k
  principal : ∀ d ∈ s.foreignKeys, ∃ k, s.keys[d.principalKey.index]? = some k ∧
    k.properties.length = d.properties.length
  apart : ∀ e : EntityTypeId, e.index < s.entities.length → s.NamesApart e

variable {s : Spec}

theorem sameOrBase_iff {a e : EntityTypeId} :
    s.SameOrBase a e ↔ a = e ∨ ∃ b, s.baseOf e = some b ∧ s.SameOrBase a b := by
  rw [SameOrBase, Relation.ReflTransGen.cases_head_iff]
  exact or_congr eq_comm Iff.rfl

theorem placeFrom_ok_iff {seen : List String} {placed : List Placement} {ds : List EntityDecl} :
    (∃ ps, placeFrom seen placed ds = .ok ps) ↔
      (∀ d ∈ ds, d.name ∉ seen) ∧ (ds.map (·.name)).Nodup ∧
        ∀ k d b, ds[k]? = some d → d.mapping.base? = some b → b.index < placed.length + k := by
  induction ds generalizing seen placed with
  | nil => simp [placeFrom]
  | cons d ds ih =>
    have hrest (p : Placement) :
        (∃ ps, placeFrom (d.name :: seen) (placed ++ [p]) ds = .ok ps) ↔
          (∀ c ∈ ds, c.name ∉ seen) ∧ d.name ∉ ds.map (·.name) ∧ (ds.map (·.name)).Nodup ∧
            ∀ k c b, ds[k]? = some c → c.mapping.base? = some b →
              b.index < placed.length + (k + 1) := by
      rw [ih, List.length_append, List.length_singleton]
      simp only [List.mem_cons, List.mem_map, not_or, not_exists, not_and]
      constructor
      · intro ⟨hseen, hnodup, hbase⟩
        exact ⟨fun c hc => (hseen c hc).2, fun c hc h => (hseen c hc).1 h, hnodup,
          fun k c b hc hb => by have := hbase k c b hc hb; omega⟩
      · intro ⟨hseen, hd, hnodup, hbase⟩
        exact ⟨fun c hc => ⟨fun h => hd c hc h, hseen c hc⟩, hnodup,
          fun k c b hc hb => by have := hbase k c b hc hb; omega⟩
    have hsplit : (∀ k c b, (d :: ds)[k]? = some c → c.mapping.base? = some b →
          b.index < placed.length + k) ↔
        (∀ b, d.mapping.base? = some b → b.index < placed.length) ∧
          ∀ k c b, ds[k]? = some c → c.mapping.base? = some b →
            b.index < placed.length + (k + 1) := by
      constructor
      · intro h
        exact ⟨fun b => h 0 d b rfl, fun k c b => h (k + 1) c b⟩
      · intro ⟨hd, hds⟩ k c b hc hb
        cases k with
        | zero =>
          obtain rfl : d = c := Option.some.inj hc
          exact hd b hb
        | succ k => exact hds k c b hc hb
    rw [hsplit, List.map_cons, List.nodup_cons, List.forall_mem_cons, placeFrom]
    by_cases hseen : d.name ∈ seen
    · simp [hseen]
    · rw [if_neg (by simpa using hseen)]
      cases hm : d.mapping with
      | root table =>
        simp only [Mapping.base?, hrest]
        tauto
      | derived base table =>
        simp only [Mapping.base?, Option.some.injEq, forall_eq']
        by_cases hbase : base.index < placed.length
        · rw [List.getElem?_eq_getElem hbase]
          simp only [hrest]
          tauto
        · rw [List.getElem?_eq_none (Nat.le_of_not_lt hbase)]
          simp [hbase]

theorem placements_ok_iff :
    (∃ ps, s.placements = .ok ps) ↔ (s.entities.map (·.name)).Nodup ∧
      ∀ e b, s.baseOf e = some b → b.index < e.index := by
  rw [placements, placeFrom_ok_iff]
  simp only [List.not_mem_nil, not_false_eq_true, implies_true, true_and, List.length_nil,
    Nat.zero_add]
  refine and_congr_right fun _ => ⟨fun h e b hb => ?_, fun h k d b hd hb => ?_⟩
  · obtain ⟨d, hd, hb⟩ := Option.bind_eq_some_iff.mp hb
    exact h e.index d b hd hb
  · exact h ⟨k⟩ b (Option.bind_eq_some_iff.mpr ⟨d, hd, hb⟩)

theorem seq_eq_ok {ε α : Type} {x : Except ε Unit} {y : Except ε α} {a : α} :
    (x >>= fun _ => y) = .ok a ↔ x = .ok () ∧ y = .ok a := by
  rw [bind_eq_ok]
  exact ⟨fun ⟨_, h⟩ => h, fun h => ⟨(), h⟩⟩

/-- A check of numbered elements that comes down to a condition on the elements alone. -/
theorem forM_zipIdx_eq_ok {ε α : Type} {l : List α} {f : α → Nat → Except ε Unit} {p : α → Prop}
    (h : ∀ a i, f a i = .ok () ↔ p a) :
    l.zipIdx.forM (fun (a, i) => f a i) = .ok () ↔ ∀ a ∈ l, p a := by
  rw [forM_eq_ok]
  constructor
  · intro hl a ha
    obtain ⟨i, hi⟩ := List.mem_iff_getElem?.mp ha
    exact (h a i).mp (hl (a, i) (List.mk_mem_zipIdx_iff_getElem?.mpr hi))
  · intro hl (a, i) ha
    exact (h a i).mpr (hl a (List.fst_mem_of_mem_zipIdx ha))

theorem checkOwner_ok_iff {kind : MemberKind} {label : String} {owner : EntityTypeId} :
    s.checkOwner kind label owner = .ok () ↔ owner.index < s.entities.length := by
  unfold checkOwner
  split <;> simp [*]

section References

variable (hbase : ∀ e b, s.baseOf e = some b → b.index < e.index)
include hbase

/-- The walk over the bases finds all of them, because their numbers fall. -/
theorem mem_lineage_iff {a e : EntityTypeId} : a ∈ lineage s.baseOf e ↔ s.SameOrBase a e := by
  induction hn : e.index using Nat.strongRecOn generalizing e with
  | ind n ih =>
    subst hn
    rw [mem_lineage, sameOrBase_iff]
    refine or_congr_right (exists_congr fun b => and_congr_right fun hb => ?_)
    rw [ih b.index (hbase e b hb) rfl]
    exact and_iff_right (hbase e b hb)

theorem inHierarchy_iff {a e : EntityTypeId} :
    s.inHierarchy a e = true ↔ s.SameOrBase a e := by
  rw [inHierarchy, List.contains_iff_mem, mem_lineage_iff hbase]

theorem checkProperty_ok_iff {kind : MemberKind} {owner : EntityTypeId} {p : PropertyId} :
    s.checkProperty kind owner p = .ok () ↔
      ∃ d, s.properties[p.index]? = some d ∧ s.SameOrBase d.owner owner := by
  unfold checkProperty
  cases hd : s.properties[p.index]? with
  | none => simp
  | some d =>
    simp only [Option.some.injEq, exists_eq_left', ← inHierarchy_iff hbase]
    split <;> simp [*]

theorem checkProperties_ok_iff {kind : MemberKind} {owner : EntityTypeId}
    {ps : List PropertyId} :
    s.checkProperties kind owner ps = .ok () ↔ ps ≠ [] ∧
      ∀ p ∈ ps, ∃ d, s.properties[p.index]? = some d ∧ s.SameOrBase d.owner owner := by
  unfold checkProperties
  cases ps with
  | nil => simp
  | cons p ps =>
    rw [if_neg (by simp), forM_eq_ok]
    simp only [checkProperty_ok_iff hbase, ne_eq, reduceCtorEq, not_false_eq_true, true_and]

theorem owner_properties_ok_iff {kind : MemberKind} {label : String} {owner : EntityTypeId}
    {ps : List PropertyId} :
    (s.checkOwner kind label owner = .ok () ∧ s.checkProperties kind owner ps = .ok ()) ↔
      s.MemberOn owner ps := by
  rw [checkOwner_ok_iff, checkProperties_ok_iff hbase]
  exact ⟨fun ⟨hlt, hne, hps⟩ => ⟨hlt, hne, hps⟩, fun h => ⟨h.owner_lt, h.ne_nil, h.declared⟩⟩

theorem checkKey_ok_iff (id : KeyId) (d : KeyDecl) :
    s.checkKey id d = .ok () ↔
      s.MemberOn d.owner d.properties ∧ (d.primary = true → s.baseOf d.owner = none) := by
  rw [← owner_properties_ok_iff hbase, and_assoc]
  unfold checkKey
  simp only [seq_eq_ok]
  refine and_congr_right fun _ => and_congr_right fun _ => ?_
  cases d.primary <;> cases s.baseOf d.owner <;> simp [pure, Except.pure, throw, throwThe,
    MonadExceptOf.throw]

theorem checkForeignKey_ok_iff (id : ForeignKeyId) (d : ForeignKeyDecl) :
    s.checkForeignKey id d = .ok () ↔
      s.MemberOn d.owner d.properties ∧ ∃ k, s.keys[d.principalKey.index]? = some k ∧
        k.properties.length = d.properties.length := by
  rw [← owner_properties_ok_iff hbase, and_assoc]
  unfold checkForeignKey
  simp only [seq_eq_ok]
  refine and_congr_right fun _ => and_congr_right fun _ => ?_
  cases s.keys[d.principalKey.index]? with
  | none => simp [throw, throwThe, MonadExceptOf.throw]
  | some k =>
    by_cases hk : k.properties.length = d.properties.length <;>
      simp [hk, pure, Except.pure, throw, throwThe, MonadExceptOf.throw]

theorem checkIndex_ok_iff (d : IndexDecl) :
    s.checkIndex d = .ok () ↔ s.MemberOn d.owner d.properties := by
  rw [checkIndex, seq_eq_ok]
  exact owner_properties_ok_iff hbase

theorem checkMembers_ok_iff :
    s.checkMembers = .ok () ↔
      (∀ d ∈ s.properties, d.owner.index < s.entities.length) ∧
      (∀ d ∈ s.keys, s.MemberOn d.owner d.properties ∧
        (d.primary = true → s.baseOf d.owner = none)) ∧
      (∀ d ∈ s.foreignKeys, s.MemberOn d.owner d.properties ∧
        ∃ k, s.keys[d.principalKey.index]? = some k ∧
          k.properties.length = d.properties.length) ∧
      ∀ d ∈ s.indexes, s.MemberOn d.owner d.properties := by
  rw [checkMembers, seq_eq_ok, seq_eq_ok, seq_eq_ok]
  refine and_congr ?_ (and_congr ?_ (and_congr ?_ ?_))
  · exact forM_eq_ok.trans (forall₂_congr fun d _ => checkOwner_ok_iff)
  · exact forM_zipIdx_eq_ok fun d i => checkKey_ok_iff hbase ⟨i⟩ d
  · exact forM_zipIdx_eq_ok fun d i => checkForeignKey_ok_iff hbase ⟨i⟩ d
  · exact forM_eq_ok.trans (forall₂_congr fun d _ => checkIndex_ok_iff hbase d)

end References

theorem mem_mapIdx_iff {α β : Type} {l : List α} {f : Nat → α → β} (place : β → Nat)
    (hf : ∀ i a, place (f i a) = i) {b : β} :
    b ∈ l.mapIdx f ↔ ∃ a, l[place b]? = some a ∧ b = f (place b) a := by
  rw [List.mem_iff_getElem?]
  simp only [List.getElem?_mapIdx, Option.map_eq_some_iff]
  constructor
  · intro ⟨i, a, hi, hb⟩
    obtain rfl : place b = i := hb ▸ hf i a
    exact ⟨a, hi, hb.symm⟩
  · intro ⟨a, ha, hb⟩
    exact ⟨place b, a, ha, hb.symm⟩

theorem nodup_mapIdx {α β : Type} {l : List α} {f : Nat → α → β} (place : β → Nat)
    (hf : ∀ i a, place (f i a) = i) : (l.mapIdx f).Nodup := by
  have hplaces : (l.mapIdx f).map place = List.range l.length :=
    List.ext_getElem (by simp) fun i _ _ => by simp [hf]
  exact List.Nodup.of_map place (hplaces ▸ List.nodup_range)

/-- The properties of a type in their order: those of its base, then its own. -/
def chainProperties (s : Spec) (e : EntityTypeId) : List Property :=
  (lineage s.baseOf e).reverse.flatMap s.propertiesOn

theorem mem_modelProperties {p : Property} :
    p ∈ s.modelProperties ↔ ∃ c, s.properties[p.id.index]? = some c ∧
      p = ⟨p.id, c.name, c.owner, c.column.getD c.name, c.generated, c.concurrencyToken⟩ :=
  mem_mapIdx_iff (fun p : Property => p.id.index) fun _ _ => rfl

theorem propertyName_of_mem {p : Property} (hp : p ∈ s.modelProperties) :
    s.propertyName p.id = p.name := by
  obtain ⟨c, hc, hpc⟩ := mem_modelProperties.mp hp
  rw [propertyName, hc, hpc]
  rfl

theorem mem_chainProperties_model {p : Property} {e : EntityTypeId}
    (hp : p ∈ s.chainProperties e) : p ∈ s.modelProperties := by
  obtain ⟨a, _, hp⟩ := List.mem_flatMap.mp hp
  exact List.mem_of_mem_filter hp

/-- Own properties can be added one by one if all names together are distinct. -/
theorem addProperties_ok_iff {owner : String} {known ps : List Property}
    (hknown : ∀ p ∈ known, p ∈ s.modelProperties) (hps : ∀ p ∈ ps, p ∈ s.modelProperties)
    (hn : (known.map (·.name)).Nodup) :
    (∃ ids, s.addProperties owner (known.map (·.id)) ps = .ok ids) ↔
      ((known ++ ps).map (·.name)).Nodup := by
  induction ps generalizing known with
  | nil => simpa [addProperties] using hn
  | cons p ps ih =>
    obtain ⟨hp, hps⟩ := List.forall_mem_cons.mp hps
    have hany : (known.map (·.id)).any (fun q => s.propertyName q = p.name) = true ↔
        p.name ∈ known.map (·.name) := by
      simp only [List.any_eq_true, List.mem_map, decide_eq_true_eq, exists_exists_and_eq_and]
      exact exists_congr fun q => and_congr_right fun hq => by
        rw [propertyName_of_mem (hknown q hq)]
    have hnext : ((known ++ [p]).map (·.name)).Nodup ↔ p.name ∉ known.map (·.name) := by
      rw [List.map_append, List.map_singleton, List.nodup_append_comm, List.singleton_append,
        List.nodup_cons, and_iff_left hn]
    rw [addProperties, show known ++ p :: ps = known ++ [p] ++ ps by simp]
    by_cases hmem : p.name ∈ known.map (·.name)
    · rw [if_pos (hany.mpr hmem)]
      simp only [reduceCtorEq, exists_false, false_iff]
      intro h
      rw [List.map_append] at h
      exact hnext.mp h.of_append_left hmem
    · rw [if_neg (mt hany.mp hmem)]
      have hmap : known.map (·.id) ++ [p.id] = (known ++ [p]).map (·.id) := by simp
      rw [hmap]
      refine ih (fun q hq => ?_) hps (hnext.mpr hmem)
      rcases List.mem_append.mp hq with hq | hq
      · exact hknown q hq
      · exact List.mem_singleton.mp hq ▸ hp

theorem rootKey_ok_iff {e : EntityTypeId} {name : String} :
    (∃ k, s.rootKey e name = .ok k) ↔ ∃ k, s.primaryKeysOn e = [k] := by
  unfold rootKey
  split <;> simp_all

/-- What is asked of one type when its members are put together. -/
def TypeSound (s : Spec) (e : EntityTypeId) : Prop :=
  ((s.chainProperties e).map (·.name)).Nodup ∧
    (s.baseOf e = none → ∃ k, s.primaryKeysOn e = [k])

/-- A type is made of its properties and, if it has no base, a key of its own. -/
theorem exists_entityType_iff {e : EntityTypeId} {d : EntityDecl} {place : Placement}
    {base : Option EntityType} :
    (∃ t, s.entityType e d place base = .ok t) ↔
      (∃ ids, s.addProperties d.name (inherited base (·.properties)) (s.propertiesOn e) = .ok ids) ∧
        (base = none → ∃ k, s.rootKey e d.name = .ok k) := by
  unfold entityType
  simp only [bind_eq_ok]
  cases base with
  | none =>
    constructor
    · intro ⟨_, ids, hids, h⟩
      obtain ⟨k, hk, _⟩ := bind_eq_ok.mp h
      exact ⟨⟨ids, hids⟩, fun _ => ⟨k, hk⟩⟩
    · intro ⟨⟨ids, hids⟩, hkey⟩
      obtain ⟨k, hk⟩ := hkey rfl
      exact ⟨_, ids, hids, bind_eq_ok.mpr ⟨k, hk, rfl⟩⟩
  | some b =>
    constructor
    · intro ⟨_, ids, hids, _⟩
      exact ⟨⟨ids, hids⟩, fun h => by cases h⟩
    · intro ⟨⟨ids, hids⟩, _⟩
      exact ⟨_, ids, hids, rfl⟩

theorem lineage_index_le {baseOf : EntityTypeId → Option EntityTypeId} {a e : EntityTypeId}
    (h : a ∈ lineage baseOf e) : a.index ≤ e.index := by
  induction hn : e.index using Nat.strongRecOn generalizing e with
  | ind n ih =>
    subst hn
    rcases mem_lineage.mp h with rfl | ⟨b, _, hlt, hb⟩
    · exact Nat.le_refl _
    · exact Nat.le_of_lt (Nat.lt_of_le_of_lt (ih b.index hlt hb rfl) hlt)

section Chains

variable (hbase : ∀ e b, s.baseOf e = some b → b.index < e.index)
include hbase

theorem chainProperties_eq (e : EntityTypeId) :
    s.chainProperties e =
      ((s.baseOf e).map s.chainProperties).getD [] ++ s.propertiesOn e := by
  unfold chainProperties
  rw [lineage]
  cases h : s.baseOf e with
  | none => simp
  | some b => simp [hbase e b h]

/-- The type that stands for a base in the model has the properties of the base. -/
def Stands (s : Spec) (base : Option EntityType) (e : EntityTypeId) : Prop :=
  base.map (·.properties) = (s.baseOf e).map fun b => (s.chainProperties b).map (·.id)

omit hbase in
theorem Stands.inherited_eq {base : Option EntityType} {e : EntityTypeId}
    (h : s.Stands base e) :
    inherited base (·.properties) =
      (((s.baseOf e).map s.chainProperties).getD []).map (·.id) := by
  unfold inherited
  rw [h]
  cases s.baseOf e <;> rfl

/-- One type can be made if its names are distinct and, for a root, its primary key is the only
one. -/
theorem entityType_ok_iff {e : EntityTypeId} {d : EntityDecl} {place : Placement}
    {base : Option EntityType} (hstands : s.Stands base e)
    (hsound : ∀ b, s.baseOf e = some b → s.TypeSound b) :
    (∃ t, s.entityType e d place base = .ok t) ↔ s.TypeSound e := by
  have hadd : (∃ ids, s.addProperties d.name (inherited base (·.properties))
      (s.propertiesOn e) = .ok ids) ↔ ((s.chainProperties e).map (·.name)).Nodup := by
    rw [hstands.inherited_eq, chainProperties_eq hbase e]
    refine addProperties_ok_iff (fun p hp => ?_) (fun p hp => List.mem_of_mem_filter hp) ?_
    · cases hb : s.baseOf e with
      | none => simp [hb] at hp
      | some b =>
        rw [hb] at hp
        exact mem_chainProperties_model hp
    · cases hb : s.baseOf e with
      | none => exact List.nodup_nil
      | some b => exact (hsound b hb).1
  have hnone : base = none ↔ s.baseOf e = none := by
    rw [← Option.map_eq_none_iff (f := (·.properties)), hstands, Option.map_eq_none_iff]
  rw [exists_entityType_iff, hadd, hnone, TypeSound]
  simp only [rootKey_ok_iff]

omit hbase in
theorem properties_of_stands {e : EntityTypeId} {d : EntityDecl} {place : Placement}
    {base : Option EntityType} {t : EntityType} (hstands : s.Stands base e)
    (ht : s.entityType e d place base = .ok t) :
    t.properties =
      (((s.baseOf e).map s.chainProperties).getD [] ++ s.propertiesOn e).map (·.id) := by
  rw [(entityType_made ht).2.1, hstands.inherited_eq, List.map_append]

/-- The types made so far are sound and have the properties of their chains. -/
def Made (s : Spec) (done : List EntityType) : Prop :=
  ∀ i t, done[i]? = some t →
    t.properties = (s.chainProperties ⟨i⟩).map (·.id) ∧ s.TypeSound ⟨i⟩

theorem Made.stands {done : List EntityType} (hdone : s.Made done) :
    s.Stands ((s.baseOf ⟨done.length⟩).bind fun b => done[b.index]?) ⟨done.length⟩ := by
  unfold Stands
  cases hb : s.baseOf ⟨done.length⟩ with
  | none => rfl
  | some b =>
    have hget := List.getElem?_eq_getElem (hbase _ b hb)
    rw [Option.bind_some, hget, Option.map_some, Option.map_some, (hdone b.index _ hget).1]

theorem Made.entityType_ok_iff {done : List EntityType} (hdone : s.Made done) {d : EntityDecl}
    {place : Placement} :
    (∃ t, s.entityType ⟨done.length⟩ d place
        ((s.baseOf ⟨done.length⟩).bind fun b => done[b.index]?) = .ok t) ↔
      s.TypeSound ⟨done.length⟩ :=
  Spec.entityType_ok_iff hbase (hdone.stands hbase) fun b hb =>
    (hdone b.index _ (List.getElem?_eq_getElem (hbase _ b hb))).2

theorem Made.append {done : List EntityType} (hdone : s.Made done) {d : EntityDecl}
    {place : Placement} {t : EntityType} (ht : s.entityType ⟨done.length⟩ d place
      ((s.baseOf ⟨done.length⟩).bind fun b => done[b.index]?) = .ok t) :
    s.Made (done ++ [t]) := by
  intro i u hu
  by_cases hi : i < done.length
  · rw [List.getElem?_append_left hi] at hu
    exact hdone i u hu
  · have hlt := (List.getElem?_eq_some_iff.mp hu).1
    rw [List.length_append, List.length_singleton] at hlt
    obtain rfl : i = done.length := by omega
    rw [List.getElem?_concat_length] at hu
    obtain rfl := Option.some.inj hu
    rw [chainProperties_eq hbase]
    exact ⟨properties_of_stands (hdone.stands hbase) ht,
      (hdone.entityType_ok_iff hbase).mp ⟨_, ht⟩⟩

/-- All types can be made in order if each of them can. -/
theorem entityTypesFrom_ok_iff {done : List EntityType} {rest : List (EntityDecl × Placement)}
    (hrest : ∀ k x, rest[k]? = some x → s.entities[done.length + k]? = some x.1)
    (hdone : s.Made done) :
    (∃ es, s.entityTypesFrom done rest = .ok es) ↔
      ∀ k < rest.length, s.TypeSound ⟨done.length + k⟩ := by
  induction rest generalizing done with
  | nil => simp [entityTypesFrom]
  | cons x rest ih =>
    obtain ⟨d, place⟩ := x
    have hdecl : d.mapping.base? = s.baseOf ⟨done.length⟩ := by
      have hd : s.entities[done.length]? = some d := hrest 0 (d, place) rfl
      simp [baseOf, hd]
    have hnext {t : EntityType} (ht : s.entityType ⟨done.length⟩ d place
        ((s.baseOf ⟨done.length⟩).bind fun b => done[b.index]?) = .ok t) :
        (∃ es, s.entityTypesFrom (done ++ [t]) rest = .ok es) ↔
          ∀ k < rest.length, s.TypeSound ⟨done.length + (k + 1)⟩ := by
      rw [ih (fun k x hx => ?_) (hdone.append hbase ht)]
      · simp only [List.length_append, List.length_singleton, Nat.add_assoc, Nat.add_comm 1]
      · rw [List.length_append, List.length_singleton, Nat.add_assoc, Nat.add_comm 1]
        exact hrest (k + 1) x hx
    simp only [entityTypesFrom, bind_eq_ok, hdecl]
    rw [List.length_cons, Nat.forall_lt_succ_left, Nat.add_zero, ← hdone.entityType_ok_iff hbase]
    constructor
    · intro ⟨es, t, ht, hes⟩
      exact ⟨⟨t, ht⟩, (hnext ht).mp ⟨es, hes⟩⟩
    · intro ⟨⟨t, ht⟩, hall⟩
      obtain ⟨es, hes⟩ := (hnext ht).mpr hall
      exact ⟨es, t, ht, hes⟩

theorem lineage_nodup (e : EntityTypeId) : (lineage s.baseOf e).Nodup := by
  induction hn : e.index using Nat.strongRecOn generalizing e with
  | ind n ih =>
    subst hn
    rw [lineage]
    cases hb : s.baseOf e with
    | none => exact List.nodup_singleton e
    | some b =>
      have hlt := hbase e b hb
      simp only [if_pos hlt]
      refine List.nodup_cons.mpr ⟨fun he => ?_, ih b.index hlt b rfl⟩
      have := lineage_index_le he
      omega

theorem mem_chainProperties {p : Property} {e : EntityTypeId} :
    p ∈ s.chainProperties e ↔ p ∈ s.modelProperties ∧ s.SameOrBase p.declaring e := by
  simp only [chainProperties, propertiesOn, List.mem_flatMap, List.mem_reverse, List.mem_filter,
    mem_lineage_iff hbase, decide_eq_true_eq]
  constructor
  · intro ⟨a, ha, hp, hd⟩
    exact ⟨hp, hd ▸ ha⟩
  · intro ⟨hp, ha⟩
    exact ⟨_, ha, hp, rfl⟩

theorem chainProperties_nodup (e : EntityTypeId) : (s.chainProperties e).Nodup := by
  refine List.nodup_flatMap.mpr ⟨fun a _ => ?_, ?_⟩
  · exact (nodup_mapIdx (fun p : Property => p.id.index) fun _ _ => rfl).filter _
  · refine (List.nodup_reverse.mpr (lineage_nodup hbase e)).imp fun hab => ?_
    intro p hpa hpb
    exact hab ((of_decide_eq_true (List.mem_filter.mp hpa).2).symm.trans
      (of_decide_eq_true (List.mem_filter.mp hpb).2))

theorem names_nodup_iff (e : EntityTypeId) :
    ((s.chainProperties e).map (·.name)).Nodup ↔ s.NamesApart e := by
  rw [List.nodup_map_iff_inj_on (chainProperties_nodup hbase e)]
  simp only [mem_chainProperties hbase, mem_modelProperties]
  constructor
  · intro h p q c d hc hd hce hde hname
    exact congrArg Property.id (h ⟨p, c.name, c.owner, _, _, _⟩ ⟨⟨c, hc, rfl⟩, hce⟩
      ⟨q, d.name, d.owner, _, _, _⟩ ⟨⟨d, hd, rfl⟩, hde⟩ hname)
  · intro h p ⟨⟨c, hc, hp⟩, hpe⟩ q ⟨⟨d, hd, hq⟩, hqe⟩ hname
    rw [hp] at hpe hname
    rw [hq] at hqe hname
    have hid := h p.id q.id c d hc hd hpe hqe hname
    obtain rfl : c = d := Option.some.inj (hc.symm.trans (hid ▸ hd))
    rw [hp, hq, hid]

end Chains

theorem eq_singleton_iff_existsUnique {α : Type} {l : List α} (hl : l.Nodup) :
    (∃ a, l = [a]) ↔ ∃! a, a ∈ l := by
  constructor
  · intro ⟨a, h⟩
    exact ⟨a, by simp [h], by simp [h]⟩
  · intro ⟨a, ha, hall⟩
    cases l with
    | nil => exact absurd ha List.not_mem_nil
    | cons b l =>
      have hb := hall b List.mem_cons_self
      cases l with
      | nil => exact ⟨b, rfl⟩
      | cons c l =>
        have hc := hall c (List.mem_cons_of_mem b List.mem_cons_self)
        exact absurd (hc.trans hb.symm ▸ List.mem_cons_self) (List.nodup_cons.mp hl).1

theorem primaryKeysOn_singleton_iff {e : EntityTypeId} :
    (∃ k, s.primaryKeysOn e = [k]) ↔ ∃! k, s.PrimaryKeyOf e k := by
  have hmem {k : Key} : k ∈ s.primaryKeysOn e ↔ ∃ d, s.keys[k.id.index]? = some d ∧
      d.primary = true ∧ d.owner = e ∧ k = ⟨k.id, d.owner, d.properties, d.primary⟩ := by
    rw [primaryKeysOn, List.mem_filter, Bool.and_eq_true, decide_eq_true_eq, modelKeys,
      mem_mapIdx_iff (fun k : Key => k.id.index) fun _ _ => rfl]
    constructor
    · rintro ⟨⟨d, hd, hk⟩, hp, he⟩
      rw [hk] at hp he
      exact ⟨d, hd, hp, he, hk⟩
    · rintro ⟨d, hd, hp, he, hk⟩
      refine ⟨⟨d, hd, hk⟩, ?_⟩
      rw [hk]
      exact ⟨hp, he⟩
  have hnodup : (s.primaryKeysOn e).Nodup :=
    (nodup_mapIdx (fun k : Key => k.id.index) fun _ _ => rfl).filter _
  rw [eq_singleton_iff_existsUnique hnodup]
  simp only [ExistsUnique, hmem]
  constructor
  · rintro ⟨k, ⟨d, hd, hp, he, hk⟩, hall⟩
    refine ⟨k.id, ⟨d, hd, hp, he⟩, ?_⟩
    rintro j ⟨c, hc, hcp, hce⟩
    exact congrArg Key.id (hall ⟨j, c.owner, c.properties, c.primary⟩ ⟨c, hc, hcp, hce, rfl⟩)
  · rintro ⟨k, ⟨d, hd, hp, he⟩, hall⟩
    refine ⟨⟨k, d.owner, d.properties, d.primary⟩, ⟨d, hd, hp, he, rfl⟩, ?_⟩
    rintro j ⟨c, hc, hcp, hce, hj⟩
    have hid := hall j.id ⟨c, hc, hcp, hce⟩
    obtain rfl : c = d := Option.some.inj (hc.symm.trans (hid ▸ hd))
    rw [hj, hid]

theorem build_ok_iff_phases :
    (∃ m, s.build = .ok m) ↔ (∃ places, s.placements = .ok places) ∧ s.checkMembers = .ok () ∧
      ∀ e : EntityTypeId, e.index < s.entities.length → s.TypeSound e := by
  have htypes {places : List Placement} (hplaces : s.placements = .ok places) :
      (∃ es, s.entityTypesFrom [] (s.entities.zip places) = .ok es) ↔
        ∀ e : EntityTypeId, e.index < s.entities.length → s.TypeSound e := by
    have hbase := (placements_ok_iff.mp ⟨_, hplaces⟩).2
    have hlen : places.length = s.entities.length := by
      simpa using (placeFrom_eq_ok hplaces).1
    rw [entityTypesFrom_ok_iff hbase (fun k x hx => ?_) (fun i t ht => by simp at ht)]
    · simp only [List.length_zip, hlen, Nat.min_self, List.length_nil, Nat.zero_add]
      exact ⟨fun h e he => h e.index he, fun h k hk => h ⟨k⟩ hk⟩
    · rw [List.length_nil, Nat.zero_add]
      exact (List.getElem?_zip_eq_some.mp hx).1
  constructor
  · intro ⟨m, hm⟩
    obtain ⟨places, es, hplaces, hcheck, hes, _⟩ := build_eq_ok hm
    exact ⟨⟨places, hplaces⟩, hcheck, (htypes hplaces).mp ⟨es, hes⟩⟩
  · intro ⟨⟨places, hplaces⟩, hcheck, hsound⟩
    obtain ⟨es, hes⟩ := (htypes hplaces).mpr hsound
    exact ⟨_, bind_eq_ok.mpr ⟨places, hplaces, bind_eq_ok.mpr ⟨(), hcheck,
      bind_eq_ok.mpr ⟨es, hes, rfl⟩⟩⟩⟩

theorem build_ok_iff : (∃ m, s.build = .ok m) ↔ s.WellFormed := by
  rw [build_ok_iff_phases, placements_ok_iff]
  constructor
  · intro ⟨⟨hnames, hbase⟩, hcheck, hsound⟩
    obtain ⟨hproperties, hkeys, hfks, hixs⟩ := (checkMembers_ok_iff hbase).mp hcheck
    exact {
      names := hnames
      base_lt := hbase
      properties := hproperties
      keys := fun d hd => (hkeys d hd).1
      foreignKeys := fun d hd => (hfks d hd).1
      indexes := hixs
      primary_root := fun d hd => (hkeys d hd).2
      root_primary := fun e he hroot => primaryKeysOn_singleton_iff.mp ((hsound e he).2 hroot)
      principal := fun d hd => (hfks d hd).2
      apart := fun e he => (names_nodup_iff hbase e).mp (hsound e he).1 }
  · intro h
    refine ⟨⟨h.names, h.base_lt⟩, (checkMembers_ok_iff h.base_lt).mpr ⟨h.properties, ?_, ?_,
      h.indexes⟩, fun e he => ⟨?_, ?_⟩⟩
    · exact fun d hd => ⟨h.keys d hd, h.primary_root d hd⟩
    · exact fun d hd => ⟨h.foreignKeys d hd, h.principal d hd⟩
    · exact (names_nodup_iff h.base_lt e).mpr (h.apart e he)
    · exact fun hroot => primaryKeysOn_singleton_iff.mpr (h.root_primary e he hroot)

end Spec

end WritePlan

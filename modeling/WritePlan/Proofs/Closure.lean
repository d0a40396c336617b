import WritePlan.Proofs.Members

namespace WritePlan

/-- The type names nothing but parts of the model. -/
structure EntityType.Within (m : Model) (e : EntityType) : Prop where
  id : e.id.index < m.entityTypes.length
  base : ∀ b, e.base = some b → b.index < m.entityTypes.length
  root : e.root.index < m.entityTypes.length
  primaryKey : e.primaryKey.index < m.keys.length
  declared : ∀ p ∈ e.declared, p.index < m.properties.length
  properties : ∀ p ∈ e.properties, p.index < m.properties.length
  foreignKeys : ∀ fk ∈ e.foreignKeys, fk.index < m.foreignKeys.length
  referencing : ∀ fk ∈ e.referencing, fk.index < m.foreignKeys.length
  uniqueIndexes : ∀ ix ∈ e.uniqueIndexes, ix.index < m.indexes.length

namespace Model

/-- Every number in the model, wherever it stands, is that of one of its parts. -/
structure Closed (m : Model) : Prop where
  entityTypes : ∀ e ∈ m.entityTypes, e.Within m
  properties : ∀ p ∈ m.properties,
    p.id.index < m.properties.length ∧ p.declaring.index < m.entityTypes.length
  keys : ∀ k ∈ m.keys, k.id.index < m.keys.length ∧
    k.declaring.index < m.entityTypes.length ∧ ∀ p ∈ k.properties, p.index < m.properties.length
  foreignKeys : ∀ fk ∈ m.foreignKeys, fk.id.index < m.foreignKeys.length ∧
    fk.declaring.index < m.entityTypes.length ∧ fk.principal.index < m.entityTypes.length ∧
    fk.principalKey.index < m.keys.length ∧ ∀ p ∈ fk.properties, p.index < m.properties.length
  indexes : ∀ ix ∈ m.indexes, ix.id.index < m.indexes.length ∧
    ix.declaring.index < m.entityTypes.length ∧ ∀ p ∈ ix.properties, p.index < m.properties.length

/-- A part that is asked for by one of the numbers is in its list. -/
theorem getD_mem {α : Type} {l : List α} {i : Nat} (h : i < l.length) (a : α) : l.getD i a ∈ l := by
  rw [List.getD_eq_getElem?_getD, List.getElem?_eq_getElem h, Option.getD_some]
  exact List.getElem_mem h

namespace Closed

variable {m : Model} (hm : m.Closed)
include hm

theorem entityType {e : EntityTypeId} (he : e.index < m.entityTypes.length) :
    (m.entityType e).Within m :=
  hm.entityTypes _ (getD_mem he _)

theorem key {k : KeyId} (hk : k.index < m.keys.length) :
    (m.key k).declaring.index < m.entityTypes.length ∧
      ∀ p ∈ (m.key k).properties, p.index < m.properties.length :=
  (hm.keys _ (getD_mem hk _)).2

theorem foreignKey {fk : ForeignKeyId} (hfk : fk.index < m.foreignKeys.length) :
    (m.foreignKey fk).declaring.index < m.entityTypes.length ∧
      (m.foreignKey fk).principal.index < m.entityTypes.length ∧
      (m.foreignKey fk).principalKey.index < m.keys.length ∧
      ∀ p ∈ (m.foreignKey fk).properties, p.index < m.properties.length :=
  (hm.foreignKeys _ (getD_mem hfk _)).2

theorem index {ix : IndexId} (hix : ix.index < m.indexes.length) :
    (m.index ix).declaring.index < m.entityTypes.length ∧
      ∀ p ∈ (m.index ix).properties, p.index < m.properties.length :=
  (hm.indexes _ (getD_mem hix _)).2

theorem primaryKey_properties {e : EntityTypeId} (he : e.index < m.entityTypes.length) :
    ∀ p ∈ (m.primaryKey e).properties, p.index < m.properties.length :=
  (hm.key (hm.entityType he).primaryKey).2

theorem principalKey_properties {fk : ForeignKeyId} (hfk : fk.index < m.foreignKeys.length) :
    ∀ p ∈ (m.principalKey fk).properties, p.index < m.properties.length :=
  (hm.key (hm.foreignKey hfk).2.2.1).2

end Closed

end Model

/-- The root of a type is one of those that were placed. -/
theorem placeFrom_root_lt {n : Nat} {seen : List String} {placed ps : List Placement}
    {ds : List EntityDecl} (h : placeFrom seen placed ds = .ok ps)
    (hn : placed.length + ds.length ≤ n) (hplaced : ∀ p ∈ placed, p.root.index < n) :
    ∀ p ∈ ps, p.root.index < n := by
  induction ds generalizing seen placed with
  | nil =>
    obtain rfl : placed = ps := Except.ok.inj h
    exact hplaced
  | cons d ds ih =>
    rw [List.length_cons] at hn
    have hrest {p : Placement} (h : placeFrom (d.name :: seen) (placed ++ [p]) ds = .ok ps)
        (hp : p.root.index < n) : ∀ p ∈ ps, p.root.index < n := by
      refine ih h (by rw [List.length_append, List.length_singleton]; omega) fun q hq => ?_
      rcases List.mem_append.mp hq with hq | hq
      · exact hplaced q hq
      · exact List.mem_singleton.mp hq ▸ hp
    unfold placeFrom at h
    split at h
    · cases h
    · split at h
      · refine hrest h ?_
        change placed.length < n
        omega
      · split at h
        · cases h
        · rename_i p hp
          exact hrest h (hplaced p (List.mem_of_getElem? hp))

namespace Spec

variable {s : Spec} {m : Model}

theorem checkProperties_eq_ok {kind : MemberKind} {owner : EntityTypeId} {ps : List PropertyId}
    {u : Unit} (h : s.checkProperties kind owner ps = .ok u) :
    ∀ p ∈ ps, p.index < s.properties.length := by
  unfold checkProperties at h
  split at h
  · cases h
  · intro p hp
    have hcheck := forM_eq_ok.mp h p hp
    unfold checkProperty at hcheck
    split at hcheck
    · cases hcheck
    · rename_i hd
      exact (List.getElem?_eq_some_iff.mp hd).1

/-- The properties that a successful check of the members has found. -/
theorem properties_of_checkMembers {u : Unit} (h : s.checkMembers = .ok u) :
    (∀ d ∈ s.properties, d.owner.index < s.entities.length) ∧
      (∀ d ∈ s.keys, ∀ p ∈ d.properties, p.index < s.properties.length) ∧
      (∀ d ∈ s.foreignKeys, ∀ p ∈ d.properties, p.index < s.properties.length) ∧
      ∀ d ∈ s.indexes, ∀ p ∈ d.properties, p.index < s.properties.length := by
  obtain ⟨_, hproperties, h⟩ := bind_eq_ok.mp h
  obtain ⟨_, hkeys, h⟩ := bind_eq_ok.mp h
  obtain ⟨_, hfks, hixs⟩ := bind_eq_ok.mp h
  rw [forM_eq_ok] at hproperties hkeys hfks hixs
  refine ⟨fun d hd => checkOwner_eq_ok (hproperties d hd), fun d hd => ?_, fun d hd => ?_,
    fun d hd => ?_⟩
  · obtain ⟨i, hi⟩ := List.mem_iff_getElem?.mp hd
    obtain ⟨_, _, h⟩ := bind_eq_ok.mp (hkeys (d, i) (List.mk_mem_zipIdx_iff_getElem?.mpr hi))
    obtain ⟨_, hps, _⟩ := bind_eq_ok.mp h
    exact checkProperties_eq_ok hps
  · obtain ⟨i, hi⟩ := List.mem_iff_getElem?.mp hd
    obtain ⟨_, _, h⟩ := bind_eq_ok.mp (hfks (d, i) (List.mk_mem_zipIdx_iff_getElem?.mpr hi))
    obtain ⟨_, hps, _⟩ := bind_eq_ok.mp h
    exact checkProperties_eq_ok hps
  · obtain ⟨_, _, hps⟩ := bind_eq_ok.mp (hixs d hd)
    exact checkProperties_eq_ok hps

/-- Members are numbered by their places. -/
theorem index_lt_of_mem_mapIdx {α β : Type} {l : List α} {f : Nat → α → β} (place : β → Nat)
    (hf : ∀ i a, place (f i a) = i) {b : β} (hb : b ∈ l.mapIdx f) :
    place b < (l.mapIdx f).length ∧ ∃ i, ∃ a ∈ l, b = f i a := by
  obtain ⟨i, hi, rfl⟩ := List.mem_mapIdx.mp hb
  rw [hf, List.length_mapIdx]
  exact ⟨hi, i, _, List.getElem_mem hi, rfl⟩

theorem forall_mem_inherited {α : Type} {valid : α → Prop} {base : Option EntityType}
    {members : EntityType → List α} {own : List α}
    (hbase : ∀ b, base = some b → ∀ a ∈ members b, valid a) (hown : ∀ a ∈ own, valid a) :
    ∀ a ∈ inherited base members ++ own, valid a := by
  intro a ha
  rcases List.mem_append.mp ha with ha | ha
  · cases base with
    | none => exact absurd ha List.not_mem_nil
    | some b => exact hbase b rfl a ha
  · exact hown a ha

/-- Ids of members that pass a test. -/
theorem forall_mem_map_filter {α β : Type} {valid : β → Prop} {l : List α} {idOf : α → β}
    (h : ∀ a ∈ l, valid (idOf a)) (p : α → Bool) :
    ∀ b ∈ (l.filter p).map idOf, valid b := by
  intro b hb
  obtain ⟨a, ha, rfl⟩ := List.mem_map.mp hb
  exact h a (List.mem_filter.mp ha).1

theorem entityType_placed {id : EntityTypeId} {d : EntityDecl} {place : Placement}
    {base : Option EntityType} {e : EntityType} (h : s.entityType id d place base = .ok e) :
    e.root = place.root ∧ e.declared = (s.propertiesOn id).map (·.id) := by
  unfold entityType at h
  obtain ⟨_, _, h⟩ := bind_eq_ok.mp h
  cases base with
  | none =>
    obtain ⟨_, _, h⟩ := bind_eq_ok.mp h
    obtain rfl := Except.ok.inj h
    exact ⟨rfl, rfl⟩
  | some b =>
    obtain rfl := Except.ok.inj h
    exact ⟨rfl, rfl⟩

/-- The model has the members that are declared, whatever its types are. -/
structure MembersOf (s : Spec) (m : Model) : Prop where
  properties : m.properties = s.modelProperties
  keys : m.keys = s.modelKeys
  foreignKeys : m.foreignKeys = s.modelForeignKeys
  indexes : m.indexes = s.modelIndexes

/-- A type keeps to the model if its base does: what it adds are members that were declared. -/
theorem MembersOf.within (hm : s.MembersOf m) {id : EntityTypeId} {d : EntityDecl}
    {place : Placement} {base : Option EntityType} {e : EntityType}
    (h : s.entityType id d place base = .ok e) (hid : id.index < m.entityTypes.length)
    (hroot : place.root.index < m.entityTypes.length)
    (hdecl : ∀ b, d.mapping.base? = some b → b.index < m.entityTypes.length)
    (hbase : ∀ b, base = some b → b.Within m) : e.Within m := by
  obtain ⟨hmapping, hfks, hrefs, hixs⟩ := entityType_eq_ok h
  obtain ⟨rfl, hproperties, hkey⟩ := entityType_made h
  obtain ⟨hplaced, hdeclared⟩ := entityType_placed h
  have hproperty : ∀ p ∈ s.modelProperties, p.id.index < m.properties.length := fun p hp =>
    hm.properties ▸ (index_lt_of_mem_mapIdx (fun p => p.id.index) (fun _ _ => rfl) hp).1
  have hfk : ∀ fk ∈ s.modelForeignKeys, fk.id.index < m.foreignKeys.length := fun fk hfk =>
    hm.foreignKeys ▸
      (index_lt_of_mem_mapIdx (fun fk => fk.id.index) (fun _ _ => rfl) hfk).1
  have hix : ∀ ix ∈ s.modelIndexes, ix.id.index < m.indexes.length := fun ix hix =>
    hm.indexes ▸ (index_lt_of_mem_mapIdx (fun ix => ix.id.index) (fun _ _ => rfl) hix).1
  have hown : ∀ p ∈ (s.propertiesOn e.id).map (·.id), p.index < m.properties.length :=
    forall_mem_map_filter hproperty _
  refine ⟨hid, hmapping ▸ hdecl, hplaced ▸ hroot, ?_, hdeclared ▸ hown, ?_, ?_, ?_, ?_⟩
  · rcases hkey with ⟨b, hb, hkey⟩ | ⟨k, hk, _, hkey⟩
    · exact hkey ▸ (hbase b hb).primaryKey
    · rw [← hkey, hm.keys]
      exact (index_lt_of_mem_mapIdx (fun k => k.id.index) (fun _ _ => rfl) hk).1
  · exact hproperties ▸ forall_mem_inherited (fun b hb => (hbase b hb).properties) hown
  · exact hfks ▸ forall_mem_inherited (fun b hb => (hbase b hb).foreignKeys)
      (forall_mem_map_filter hfk _)
  · exact hrefs ▸ forall_mem_inherited (fun b hb => (hbase b hb).referencing)
      (forall_mem_map_filter hfk _)
  · exact hixs ▸ forall_mem_inherited (fun b hb => (hbase b hb).uniqueIndexes)
      (forall_mem_map_filter hix _)

theorem MembersOf.within_entityTypesFrom (hm : s.MembersOf m) {done es : List EntityType}
    {ds : List (EntityDecl × Placement)} (h : s.entityTypesFrom done ds = .ok es)
    (hlen : done.length + ds.length ≤ m.entityTypes.length)
    (hds : ∀ x ∈ ds, x.2.root.index < m.entityTypes.length ∧
      ∀ b, x.1.mapping.base? = some b → b.index < m.entityTypes.length)
    (hdone : ∀ e ∈ done, e.Within m) : ∀ e ∈ es, e.Within m := by
  induction ds generalizing done with
  | nil =>
    obtain rfl : done = es := Except.ok.inj h
    exact hdone
  | cons x ds ih =>
    obtain ⟨d, place⟩ := x
    obtain ⟨⟨hroot, hdecl⟩, hds⟩ := List.forall_mem_cons.mp hds
    rw [List.length_cons] at hlen
    unfold entityTypesFrom at h
    obtain ⟨e, he, h⟩ := bind_eq_ok.mp h
    have hbase (b : EntityType) (hb : (d.mapping.base?.bind fun b => done[b.index]?) = some b) :
        b.Within m := by
      obtain ⟨_, _, hb⟩ := Option.bind_eq_some_iff.mp hb
      exact hdone b (List.mem_of_getElem? hb)
    have hid : done.length < m.entityTypes.length := by omega
    refine ih h (by rw [List.length_append, List.length_singleton]; omega) hds fun e' he' => ?_
    rcases List.mem_append.mp he' with he' | he'
    · exact hdone e' he'
    · exact List.mem_singleton.mp he' ▸ hm.within he hid hroot hdecl hbase

theorem closed_of_build (h : s.build = .ok m) : m.Closed := by
  obtain ⟨hlen, _⟩ := entityType_of_build h
  obtain ⟨places, entityTypes, hplaces, hcheck, htypes, rfl⟩ := build_eq_ok h
  obtain ⟨hkeys, hfks, hixs⟩ := checkMembers_eq_ok hcheck
  obtain ⟨howners, hkeyProps, hfkProps, hixProps⟩ := properties_of_checkMembers hcheck
  obtain ⟨hplaced, hbases⟩ := placeFrom_eq_ok hplaces
  simp only [List.length_nil, Nat.zero_add] at hlen hplaced hbases
  have hproperties : s.modelProperties.length = s.properties.length := List.length_mapIdx
  have hkeyCount : s.modelKeys.length = s.keys.length := List.length_mapIdx
  refine ⟨?_, fun p hp => ?_, fun k hk => ?_, fun fk hfk => ?_, fun ix hix => ?_⟩
  · refine MembersOf.within_entityTypesFrom ⟨rfl, rfl, rfl, rfl⟩ htypes ?_ (fun x hx => ?_)
      (fun _ he => absurd he List.not_mem_nil)
    · simp only [List.length_nil, List.length_zip]
      omega
    · obtain ⟨d, place⟩ := x
      obtain ⟨hd, hplace⟩ := List.of_mem_zip hx
      have hroot := placeFrom_root_lt hplaces (Nat.le_of_eq (Nat.zero_add _))
        (fun _ hp => absurd hp List.not_mem_nil) place hplace
      refine ⟨hlen ▸ hroot, fun b hb => ?_⟩
      obtain ⟨k, hk⟩ := List.mem_iff_getElem?.mp hd
      have hlt := hbases k d b hk hb
      have := (List.getElem?_eq_some_iff.mp hk).1
      simp only
      omega
  · obtain ⟨hid, i, d, hd, rfl⟩ :=
      index_lt_of_mem_mapIdx (fun p => p.id.index) (fun _ _ => rfl) hp
    exact ⟨hid, hlen ▸ howners d hd⟩
  · obtain ⟨hid, i, d, hd, rfl⟩ :=
      index_lt_of_mem_mapIdx (fun k => k.id.index) (fun _ _ => rfl) hk
    exact ⟨hid, hlen ▸ hkeys d hd, hproperties ▸ hkeyProps d hd⟩
  · obtain ⟨hid, i, d, hd, rfl⟩ :=
      index_lt_of_mem_mapIdx (fun fk => fk.id.index) (fun _ _ => rfl) hfk
    obtain ⟨howner, hkey⟩ := hfks d hd
    have hprincipal : (s.principalOf d.principalKey).index < s.entities.length := by
      have hk := List.getElem?_eq_getElem hkey
      rw [principalOf, hk]
      exact hkeys _ (List.mem_of_getElem? hk)
    exact ⟨hid, hlen ▸ howner, hlen ▸ hprincipal, hkeyCount ▸ hkey, hproperties ▸ hfkProps d hd⟩
  · obtain ⟨hid, i, d, hd, rfl⟩ :=
      index_lt_of_mem_mapIdx (fun ix => ix.id.index) (fun _ _ => rfl) hix
    exact ⟨hid, hlen ▸ hixs d hd, hproperties ▸ hixProps d hd⟩

/-- A type has properties of the model only. -/
theorem property_id_of_mem (h : s.build = .ok m) {p : PropertyId} {e : EntityTypeId}
    (hp : p ∈ (m.entityType e).properties) : (m.property p).id = p := by
  by_cases he : e.index < m.entityTypes.length
  · exact property_id h (((closed_of_build h).entityType he).properties p hp)
  · rw [Model.entityType_of_length_le (Nat.le_of_not_lt he)] at hp
    exact absurd hp List.not_mem_nil

end Spec

end WritePlan

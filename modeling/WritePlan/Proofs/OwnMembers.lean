import WritePlan.Proofs.InheritedMembers

namespace WritePlan

/-- Everything that the writes of entries of the type go by is over properties of the type. -/
structure Model.Owns (m : Model) (e : EntityTypeId) : Prop where
  primaryKey : ∀ p ∈ (m.primaryKey e).properties, p ∈ (m.entityType e).properties
  foreignKeys : ∀ fk ∈ (m.entityType e).foreignKeys, ∀ p ∈ (m.foreignKey fk).properties,
    p ∈ (m.entityType e).properties
  referencing : ∀ fk ∈ (m.entityType e).referencing, ∀ p ∈ (m.principalKey fk).properties,
    p ∈ (m.entityType e).properties
  uniqueIndexes : ∀ ix ∈ (m.entityType e).uniqueIndexes, ∀ p ∈ (m.index ix).properties,
    p ∈ (m.entityType e).properties

/-- All numbers in the model are of its parts, the members of each type are over its properties, and
a foreign key has a property for each one of the key it refers to. -/
structure Model.Coherent (m : Model) : Prop where
  closed : m.Closed
  property_id : ∀ p : PropertyId, p.index < m.properties.length → (m.property p).id = p
  owns : ∀ e : EntityTypeId, e.index < m.entityTypes.length → m.Owns e
  arity : ∀ fk : ForeignKeyId, fk.index < m.foreignKeys.length →
    (m.foreignKey fk).properties.length = (m.principalKey fk).properties.length

namespace Spec

variable {s : Spec} {m : Model}

theorem key_memberOn (h : s.build = .ok m) {k : KeyId} (hk : k.index < m.keys.length) :
    s.MemberOn (m.key k).declaring (m.key k).properties := by
  have hsound := build_ok_iff.mp ⟨m, h⟩
  obtain ⟨_, _, _, _, _, rfl⟩ := build_eq_ok h
  obtain ⟨d, hd, heq⟩ := exists_getD_mapIdx hk default
  rw [Model.key, modelKeys, heq]
  exact hsound.keys d (List.mem_of_getElem? hd)

theorem foreignKey_memberOn (h : s.build = .ok m) {fk : ForeignKeyId}
    (hfk : fk.index < m.foreignKeys.length) :
    s.MemberOn (m.foreignKey fk).declaring (m.foreignKey fk).properties := by
  have hsound := build_ok_iff.mp ⟨m, h⟩
  obtain ⟨_, _, _, _, _, rfl⟩ := build_eq_ok h
  obtain ⟨d, hd, heq⟩ := exists_getD_mapIdx hfk default
  rw [Model.foreignKey, modelForeignKeys, heq]
  exact hsound.foreignKeys d (List.mem_of_getElem? hd)

theorem index_memberOn (h : s.build = .ok m) {ix : IndexId} (hix : ix.index < m.indexes.length) :
    s.MemberOn (m.index ix).declaring (m.index ix).properties := by
  have hsound := build_ok_iff.mp ⟨m, h⟩
  obtain ⟨_, _, _, _, _, rfl⟩ := build_eq_ok h
  obtain ⟨d, hd, heq⟩ := exists_getD_mapIdx hix default
  rw [Model.index, modelIndexes, heq]
  exact hsound.indexes d (List.mem_of_getElem? hd)

/-- A member has its properties from its owner or from above it, and so has what derives from the
owner. -/
theorem mem_properties_of_memberOn (h : s.build = .ok m) {owner e : EntityTypeId}
    {ps : List PropertyId} (hon : s.MemberOn owner ps) (habove : m.SameOrBase owner e)
    {p : PropertyId} (hp : p ∈ ps) : p ∈ (m.entityType e).properties := by
  obtain ⟨d, hd, howner⟩ := hon.declared p hp
  have hlt : p.index < m.properties.length := by
    have := (List.getElem?_eq_some_iff.mp hd).1
    obtain ⟨_, _, _, _, _, rfl⟩ := build_eq_ok h
    simpa [modelProperties] using this
  obtain ⟨d', hd', _, hdeclaring⟩ := property_of_build h hlt
  obtain rfl : d = d' := Option.some.inj (hd.symm.trans hd')
  refine ((properties_inherit h e).mem_iff p).mpr ⟨hlt, ?_⟩
  rw [hdeclaring]
  exact ((sameOrBase_of_build h).mpr howner).trans habove

theorem owns_of_build (h : s.build = .ok m) {e : EntityTypeId}
    (he : e.index < m.entityTypes.length) : m.Owns e := by
  have hclosed := closed_of_build h
  have hm := hierarchical_of_build h
  refine ⟨fun p hp => ?_, fun fk hfk p hp => ?_, fun fk hfk p hp => ?_, fun ix hix p hp => ?_⟩
  · have hroot := hm.isSameOrBase_iff_sameOrBase.mp (primaryKey_declaring h he)
    have hkey := key_memberOn h (hclosed.entityType he).primaryKey
    exact mem_properties_of_memberOn h hkey hroot hp
  · obtain ⟨hlt, habove⟩ := ((foreignKeys_inherit h e).mem_iff fk).mp hfk
    exact mem_properties_of_memberOn h (foreignKey_memberOn h hlt) habove hp
  · -- the principal is where the key is declared, be it a primary or an alternate one
    obtain ⟨hlt, habove⟩ := ((referencing_inherit h e).mem_iff fk).mp hfk
    rw [principal_declaring h hlt] at habove
    have hkey := key_memberOn h (hclosed.foreignKey hlt).2.2.1
    exact mem_properties_of_memberOn h hkey habove hp
  · obtain ⟨⟨hlt, _⟩, habove⟩ := ((uniqueIndexes_inherit h e).mem_iff ix).mp hix
    exact mem_properties_of_memberOn h (index_memberOn h hlt) habove hp

theorem arity_of_build (h : s.build = .ok m) {fk : ForeignKeyId}
    (hfk : fk.index < m.foreignKeys.length) :
    (m.foreignKey fk).properties.length = (m.principalKey fk).properties.length := by
  have hsound := build_ok_iff.mp ⟨m, h⟩
  obtain ⟨_, _, _, _, _, rfl⟩ := build_eq_ok h
  obtain ⟨d, hd, heq⟩ := exists_getD_mapIdx hfk default
  obtain ⟨k, hk, hlen⟩ := hsound.principal d (List.mem_of_getElem? hd)
  rw [Model.principalKey, Model.foreignKey, modelForeignKeys, heq]
  simp [Model.key, modelKeys, hk, hlen]

theorem coherent_of_build (h : s.build = .ok m) : m.Coherent where
  closed := closed_of_build h
  property_id _ hp := property_id h hp
  owns _ he := owns_of_build h he
  arity _ hfk := arity_of_build h hfk

end Spec

end WritePlan

import Mathlib.Data.List.Nodup
import WritePlan.Proofs.Hierarchy

namespace WritePlan

theorem Model.entityType_eq_getElem {m : Model} {i : Nat} (hi : i < m.entityTypes.length) :
    m.entityType ⟨i⟩ = m.entityTypes[i] := by
  simp [entityType, hi]

namespace Spec

variable {s : Spec}

theorem addProperties_eq_ok {owner : String} {known ids : List PropertyId} {ps : List Property}
    (h : s.addProperties owner known ps = .ok ids) : ids = known ++ ps.map (·.id) := by
  induction ps generalizing known with
  | nil =>
    obtain rfl : known = ids := Except.ok.inj h
    simp
  | cons p ps ih =>
    unfold addProperties at h
    split at h
    · cases h
    · rw [ih h]
      simp

theorem rootKey_eq_ok {e : EntityTypeId} {name : String} {id : KeyId}
    (h : s.rootKey e name = .ok id) : ∃ k ∈ s.modelKeys, k.declaring = e ∧ k.id = id := by
  unfold rootKey at h
  split at h
  · cases h
  · rename_i k hk
    have hmem : k ∈ s.primaryKeysOn e := hk ▸ List.mem_singleton_self k
    obtain ⟨hmem, hdecl⟩ := List.mem_filter.mp hmem
    rw [Bool.and_eq_true, decide_eq_true_eq] at hdecl
    exact ⟨k, hmem, hdecl.2, Except.ok.inj h⟩
  · cases h

/-- What a type is made of besides its constraints. -/
theorem entityType_made {id : EntityTypeId} {d : EntityDecl} {place : Placement}
    {base : Option EntityType} {e : EntityType} (h : s.entityType id d place base = .ok e) :
    e.id = id ∧ e.properties = inherited base (·.properties) ++ (s.propertiesOn id).map (·.id) ∧
      ((∃ b, base = some b ∧ e.primaryKey = b.primaryKey) ∨
        ∃ k ∈ s.modelKeys, k.declaring = id ∧ k.id = e.primaryKey) := by
  unfold entityType at h
  obtain ⟨properties, hproperties, h⟩ := bind_eq_ok.mp h
  cases base with
  | none =>
    obtain ⟨key, hkey, h⟩ := bind_eq_ok.mp h
    obtain rfl := Except.ok.inj h
    exact ⟨rfl, addProperties_eq_ok hproperties, .inr (rootKey_eq_ok hkey)⟩
  | some b =>
    obtain rfl := Except.ok.inj h
    exact ⟨rfl, addProperties_eq_ok hproperties, .inl ⟨b, rfl, rfl⟩⟩

variable {m : Model}

theorem id_of_build (h : s.build = .ok m) {e : EntityTypeId}
    (he : e.index < m.entityTypes.length) : (m.entityType e).id = e := by
  obtain ⟨_, htypes⟩ := entityType_of_build h
  obtain ⟨_, _, hmade, _⟩ := htypes e he
  exact (entityType_made hmade).1

theorem mem_roots (h : s.build = .ok m) {e : EntityTypeId} :
    e ∈ m.roots.map (·.id) ↔ e.index < m.entityTypes.length ∧ (m.entityType e).base = none := by
  unfold Model.roots
  simp only [List.mem_map, List.mem_filter, EntityType.isRoot, Option.isNone_iff_eq_none]
  constructor
  · intro he
    obtain ⟨x, ⟨hx, hroot⟩, rfl⟩ := he
    obtain ⟨i, hi, rfl⟩ := List.mem_iff_getElem.mp hx
    rw [← Model.entityType_eq_getElem hi] at hroot ⊢
    rw [id_of_build h hi]
    exact ⟨hi, hroot⟩
  · intro he
    obtain ⟨hi, hroot⟩ := he
    refine ⟨m.entityType e, ⟨?_, hroot⟩, id_of_build h hi⟩
    rw [Model.entityType_eq_getElem hi]
    exact List.getElem_mem hi

theorem roots_nodup (h : s.build = .ok m) :
    (m.roots.map (·.id)).Nodup := by
  have hids : m.entityTypes.map (·.id) =
      (List.range m.entityTypes.length).map EntityTypeId.mk := by
    refine List.ext_getElem (by simp) fun i hi _ => ?_
    rw [List.length_map] at hi
    rw [List.getElem_map, List.getElem_map, List.getElem_range, ← Model.entityType_eq_getElem hi]
    exact id_of_build h hi
  have hn : (m.entityTypes.map (·.id)).Nodup := by
    rw [hids]
    exact List.nodup_range.map fun a b hab => congrArg EntityTypeId.index hab
  exact hn.sublist (List.filter_sublist.map _)

/-- A part of the model is made from the declaration in its place. -/
theorem exists_getD_mapIdx {α β : Type} {l : List α} {f : Nat → α → β} {i : Nat}
    (hi : i < (l.mapIdx f).length) (b : β) :
    ∃ a, l[i]? = some a ∧ (l.mapIdx f).getD i b = f i a := by
  rw [List.length_mapIdx] at hi
  exact ⟨l[i], List.getElem?_eq_getElem hi, by simp [hi]⟩

theorem property_id (h : s.build = .ok m) {p : PropertyId} (hp : p.index < m.properties.length) :
    (m.property p).id = p := by
  obtain ⟨_, _, _, _, _, rfl⟩ := build_eq_ok h
  obtain ⟨_, _, heq⟩ := exists_getD_mapIdx hp default
  exact congrArg Property.id heq

theorem key_of_mem_modelKeys (h : s.build = .ok m) {k : Key} (hk : k ∈ s.modelKeys) :
    m.key k.id = k := by
  obtain ⟨_, _, _, _, _, rfl⟩ := build_eq_ok h
  obtain ⟨i, hi⟩ := List.mem_iff_getElem?.mp hk
  have hid : k.id = ⟨i⟩ := by
    rw [modelKeys, List.getElem?_mapIdx, Option.map_eq_some_iff] at hi
    obtain ⟨_, _, rfl⟩ := hi
    rfl
  rw [hid, Model.key, List.getD_eq_getElem?_getD, hi]
  rfl

/-- The primary key of a type comes from its root. -/
theorem primaryKey_declaring (h : s.build = .ok m) {e : EntityTypeId}
    (he : e.index < m.entityTypes.length) :
    m.isSameOrBase (m.primaryKey e).declaring e = true := by
  obtain ⟨_, htypes⟩ := entityType_of_build h
  have hm := hierarchical_of_build h
  induction hn : e.index using Nat.strongRecOn generalizing e with
  | ind n ih =>
    subst hn
    obtain ⟨_, _, hmade, hlt⟩ := htypes e he
    rw [hm.isSameOrBase_iff, Model.primaryKey]
    rcases (entityType_made hmade).2.2 with ⟨b, hb, hkey⟩ | ⟨k, hk, hdecl, hkey⟩
    · obtain ⟨b, hbase, rfl⟩ := Option.map_eq_some_iff.mp hb
      rw [hkey]
      exact .inr ⟨b, hbase, ih b.index (hlt b hbase) (Nat.lt_trans (hlt b hbase) he) rfl⟩
    · rw [← hkey, key_of_mem_modelKeys h hk]
      exact .inl hdecl

/-- The principal of a foreign key is the type that declares the key. -/
theorem principal_declaring (h : s.build = .ok m) {fk : ForeignKeyId}
    (hfk : fk.index < m.foreignKeys.length) :
    (m.foreignKey fk).principal = (m.principalKey fk).declaring := by
  obtain ⟨_, _, _, hcheck, _, _⟩ := build_eq_ok h
  obtain ⟨_, hfks, _⟩ := checkMembers_eq_ok hcheck
  obtain ⟨hl, hread, hd⟩ := foreignKey_of_build h fk
  have hi := List.getElem?_eq_getElem (hl ▸ hfk)
  have hk := List.getElem?_eq_getElem (hfks _ (List.mem_of_getElem? hi)).2
  rw [(hd _ hi).2, principalOf, hk, Model.principalKey, hread]
  obtain ⟨_, _, _, _, _, rfl⟩ := build_eq_ok h
  simp [Model.key, modelForeignKeys, modelKeys, List.getD_eq_getElem?_getD, hi, hk]

end Spec

end WritePlan

import WritePlan.Proofs.Closure
import WritePlan.Proofs.Cycles
import WritePlan.Proofs.Delivery

namespace WritePlan

/-- The model `m'` has the parts of `m` under their numbers, and maybe more, but no more roots. -/
structure Model.Extends (m' m : Model) : Prop where
  entityTypes : m.entityTypes <+: m'.entityTypes
  properties : m.properties <+: m'.properties
  keys : m.keys <+: m'.keys
  foreignKeys : m.foreignKeys <+: m'.foreignKeys
  indexes : m.indexes <+: m'.indexes
  roots : m'.roots = m.roots

/-- The entry is of a type of the model. -/
def Entry.IsOf (m : Model) (e : Entry) : Prop :=
  e.entityType.index < m.entityTypes.length

/-- The constraint is one of the model. -/
def Dependency.IsOf (m : Model) : Dependency → Prop
  | .foreignKey fk => fk.index < m.foreignKeys.length
  | .uniqueIndex ix => ix.index < m.indexes.length

theorem getD_of_prefix {α : Type} {l l' : List α} (h : l <+: l') {i : Nat} (hi : i < l.length)
    (a : α) : l'.getD i a = l.getD i a := by
  rw [List.getD_eq_getElem?_getD, List.getD_eq_getElem?_getD,
    List.prefix_iff_getElem?.mp h i hi, List.getElem?_eq_getElem hi]

theorem any_congr_of_mem {α : Type} {l : List α} {p q : α → Bool} (h : ∀ a ∈ l, p a = q a) :
    l.any p = l.any q := by
  rw [Bool.eq_iff_iff, List.any_eq_true, List.any_eq_true]
  exact exists_congr fun a => and_congr_right fun ha => by rw [h a ha]

theorem forM_congr_of_mem {ε α : Type} {l : List α} {f g : α → Except ε Unit}
    (h : ∀ a ∈ l, f a = g a) : l.forM f = l.forM g := by
  induction l with
  | nil => rfl
  | cons a l ih =>
    obtain ⟨ha, hl⟩ := List.forall_mem_cons.mp h
    rw [List.forM, List.forM, ha]
    exact congrArg _ (funext fun _ => ih hl)

/-- The repeated type is one of the list. -/
theorem RowWrite.mem_of_firstRepeated {seen es : List EntityTypeId} {e : EntityTypeId}
    (h : firstRepeated seen es = some e) : e ∈ es := by
  induction es generalizing seen with
  | nil => cases h
  | cons d es ih =>
    unfold firstRepeated at h
    split at h
    · exact Option.some.inj h ▸ List.mem_cons_self
    · exact List.mem_cons_of_mem d (ih h)

theorem provided_congr {values values' : RowWrite → List KeyValue} {ws : List RowWrite}
    (h : ∀ w ∈ ws, values w = values' w) : provided values ws = provided values' ws :=
  List.flatMap_congr fun (w, _) hw => by simp only [h w (List.fst_mem_of_mem_zipIdx hw)]

theorem awaited_congr {values values' : RowWrite → List (KeyValue × Dependency)}
    {ws : List RowWrite} (h : ∀ w ∈ ws, values w = values' w) :
    awaited values ws = awaited values' ws :=
  List.flatMap_congr fun (w, _) hw => by simp only [h w (List.fst_mem_of_mem_zipIdx hw)]

variable {m m' : Model} {t : Snapshot}

namespace Model.Extends

section Parts

variable (h : m'.Extends m)
include h

theorem entityType {e : EntityTypeId} (he : e.index < m.entityTypes.length) :
    m'.entityType e = m.entityType e :=
  getD_of_prefix h.entityTypes he _

theorem property {p : PropertyId} (hp : p.index < m.properties.length) :
    m'.property p = m.property p :=
  getD_of_prefix h.properties hp _

theorem key {k : KeyId} (hk : k.index < m.keys.length) : m'.key k = m.key k :=
  getD_of_prefix h.keys hk _

theorem foreignKey {fk : ForeignKeyId} (hfk : fk.index < m.foreignKeys.length) :
    m'.foreignKey fk = m.foreignKey fk :=
  getD_of_prefix h.foreignKeys hfk _

theorem index {ix : IndexId} (hix : ix.index < m.indexes.length) : m'.index ix = m.index ix :=
  getD_of_prefix h.indexes hix _

theorem columnOf {p : PropertyId} (hp : p.index < m.properties.length) :
    m'.columnOf p = m.columnOf p := by
  rw [Model.columnOf, h.property hp, Model.columnOf]

theorem names {ps : List PropertyId} (hps : ∀ p ∈ ps, p.index < m.properties.length) :
    m'.names ps = m.names ps := by
  rw [Model.names, List.map_congr_left fun p hp => by rw [h.property (hps p hp)], Model.names]

theorem tableIn (schema : Option String) {e : EntityTypeId}
    (he : e.index < m.entityTypes.length) : m'.tableIn schema e = m.tableIn schema e := by
  rw [Model.tableIn, h.entityType he, Model.tableIn]

theorem typeName {i : Nat} (hi : (t i).IsOf m) :
    RowWrite.typeName m' t i = RowWrite.typeName m t i := by
  rw [RowWrite.typeName, h.entityType hi, RowWrite.typeName]

theorem conflict? {w : RowWrite} (hw : ∀ i ∈ w.entries, (t i).IsOf m) :
    w.conflict? m' t = w.conflict? m t := by
  unfold RowWrite.conflict?
  simp only
  split
  · rfl
  · split
    · rfl
    · refine Option.map_congr fun e he => ?_
      obtain ⟨i, hi, rfl⟩ := List.mem_map.mp (RowWrite.mem_of_firstRepeated he)
      rw [h.entityType (hw i hi)]

theorem dependentValue? (collate : Collation) (e : Entry) {fk : ForeignKeyId}
    (hfk : fk.index < m.foreignKeys.length) (source : Projection) :
    e.dependentValue? m' collate fk source = e.dependentValue? m collate fk source := by
  rw [Entry.dependentValue?, h.foreignKey hfk, Entry.dependentValue?]

theorem indexValue? (collate : Collation) (e : Entry) {ix : IndexId}
    (hix : ix.index < m.indexes.length) (source : Projection) :
    e.indexValue? m' collate ix source = e.indexValue? m collate ix source := by
  rw [Entry.indexValue?, h.index hix, Entry.indexValue?]

end Parts

section Closed

variable (hm : m.Closed) (h : m'.Extends m)
include hm h

theorem primaryKey {e : EntityTypeId} (he : e.index < m.entityTypes.length) :
    m'.primaryKey e = m.primaryKey e := by
  rw [Model.primaryKey, h.entityType he, h.key (hm.entityType he).primaryKey, Model.primaryKey]

theorem principalKey {fk : ForeignKeyId} (hfk : fk.index < m.foreignKeys.length) :
    m'.principalKey fk = m.principalKey fk := by
  rw [Model.principalKey, h.foreignKey hfk, h.key (hm.foreignKey hfk).2.2.1, Model.principalKey]

theorem describe {d : Dependency} (hd : d.IsOf m) : d.describe m' = d.describe m := by
  cases d with
  | foreignKey fk =>
    have hfk : fk.index < m.foreignKeys.length := hd
    obtain ⟨hdeclaring, hprincipal, hkey, hps⟩ := hm.foreignKey hfk
    simp only [Dependency.describe, Model.describeForeignKey, h.foreignKey hfk,
      h.entityType hdeclaring, h.entityType hprincipal, h.key hkey, h.names hps,
      h.names (hm.key hkey).2]
  | uniqueIndex ix =>
    have hix : ix.index < m.indexes.length := hd
    obtain ⟨hdeclaring, hps⟩ := hm.index hix
    simp only [Dependency.describe, Model.describeIndex, h.index hix, h.entityType hdeclaring,
      h.names hps]

theorem keyByColumn {e : EntityTypeId} (he : e.index < m.entityTypes.length) :
    m'.keyByColumn e = m.keyByColumn e := by
  have hps := hm.primaryKey_properties he
  rw [Model.keyByColumn, h.primaryKey hm he]
  refine sortBy_congr fun p hp q hq => ?_
  rw [h.columnOf (hps p hp), h.columnOf (hps q hq)]

/-- Only the tables of roots count. -/
theorem sharedTables {tableOf tableOf' : EntityTypeId → Table}
    (ht : ∀ e, e.index < m.entityTypes.length → tableOf' e = tableOf e) :
    m'.sharedTables tableOf' = m.sharedTables tableOf := by
  have hroots : ∀ e ∈ m.roots.map (·.id), tableOf' e = tableOf e := by
    intro e he
    obtain ⟨r, hr, rfl⟩ := List.mem_map.mp he
    exact ht _ (hm.entityTypes r (List.mem_filter.mp hr).1).id
  have hfilter (t : Table) : (m.roots.map (·.id)).filter (tableOf' · = t) =
      (m.roots.map (·.id)).filter (tableOf · = t) :=
    List.filter_congr fun e he => by rw [hroots e he]
  simp only [Model.sharedTables, h.roots, List.map_congr_left hroots, hfilter]

theorem primaryKeyValues {e : Entry} (he : e.IsOf m) (source : Projection) :
    e.primaryKeyValues m' source = e.primaryKeyValues m source := by
  rw [Entry.primaryKeyValues, h.keyByColumn hm he, Entry.primaryKeyValues]

theorem rowKey? {e : Entry} (he : e.IsOf m) : e.rowKey? m' = e.rowKey? m := by
  simp only [Entry.rowKey?, h.primaryKey hm he, h.primaryKeyValues hm he]

theorem route? {tableOf tableOf' : EntityTypeId → Table} (shared : List SharedTable) {e : Entry}
    (he : e.IsOf m) (ht : tableOf' e.entityType = tableOf e.entityType) :
    e.route? m' tableOf' shared = e.route? m tableOf shared := by
  simp only [Entry.route?, h.rowKey? hm he, ht]

theorem principalValue? (collate : Collation) (e : Entry) {fk : ForeignKeyId}
    (hfk : fk.index < m.foreignKeys.length) (source : Projection) :
    e.principalValue? m' collate fk source = e.principalValue? m collate fk source := by
  rw [Entry.principalValue?, h.principalKey hm hfk, Entry.principalValue?]

theorem indexesTouched {i : Nat} (hi : (t i).IsOf m) :
    RowWrite.indexesTouched m' t i = RowWrite.indexesTouched m t i := by
  unfold RowWrite.indexesTouched RowWrite.typeOf
  rw [h.entityType hi]
  refine List.filter_congr fun ix hix => ?_
  rw [h.index ((hm.entityType hi).uniqueIndexes ix hix)]

theorem columnUses {i : Nat} (hi : (t i).IsOf m) : m'.columnUses t i = m.columnUses t i := by
  simp only [Model.columnUses, h.primaryKey hm hi, h.entityType hi]
  refine List.filterMap_congr fun p hp => ?_
  rw [h.property ((hm.entityType hi).properties p hp)]

theorem columnsOf {entries : List Nat} (ht : ∀ i ∈ entries, (t i).IsOf m) :
    m'.columnsOf t entries = m.columnsOf t entries := by
  rw [Model.columnsOf, List.flatMap_congr fun i hi => h.columnUses hm (ht i hi), Model.columnsOf]

end Closed

end Model.Extends

theorem Model.Closed.indexesTouched_lt (hm : m.Closed) {i : Nat} (hi : (t i).IsOf m) :
    ∀ ix ∈ RowWrite.indexesTouched m t i, ix.index < m.indexes.length :=
  fun ix hix => (hm.entityType hi).uniqueIndexes ix (List.mem_filter.mp hix).1

/-- Writes wait for one another for the sake of constraints of the model. -/
theorem Model.Closed.isOf_of_mem_dependencies (hm : m.Closed) {collate : Collation}
    {ws : List RowWrite} (hws : ∀ w ∈ ws, ∀ i ∈ w.entries, (t i).IsOf m) {d : Precedence}
    (hd : d ∈ dependencies m collate t ws) : d.label.IsOf m := by
  rcases List.mem_append.mp hd with hd | hd
  · obtain ⟨_, _, w, _, hw, k, _, hk⟩ := mem_precedences.mp hd
    have hw := hws w (List.mem_of_getElem? hw)
    unfold RowWrite.referencesAwaited RowWrite.typeOf at hk
    split at hk
    · obtain ⟨i, hi, hk⟩ := List.mem_flatMap.mp hk
      obtain ⟨fk, hfk, hk⟩ := List.mem_filterMap.mp hk
      obtain ⟨_, _, hk⟩ := Option.map_eq_some_iff.mp hk
      rw [← (Prod.mk.inj hk).2]
      exact (hm.entityType (hw i hi)).foreignKeys fk hfk
    · split at hk
      · obtain ⟨i, hi, hk⟩ := List.mem_flatMap.mp hk
        obtain ⟨fk, hfk, hk⟩ := List.mem_filterMap.mp hk
        obtain ⟨_, _, hk⟩ := Option.map_eq_some_iff.mp hk
        rw [← (Prod.mk.inj hk).2]
        exact (hm.entityType (hw i hi)).referencing fk hfk
      · exact absurd hk List.not_mem_nil
  · obtain ⟨_, _, w, _, hw, k, _, hk⟩ := mem_precedences.mp hd
    have hw := hws w (List.mem_of_getElem? hw)
    unfold RowWrite.indexValuesAwaited at hk
    split at hk
    · obtain ⟨i, hi, hk⟩ := List.mem_flatMap.mp hk
      obtain ⟨ix, hix, hk⟩ := List.mem_filterMap.mp hk
      obtain ⟨_, _, hk⟩ := Option.map_eq_some_iff.mp hk
      rw [← (Prod.mk.inj hk).2]
      exact hm.indexesTouched_lt (hw i hi) ix hix
    · exact absurd hk List.not_mem_nil

namespace Model.Extends

variable (hm : m.Closed) (h : m'.Extends m) {w : RowWrite} (hw : ∀ i ∈ w.entries, (t i).IsOf m)
include hm h hw

theorem columns : w.columns m' t = w.columns m t := by
  rw [RowWrite.columns, h.columnsOf hm hw, RowWrite.columns]

theorem settle : w.settle m' t = w.settle m t := by
  rw [RowWrite.settle, h.columns hm hw, RowWrite.settle]

theorem kept? : w.kept? m' t = w.kept? m t := by
  unfold RowWrite.kept? RowWrite.hasWrites
  rw [h.columns hm hw, h.settle hm hw]

theorem keyValues : w.keyValues m' t = w.keyValues m t := by
  unfold RowWrite.keyValues
  cases he : w.entries with
  | nil => rfl
  | cons i is => exact h.primaryKeyValues hm (hw i (he ▸ List.mem_cons_self)) _

theorem checkIdentity (sensitive : Bool) :
    w.checkIdentity m' sensitive t = w.checkIdentity m sensitive t := by
  have hnames : w.entries.map (RowWrite.typeName m' t) = w.entries.map (RowWrite.typeName m t) :=
    List.map_congr_left fun i hi => h.typeName (hw i hi)
  rw [RowWrite.checkIdentity, h.conflict? hw, hnames, h.keyValues hm hw, RowWrite.checkIdentity]

theorem changesAny {ps : List PropertyId} (hps : ∀ p ∈ ps, p.index < m.properties.length) :
    w.changesAny m' t ps = w.changesAny m t ps := by
  have hcolumn (column : String) :
      ps.any (fun p => m'.columnOf p = column) = ps.any fun p => m.columnOf p = column :=
    any_congr_of_mem fun p hp => by rw [h.columnOf (hps p hp)]
  simp only [RowWrite.changesAny, h.columns hm hw, hcolumn]

theorem principalsProvided (collate : Collation) :
    w.principalsProvided m' collate t = w.principalsProvided m collate t := by
  unfold RowWrite.principalsProvided RowWrite.typeOf
  split
  · refine List.flatMap_congr fun i hi => ?_
    rw [h.entityType (hw i hi)]
    refine List.filterMap_congr fun fk hfk => ?_
    have hfk := (hm.entityType (hw i hi)).referencing fk hfk
    rw [h.principalKey hm hfk, h.changesAny hm hw (hm.principalKey_properties hfk),
      h.principalValue? hm collate (t i) hfk]
  · rfl

theorem referencesProvided (collate : Collation) :
    w.referencesProvided m' collate t = w.referencesProvided m collate t := by
  unfold RowWrite.referencesProvided RowWrite.typeOf
  split
  · refine List.flatMap_congr fun i hi => ?_
    rw [h.entityType (hw i hi)]
    refine List.filterMap_congr fun fk hfk => ?_
    have hfk := (hm.entityType (hw i hi)).foreignKeys fk hfk
    rw [h.foreignKey hfk, h.changesAny hm hw (hm.foreignKey hfk).2.2.2,
      h.dependentValue? collate (t i) hfk]
  · rfl

theorem referencesAwaited (collate : Collation) :
    w.referencesAwaited m' collate t = w.referencesAwaited m collate t := by
  unfold RowWrite.referencesAwaited RowWrite.typeOf
  split
  · refine List.flatMap_congr fun i hi => ?_
    rw [h.entityType (hw i hi)]
    refine List.filterMap_congr fun fk hfk => ?_
    rw [h.dependentValue? collate (t i) ((hm.entityType (hw i hi)).foreignKeys fk hfk)]
  · split
    · refine List.flatMap_congr fun i hi => ?_
      rw [h.entityType (hw i hi)]
      refine List.filterMap_congr fun fk hfk => ?_
      rw [h.principalValue? hm collate (t i) ((hm.entityType (hw i hi)).referencing fk hfk)]
    · rfl

theorem indexValuesProvided (collate : Collation) :
    w.indexValuesProvided m' collate t = w.indexValuesProvided m collate t := by
  unfold RowWrite.indexValuesProvided
  split
  · refine List.flatMap_congr fun i hi => ?_
    rw [h.indexesTouched hm (hw i hi)]
    refine List.filterMap_congr fun ix hix => ?_
    rw [h.indexValue? collate (t i) (hm.indexesTouched_lt (hw i hi) ix hix)]
  · rfl

theorem indexValuesAwaited (collate : Collation) :
    w.indexValuesAwaited m' collate t = w.indexValuesAwaited m collate t := by
  unfold RowWrite.indexValuesAwaited
  split
  · refine List.flatMap_congr fun i hi => ?_
    rw [h.indexesTouched hm (hw i hi)]
    refine List.filterMap_congr fun ix hix => ?_
    rw [h.indexValue? collate (t i) (hm.indexesTouched_lt (hw i hi) ix hix)]
  · rfl

omit hw in
theorem dependencies (collate : Collation) {ws : List RowWrite}
    (hws : ∀ w ∈ ws, ∀ i ∈ w.entries, (t i).IsOf m) :
    WritePlan.dependencies m' collate t ws = WritePlan.dependencies m collate t ws := by
  unfold WritePlan.dependencies
  rw [provided_congr fun w hw => by
      rw [h.principalsProvided hm (hws w hw) collate, h.referencesProvided hm (hws w hw) collate],
    awaited_congr fun w hw => h.referencesAwaited hm (hws w hw) collate,
    provided_congr fun w hw => h.indexValuesProvided hm (hws w hw) collate,
    awaited_congr fun w hw => h.indexValuesAwaited hm (hws w hw) collate]

omit hw in
theorem dependencyGraph (collate : Collation) {ws : List RowWrite}
    (hws : ∀ w ∈ ws, ∀ i ∈ w.entries, (t i).IsOf m) :
    WritePlan.dependencyGraph m' collate t ws = WritePlan.dependencyGraph m collate t ws := by
  rw [WritePlan.dependencyGraph, h.dependencies hm collate hws, WritePlan.dependencyGraph]

end Model.Extends

end WritePlan

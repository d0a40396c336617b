import WritePlan.Proofs.Extension
import WritePlan.Proofs.OwnMembers
import WritePlan.Proofs.Sorting

namespace WritePlan

namespace Model

variable (m : Model)

/-- The type of a number that the model must have. Like this one, the readings below come to nothing
as soon as they ask for a number or a property that is not there. -/
def entityType? (id : EntityTypeId) : Option EntityType := m.entityTypes[id.index]?

def property? (id : PropertyId) : Option Property := m.properties[id.index]?

def key? (id : KeyId) : Option Key := m.keys[id.index]?

def foreignKey? (id : ForeignKeyId) : Option ForeignKey := m.foreignKeys[id.index]?

def index? (id : IndexId) : Option Index := m.indexes[id.index]?

def primaryKey? (e : EntityTypeId) : Option Key := do
  m.key? (← m.entityType? e).primaryKey

def principalKey? (fk : ForeignKeyId) : Option Key := do
  m.key? (← m.foreignKey? fk).principalKey

def columnOf? (p : PropertyId) : Option String := do
  return (← m.property? p).column

def strictKeyByColumn (e : EntityTypeId) : Option (List PropertyId) := do
  let columns ← (← m.primaryKey? e).properties.mapM fun p => (m.columnOf? p).map (·, p)
  return (sortBy (fun a b => compare a.1 b.1) columns).map (·.2)

end Model

namespace Entry

/-- What the entry has to say of a property of its own type. -/
def ask {α : Type} (m : Model) (e : Entry) (answer : PropertyId → α) (p : PropertyId) :
    Option α := do
  if p ∈ (← m.entityType? e.entityType).properties then some (answer p) else none

def strictPrimaryKeyValues (m : Model) (e : Entry) (source : Projection) :
    Option (List Value) := do
  (← m.strictKeyByColumn e.entityType).mapM (e.ask m (e.read source))

def strictRowKey (m : Model) (e : Entry) : Option (Option RowKey) := do
  let source := if e.state.isDeleted then Projection.original else Projection.current
  let temporary ← (← m.primaryKey? e.entityType).properties.anyM (e.ask m e.temporary)
  let values ← e.strictPrimaryKeyValues m source
  return if !e.state.isDeleted && temporary then none
    else if values.any Value.isNull then none
    else some ⟨values⟩

/-- The parts of a property's column, for an entry that is known for this property only and whose
original values are not known at all. -/
def strictRoles (m : Model) (e : Entry) (p : Property) (isKey : Bool) :
    Option (Option Roles) := do
  let current ← e.ask m e.current p.id
  let temporary ← e.ask m e.temporary p.id
  let modified ← e.ask m e.modified p.id
  let known : Entry :=
    ⟨e.entityType, e.state, fun _ => current, fun _ => .null, fun _ => temporary, fun _ => modified⟩
  return known.roles? p isKey

def strictKeyValue (m : Model) (collate : Collation) (e : Entry) (constraint : Constraint)
    (ps : List PropertyId) (source : Projection) : Option (Option KeyValue) := do
  let values ← ps.mapM (e.ask m (e.read source))
  return if values.any Value.isNull then none else some ⟨constraint, values.map collate⟩

def strictPrincipalValue (m : Model) (collate : Collation) (e : Entry) (fk : ForeignKeyId)
    (source : Projection) : Option (Option KeyValue) := do
  e.strictKeyValue m collate (.foreignKey fk) (← m.principalKey? fk).properties source

def strictDependentValue (m : Model) (collate : Collation) (e : Entry) (fk : ForeignKeyId)
    (source : Projection) : Option (Option KeyValue) := do
  e.strictKeyValue m collate (.foreignKey fk) (← m.foreignKey? fk).properties source

def strictIndexValue (m : Model) (collate : Collation) (e : Entry) (ix : IndexId)
    (source : Projection) : Option (Option KeyValue) := do
  e.strictKeyValue m collate (.index ix) (← m.index? ix).properties source

end Entry

def Model.strictColumnUses (m : Model) (t : Snapshot) (i : Nat) : Option (List ColumnUse) := do
  let key ← m.primaryKey? (t i).entityType
  (← m.entityType? (t i).entityType).properties.filterMapM fun id => do
    let p ← m.property? id
    let roles ← (t i).strictRoles m p (key.properties.contains id)
    return roles.map fun roles => ⟨i, p, roles⟩

def Model.strictColumnsOf (m : Model) (t : Snapshot) (entries : List Nat) :
    Option (List ColumnUse) := do
  return (← entries.flatMapM (m.strictColumnUses t)).foldl (fun cs c => c.add cs) []

namespace RowWrite

variable (m : Model) (collate : Collation) (t : Snapshot) (w : RowWrite)

def strictKeyValues : Option (List Value) :=
  let source := if (w.state t).isAdded then Projection.current else Projection.original
  match w.entries with
  | [] => some []
  | i :: _ => (t i).strictPrimaryKeyValues m source

def strictColumns : Option (List ColumnUse) :=
  match w.settled with
  | some columns => some columns
  | none => m.strictColumnsOf t w.entries

def strictChangesAny (ps : List PropertyId) : Option Bool := do
  let columns ← w.strictColumns m t
  let names ← ps.mapM m.columnOf?
  return columns.any fun c => (c.roles.write || c.roles.read) && names.any (· = c.column)

def strictPrincipalsProvided : Option (List KeyValue) :=
  if w.isInsertOrUpdate t then
    w.entries.flatMapM fun i => do
      (← m.entityType? (t i).entityType).referencing.filterMapM fun fk => do
        let changes ← w.strictChangesAny m t (← m.principalKey? fk).properties
        if (w.state t).isAdded || changes then
          (t i).strictPrincipalValue m collate fk .current
        else return none
  else some []

def strictReferencesProvided : Option (List KeyValue) :=
  if w.isUpdateOrDelete t then
    w.entries.flatMapM fun i => do
      (← m.entityType? (t i).entityType).foreignKeys.filterMapM fun fk => do
        let changes ← w.strictChangesAny m t (← m.foreignKey? fk).properties
        if (w.state t).isDeleted || changes then
          (t i).strictDependentValue m collate fk .original
        else return none
  else some []

def strictKeysProvided : Option (List KeyValue) := do
  let principals ← w.strictPrincipalsProvided m collate t
  let references ← w.strictReferencesProvided m collate t
  return principals ++ references

def strictReferencesAwaited : Option (List (KeyValue × Dependency)) :=
  if w.isInsertOrUpdate t then
    w.entries.flatMapM fun i => do
      (← m.entityType? (t i).entityType).foreignKeys.filterMapM fun fk => do
        return (← (t i).strictDependentValue m collate fk .current).map (·, .foreignKey fk)
  else if (w.state t).isDeleted then
    w.entries.flatMapM fun i => do
      (← m.entityType? (t i).entityType).referencing.filterMapM fun fk => do
        return (← (t i).strictPrincipalValue m collate fk .original).map (·, .foreignKey fk)
  else some []

def strictIndexesTouched (i : Nat) : Option (List IndexId) := do
  (← m.entityType? (t i).entityType).uniqueIndexes.filterMapM fun ix => do
    let modified ← (← m.index? ix).properties.anyM ((t i).ask m (t i).modified)
    return if !(t i).state.isModified || modified then some ix else none

def strictIndexValuesProvided : Option (List KeyValue) :=
  if w.isUpdateOrDelete t then
    w.entries.flatMapM fun i => do
      (← strictIndexesTouched m t i).filterMapM fun ix =>
        (t i).strictIndexValue m collate ix .original
  else some []

def strictIndexValuesAwaited : Option (List (KeyValue × Dependency)) :=
  if w.isInsertOrUpdate t then
    w.entries.flatMapM fun i => do
      (← strictIndexesTouched m t i).filterMapM fun ix => do
        return (← (t i).strictIndexValue m collate ix .current).map (·, .uniqueIndex ix)
  else some []

end RowWrite

def strictProvided (values : RowWrite → Option (List KeyValue)) (ws : List RowWrite) :
    Option (List (KeyValue × Nat)) :=
  ws.zipIdx.flatMapM fun (w, place) => do return (← values w).map (·, place)

def strictAwaited (values : RowWrite → Option (List (KeyValue × Dependency)))
    (ws : List RowWrite) : Option (List Await) :=
  ws.zipIdx.flatMapM fun (w, place) => do
    return (← values w).map fun (key, label) => ⟨place, key, label⟩

def strictDependencies (m : Model) (collate : Collation) (t : Snapshot) (ws : List RowWrite) :
    Option (List Precedence) := do
  let keys ← strictProvided (·.strictKeysProvided m collate t) ws
  let references ← strictAwaited (·.strictReferencesAwaited m collate t) ws
  let freed ← strictProvided (·.strictIndexValuesProvided m collate t) ws
  let taken ← strictAwaited (·.strictIndexValuesAwaited m collate t) ws
  return precedences keys references ++ precedences freed taken

section Passes

variable {α β : Type} {l : List α}

theorem mapM_eq_some {f : α → Option β} {g : α → β} (h : ∀ a ∈ l, f a = some (g a)) :
    l.mapM f = some (l.map g) := by
  induction l with
  | nil => rfl
  | cons a l ih =>
    obtain ⟨ha, hl⟩ := List.forall_mem_cons.mp h
    simp [ha, ih hl]

theorem anyM_eq_some {f : α → Option Bool} {g : α → Bool} (h : ∀ a ∈ l, f a = some (g a)) :
    l.anyM f = some (l.any g) := by
  induction l with
  | nil => rfl
  | cons a l ih =>
    obtain ⟨ha, hl⟩ := List.forall_mem_cons.mp h
    cases hg : g a <;> simp [ha, ih hl, hg]

theorem filterMapM_eq_some {f : α → Option (Option β)} {g : α → Option β}
    (h : ∀ a ∈ l, f a = some (g a)) : l.filterMapM f = some (l.filterMap g) := by
  induction l with
  | nil => rfl
  | cons a l ih =>
    obtain ⟨ha, hl⟩ := List.forall_mem_cons.mp h
    cases hg : g a <;> simp [ha, ih hl, hg]

theorem flatMapM_eq_some {f : α → Option (List β)} {g : α → List β}
    (h : ∀ a ∈ l, f a = some (g a)) : l.flatMapM f = some (l.flatMap g) := by
  induction l with
  | nil => rfl
  | cons a l ih =>
    obtain ⟨ha, hl⟩ := List.forall_mem_cons.mp h
    simp [ha, ih hl]

end Passes

theorem getElem?_eq_some_getD {α : Type} {l : List α} {i : Nat} (hi : i < l.length) (a : α) :
    l[i]? = some (l.getD i a) := by
  simp [hi]

/-- A list of values of which none is null. -/
theorem mapM_unless_null {α : Type} (f : α → Value) (l : List α) :
    (l.mapM fun a => if (f a).isNull then none else some (f a)) =
      if (l.map f).any Value.isNull then none else some (l.map f) := by
  induction l with
  | nil => rfl
  | cons a l ih =>
    rw [List.mapM_cons, ih]
    cases hnull : (f a).isNull <;> simp [hnull]
    split <;> simp

namespace Model

variable {m : Model}

theorem entityType?_eq {e : EntityTypeId} (he : e.index < m.entityTypes.length) :
    m.entityType? e = some (m.entityType e) :=
  getElem?_eq_some_getD he default

theorem foreignKey?_eq {fk : ForeignKeyId} (hfk : fk.index < m.foreignKeys.length) :
    m.foreignKey? fk = some (m.foreignKey fk) :=
  getElem?_eq_some_getD hfk default

theorem index?_eq {ix : IndexId} (hix : ix.index < m.indexes.length) :
    m.index? ix = some (m.index ix) :=
  getElem?_eq_some_getD hix default

theorem property?_eq {p : PropertyId} (hp : p.index < m.properties.length) :
    m.property? p = some (m.property p) :=
  getElem?_eq_some_getD hp default

theorem columnOf?_eq {p : PropertyId} (hp : p.index < m.properties.length) :
    m.columnOf? p = some (m.columnOf p) := by
  rw [columnOf?, property?_eq hp]
  rfl

variable (hm : m.Coherent)
include hm

theorem primaryKey?_eq {e : EntityTypeId} (he : e.index < m.entityTypes.length) :
    m.primaryKey? e = some (m.primaryKey e) := by
  rw [primaryKey?, entityType?_eq he]
  exact getElem?_eq_some_getD (hm.closed.entityType he).primaryKey default

theorem principalKey?_eq {fk : ForeignKeyId} (hfk : fk.index < m.foreignKeys.length) :
    m.principalKey? fk = some (m.principalKey fk) := by
  rw [principalKey?, foreignKey?_eq hfk]
  exact getElem?_eq_some_getD (hm.closed.foreignKey hfk).2.2.1 default

theorem strictKeyByColumn_eq {e : EntityTypeId} (he : e.index < m.entityTypes.length) :
    m.strictKeyByColumn e = some (m.keyByColumn e) := by
  have hcolumns : (m.primaryKey e).properties.mapM (fun p => (m.columnOf? p).map (·, p)) =
      some ((m.primaryKey e).properties.map fun p => (m.columnOf p, p)) :=
    mapM_eq_some fun p hp => by
      rw [columnOf?_eq (hm.closed.primaryKey_properties he p hp), Option.map_some]
  simp only [strictKeyByColumn, primaryKey?_eq hm he, Option.bind_eq_bind, Option.bind_some,
    hcolumns, sortBy_map, List.map_map]
  exact congrArg some (List.map_id _)

end Model

section Reads

variable {m : Model} (hm : m.Coherent)
include hm

namespace Entry

variable {e : Entry} (he : e.IsOf m)
include he

omit hm in
theorem ask_eq {α : Type} {answer : PropertyId → α} {p : PropertyId}
    (hp : p ∈ (m.entityType e.entityType).properties) : e.ask m answer p = some (answer p) := by
  rw [ask, Model.entityType?_eq he]
  exact if_pos hp

theorem strictPrimaryKeyValues_eq (source : Projection) :
    e.strictPrimaryKeyValues m source = some (e.primaryKeyValues m source) := by
  rw [strictPrimaryKeyValues, Model.strictKeyByColumn_eq hm he]
  exact mapM_eq_some fun p hp =>
    ask_eq he ((hm.owns _ he).primaryKey p (mem_sortBy.mp hp))

theorem strictRowKey_eq : e.strictRowKey m = some (e.rowKey? m) := by
  have htemporary : (m.primaryKey e.entityType).properties.anyM (e.ask m e.temporary) =
      some ((m.primaryKey e.entityType).properties.any e.temporary) :=
    anyM_eq_some fun p hp => ask_eq he ((hm.owns _ he).primaryKey p hp)
  rw [strictRowKey, Model.primaryKey?_eq hm he]
  simp only [Option.bind_eq_bind, Option.bind_some, htemporary, strictPrimaryKeyValues_eq hm he]
  rfl

omit hm in
theorem strictRoles_eq {p : Property} (hp : p.id ∈ (m.entityType e.entityType).properties)
    (isKey : Bool) : e.strictRoles m p isKey = some (e.roles? p isKey) := by
  simp only [strictRoles, ask_eq he hp, Option.bind_eq_bind, Option.bind_some]
  rfl

omit hm in
theorem strictKeyValue_eq {collate : Collation} {constraint : Constraint} {ps : List PropertyId}
    (hps : ∀ p ∈ ps, p ∈ (m.entityType e.entityType).properties) (source : Projection) :
    e.strictKeyValue m collate constraint ps source =
      some (e.keyValue? collate constraint ps source) := by
  rw [strictKeyValue, mapM_eq_some fun p hp => ask_eq he (hps p hp), keyValue?, valuesOf?,
    mapM_unless_null]
  simp only [Option.bind_eq_bind, Option.bind_some]
  split <;> rfl

theorem strictPrincipalValue_eq {collate : Collation} {fk : ForeignKeyId}
    (hfk : fk ∈ (m.entityType e.entityType).referencing) (source : Projection) :
    e.strictPrincipalValue m collate fk source = some (e.principalValue? m collate fk source) := by
  rw [strictPrincipalValue,
    Model.principalKey?_eq hm ((hm.closed.entityType he).referencing fk hfk)]
  exact strictKeyValue_eq he ((hm.owns _ he).referencing fk hfk) source

theorem strictDependentValue_eq {collate : Collation} {fk : ForeignKeyId}
    (hfk : fk ∈ (m.entityType e.entityType).foreignKeys) (source : Projection) :
    e.strictDependentValue m collate fk source = some (e.dependentValue? m collate fk source) := by
  rw [strictDependentValue, Model.foreignKey?_eq ((hm.closed.entityType he).foreignKeys fk hfk)]
  exact strictKeyValue_eq he ((hm.owns _ he).foreignKeys fk hfk) source

theorem strictIndexValue_eq {collate : Collation} {ix : IndexId}
    (hix : ix ∈ (m.entityType e.entityType).uniqueIndexes) (source : Projection) :
    e.strictIndexValue m collate ix source = some (e.indexValue? m collate ix source) := by
  rw [strictIndexValue, Model.index?_eq ((hm.closed.entityType he).uniqueIndexes ix hix)]
  exact strictKeyValue_eq he ((hm.owns _ he).uniqueIndexes ix hix) source

end Entry

theorem Model.strictColumnUses_eq {t : Snapshot} {i : Nat} (hi : (t i).IsOf m) :
    m.strictColumnUses t i = some (m.columnUses t i) := by
  rw [strictColumnUses, primaryKey?_eq hm hi, entityType?_eq hi]
  refine filterMapM_eq_some fun p hp => ?_
  have hlt := (hm.closed.entityType hi).properties p hp
  have hid := hm.property_id p hlt
  simp only [property?_eq hlt, Entry.strictRoles_eq hi (hid.symm ▸ hp), Option.bind_eq_bind,
    Option.bind_some]
  rfl

theorem Model.strictColumnsOf_eq {t : Snapshot} {entries : List Nat}
    (h : ∀ i ∈ entries, (t i).IsOf m) :
    m.strictColumnsOf t entries = some (m.columnsOf t entries) := by
  rw [strictColumnsOf, flatMapM_eq_some fun i hi => strictColumnUses_eq hm (h i hi)]
  rfl

omit hm in
/-- Members of their types are gone through for all entries. -/
theorem flatMapM_members_eq_some {α β : Type} {members : EntityType → List α} {t : Snapshot}
    {entries : List Nat} {f : Nat → α → Option (Option β)} {g : Nat → α → Option β}
    (ht : ∀ i ∈ entries, (t i).IsOf m)
    (h : ∀ i ∈ entries, ∀ a ∈ members (m.entityType (t i).entityType), f i a = some (g i a)) :
    (entries.flatMapM fun i => do
      (members (← m.entityType? (t i).entityType)).filterMapM (f i)) =
      some (entries.flatMap fun i =>
        (members (m.entityType (t i).entityType)).filterMap (g i)) :=
  flatMapM_eq_some fun i hi => by
    rw [Model.entityType?_eq (ht i hi)]
    exact filterMapM_eq_some (h i hi)

namespace RowWrite

variable {t : Snapshot} {w : RowWrite} (hw : ∀ i ∈ w.entries, (t i).IsOf m)
include hw

theorem strictKeyValues_eq : w.strictKeyValues m t = some (w.keyValues m t) := by
  unfold strictKeyValues keyValues
  cases hentries : w.entries with
  | nil => rfl
  | cons i is =>
    exact Entry.strictPrimaryKeyValues_eq hm (hw i (hentries ▸ List.mem_cons_self)) _

theorem strictColumns_eq : w.strictColumns m t = some (w.columns m t) := by
  unfold strictColumns columns
  cases w.settled with
  | some columns => rfl
  | none => exact Model.strictColumnsOf_eq hm hw

theorem strictChangesAny_eq {ps : List PropertyId}
    (hps : ∀ p ∈ ps, p.index < m.properties.length) :
    w.strictChangesAny m t ps = some (w.changesAny m t ps) := by
  rw [strictChangesAny, strictColumns_eq hm hw,
    mapM_eq_some fun p hp => Model.columnOf?_eq (hps p hp)]
  simp [changesAny, List.any_map, Function.comp_def]

theorem strictPrincipalsProvided_eq (collate : Collation) :
    w.strictPrincipalsProvided m collate t = some (w.principalsProvided m collate t) := by
  unfold strictPrincipalsProvided principalsProvided typeOf
  split
  · refine flatMapM_members_eq_some hw fun i hi fk hfk => ?_
    have hlt := (hm.closed.entityType (hw i hi)).referencing fk hfk
    simp only [Model.principalKey?_eq hm hlt, Option.bind_eq_bind, Option.bind_some,
      strictChangesAny_eq hm hw (hm.closed.principalKey_properties hlt),
      Entry.strictPrincipalValue_eq hm (hw i hi) hfk]
    split <;> rfl
  · rfl

theorem strictReferencesProvided_eq (collate : Collation) :
    w.strictReferencesProvided m collate t = some (w.referencesProvided m collate t) := by
  unfold strictReferencesProvided referencesProvided typeOf
  split
  · refine flatMapM_members_eq_some hw fun i hi fk hfk => ?_
    have hlt := (hm.closed.entityType (hw i hi)).foreignKeys fk hfk
    simp only [Model.foreignKey?_eq hlt, Option.bind_eq_bind, Option.bind_some,
      strictChangesAny_eq hm hw (hm.closed.foreignKey hlt).2.2.2,
      Entry.strictDependentValue_eq hm (hw i hi) hfk]
    split <;> rfl
  · rfl

theorem strictKeysProvided_eq (collate : Collation) :
    w.strictKeysProvided m collate t =
      some (w.principalsProvided m collate t ++ w.referencesProvided m collate t) := by
  rw [strictKeysProvided, strictPrincipalsProvided_eq hm hw, strictReferencesProvided_eq hm hw]
  rfl

theorem strictReferencesAwaited_eq (collate : Collation) :
    w.strictReferencesAwaited m collate t = some (w.referencesAwaited m collate t) := by
  unfold strictReferencesAwaited referencesAwaited typeOf
  split
  · refine flatMapM_members_eq_some hw fun i hi fk hfk => ?_
    rw [Entry.strictDependentValue_eq hm (hw i hi) hfk]
    rfl
  · split
    · refine flatMapM_members_eq_some hw fun i hi fk hfk => ?_
      rw [Entry.strictPrincipalValue_eq hm (hw i hi) hfk]
      rfl
    · rfl

omit hw in
theorem strictIndexesTouched_eq {i : Nat} (hi : (t i).IsOf m) :
    strictIndexesTouched m t i = some (indexesTouched m t i) := by
  rw [strictIndexesTouched, Model.entityType?_eq hi, indexesTouched, typeOf,
    ← List.filterMap_eq_filter]
  refine filterMapM_eq_some fun ix hix => ?_
  have hmodified : (m.index ix).properties.anyM ((t i).ask m (t i).modified) =
      some ((m.index ix).properties.any (t i).modified) :=
    anyM_eq_some fun p hp => Entry.ask_eq hi ((hm.owns _ hi).uniqueIndexes ix hix p hp)
  simp only [Model.index?_eq ((hm.closed.entityType hi).uniqueIndexes ix hix),
    Option.bind_eq_bind, Option.bind_some, hmodified, Option.guard]
  split <;> rfl

theorem strictIndexValuesProvided_eq (collate : Collation) :
    w.strictIndexValuesProvided m collate t = some (w.indexValuesProvided m collate t) := by
  unfold strictIndexValuesProvided indexValuesProvided
  split
  · refine flatMapM_eq_some fun i hi => ?_
    rw [strictIndexesTouched_eq hm (hw i hi)]
    refine filterMapM_eq_some fun ix hix => ?_
    exact Entry.strictIndexValue_eq hm (hw i hi) (List.mem_of_mem_filter hix) _
  · rfl

theorem strictIndexValuesAwaited_eq (collate : Collation) :
    w.strictIndexValuesAwaited m collate t = some (w.indexValuesAwaited m collate t) := by
  unfold strictIndexValuesAwaited indexValuesAwaited
  split
  · refine flatMapM_eq_some fun i hi => ?_
    rw [strictIndexesTouched_eq hm (hw i hi)]
    refine filterMapM_eq_some fun ix hix => ?_
    rw [Entry.strictIndexValue_eq hm (hw i hi) (List.mem_of_mem_filter hix)]
    rfl
  · rfl

end RowWrite

omit hm in
theorem strictProvided_eq {values : RowWrite → Option (List KeyValue)}
    {values' : RowWrite → List KeyValue} {ws : List RowWrite}
    (h : ∀ w ∈ ws, values w = some (values' w)) :
    strictProvided values ws = some (provided values' ws) :=
  flatMapM_eq_some fun (w, _) hw => by
    simp only [h w (List.fst_mem_of_mem_zipIdx hw)]
    rfl

omit hm in
theorem strictAwaited_eq {values : RowWrite → Option (List (KeyValue × Dependency))}
    {values' : RowWrite → List (KeyValue × Dependency)} {ws : List RowWrite}
    (h : ∀ w ∈ ws, values w = some (values' w)) :
    strictAwaited values ws = some (awaited values' ws) :=
  flatMapM_eq_some fun (w, _) hw => by
    simp only [h w (List.fst_mem_of_mem_zipIdx hw)]
    rfl

theorem strictDependencies_eq {t : Snapshot} (collate : Collation) {ws : List RowWrite}
    (hws : ∀ w ∈ ws, ∀ i ∈ w.entries, (t i).IsOf m) :
    strictDependencies m collate t ws = some (dependencies m collate t ws) := by
  rw [strictDependencies,
    strictProvided_eq fun w hw => RowWrite.strictKeysProvided_eq hm (hws w hw) collate,
    strictAwaited_eq fun w hw => RowWrite.strictReferencesAwaited_eq hm (hws w hw) collate,
    strictProvided_eq fun w hw => RowWrite.strictIndexValuesProvided_eq hm (hws w hw) collate,
    strictAwaited_eq fun w hw => RowWrite.strictIndexValuesAwaited_eq hm (hws w hw) collate]
  rfl

end Reads

/-- Wherever an entry is read on the way to the edges between writes, it is asked for properties of
its own type only, and every part of the model that is looked up is there. -/
theorem writes_read_own_properties {s : Spec} {m : Model} (h : s.build = .ok m) :
    m.Coherent ∧
      (∀ (collate : Collation) (e : Entry), e.IsOf m →
        e.strictRowKey m = some (e.rowKey? m) ∧
        (∀ fk ∈ (m.entityType e.entityType).referencing, ∀ source,
          e.strictPrincipalValue m collate fk source =
            some (e.principalValue? m collate fk source)) ∧
        (∀ fk ∈ (m.entityType e.entityType).foreignKeys, ∀ source,
          e.strictDependentValue m collate fk source =
            some (e.dependentValue? m collate fk source)) ∧
        ∀ ix ∈ (m.entityType e.entityType).uniqueIndexes, ∀ source,
          e.strictIndexValue m collate ix source = some (e.indexValue? m collate ix source)) ∧
      (∀ (t : Snapshot) (w : RowWrite), (∀ i ∈ w.entries, (t i).IsOf m) →
        w.strictKeyValues m t = some (w.keyValues m t) ∧
        m.strictColumnsOf t w.entries = some (m.columnsOf t w.entries)) ∧
      ∀ (collate : Collation) (t : Snapshot) (ws : List RowWrite),
        (∀ w ∈ ws, ∀ i ∈ w.entries, (t i).IsOf m) →
        strictDependencies m collate t ws = some (dependencies m collate t ws) := by
  have hm := Spec.coherent_of_build h
  refine ⟨hm, fun collate e he => ⟨Entry.strictRowKey_eq hm he, fun fk hfk source => ?_,
    fun fk hfk source => ?_, fun ix hix source => ?_⟩, fun t w hw => ⟨?_, ?_⟩,
    fun collate t ws hws => strictDependencies_eq hm collate hws⟩
  · exact Entry.strictPrincipalValue_eq hm he hfk source
  · exact Entry.strictDependentValue_eq hm he hfk source
  · exact Entry.strictIndexValue_eq hm he hix source
  · exact RowWrite.strictKeyValues_eq hm hw
  · exact Model.strictColumnsOf_eq hm hw

namespace Depot

/-- A new truck, and a new trip that refers to it by the plate that it has as a vehicle. -/
def entries : Snapshot :=
  .ofList [
    ((Entry.blank ⟨2⟩ .added).withCurrent ⟨1⟩ (.int 1)).withCurrent ⟨2⟩ (.text "B 12"),
    ((Entry.blank ⟨3⟩ .added).withCurrent ⟨3⟩ (.int 7)).withCurrent ⟨4⟩ (.text "B 12")]

def writes : List RowWrite :=
  [⟨⟨none, "Trips"⟩, [1], none⟩, ⟨⟨none, "Assets"⟩, [0], none⟩]

theorem writes_isOf : ∀ w ∈ writes, ∀ i ∈ w.entries, (entries i).IsOf model := by
  unfold Entry.IsOf
  decide +kernel

/-- The truck is written first. A trip has no plate of a vehicle to be asked for. -/
theorem writes_read_own_properties_trip :
    spec.build = .ok model ∧ (∀ w ∈ writes, ∀ i ∈ w.entries, (entries i).IsOf model) ∧
      strictDependencies model id entries writes = some [⟨1, 0, .foreignKey ⟨0⟩⟩] ∧
      (entries 1).ask model (entries 1).current ⟨2⟩ = none := by
  obtain ⟨_, _, _, hdependencies⟩ := writes_read_own_properties spec_build
  refine ⟨spec_build, writes_isOf, ?_, by decide +kernel⟩
  rw [hdependencies id entries writes writes_isOf]
  decide +kernel

end Depot

end WritePlan

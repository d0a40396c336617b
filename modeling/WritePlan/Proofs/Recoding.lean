import Mathlib.Logic.Equiv.Basic
import WritePlan.Proofs.Arrangement

namespace WritePlan

/-- Other values in place of the values: what is different stays so, and so does what is null. -/
structure Recoding (f : Value → Value) : Prop where
  injective : Function.Injective f
  null : f .null = .null

section Recode

variable (f : Value → Value)

def Entry.recode (e : Entry) : Entry :=
  { e with current := fun p => f (e.current p), original := fun p => f (e.original p) }

def Snapshot.recode (t : Snapshot) : Snapshot :=
  fun i => (t i).recode f

def RowKey.recode (k : RowKey) : RowKey :=
  ⟨k.values.map f⟩

def Route.recode (r : Route) : Route :=
  { r with key := r.key.recode f }

def Routed.recode (r : Routed) : Routed :=
  { r with rows := r.rows.map fun (route, w) => (route.map (Route.recode f), w) }

def KeyValue.recode (k : KeyValue) : KeyValue :=
  { k with values := k.values.map f }

def Await.recode (a : Await) : Await :=
  { a with key := a.key.recode f }

end Recode

namespace Entry

variable (f : Value → Value) (e : Entry)

@[simp] theorem entityType_recode : (e.recode f).entityType = e.entityType := rfl
@[simp] theorem state_recode : (e.recode f).state = e.state := rfl
@[simp] theorem temporary_recode : (e.recode f).temporary = e.temporary := rfl
@[simp] theorem modified_recode : (e.recode f).modified = e.modified := rfl

theorem read_recode (source : Projection) (p : PropertyId) :
    (e.recode f).read source p = f (e.read source p) := by
  cases source <;> rfl

theorem primaryKeyValues_recode (m : Model) (source : Projection) :
    (e.recode f).primaryKeyValues m source = (e.primaryKeyValues m source).map f := by
  simp only [primaryKeyValues, entityType_recode, List.map_map]
  exact List.map_congr_left fun p _ => e.read_recode f source p

end Entry

theorem Routed.writes_recode (f : Value → Value) (r : Routed) : (r.recode f).writes = r.writes := by
  simp [writes, recode]

namespace Recoding

variable {f : Value → Value} (hf : Recoding f) {m : Model} {t : Snapshot}
include hf

theorem isNull (v : Value) : (f v).isNull = v.isNull := by
  have hiff : f v = .null ↔ v = .null := by
    rw [← hf.null, hf.injective.eq_iff, hf.null]
  simp only [Value.isNull, hiff]

theorem rowKey_injective : Function.Injective (RowKey.recode f) := by
  intro k l h
  have hvalues := List.map_injective_iff.mpr hf.injective (RowKey.mk.inj h)
  exact congrArg RowKey.mk hvalues

theorem route_injective : Function.Injective (Route.recode f) := by
  intro r s h
  obtain ⟨htable, hkey, hdeleted⟩ := Route.mk.inj h
  obtain ⟨table, key, deleted⟩ := r
  obtain rfl := hf.rowKey_injective hkey
  obtain rfl := htable
  obtain rfl := hdeleted
  rfl

theorem keyValue_injective : Function.Injective (KeyValue.recode f) := by
  intro k l h
  obtain ⟨hconstraint, hvalues⟩ := KeyValue.mk.inj h
  obtain ⟨constraint, values⟩ := k
  obtain rfl := List.map_injective_iff.mpr hf.injective hvalues
  obtain rfl := hconstraint
  rfl

theorem rowKey? (e : Entry) : (e.recode f).rowKey? m = (e.rowKey? m).map (RowKey.recode f) := by
  have hnull (vs : List Value) : (vs.map f).any Value.isNull = vs.any Value.isNull := by
    rw [List.any_map]
    exact congrArg vs.any (funext hf.isNull)
  simp only [Entry.rowKey?, Entry.state_recode, Entry.entityType_recode, Entry.temporary_recode,
    Entry.primaryKeyValues_recode, hnull, apply_ite (Option.map (RowKey.recode f)),
    Option.map_none, Option.map_some, RowKey.recode]
  rfl

theorem route? (tableOf : EntityTypeId → Table) (shared : List SharedTable) (e : Entry) :
    (e.recode f).route? m tableOf shared =
      (e.route? m tableOf shared).map (Route.recode f) := by
  rw [Entry.route?, hf.rowKey?, Entry.route?, Option.map_map, Option.map_map]
  rfl

theorem valuesOf? (e : Entry) (ps : List PropertyId) (source : Projection) :
    (e.recode f).valuesOf? ps source = (e.valuesOf? ps source).map (List.map f) := by
  unfold Entry.valuesOf?
  simp only [Entry.read_recode, hf.isNull]
  induction ps with
  | nil => rfl
  | cons p ps ih =>
    rw [List.mapM_cons, List.mapM_cons, ih]
    split
    · rfl
    · cases List.mapM (fun p => if (e.read source p).isNull then none
        else some (e.read source p)) ps <;> rfl

theorem keyValue? (e : Entry) (constraint : Constraint) (ps : List PropertyId)
    (source : Projection) :
    (e.recode f).keyValue? id constraint ps source =
      (e.keyValue? id constraint ps source).map (KeyValue.recode f) := by
  rw [Entry.keyValue?, hf.valuesOf?, Entry.keyValue?, Option.map_map, Option.map_map]
  simp [Function.comp_def, KeyValue.recode]

/-- Whether the store supplies a value hangs on whether it is null. -/
theorem isStoreGenerated (e : Entry) (p : Property) :
    (e.recode f).isStoreGenerated p = e.isStoreGenerated p := by
  have hcurrent : ((e.recode f).current p.id).isNull = (e.current p.id).isNull := hf.isNull _
  simp only [Entry.isStoreGenerated, hcurrent, Entry.state_recode, Entry.temporary_recode,
    Entry.modified_recode]

theorem roles? (e : Entry) (p : Property) (isKey : Bool) :
    (e.recode f).roles? p isKey = e.roles? p isKey := by
  rw [Entry.roles?, hf.isStoreGenerated, Entry.roles?]
  rfl

theorem columnUses (i : Nat) : m.columnUses (t.recode f) i = m.columnUses t i := by
  simp only [Model.columnUses, Snapshot.recode, hf.roles?, Entry.entityType_recode]

theorem columnsOf (entries : List Nat) :
    m.columnsOf (t.recode f) entries = m.columnsOf t entries := by
  rw [Model.columnsOf, funext hf.columnUses, Model.columnsOf]

theorem columns (w : RowWrite) : w.columns m (t.recode f) = w.columns m t := by
  rw [RowWrite.columns, hf.columnsOf, RowWrite.columns]

theorem kept? (w : RowWrite) : w.kept? m (t.recode f) = w.kept? m t := by
  simp only [RowWrite.kept?, RowWrite.hasWrites, RowWrite.settle, hf.columns]
  rfl

theorem changesAny (w : RowWrite) (ps : List PropertyId) :
    w.changesAny m (t.recode f) ps = w.changesAny m t ps := by
  rw [RowWrite.changesAny, hf.columns, RowWrite.changesAny]

theorem has (r : Routed) (route : Option Route) :
    (r.recode f).has (route.map (Route.recode f)) = r.has route := by
  have hroute := Option.map_injective hf.route_injective
  simp only [Routed.has, Routed.recode, List.any_map, Function.comp_def, Option.isSome_map,
    hroute.eq_iff]

theorem join (route : Option Route) (i : Nat) (rows : List (Option Route × RowWrite)) :
    Routed.join (route.map (Route.recode f)) i
        (rows.map fun (route, w) => (route.map (Route.recode f), w)) =
      (Routed.join route i rows).map fun (route, w) => (route.map (Route.recode f), w) := by
  have hroute := Option.map_injective hf.route_injective
  induction rows with
  | nil => rfl
  | cons x rows ih =>
    obtain ⟨key, w⟩ := x
    simp only [List.map_cons, Routed.join, hroute.eq_iff, ih]
    split <;> rfl

theorem add (r : Routed) (route : Option Route) (table : Table) (i : Nat) :
    (r.recode f).add (route.map (Route.recode f)) table i = (r.add route table i).recode f := by
  simp only [Routed.add, hf.has]
  split
  · simp only [Routed.recode, hf.join]
  · simp only [Routed.recode, List.map_append, List.map_cons, List.map_nil]

theorem addAll (tableOf : EntityTypeId → Table) (shared : List SharedTable) (r : Routed)
    (entries : List Nat) :
    (r.recode f).addAll m tableOf shared (t.recode f) entries =
      (r.addAll m tableOf shared t entries).map (Routed.recode f) := by
  induction entries generalizing r with
  | nil => rfl
  | cons i entries ih =>
    simp only [Routed.addAll, Snapshot.recode, hf.route?, hf.add, Entry.state_recode,
      Entry.entityType_recode]
    split
    · rfl
    · exact ih _

theorem principalValue? (e : Entry) (fk : ForeignKeyId) (source : Projection) :
    (e.recode f).principalValue? m id fk source =
      (e.principalValue? m id fk source).map (KeyValue.recode f) :=
  hf.keyValue? e _ _ source

theorem dependentValue? (e : Entry) (fk : ForeignKeyId) (source : Projection) :
    (e.recode f).dependentValue? m id fk source =
      (e.dependentValue? m id fk source).map (KeyValue.recode f) :=
  hf.keyValue? e _ _ source

theorem indexValue? (e : Entry) (ix : IndexId) (source : Projection) :
    (e.recode f).indexValue? m id ix source =
      (e.indexValue? m id ix source).map (KeyValue.recode f) :=
  hf.keyValue? e _ _ source

theorem principalsProvided (w : RowWrite) :
    w.principalsProvided m id (t.recode f) =
      (w.principalsProvided m id t).map (KeyValue.recode f) := by
  simp only [RowWrite.principalsProvided, apply_ite (List.map (KeyValue.recode f)), List.map_nil,
    List.map_flatMap, List.map_filterMap, apply_ite (Option.map (KeyValue.recode f)),
    Option.map_none, hf.changesAny, Snapshot.recode, hf.principalValue?]
  rfl

theorem referencesProvided (w : RowWrite) :
    w.referencesProvided m id (t.recode f) =
      (w.referencesProvided m id t).map (KeyValue.recode f) := by
  simp only [RowWrite.referencesProvided, apply_ite (List.map (KeyValue.recode f)), List.map_nil,
    List.map_flatMap, List.map_filterMap, apply_ite (Option.map (KeyValue.recode f)),
    Option.map_none, hf.changesAny, Snapshot.recode, hf.dependentValue?]
  rfl

theorem referencesAwaited (w : RowWrite) :
    w.referencesAwaited m id (t.recode f) =
      (w.referencesAwaited m id t).map (Prod.map (KeyValue.recode f) id) := by
  simp only [RowWrite.referencesAwaited, apply_ite (List.map (Prod.map (KeyValue.recode f) id)),
    List.map_nil, List.map_flatMap, List.map_filterMap, Option.map_map, Snapshot.recode,
    hf.dependentValue?, hf.principalValue?]
  rfl

theorem indexValuesProvided (w : RowWrite) :
    w.indexValuesProvided m id (t.recode f) =
      (w.indexValuesProvided m id t).map (KeyValue.recode f) := by
  simp only [RowWrite.indexValuesProvided, apply_ite (List.map (KeyValue.recode f)), List.map_nil,
    List.map_flatMap, List.map_filterMap, Snapshot.recode, hf.indexValue?]
  rfl

theorem indexValuesAwaited (w : RowWrite) :
    w.indexValuesAwaited m id (t.recode f) =
      (w.indexValuesAwaited m id t).map (Prod.map (KeyValue.recode f) id) := by
  simp only [RowWrite.indexValuesAwaited, apply_ite (List.map (Prod.map (KeyValue.recode f) id)),
    List.map_nil, List.map_flatMap, List.map_filterMap, Option.map_map, Snapshot.recode,
    hf.indexValue?]
  rfl

omit hf in
theorem provided_recode {values values' : RowWrite → List KeyValue}
    (h : ∀ w, values' w = (values w).map (KeyValue.recode f)) (ws : List RowWrite) :
    provided values' ws = (provided values ws).map (Prod.map (KeyValue.recode f) id) := by
  simp only [provided, h, List.map_flatMap, List.map_map]
  rfl

omit hf in
theorem awaited_recode {values values' : RowWrite → List (KeyValue × Dependency)}
    (h : ∀ w, values' w = (values w).map (Prod.map (KeyValue.recode f) id)) (ws : List RowWrite) :
    awaited values' ws = (awaited values ws).map (Await.recode f) := by
  simp only [awaited, h, List.map_flatMap, List.map_map]
  rfl

/-- What is awaited meets what is provided as before. -/
theorem precedences (provided : List (KeyValue × Nat)) (awaited : List Await) :
    precedences (provided.map (Prod.map (KeyValue.recode f) id))
        (awaited.map (Await.recode f)) = WritePlan.precedences provided awaited := by
  simp only [WritePlan.precedences, List.flatMap_map, List.filterMap_map, Function.comp_def,
    Prod.map, Await.recode, hf.keyValue_injective.eq_iff]
  rfl

theorem dependencies (ws : List RowWrite) :
    dependencies m id (t.recode f) ws = WritePlan.dependencies m id t ws := by
  have hreferences (w : RowWrite) :
      w.principalsProvided m id (t.recode f) ++ w.referencesProvided m id (t.recode f) =
        (w.principalsProvided m id t ++ w.referencesProvided m id t).map (KeyValue.recode f) := by
    rw [hf.principalsProvided, hf.referencesProvided, List.map_append]
  unfold WritePlan.dependencies
  rw [provided_recode hreferences, awaited_recode hf.referencesAwaited, hf.precedences,
    provided_recode hf.indexValuesProvided, awaited_recode hf.indexValuesAwaited, hf.precedences]

end Recoding

section Planning

variable {f : Value → Value} (hf : Recoding f) {p : Planner} {t : Snapshot}
include hf

theorem Recoding.dependencyGraph (ws : List RowWrite) :
    dependencyGraph p.model id (t.recode f) ws = WritePlan.dependencyGraph p.model id t ws := by
  rw [WritePlan.dependencyGraph, hf.dependencies, WritePlan.dependencyGraph]

/-- Where no key is told, a conflict says nothing of values. -/
theorem Recoding.buildWrites (hsensitive : p.config.sensitiveDataLogging = false)
    (entries : List Nat) : p.buildWrites (t.recode f) entries = p.buildWrites t entries := by
  have hstart : Routed.empty.recode f = Routed.empty := rfl
  have hrouted := hf.addAll (m := p.model) (t := t) p.tableOf p.sharedTables .empty entries
  rw [hstart] at hrouted
  unfold Planner.buildWrites WritePlan.buildWrites
  rw [hsensitive, hrouted]
  cases Routed.empty.addAll p.model p.tableOf p.sharedTables t entries with
  | error e => rfl
  | ok routed =>
    simp only [Except.map, bind, Except.bind, Routed.writes_recode, hf.kept?]
    rfl

end Planning

/-- Planning goes by the pattern of values alone: where the same values are replaced by the same,
different ones by different ones and null by null, all comes out as before. -/
theorem plan_goes_by_equality (p : Planner) (hcollate : p.collate = id)
    (hsensitive : p.config.sensitiveDataLogging = false) (f : Value → Value)
    (hinjective : Function.Injective f) (hnull : f .null = .null) (t : Snapshot)
    (entries : List Nat) :
    p.prepare (t.recode f) entries = p.prepare t entries ∧
      p.buildWrites (t.recode f) entries = p.buildWrites t entries ∧
      (∀ w : RowWrite, w.state (t.recode f) = w.state t ∧
        w.columns p.model (t.recode f) = w.columns p.model t) ∧
      ∀ ws, dependencyGraph p.model p.collate (t.recode f) ws =
        dependencyGraph p.model p.collate t ws := by
  have hf : Recoding f := ⟨hinjective, hnull⟩
  have hgraph (ws : List RowWrite) : dependencyGraph p.model p.collate (t.recode f) ws =
      dependencyGraph p.model p.collate t ws := by
    rw [hcollate]
    exact hf.dependencyGraph ws
  have hbuilt := hf.buildWrites (t := t) hsensitive entries
  refine ⟨?_, hbuilt, fun w => ⟨rfl, hf.columns w⟩, hgraph⟩
  simp only [Planner.prepare, hbuilt, hgraph]

namespace Family

/-- A key that is a number becomes a text, and the other way round. -/
def spelled : Value → Value :=
  Equiv.swap (.int 3) (.text "three")

theorem plan_goes_by_equality_born :
    planner.collate = id ∧ planner.config.sensitiveDataLogging = false ∧
      Function.Injective spelled ∧ spelled .null = .null ∧
      (born.recode spelled 0).current ⟨0⟩ = .text "three" ∧
      (born.recode spelled 1).current ⟨3⟩ = .text "three" ∧
      ∃ sets, (planner.prepare (born.recode spelled) [0, 1]).sets = .ok sets ∧
        sets.map (·.map (·.entries)) = [[[0]], [[1]]] := by
  have hinjective : Function.Injective spelled := Equiv.injective _
  have hnull : spelled .null = .null := by decide +kernel
  obtain ⟨sets, hsets, hentries⟩ : ∃ sets, (planner.prepare born [0, 1]).sets = .ok sets ∧
      sets.map (·.map (·.entries)) = [[[0]], [[1]]] :=
    exists_of_toOption_map (by decide +kernel)
  obtain ⟨hprepare, _⟩ :=
    plan_goes_by_equality planner rfl rfl spelled hinjective hnull born [0, 1]
  exact ⟨rfl, rfl, hinjective, hnull, by decide +kernel, by decide +kernel, sets,
    hprepare ▸ hsets, hentries⟩

end Family

end WritePlan

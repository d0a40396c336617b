import WritePlan.Graph.Levels
import WritePlan.KeyValue
import WritePlan.Model.Describe
import WritePlan.RowWrite.Build

namespace WritePlan

/-- The constraint that puts one write before another. -/
inductive Dependency
  | foreignKey (fk : ForeignKeyId)
  | uniqueIndex (ix : IndexId)
deriving DecidableEq, Inhabited

def Dependency.describe (m : Model) : Dependency → String
  | foreignKey fk => m.describeForeignKey fk
  | uniqueIndex ix => m.describeIndex ix

/-- The write at `place` waits, for the sake of a constraint, for those that provide a value. -/
structure Await where
  place : Nat
  key : KeyValue
  label : Dependency
deriving DecidableEq

/-- An edge by the places of its writes. -/
structure Precedence where
  before : Nat
  after : Nat
  label : Dependency
deriving DecidableEq

namespace RowWrite

variable (m : Model) (collate : Collation) (t : Snapshot) (w : RowWrite)

def isInsertOrUpdate : Bool :=
  (w.state t).isAdded || (w.state t).isModified

def isUpdateOrDelete : Bool :=
  (w.state t).isModified || (w.state t).isDeleted

def typeOf (i : Nat) : EntityType :=
  m.entityType (t i).entityType

/-- The new principal keys: those of an insert, and those of an update that changes them. -/
def principalsProvided : List KeyValue :=
  if w.isInsertOrUpdate t then
    w.entries.flatMap fun i => (typeOf m t i).referencing.filterMap fun fk =>
      if (w.state t).isAdded || w.changesAny m t (m.principalKey fk).properties then
        (t i).principalValue? m collate fk .current
      else none
  else []

/-- The references that end: those of a delete, and those of an update that changes them. -/
def referencesProvided : List KeyValue :=
  if w.isUpdateOrDelete t then
    w.entries.flatMap fun i => (typeOf m t i).foreignKeys.filterMap fun fk =>
      if (w.state t).isDeleted || w.changesAny m t (m.foreignKey fk).properties then
        (t i).dependentValue? m collate fk .original
      else none
  else []

/-- The references that rows have from now on; a deleted row awaits the end of those to it. -/
def referencesAwaited : List (KeyValue × Dependency) :=
  if w.isInsertOrUpdate t then
    w.entries.flatMap fun i => (typeOf m t i).foreignKeys.filterMap fun fk =>
      ((t i).dependentValue? m collate fk .current).map (·, .foreignKey fk)
  else if (w.state t).isDeleted then
    w.entries.flatMap fun i => (typeOf m t i).referencing.filterMap fun fk =>
      ((t i).principalValue? m collate fk .original).map (·, .foreignKey fk)
  else []

/-- The unique indexes of an entry whose values its write may change. -/
def indexesTouched (i : Nat) : List IndexId :=
  (typeOf m t i).uniqueIndexes.filter fun ix =>
    !(t i).state.isModified || (m.index ix).properties.any (t i).modified

/-- The unique values that are given up. -/
def indexValuesProvided : List KeyValue :=
  if w.isUpdateOrDelete t then
    w.entries.flatMap fun i => (indexesTouched m t i).filterMap fun ix =>
      (t i).indexValue? m collate ix .original
  else []

/-- The unique values that are taken. -/
def indexValuesAwaited : List (KeyValue × Dependency) :=
  if w.isInsertOrUpdate t then
    w.entries.flatMap fun i => (indexesTouched m t i).filterMap fun ix =>
      ((t i).indexValue? m collate ix .current).map (·, .uniqueIndex ix)
  else []

end RowWrite

/-- What the writes provide, each value with the place of its write. -/
def provided (values : RowWrite → List KeyValue) (ws : List RowWrite) : List (KeyValue × Nat) :=
  ws.zipIdx.flatMap fun (w, place) => (values w).map (·, place)

def awaited (values : RowWrite → List (KeyValue × Dependency)) (ws : List RowWrite) :
    List Await :=
  ws.zipIdx.flatMap fun (w, place) => (values w).map fun (key, label) => ⟨place, key, label⟩

/-- Each awaited value meets all other writes that provide it. -/
def precedences (provided : List (KeyValue × Nat)) (awaited : List Await) : List Precedence :=
  awaited.flatMap fun a => provided.filterMap fun (key, place) =>
    if key = a.key ∧ place ≠ a.place then some ⟨place, a.place, a.label⟩ else none

/-- All edges between writes: those for foreign keys, then those for unique indexes. -/
def dependencies (m : Model) (collate : Collation) (t : Snapshot) (ws : List RowWrite) :
    List Precedence :=
  precedences
    (provided (fun w => w.principalsProvided m collate t ++ w.referencesProvided m collate t) ws)
    (awaited (·.referencesAwaited m collate t) ws) ++
  precedences
    (provided (·.indexValuesProvided m collate t) ws)
    (awaited (·.indexValuesAwaited m collate t) ws)

/-- Writes by place, with the edges between them. -/
abbrev DependencyGraph := Multigraph Nat Dependency

def addPrecedence (g : DependencyGraph) (p : Precedence) : Except PlanError DependencyGraph :=
  let added : Except EdgeError DependencyGraph := g.addEdge p.before p.after p.label
  added.mapError fun e => .defect (.badEdge e)

def dependencyGraph (m : Model) (collate : Collation) (t : Snapshot) (ws : List RowWrite) :
    Except PlanError DependencyGraph :=
  (dependencies m collate t ws).foldlM addPrecedence
    (Multigraph.empty.addVertices (List.range ws.length))

/-- A cycle of writes by its constraints, the first of each edge. -/
def describeCycle (m : Model) (edges : List (Edge Nat Dependency)) : String :=
  ", ".intercalate (edges.filterMap fun e => e.labels.head?.map (·.describe m))

end WritePlan

import WritePlan.Entry
import WritePlan.Order

namespace WritePlan

/-- The values of a row's primary key, in the order of the column names. -/
structure RowKey where
  values : List Value
deriving DecidableEq, Inhabited

/-- The primary key of a type with its properties in the order of their columns, so that types on
one table agree on it. -/
def Model.keyByColumn (m : Model) (e : EntityTypeId) : List PropertyId :=
  sortBy (fun p q => compare (m.columnOf p) (m.columnOf q)) (m.primaryKey e).properties

def Entry.primaryKeyValues (m : Model) (e : Entry) (source : Projection) : List Value :=
  (m.keyByColumn e.entityType).map (e.read source)

/-- The key by which the row of an entry is known: a deleted row by its original key, any other
by the current one. A key that is not complete yet names no row. -/
def Entry.rowKey? (m : Model) (e : Entry) : Option RowKey :=
  let source := if e.state.isDeleted then Projection.original else Projection.current
  let values := e.primaryKeyValues m source
  if !e.state.isDeleted && (m.primaryKey e.entityType).properties.any e.temporary then none
  else if values.any Value.isNull then none
  else some ⟨values⟩

/-- The table of a type, in the default schema where it has none. -/
def Model.tableIn (m : Model) (defaultSchema : Option String) (e : EntityTypeId) : Table :=
  (m.entityType e).table.inSchema defaultSchema

/-- A table with the roots that are stored in it. -/
structure SharedTable where
  table : Table
  roots : List EntityTypeId
deriving DecidableEq, Inhabited

/-- The tables that hold more than one root, in order. -/
def Model.sharedTables (m : Model) (tableOf : EntityTypeId → Table) : List SharedTable :=
  let roots := m.roots.map (·.id)
  let tables := sortBy compare (roots.map tableOf).eraseDups
  (tables.map fun t => ⟨t, roots.filter (tableOf · = t)⟩).filter fun s => 1 < s.roots.length

/-- The places of the rows met so far. -/
abbrev RowPlaces := List (RowKey × Nat)

/-- The place of a row, which is `place` if the row is new. -/
def RowPlaces.findOrInsert (places : RowPlaces) (key : RowKey) (place : Nat) :
    Nat × RowPlaces :=
  match places.lookup key with
  | some known => (known, places)
  | none => (place, places ++ [(key, place)])

end WritePlan

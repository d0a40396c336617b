import WritePlan.Error
import WritePlan.Row
import WritePlan.RowWrite.Column

namespace WritePlan

/-- The write of one row. Its entries are known by number and are read as they are at the moment of
asking. -/
structure RowWrite where
  table : Table
  /-- The entries that are stored in the row, in the order in which they came. -/
  entries : List Nat
  /-- The columns as they were when first asked for. -/
  settled : Option (List ColumnUse)
deriving DecidableEq, Inhabited

namespace RowWrite

/-- The kind of the write: an added entry makes it an insert, and only if all entries are deleted
it is a delete. -/
def state (t : Snapshot) (w : RowWrite) : EntityState :=
  if w.entries.all fun i => (t i).state.isDeleted then .deleted
  else if w.entries.any fun i => (t i).state.isAdded then .added
  else .modified

def columns (m : Model) (t : Snapshot) (w : RowWrite) : List ColumnUse :=
  w.settled.getD (m.columnsOf t w.entries)

/-- The write with its columns settled as they are now, if they were not settled before. -/
def settle (m : Model) (t : Snapshot) (w : RowWrite) : RowWrite :=
  { w with settled := some (w.columns m t) }

def writtenColumns (m : Model) (t : Snapshot) (w : RowWrite) : List ColumnUse :=
  (w.columns m t).filter (·.roles.write)

def hasWrites (m : Model) (t : Snapshot) (w : RowWrite) : Bool :=
  (w.columns m t).any (·.roles.write)

/-- Whether the write changes a column of one of the properties. -/
def changesAny (m : Model) (t : Snapshot) (w : RowWrite) (ps : List PropertyId) : Bool :=
  (w.columns m t).any fun c =>
    (c.roles.write || c.roles.read) && ps.any fun p => m.columnOf p = c.column

/-- The primary key of the row: for an insert the values it is given, else those it is found by. -/
def keyValues (m : Model) (t : Snapshot) (w : RowWrite) : List Value :=
  let source := if (w.state t).isAdded then Projection.current else Projection.original
  match w.entries with
  | [] => []
  | i :: _ => (t i).primaryKeyValues m source

def typeName (m : Model) (t : Snapshot) (i : Nat) : String :=
  (m.entityType (t i).entityType).name

/-- The first element that has occurred before. -/
def firstRepeated (seen : List EntityTypeId) : List EntityTypeId → Option EntityTypeId
  | [] => none
  | e :: es => if seen.contains e then some e else firstRepeated (seen ++ [e]) es

/-- What keeps the entries from being written as one row. -/
def conflict? (m : Model) (t : Snapshot) (w : RowWrite) : Option ConflictReason :=
  let states := w.entries.map fun i => (t i).state
  let deleted := states.countP (·.isDeleted)
  if states.any (·.isAdded) && 0 < deleted then some .addedAndDeleted
  else if 0 < deleted && deleted < states.length then some .deletedAndModified
  else (firstRepeated [] (w.entries.map fun i => (t i).entityType)).map fun e =>
    .repeatedType (m.entityType e).name

def checkIdentity (m : Model) (sensitive : Bool) (t : Snapshot) (w : RowWrite) :
    Except PlanError Unit :=
  match w.conflict? m t with
  | none => .ok ()
  | some reason =>
    .error (.sharedIdentity w.table (w.entries.map (typeName m t)) reason
      (if sensitive then some (w.keyValues m t) else none))

/-- An insert must not send a value that only holds the place of another. -/
def checkTemporary (m : Model) (t : Snapshot) (w : RowWrite) : Except PlanError Unit :=
  if (w.state t).isAdded then
    match (w.columns m t).find? fun c => !c.roles.read && c.isTemporary t with
    | none => .ok ()
    | some c => .error (.temporaryValue (typeName m t c.entry) c.property.name)
  else .ok ()

/-- The write in messages: what is done to which table, and to which row where values may be
shown. -/
def text (m : Model) (sensitive : Bool) (t : Snapshot) (w : RowWrite) : String :=
  (w.state t).text ++ " " ++ w.table.text ++
    if sensitive then " " ++ Value.displayList (w.keyValues m t) else ""

end RowWrite

end WritePlan

import WritePlan.Entry

namespace WritePlan

/-- The parts that a column plays in a write. -/
structure Roles where
  /-- The store supplies the value, which is read back. -/
  read : Bool
  /-- The value is sent to the store. -/
  write : Bool
  /-- The row is found by the original value. -/
  condition : Bool
  key : Bool
  concurrencyToken : Bool
deriving DecidableEq, Inhabited

namespace Roles

def join (r s : Roles) : Roles where
  read := r.read || s.read
  write := r.write || s.write
  condition := r.condition || s.condition
  key := r.key || s.key
  concurrencyToken := r.concurrencyToken || s.concurrencyToken

/-- Five letters, each a dash where the column does not play the part. -/
def text (r : Roles) : String :=
  let mark (b : Bool) (c : Char) : Char := if b then c else '-'
  String.ofList [mark r.read 'R', mark r.write 'W', mark r.condition 'C', mark r.key 'K',
    mark r.concurrencyToken 'T']

end Roles

/-- Whether the store supplies the property's value in the write of this entry. -/
def Entry.isStoreGenerated (e : Entry) (p : Property) : Bool :=
  (p.generated.forAdd && e.state.isAdded && (e.temporary p.id || (e.current p.id).isNull)) ||
    (p.generated.forUpdate && e.state.isModified && !e.modified p.id)

/-- The parts that a property's column plays in the write of this entry; `none` if it has none. A
key is never changed in place. -/
def Entry.roles? (e : Entry) (p : Property) (isKey : Bool) : Option Roles :=
  let read := e.isStoreGenerated p
  let write := !read && (e.state.isAdded || (e.state.isModified && e.modified p.id && !isKey))
  let condition := !e.state.isAdded && (isKey || p.concurrencyToken)
  if read || write || condition then
    some ⟨read, write, condition, isKey, p.concurrencyToken⟩
  else none

/-- A column in a write. Its values are those of `property` in the entry of that number. -/
structure ColumnUse where
  entry : Nat
  property : Property
  roles : Roles
deriving DecidableEq, Inhabited

namespace ColumnUse

def column (c : ColumnUse) : String :=
  c.property.column

def isTemporary (t : Snapshot) (c : ColumnUse) : Bool :=
  (t c.entry).temporary c.property.id

def value (t : Snapshot) (c : ColumnUse) : Value :=
  (t c.entry).current c.property.id

def originalValue (t : Snapshot) (c : ColumnUse) : Value :=
  (t c.entry).original c.property.id

/-- Adds a use of a column. The column of that name, if there is one, takes over the roles and
keeps its source. -/
def add (c : ColumnUse) : List ColumnUse → List ColumnUse
  | [] => [c]
  | d :: ds =>
    if d.column = c.column then { d with roles := d.roles.join c.roles } :: ds
    else d :: c.add ds

end ColumnUse

/-- What the entry of number `i` wants of its columns, in the order of its properties. -/
def Model.columnUses (m : Model) (t : Snapshot) (i : Nat) : List ColumnUse :=
  let e := t i
  let key := (m.primaryKey e.entityType).properties
  (m.entityType e.entityType).properties.filterMap fun id =>
    let p := m.property id
    (e.roles? p (key.contains id)).map fun roles => ⟨i, p, roles⟩

/-- The columns of the row that some entries share, each once, in order of their first use. -/
def Model.columnsOf (m : Model) (t : Snapshot) (entries : List Nat) : List ColumnUse :=
  (entries.flatMap (m.columnUses t)).foldl (fun cs c => c.add cs) []

end WritePlan

import WritePlan.Model.Basic
import WritePlan.Value

namespace WritePlan

/-- What has happened to an entry since it was read. -/
inductive EntityState
  | unchanged
  | added
  | modified
  | deleted
deriving DecidableEq, Inhabited

namespace EntityState

def text : EntityState → String
  | unchanged => "Unchanged"
  | added => "Added"
  | modified => "Modified"
  | deleted => "Deleted"

def isAdded (s : EntityState) : Bool := s = added
def isModified (s : EntityState) : Bool := s = modified
def isDeleted (s : EntityState) : Bool := s = deleted

end EntityState

/-- Which values of an entry are meant: those it has now, or those it was read with. -/
inductive Projection
  | current
  | original
deriving DecidableEq, Inhabited

/-- What is known of one tracked entity, and what the application has done to it. -/
structure Entry where
  entityType : EntityTypeId
  state : EntityState
  current : PropertyId → Value
  original : PropertyId → Value
  /-- Whether the current value only holds the place of one that the store will supply. -/
  temporary : PropertyId → Bool
  modified : PropertyId → Bool
deriving Inhabited

namespace Entry

def read (e : Entry) : Projection → PropertyId → Value
  | .current => e.current
  | .original => e.original

def withCurrent (e : Entry) (p : PropertyId) (v : Value) : Entry :=
  { e with current := fun q => if q = p then v else e.current q }

def withOriginal (e : Entry) (p : PropertyId) (v : Value) : Entry :=
  { e with original := fun q => if q = p then v else e.original q }

def withTemporary (e : Entry) (p : PropertyId) (b : Bool) : Entry :=
  { e with temporary := fun q => if q = p then b else e.temporary q }

def withModified (e : Entry) (p : PropertyId) (b : Bool) : Entry :=
  { e with modified := fun q => if q = p then b else e.modified q }

/-- An entry that holds no values yet. -/
def blank (entityType : EntityTypeId) (state : EntityState) : Entry :=
  ⟨entityType, state, fun _ => .null, fun _ => .null, fun _ => false, fun _ => false⟩

end Entry

/-- The tracked entries, by number, as they are at one moment. -/
abbrev Snapshot := Nat → Entry

/-- The snapshot after entry `i` has become `e`. -/
def Snapshot.set (t : Snapshot) (i : Nat) (e : Entry) : Snapshot :=
  fun j => if j = i then e else t j

def Snapshot.ofList (es : List Entry) : Snapshot :=
  fun i => es.getD i default

end WritePlan

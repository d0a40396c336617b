import WritePlan.Table

namespace WritePlan

structure EntityTypeId where
  index : Nat
deriving DecidableEq, Inhabited

structure PropertyId where
  index : Nat
deriving DecidableEq, Inhabited

structure KeyId where
  index : Nat
deriving DecidableEq, Inhabited

structure ForeignKeyId where
  index : Nat
deriving DecidableEq, Inhabited

structure IndexId where
  index : Nat
deriving DecidableEq, Inhabited

def EntityTypeId.text (id : EntityTypeId) : String := "entity#" ++ toString id.index
def PropertyId.text (id : PropertyId) : String := "property#" ++ toString id.index
def KeyId.text (id : KeyId) : String := "key#" ++ toString id.index
def ForeignKeyId.text (id : ForeignKeyId) : String := "fk#" ++ toString id.index
def IndexId.text (id : IndexId) : String := "index#" ++ toString id.index

/-- When the store, and not the application, supplies a property's value. -/
inductive Generated
  | never
  | onAdd
  | onUpdate
  | onAddOrUpdate
deriving DecidableEq, Inhabited

namespace Generated

def forAdd : Generated → Bool
  | onAdd | onAddOrUpdate => true
  | never | onUpdate => false

def forUpdate : Generated → Bool
  | onUpdate | onAddOrUpdate => true
  | never | onAdd => false

end Generated

structure Property where
  id : PropertyId
  name : String
  declaring : EntityTypeId
  column : String
  generated : Generated
  concurrencyToken : Bool
deriving DecidableEq, Inhabited

/-- A primary or an alternate key; foreign keys refer to one. -/
structure Key where
  id : KeyId
  declaring : EntityTypeId
  properties : List PropertyId
  primary : Bool
deriving DecidableEq, Inhabited

/-- Properties of the declaring type that refer, in order, to those of the principal's key. -/
structure ForeignKey where
  id : ForeignKeyId
  declaring : EntityTypeId
  properties : List PropertyId
  principal : EntityTypeId
  principalKey : KeyId
deriving DecidableEq, Inhabited

structure Index where
  id : IndexId
  name : String
  declaring : EntityTypeId
  properties : List PropertyId
  unique : Bool
deriving DecidableEq, Inhabited

/-- An entity type with its own and its inherited members, those of the base first. -/
structure EntityType where
  id : EntityTypeId
  name : String
  base : Option EntityTypeId
  root : EntityTypeId
  table : Table
  primaryKey : KeyId
  /-- The properties that the type declares itself. -/
  declared : List PropertyId
  properties : List PropertyId
  foreignKeys : List ForeignKeyId
  /-- The foreign keys whose principal is the type or one of its bases. -/
  referencing : List ForeignKeyId
  uniqueIndexes : List IndexId
deriving DecidableEq, Inhabited

def EntityType.isRoot (e : EntityType) : Bool :=
  e.base.isNone

/-- A description of the data. All parts are named by numbers, their places in their lists. -/
structure Model where
  entityTypes : List EntityType
  properties : List Property
  keys : List Key
  foreignKeys : List ForeignKey
  indexes : List Index
deriving DecidableEq, Inhabited

/-- An entity type and its bases, nearest first. A base stands before what derives from it, so
the numbers fall and the walk ends. -/
def lineage (baseOf : EntityTypeId → Option EntityTypeId) (e : EntityTypeId) :
    List EntityTypeId :=
  match baseOf e with
  | none => [e]
  | some b => if b.index < e.index then e :: lineage baseOf b else [e]
termination_by e.index

namespace Model

/-- The type of a number. Here as below, a number that is not of the model reads as a member with an
empty name and without properties. -/
def entityType (m : Model) (id : EntityTypeId) : EntityType :=
  m.entityTypes.getD id.index default

def property (m : Model) (id : PropertyId) : Property :=
  m.properties.getD id.index default

def key (m : Model) (id : KeyId) : Key :=
  m.keys.getD id.index default

def foreignKey (m : Model) (id : ForeignKeyId) : ForeignKey :=
  m.foreignKeys.getD id.index default

def index (m : Model) (id : IndexId) : Index :=
  m.indexes.getD id.index default

def find? (m : Model) (name : String) : Option EntityType :=
  m.entityTypes.find? (·.name = name)

/-- The property of that name among a type's own and inherited ones. -/
def findProperty? (m : Model) (e : EntityTypeId) (name : String) : Option Property :=
  ((m.entityType e).properties.map m.property).find? (·.name = name)

/-- The types that derive from no other, in order. -/
def roots (m : Model) : List EntityType :=
  m.entityTypes.filter (·.isRoot)

/-- The primary key of a type is that of its root. -/
def primaryKey (m : Model) (e : EntityTypeId) : Key :=
  m.key (m.entityType e).primaryKey

/-- Whether `ancestor` is the type `e` or one of its bases. -/
def isSameOrBase (m : Model) (ancestor e : EntityTypeId) : Bool :=
  (lineage (fun d => (m.entityType d).base) e).contains ancestor

/-- The key of the principal that a foreign key refers to. -/
def principalKey (m : Model) (fk : ForeignKeyId) : Key :=
  m.key (m.foreignKey fk).principalKey

def columnOf (m : Model) (p : PropertyId) : String :=
  (m.property p).column

end Model

end WritePlan

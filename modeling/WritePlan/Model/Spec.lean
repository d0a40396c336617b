import WritePlan.Model.Basic

namespace WritePlan

/-- A root has a table of its own; a derived type may have one and is else stored with its base. -/
inductive Mapping
  | root (table : Table)
  | derived (base : EntityTypeId) (table : Option Table)
deriving DecidableEq, Inhabited

def Mapping.base? : Mapping → Option EntityTypeId
  | root _ => none
  | derived base _ => some base

structure EntityDecl where
  name : String
  mapping : Mapping
deriving DecidableEq, Inhabited

structure PropertyDecl where
  owner : EntityTypeId
  name : String
  /-- The column, where it is not named like the property. -/
  column : Option String := none
  generated : Generated := .never
  concurrencyToken : Bool := false
deriving DecidableEq, Inhabited

structure KeyDecl where
  owner : EntityTypeId
  properties : List PropertyId
  primary : Bool := true
deriving DecidableEq, Inhabited

structure ForeignKeyDecl where
  owner : EntityTypeId
  properties : List PropertyId
  principalKey : KeyId
deriving DecidableEq, Inhabited

structure IndexDecl where
  owner : EntityTypeId
  name : String
  properties : List PropertyId
  unique : Bool := true
deriving DecidableEq, Inhabited

/-- What a model is made from. A declaration may refer to anything, also to what does not exist. -/
structure Spec where
  entities : List EntityDecl
  properties : List PropertyDecl
  keys : List KeyDecl
  foreignKeys : List ForeignKeyDecl
  indexes : List IndexDecl
deriving DecidableEq, Inhabited

/-- What is declared on an entity type. -/
inductive MemberKind
  | property
  | key
  | foreignKey
  | index
deriving DecidableEq

def MemberKind.text : MemberKind → String
  | property => "property"
  | key => "key"
  | foreignKey => "foreign key"
  | index => "index"

/-- Why declarations make no model. -/
inductive ModelError
  | duplicateEntity (name : String)
  | baseNotBefore (name : String) (base : EntityTypeId)
  | unknownOwner (kind : MemberKind) (label : String) (owner : EntityTypeId)
  | noProperties (kind : MemberKind) (owner : String)
  | unknownProperty (kind : MemberKind) (owner : String) (property : PropertyId)
  | unrelatedProperty (kind : MemberKind) (owner property : String)
  | derivedPrimaryKey (owner : String)
  | unknownKey (fk : ForeignKeyId) (key : KeyId)
  | arityMismatch (fk : ForeignKeyId) (owner : String) (properties keyProperties : Nat)
  | duplicateProperty (property owner : String)
  | noPrimaryKey (name : String)
  | severalPrimaryKeys (name : String)
deriving DecidableEq

namespace ModelError

/-- Whether the fault is a reference to something that does not exist. -/
def isMissing : ModelError → Bool
  | unknownOwner .. | unknownProperty .. | unknownKey .. => true
  | _ => false

def message : ModelError → String
  | duplicateEntity name => "duplicate entity type name '" ++ name ++ "'"
  | baseNotBefore name base =>
    "entity type '" ++ name ++ "' names base " ++ base.text ++ " which is not declared before it"
  | unknownOwner kind label owner =>
    kind.text ++ " '" ++ label ++ "' is declared on unknown " ++ owner.text
  | noProperties kind owner => kind.text ++ " on '" ++ owner ++ "' has no properties"
  | unknownProperty kind owner property =>
    kind.text ++ " on '" ++ owner ++ "' references unknown " ++ property.text
  | unrelatedProperty kind owner property =>
    kind.text ++ " on '" ++ owner ++ "' uses property '" ++ property ++
      "' declared on another entity type"
  | derivedPrimaryKey owner =>
    "derived entity type '" ++ owner ++ "' cannot declare a primary key"
  | unknownKey fk key => "foreign key " ++ fk.text ++ " references unknown " ++ key.text
  | arityMismatch fk owner properties keyProperties =>
    "foreign key " ++ fk.text ++ " on '" ++ owner ++ "' has " ++ toString properties ++
      " properties but its principal key has " ++ toString keyProperties
  | duplicateProperty property owner =>
    "duplicate property '" ++ property ++ "' on entity type '" ++ owner ++ "'"
  | noPrimaryKey name => "root entity type '" ++ name ++ "' has no primary key"
  | severalPrimaryKeys name =>
    "root entity type '" ++ name ++ "' declares more than one primary key"

end ModelError

end WritePlan

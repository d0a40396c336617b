import WritePlan.Model.Spec

namespace WritePlan

/-- Where a type belongs: its root and its table. -/
structure Placement where
  root : EntityTypeId
  table : Table
deriving DecidableEq, Inhabited

/-- Places the types in order. `placed` holds those before, of which `seen` are the names. -/
def placeFrom (seen : List String) (placed : List Placement) :
    List EntityDecl → Except ModelError (List Placement)
  | [] => .ok placed
  | d :: ds =>
    if seen.contains d.name then .error (.duplicateEntity d.name)
    else
      match d.mapping with
      | .root table =>
        placeFrom (d.name :: seen) (placed ++ [⟨⟨placed.length⟩, table⟩]) ds
      | .derived base table =>
        match placed[base.index]? with
        | none => .error (.baseNotBefore d.name base)
        | some p => placeFrom (d.name :: seen) (placed ++ [⟨p.root, table.getD p.table⟩]) ds

namespace Spec

def placements (s : Spec) : Except ModelError (List Placement) :=
  placeFrom [] [] s.entities

def baseOf (s : Spec) (e : EntityTypeId) : Option EntityTypeId :=
  s.entities[e.index]?.bind (·.mapping.base?)

def entityName (s : Spec) (e : EntityTypeId) : String :=
  (s.entities[e.index]?.map (·.name)).getD ""

/-- Whether `ancestor` is the type `e` or one of its bases. -/
def inHierarchy (s : Spec) (ancestor e : EntityTypeId) : Bool :=
  (lineage s.baseOf e).contains ancestor

def checkOwner (s : Spec) (kind : MemberKind) (label : String) (owner : EntityTypeId) :
    Except ModelError Unit :=
  if owner.index < s.entities.length then .ok () else .error (.unknownOwner kind label owner)

/-- A member's property must exist and be declared on the owner or one of its bases. -/
def checkProperty (s : Spec) (kind : MemberKind) (owner : EntityTypeId) (p : PropertyId) :
    Except ModelError Unit :=
  match s.properties[p.index]? with
  | none => .error (.unknownProperty kind (s.entityName owner) p)
  | some d =>
    if s.inHierarchy d.owner owner then .ok ()
    else .error (.unrelatedProperty kind (s.entityName owner) d.name)

def checkProperties (s : Spec) (kind : MemberKind) (owner : EntityTypeId)
    (ps : List PropertyId) : Except ModelError Unit :=
  if ps.isEmpty then .error (.noProperties kind (s.entityName owner))
  else ps.forM (s.checkProperty kind owner)

def checkPropertyDecl (s : Spec) (d : PropertyDecl) : Except ModelError Unit :=
  s.checkOwner .property d.name d.owner

def checkKey (s : Spec) (id : KeyId) (d : KeyDecl) : Except ModelError Unit := do
  s.checkOwner .key id.text d.owner
  s.checkProperties .key d.owner d.properties
  if d.primary && (s.baseOf d.owner).isSome then
    throw (.derivedPrimaryKey (s.entityName d.owner))

def checkForeignKey (s : Spec) (id : ForeignKeyId) (d : ForeignKeyDecl) :
    Except ModelError Unit := do
  s.checkOwner .foreignKey id.text d.owner
  s.checkProperties .foreignKey d.owner d.properties
  match s.keys[d.principalKey.index]? with
  | none => throw (.unknownKey id d.principalKey)
  | some k =>
    if k.properties.length ≠ d.properties.length then
      throw (.arityMismatch id (s.entityName d.owner) d.properties.length k.properties.length)

def checkIndex (s : Spec) (d : IndexDecl) : Except ModelError Unit := do
  s.checkOwner .index d.name d.owner
  s.checkProperties .index d.owner d.properties

def checkMembers (s : Spec) : Except ModelError Unit := do
  s.properties.forM s.checkPropertyDecl
  s.keys.zipIdx.forM fun (d, i) => s.checkKey ⟨i⟩ d
  s.foreignKeys.zipIdx.forM fun (d, i) => s.checkForeignKey ⟨i⟩ d
  s.indexes.forM s.checkIndex

def modelProperties (s : Spec) : List Property :=
  s.properties.mapIdx fun i d =>
    ⟨⟨i⟩, d.name, d.owner, d.column.getD d.name, d.generated, d.concurrencyToken⟩

def modelKeys (s : Spec) : List Key :=
  s.keys.mapIdx fun i d => ⟨⟨i⟩, d.owner, d.properties, d.primary⟩

/-- The principal of a foreign key is the type that declares the key it refers to. -/
def principalOf (s : Spec) (key : KeyId) : EntityTypeId :=
  (s.keys[key.index]?.map (·.owner)).getD default

def modelForeignKeys (s : Spec) : List ForeignKey :=
  s.foreignKeys.mapIdx fun i d =>
    ⟨⟨i⟩, d.owner, d.properties, s.principalOf d.principalKey, d.principalKey⟩

def modelIndexes (s : Spec) : List Index :=
  s.indexes.mapIdx fun i d => ⟨⟨i⟩, d.name, d.owner, d.properties, d.unique⟩

def propertiesOn (s : Spec) (e : EntityTypeId) : List Property :=
  s.modelProperties.filter (·.declaring = e)

def primaryKeysOn (s : Spec) (e : EntityTypeId) : List Key :=
  s.modelKeys.filter fun k => k.primary && k.declaring = e

def foreignKeysOn (s : Spec) (e : EntityTypeId) : List ForeignKey :=
  s.modelForeignKeys.filter (·.declaring = e)

def foreignKeysTo (s : Spec) (e : EntityTypeId) : List ForeignKey :=
  s.modelForeignKeys.filter (·.principal = e)

def uniqueIndexesOn (s : Spec) (e : EntityTypeId) : List Index :=
  s.modelIndexes.filter fun ix => ix.unique && ix.declaring = e

def propertyName (s : Spec) (p : PropertyId) : String :=
  (s.properties[p.index]?.map (·.name)).getD ""

/-- Adds a type's own properties after the inherited ones; no name may occur twice. -/
def addProperties (s : Spec) (owner : String) (known : List PropertyId) :
    List Property → Except ModelError (List PropertyId)
  | [] => .ok known
  | p :: ps =>
    if known.any (fun q => s.propertyName q = p.name) then
      .error (.duplicateProperty p.name owner)
    else addProperties s owner (known ++ [p.id]) ps

/-- The primary key of a root, of which there must be exactly one. -/
def rootKey (s : Spec) (e : EntityTypeId) (name : String) : Except ModelError KeyId :=
  match s.primaryKeysOn e with
  | [] => .error (.noPrimaryKey name)
  | [k] => .ok k.id
  | _ => .error (.severalPrimaryKeys name)

/-- The members that a type has from its base; a root has none. -/
def inherited (base : Option EntityType) (members : EntityType → List α) : List α :=
  (base.map members).getD []

/-- One type with all its members, given its base. -/
def entityType (s : Spec) (id : EntityTypeId) (d : EntityDecl) (place : Placement)
    (base : Option EntityType) : Except ModelError EntityType := do
  let own := s.propertiesOn id
  let properties ← s.addProperties d.name (inherited base (·.properties)) own
  let primaryKey ←
    match base with
    | some b => pure b.primaryKey
    | none => s.rootKey id d.name
  return {
    id, name := d.name, base := d.mapping.base?, root := place.root, table := place.table
    primaryKey
    declared := own.map (·.id)
    properties
    foreignKeys := inherited base (·.foreignKeys) ++ (s.foreignKeysOn id).map (·.id)
    referencing := inherited base (·.referencing) ++ (s.foreignKeysTo id).map (·.id)
    uniqueIndexes := inherited base (·.uniqueIndexes) ++ (s.uniqueIndexesOn id).map (·.id) }

/-- The types in order; `done` holds those before. -/
def entityTypesFrom (s : Spec) (done : List EntityType) :
    List (EntityDecl × Placement) → Except ModelError (List EntityType)
  | [] => .ok done
  | (d, place) :: rest => do
    let base := d.mapping.base?.bind fun b => done[b.index]?
    let e ← s.entityType ⟨done.length⟩ d place base
    entityTypesFrom s (done ++ [e]) rest

/-- The model that the declarations make, or the first fault in them: of the hierarchy, else of a
reference, else of the members of a type. -/
def build (s : Spec) : Except ModelError Model := do
  let places ← s.placements
  s.checkMembers
  let entityTypes ← s.entityTypesFrom [] (s.entities.zip places)
  return {
    entityTypes
    properties := s.modelProperties
    keys := s.modelKeys
    foreignKeys := s.modelForeignKeys
    indexes := s.modelIndexes }

end Spec

end WritePlan

import WritePlan.Model.Basic

namespace WritePlan.Model

def names (m : Model) (ps : List PropertyId) : String :=
  ", ".intercalate (ps.map fun p => (m.property p).name)

/-- A foreign key with both its ends, as in `Child \x7bParentId\x7d -> Parent \x7bId\x7d`. -/
def describeForeignKey (m : Model) (id : ForeignKeyId) : String :=
  let fk := m.foreignKey id
  (m.entityType fk.declaring).name ++ " \x7b" ++ m.names fk.properties ++ "\x7d -> " ++
    (m.entityType fk.principal).name ++ " \x7b" ++ m.names (m.key fk.principalKey).properties ++
    "\x7d"

/-- An index, as in `UNIQUE Account(Email)`. -/
def describeIndex (m : Model) (id : IndexId) : String :=
  let ix := m.index id
  (if ix.unique then "UNIQUE " else "") ++ (m.entityType ix.declaring).name ++ "(" ++
    m.names ix.properties ++ ")"

end WritePlan.Model

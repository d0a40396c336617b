import WritePlan.Entry

namespace WritePlan

inductive Constraint
  | foreignKey (fk : ForeignKeyId)
  | index (ix : IndexId)
deriving DecidableEq, Inhabited

def Constraint.text : Constraint → String
  | foreignKey fk => fk.text
  | index ix => ix.text

/-- A value that a constraint compares. From where it was read is not part of it. -/
structure KeyValue where
  constraint : Constraint
  values : List Value
deriving DecidableEq, Inhabited

/-- How values are compared by constraints: values that it maps to one value count as equal. -/
abbrev Collation := Value → Value

namespace Entry

/-- The values of some properties; `none` if one of them is null, for a null reference has no
principal and a null is never in conflict. -/
def valuesOf? (e : Entry) (ps : List PropertyId) (source : Projection) : Option (List Value) :=
  ps.mapM fun p => if (e.read source p).isNull then none else some (e.read source p)

def keyValue? (collate : Collation) (e : Entry) (constraint : Constraint) (ps : List PropertyId)
    (source : Projection) : Option KeyValue :=
  (e.valuesOf? ps source).map fun vs => ⟨constraint, vs.map collate⟩

/-- The value of the principal's key that the foreign key refers to. -/
def principalValue? (m : Model) (collate : Collation) (e : Entry) (fk : ForeignKeyId)
    (source : Projection) : Option KeyValue :=
  e.keyValue? collate (.foreignKey fk) (m.principalKey fk).properties source

/-- The value of the reference. -/
def dependentValue? (m : Model) (collate : Collation) (e : Entry) (fk : ForeignKeyId)
    (source : Projection) : Option KeyValue :=
  e.keyValue? collate (.foreignKey fk) (m.foreignKey fk).properties source

def indexValue? (m : Model) (collate : Collation) (e : Entry) (ix : IndexId)
    (source : Projection) : Option KeyValue :=
  e.keyValue? collate (.index ix) (m.index ix).properties source

end Entry

end WritePlan

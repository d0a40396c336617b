import WritePlan.Json

namespace WritePlan

/-- The name of a table, in a schema or in none; an empty schema is a schema. -/
structure Table where
  schema : Option String := none
  name : String
deriving DecidableEq, Inhabited

namespace Table

/-- Tables without a schema first, then by schema, then by name. -/
instance : Ord Table :=
  ⟨fun t u => (compare t.schema u.schema).then (compare t.name u.name)⟩

def text (t : Table) : String :=
  match t.schema with
  | none => t.name
  | some schema => schema ++ "." ++ t.name

/-- The same table, in the schema `fallback` if it has none of its own. -/
def inSchema (t : Table) (fallback : Option String) : Table :=
  { t with schema := t.schema.or fallback }

def toJson (t : Table) : Json :=
  .object [("schema", .ofOption .string t.schema), ("name", .string t.name)]

end Table

end WritePlan

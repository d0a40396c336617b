namespace WritePlan

/-- A JSON document. A number that is not written as an integer is kept as it is written. -/
inductive Json
  | null
  | bool (b : Bool)
  | int (i : Int)
  | real (literal : String)
  | string (s : String)
  | array (items : List Json)
  | object (fields : List (String × Json))
deriving Inhabited

namespace Json

def field? (key : String) : Json → Option Json
  | object fields => fields.lookup key
  | _ => none

/-- Replaces the field of that name, or adds it at the end. -/
def setField (fields : List (String × Json)) (key : String) (v : Json) : List (String × Json) :=
  fields.filter (·.1 != key) ++ [(key, v)]

def nat (n : Nat) : Json :=
  int n

def ofOption (f : α → Json) : Option α → Json
  | none => null
  | some a => f a

def ofList (f : α → Json) (as : List α) : Json :=
  array (as.map f)

end Json

end WritePlan

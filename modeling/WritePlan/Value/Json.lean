import WritePlan.Json
import WritePlan.Value

namespace WritePlan.Value

def tagged (tag : String) (payload : Json) : Json :=
  .object [(tag, payload)]

/-- Null is a bare name, every other value an object whose one field is named for the kind. -/
def toJson : Value → Json
  | null => .string "Null"
  | bool b => tagged "Bool" (.bool b)
  | int i => tagged "Int" (.int i.toInt)
  | uint u => tagged "Uint" (.int u.toNat)
  | text s => tagged "Text" (.string s)
  | blob bytes => tagged "Blob" (.array (bytes.map fun b => .int b.toNat))
  | ulid id => tagged "Ulid" (.string id.text)

def int64? : Json → Option Int64
  | .int i => if Int64.minValue.toInt ≤ i ∧ i ≤ Int64.maxValue.toInt then some (.ofInt i) else none
  | _ => none

def uint64? : Json → Option UInt64
  | .int i => if 0 ≤ i ∧ i.toNat < UInt64.size then some (.ofNat i.toNat) else none
  | _ => none

def byte? : Json → Option UInt8
  | .int i => if 0 ≤ i ∧ i < 256 then some (.ofNat i.toNat) else none
  | _ => none

/-- The value of the kind that `tag` names. -/
def ofPayload? (tag : String) (payload : Json) : Option Value :=
  if tag = "Null" then
    match payload with
    | .null => some null
    | _ => none
  else if tag = "Bool" then
    match payload with
    | .bool b => some (bool b)
    | _ => none
  else if tag = "Int" then (int64? payload).map int
  else if tag = "Uint" then (uint64? payload).map uint
  else if tag = "Text" then
    match payload with
    | .string s => some (text s)
    | _ => none
  else if tag = "Blob" then
    match payload with
    | .array items => (items.mapM byte?).map blob
    | _ => none
  else if tag = "Ulid" then
    match payload with
    | .string s => (Ulid.ofText? s).map ulid
    | _ => none
  else none

/-- Reading also takes null as an object, and an identifier in either case. -/
def ofJson? : Json → Option Value
  | .string s => if s = "Null" then some null else none
  | .object [(tag, payload)] => ofPayload? tag payload
  | _ => none

end WritePlan.Value

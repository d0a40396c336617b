import WritePlan.Ulid
import WritePlan.Text.Hex

namespace WritePlan

/-- A column value. Values of different kinds are different, also where they look alike. -/
inductive Value
  | null
  | bool (b : Bool)
  | int (i : Int64)
  | uint (u : UInt64)
  | text (s : String)
  | blob (bytes : List UInt8)
  | ulid (id : Ulid)
deriving DecidableEq, Inhabited

namespace Value

def isNull (v : Value) : Bool :=
  v = null

/-- The kind's name, for diagnostics. -/
def kind : Value → String
  | null => "null"
  | bool _ => "bool"
  | int _ => "int"
  | uint _ => "uint"
  | text _ => "text"
  | blob _ => "blob"
  | ulid _ => "ulid"

/-- The place of the kind in the order. -/
def rank : Value → Nat
  | null => 0
  | bool _ => 1
  | int _ => 2
  | uint _ => 3
  | text _ => 4
  | blob _ => 5
  | ulid _ => 6

/-- By kind, then by payload. -/
def order (v w : Value) : Ordering :=
  match v, w with
  | bool a, bool b => compare a b
  | int a, int b => compare a b
  | uint a, uint b => compare a b
  | text a, text b => compare a b
  | blob a, blob b => compare a b
  | ulid a, ulid b => compare a b
  | v, w => compare v.rank w.rank

instance : Ord Value := ⟨order⟩

/-- The text of a value in messages; a text stands between single quotes as it is. -/
def display : Value → String
  | null => "NULL"
  | bool b => if b then "true" else "false"
  | int i => toString i.toInt
  | uint u => toString u.toNat
  | text s => "'" ++ s ++ "'"
  | blob bytes => String.ofList ('0' :: 'x' :: bytes.flatMap Text.Hex.byte)
  | ulid id => id.text

/-- A list of values in messages, as key values are shown. -/
def displayList (vs : List Value) : String :=
  "\x7b" ++ ", ".intercalate (vs.map display) ++ "\x7d"

/-- A text with its ASCII letters in lower case; every other value as it is. -/
def lowerAscii : Value → Value
  | text s => text s.toLower
  | v => v

/-- A missing value is null. -/
def ofOption (f : α → Value) : Option α → Value
  | none => null
  | some a => f a

end Value

end WritePlan

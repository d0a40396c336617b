namespace WritePlan.Text.Hex

def alphabet : List Char :=
  "0123456789abcdef".toList

def digit (n : Nat) : Char :=
  alphabet.getD (n % 16) '0'

/-- The value of a digit in either case. -/
def value? (c : Char) : Option Nat :=
  alphabet.idxOf? c.toLower

/-- The last `width` digits of `n`, most significant first. -/
def digits (n : Nat) : (width : Nat) → List Char
  | 0 => []
  | width + 1 => digits (n / 16) width ++ [digit n]

/-- The number that a run of digits stands for; no digits at all stand for none. -/
def number? : List Char → Option Nat
  | [] => none
  | cs => (cs.mapM value?).map (·.foldl (fun n d => 16 * n + d) 0)

/-- A byte as two digits, the high half first. -/
def byte (b : UInt8) : List Char :=
  digits b.toNat 2

end WritePlan.Text.Hex

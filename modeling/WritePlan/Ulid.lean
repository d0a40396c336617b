namespace WritePlan

/-- An identifier of 128 bits, written as 26 digits of base 32. -/
structure Ulid where
  bits : BitVec 128
deriving DecidableEq, Inhabited

namespace Ulid

instance : Ord Ulid := ⟨fun a b => compare a.bits b.bits⟩

/-- The digits of base 32: no `I`, `L`, `O` or `U`, which are easily misread. -/
def alphabet : List Char :=
  "0123456789ABCDEFGHJKMNPQRSTVWXYZ".toList

def digit (n : Nat) : Char :=
  alphabet.getD (n % 32) '0'

/-- The value of a digit in either case. -/
def value? (c : Char) : Option Nat :=
  alphabet.idxOf? c.toUpper

/-- The last `width` digits of `n`, most significant first. -/
def digits (n : Nat) : (width : Nat) → List Char
  | 0 => []
  | width + 1 => digits (n / 32) width ++ [digit n]

/-- The number of digits in every text. -/
def width : Nat := 26

def text (id : Ulid) : String :=
  String.ofList (digits id.bits.toNat width)

/-- The identifier that a text stands for. The text could hold 130 bits, of which the top two are
dropped. -/
def ofText? (s : String) : Option Ulid :=
  if s.toList.length = width then
    (s.toList.mapM value?).map fun ds => ⟨.ofNat 128 (ds.foldl (fun n d => 32 * n + d) 0)⟩
  else none

end Ulid

end WritePlan

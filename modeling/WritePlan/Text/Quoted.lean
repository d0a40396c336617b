import WritePlan.Text.Hex

namespace WritePlan.Text.Quoted

/-- A number in base sixteen without leading zeros. -/
def shortHex (n : Nat) : List Char :=
  match (Hex.digits n 6).dropWhile (· = '0') with
  | [] => ['0']
  | ds => ds

def escape (c : Char) : List Char :=
  if c = '"' then ['\\', '"']
  else if c = '\\' then ['\\', '\\']
  else if c = '\n' then ['\\', 'n']
  else if c = '\r' then ['\\', 'r']
  else if c = '\t' then ['\\', 't']
  else if c.toNat = 0 then ['\\', '0']
  else if c.toNat < 32 ∨ c.toNat = 127 then
    ['\\', 'u', '\x7b'] ++ shortHex c.toNat ++ ['\x7d']
  else [c]

/-- Text between double quotes, as it is shown to a person who inspects a value. -/
def quote (s : String) : String :=
  String.ofList ('"' :: s.toList.flatMap escape ++ ['"'])

end WritePlan.Text.Quoted

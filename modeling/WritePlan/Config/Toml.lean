import WritePlan.Config
import WritePlan.Text.Hex

namespace WritePlan.Toml

inductive Scalar
  | integer (n : Int)
  | boolean (b : Bool)
  | string (s : String)
deriving DecidableEq, Inhabited

def isBlank (c : Char) : Bool :=
  c = ' ' || c = '\t'

/-- Control characters stand nowhere but in line ends; the tab is none. -/
def isControl (c : Char) : Bool :=
  (c.toNat < 32 && c ≠ '\t') || c.toNat = 127

def skipBlanks (cs : List Char) : List Char :=
  cs.dropWhile isBlank

def newline? : List Char → Option (List Char)
  | '\n' :: rest => some rest
  | '\r' :: '\n' :: rest => some rest
  | _ => none

/-- What comes after the line of which the comment is the end. -/
def afterComment? : List Char → Option (List Char)
  | [] => some []
  | '\n' :: rest => some rest
  | '\r' :: '\n' :: rest => some rest
  | c :: rest => if isControl c then none else afterComment? rest

/-- What comes after a line that holds only blanks and perhaps a comment from here on. -/
def afterLine? (cs : List Char) : Option (List Char) :=
  match skipBlanks cs with
  | [] => some []
  | '#' :: rest => afterComment? rest
  | rest => newline? rest

/-- A character by its number in base sixteen. -/
def character? (digits : List Char) : Option Char :=
  (Text.Hex.number? digits).bind fun n => if n.isValidChar then some (Char.ofNat n) else none

/-- The character that an escape stands for, and the text after it. -/
def escape? : List Char → Option (Char × List Char)
  | 'x' :: rest => if rest.length < 2 then none else (character? (rest.take 2)).map (·, rest.drop 2)
  | 'u' :: rest => if rest.length < 4 then none else (character? (rest.take 4)).map (·, rest.drop 4)
  | 'U' :: rest => if rest.length < 8 then none else (character? (rest.take 8)).map (·, rest.drop 8)
  | c :: rest =>
    ([('b', Char.ofNat 8), ('t', '\t'), ('n', '\n'), ('f', Char.ofNat 12), ('r', '\r'),
      ('e', Char.ofNat 27), ('"', '"'), ('\\', '\\')].lookup c).map (·, rest)
  | [] => none

/-- A string on one line; `steps` is at least the length of the text. -/
def basic? : (steps : Nat) → (done : List Char) → List Char → Option (List Char × List Char)
  | 0, _, _ => none
  | _ + 1, done, '"' :: rest => some (done, rest)
  | n + 1, done, '\\' :: rest => (escape? rest).bind fun (c, rest) => basic? n (done ++ [c]) rest
  | n + 1, done, c :: rest => if isControl c then none else basic? n (done ++ [c]) rest
  | _ + 1, _, [] => none

/-- A string on one line without escapes. -/
def literal? (done : List Char) : List Char → Option (List Char × List Char)
  | [] => none
  | c :: rest =>
    if c = '\'' then some (done, rest)
    else if isControl c then none
    else literal? (done ++ [c]) rest

/-- The end of a string on several lines, if the text starts with it: three quotes, in front of
which up to two more belong to the string. -/
def closing? (quote : Char) (cs : List Char) : Option (List Char × List Char) :=
  let quotes := (cs.takeWhile (· = quote)).length
  if quotes < 3 then none
  else
    let own := min (quotes - 3) 2
    some (List.replicate own quote, cs.drop (own + 3))

/-- Drops blanks and line ends. A carriage return that stands alone is no line end and stays. -/
def skipLines : List Char → List Char
  | '\r' :: '\n' :: rest => skipLines rest
  | c :: rest => if isBlank c || c = '\n' then skipLines rest else c :: rest
  | [] => []

/-- A backslash at the end of a line takes away the line end and all blanks and line ends after
it. The text starts behind the backslash. -/
def joined? (cs : List Char) : Option (List Char) :=
  (newline? (skipBlanks cs)).map skipLines

/-- A string on several lines; `steps` is more than the length of the text. -/
def multiline? (quote : Char) (escapes : Bool) :
    (steps : Nat) → (done : List Char) → List Char → Option (List Char × List Char)
  | 0, _, _ => none
  | n + 1, done, cs =>
    match closing? quote cs with
    | some (own, rest) => some (done ++ own, rest)
    | none =>
      match cs with
      | [] => none
      | '\n' :: rest => multiline? quote escapes n (done ++ ['\n']) rest
      | '\r' :: '\n' :: rest => multiline? quote escapes n (done ++ ['\r', '\n']) rest
      | c :: rest =>
        if escapes && c = '\\' then
          match joined? rest with
          | some rest => multiline? quote escapes n done rest
          | none =>
            (escape? rest).bind fun (c, rest) => multiline? quote escapes n (done ++ [c]) rest
        else if isControl c then none
        else multiline? quote escapes n (done ++ [c]) rest

/-- A line end right behind the opening quotes is not part of the string. -/
def skipFirstNewline (cs : List Char) : List Char :=
  (newline? cs).getD cs

/-- A string, by the quotes with which it begins. The other readers of strings start after them. -/
def string? : List Char → Option (List Char × List Char)
  | '"' :: '"' :: '"' :: rest => multiline? '"' true (rest.length + 1) [] (skipFirstNewline rest)
  | '\'' :: '\'' :: '\'' :: rest =>
    multiline? '\'' false (rest.length + 1) [] (skipFirstNewline rest)
  | '"' :: rest => basic? rest.length [] rest
  | '\'' :: rest => literal? [] rest
  | _ => none

/-- Digits, any two of which may have an underscore between them. -/
def digits? (digit? : Char → Option Nat) : List Char → Option (List Nat)
  | [] => none
  | [c] => (digit? c).map ([·])
  | c :: '_' :: rest => (digit? c).bind fun d => (digits? digit? rest).map (d :: ·)
  | c :: rest => (digit? c).bind fun d => (digits? digit? rest).map (d :: ·)

def number (radix : Nat) (ds : List Nat) : Nat :=
  ds.foldl (fun n d => radix * n + d) 0

def digitBelow (radix : Nat) (c : Char) : Option Nat :=
  (Text.Hex.value? c).filter (· < radix)

/-- A number in base ten, without needless zeros in front. -/
def decimal? (cs : List Char) : Option Nat :=
  (digits? (digitBelow 10) cs).bind fun ds =>
    if ds.head? = some 0 ∧ 1 < ds.length then none else some (number 10 ds)

def integer? : List Char → Option Int
  | '0' :: 'x' :: rest => (digits? (digitBelow 16) rest).map fun ds => number 16 ds
  | '0' :: 'o' :: rest => (digits? (digitBelow 8) rest).map fun ds => number 8 ds
  | '0' :: 'b' :: rest => (digits? (digitBelow 2) rest).map fun ds => number 2 ds
  | '+' :: rest => (decimal? rest).map fun n => n
  | '-' :: rest => (decimal? rest).map fun n => -(n : Int)
  | cs => (decimal? cs).map fun n => n

/-- A value without quotes, which ends at a blank, a comment or the end of the line. -/
def bare? (cs : List Char) : Option (Scalar × List Char) :=
  let ends (c : Char) : Bool := isBlank c || c = '#' || c = '\n' || c = '\r'
  let token := cs.takeWhile (!ends ·)
  let rest := cs.dropWhile (!ends ·)
  if token = "true".toList then some (.boolean true, rest)
  else if token = "false".toList then some (.boolean false, rest)
  else (integer? token).map fun n => (.integer n, rest)

def scalar? (cs : List Char) : Option (Scalar × List Char) :=
  match cs with
  | '"' :: _ | '\'' :: _ => (string? cs).map fun (s, rest) => (.string (String.ofList s), rest)
  | _ => bare? cs

def isKeyChar (c : Char) : Bool :=
  c.isAlphanum || c = '_' || c = '-'

def key? (cs : List Char) : Option (List Char × List Char) :=
  match cs with
  | '"' :: rest => basic? rest.length [] rest
  | '\'' :: rest => literal? [] rest
  | _ =>
    if (cs.takeWhile isKeyChar).isEmpty then none
    else some (cs.takeWhile isKeyChar, cs.dropWhile isKeyChar)

/-- One setting, and the text after its line. -/
def setting? (cs : List Char) : Option ((String × Scalar) × List Char) := do
  let (key, rest) ← key? cs
  match skipBlanks rest with
  | '=' :: rest =>
    let (v, rest) ← scalar? (skipBlanks rest)
    return ((String.ofList key, v), ← afterLine? rest)
  | _ => none

/-- The settings in order, no key twice; `lines` is more than the length of the text. -/
def settings? : (lines : Nat) → List (String × Scalar) → List Char →
    Option (List (String × Scalar))
  | 0, _, _ => none
  | n + 1, done, cs =>
    match skipBlanks cs with
    | [] => some done
    | c :: cs =>
      if c = '#' ∨ c = '\n' ∨ c = '\r' then
        (afterLine? (c :: cs)).bind (settings? n done)
      else
        (setting? (c :: cs)).bind fun (s, rest) =>
          if done.any (·.1 = s.1) then none else settings? n (done ++ [s]) rest

/-- Reads a document of one setting on each line; a byte order mark in front does not count. Tables,
dotted keys and all other values are refused like text that is no TOML. -/
def parse? (text : String) : Option (List (String × Scalar)) :=
  match text.toList with
  | '\uFEFF' :: cs => settings? (cs.length + 1) [] cs
  | cs => settings? (cs.length + 1) [] cs

end WritePlan.Toml

namespace WritePlan

namespace Config

/-- Why a document gives no settings. -/
inductive LoadError
  | parse
  | invalid (e : ConfigError)
deriving DecidableEq, Inhabited

def size? : Toml.Scalar → Option Nat
  | .integer n => if 0 ≤ n ∧ n.toNat < UInt64.size then some n.toNat else none
  | _ => none

/-- Changes the setting that a key names; no other keys are known. -/
def set? (c : Config) (key : String) (v : Toml.Scalar) : Option Config :=
  if key = "min_batch_size" then (size? v).map fun n => { c with minBatchSize := n }
  else if key = "max_batch_size" then (size? v).map fun n => { c with maxBatchSize := n }
  else
    match v with
    | .boolean b =>
      if key = "sensitive_data_logging" then some { c with sensitiveDataLogging := b } else none
    | .string s =>
      if key = "parameter_prefix" then some { c with parameterStem := s }
      else if key = "default_schema" then some { c with defaultSchema := some s }
      else none
    | .integer _ => none

/-- The settings in a document, and the defaults for those that it does not mention. -/
def readToml? (text : String) : Option Config :=
  (Toml.parse? text).bind fun settings =>
    settings.foldlM (fun c (key, v) => set? c key v) ({} : Config)

/-- The settings in a document, if they make sense. -/
def ofToml (text : String) : Except LoadError Config :=
  match readToml? text with
  | none => .error .parse
  | some c =>
    match c.validate with
    | .error e => .error (.invalid e)
    | .ok () => .ok c

end Config

end WritePlan

import WritePlan.Json
import WritePlan.Text.Hex

namespace WritePlan.Json

inductive Token
  | beginArray
  | endArray
  | beginObject
  | endObject
  | colon
  | comma
  | string (s : String)
  | scalar (j : Json)

/-- Where the cutting stands: between tokens, in a bare word, or in a string. The characters of
an unfinished token are kept last first. -/
inductive Cut
  | between
  | bare (chars : List Char)
  | string (chars : List Char)
  | escape (chars : List Char)
  | code (chars : List Char) (lead : Option Nat) (digits : List Char)
  | trail (chars : List Char) (lead : Nat)
  | trailEscape (chars : List Char) (lead : Nat)

structure Lexer where
  tokens : List Token
  cut : Cut

def allDigits (cs : List Char) : Bool :=
  cs != [] && cs.all Char.isDigit

/-- Digits without a needless zero in front. -/
def isWholePart (cs : List Char) : Bool :=
  allDigits cs && (cs.length == 1 || cs.head? != some '0')

/-- What may follow the whole part: a fraction, an exponent, or one after the other. -/
def isTail (cs : List Char) : Bool :=
  let exponentOk (es : List Char) : Bool :=
    match es with
    | '+' :: ds => allDigits ds
    | '-' :: ds => allDigits ds
    | ds => allDigits ds
  let isMark (c : Char) : Bool := c == 'e' || c == 'E'
  match cs with
  | '.' :: rest =>
    allDigits (rest.takeWhile (!isMark ·)) &&
      (match rest.dropWhile (!isMark ·) with
      | [] => true
      | _ :: es => exponentOk es)
  | c :: es => isMark c && exponentOk es
  | [] => false

def number? (cs : List Char) : Option Json :=
  let negative := cs.head? == some '-'
  let unsigned := if negative then cs.drop 1 else cs
  let whole := unsigned.takeWhile Char.isDigit
  let tail := unsigned.dropWhile Char.isDigit
  if !isWholePart whole then none
  else if tail.isEmpty then
    let n := whole.foldl (fun n c => 10 * n + (c.toNat - '0'.toNat)) 0
    if negative then some (if n = 0 then .real "-0" else .int (-(n : Int)))
    else some (.int n)
  else if isTail tail then some (.real (String.ofList cs))
  else none

def bare? (cs : List Char) : Option Json :=
  let word := String.ofList cs
  if word = "null" then some .null
  else if word = "true" then some (.bool true)
  else if word = "false" then some (.bool false)
  else number? cs

def isBare (c : Char) : Bool :=
  c.isAlphanum || c == '-' || c == '+' || c == '.'

/-- A character outside strings and words. -/
def Lexer.plain (tokens : List Token) (c : Char) : Option Lexer :=
  if c = ' ' ∨ c = '\t' ∨ c = '\n' ∨ c = '\r' then some ⟨tokens, .between⟩
  else if c = '[' then some ⟨.beginArray :: tokens, .between⟩
  else if c = ']' then some ⟨.endArray :: tokens, .between⟩
  else if c = '\x7b' then some ⟨.beginObject :: tokens, .between⟩
  else if c = '\x7d' then some ⟨.endObject :: tokens, .between⟩
  else if c = ':' then some ⟨.colon :: tokens, .between⟩
  else if c = ',' then some ⟨.comma :: tokens, .between⟩
  else if c = '"' then some ⟨tokens, .string []⟩
  else if isBare c then some ⟨tokens, .bare [c]⟩
  else none

def unescape? (c : Char) : Option Char :=
  [('"', '"'), ('\\', '\\'), ('/', '/'), ('b', Char.ofNat 8), ('f', Char.ofNat 12), ('n', '\n'),
    ('r', '\r'), ('t', '\t')].lookup c

/-- A complete four-digit code: a character, the first half of a pair, or the second half after
its first. -/
def Lexer.code (tokens : List Token) (chars : List Char) (lead : Option Nat) (n : Nat) :
    Option Lexer :=
  match lead with
  | some high =>
    if 0xDC00 ≤ n ∧ n < 0xE000 then
      some ⟨tokens, .string (Char.ofNat (0x10000 + (high - 0xD800) * 1024 + (n - 0xDC00)) :: chars)⟩
    else none
  | none =>
    if 0xD800 ≤ n ∧ n < 0xDC00 then some ⟨tokens, .trail chars n⟩
    else if 0xDC00 ≤ n ∧ n < 0xE000 then none
    else some ⟨tokens, .string (Char.ofNat n :: chars)⟩

def Lexer.step (l : Lexer) (c : Char) : Option Lexer :=
  match l.cut with
  | .between => Lexer.plain l.tokens c
  | .bare chars =>
    if isBare c then some ⟨l.tokens, .bare (c :: chars)⟩
    else (bare? chars.reverse).bind fun j => Lexer.plain (.scalar j :: l.tokens) c
  | .string chars =>
    if c = '"' then some ⟨.string (String.ofList chars.reverse) :: l.tokens, .between⟩
    else if c = '\\' then some ⟨l.tokens, .escape chars⟩
    else if c.toNat < 32 then none
    else some ⟨l.tokens, .string (c :: chars)⟩
  | .escape chars =>
    if c = 'u' then some ⟨l.tokens, .code chars none []⟩
    else (unescape? c).map fun d => ⟨l.tokens, .string (d :: chars)⟩
  | .code chars lead digits =>
    if digits.length < 3 then some ⟨l.tokens, .code chars lead (digits ++ [c])⟩
    else (Text.Hex.number? (digits ++ [c])).bind (Lexer.code l.tokens chars lead)
  | .trail chars lead => if c = '\\' then some ⟨l.tokens, .trailEscape chars lead⟩ else none
  | .trailEscape chars lead =>
    if c = 'u' then some ⟨l.tokens, .code chars (some lead) []⟩ else none

def tokens? (cs : List Char) : Option (List Token) :=
  (cs.foldlM Lexer.step ⟨[], .between⟩).bind fun l =>
    match l.cut with
    | .between => some l.tokens.reverse
    | .bare chars => (bare? chars.reverse).map fun j => (.scalar j :: l.tokens).reverse
    | _ => none

mutual

/-- Reads one document from the front. Every call takes at least one token, so as many calls as
there are tokens are enough. -/
def document? : (calls : Nat) → List Token → Option (Json × List Token)
  | 0, _ => none
  | _ + 1, .scalar j :: rest => some (j, rest)
  | _ + 1, .string s :: rest => some (.string s, rest)
  | _ + 1, .beginArray :: .endArray :: rest => some (.array [], rest)
  | n + 1, .beginArray :: rest => items? n [] rest
  | _ + 1, .beginObject :: .endObject :: rest => some (.object [], rest)
  | n + 1, .beginObject :: rest => fields? n [] rest
  | _, _ => none

def items? : (calls : Nat) → List Json → List Token → Option (Json × List Token)
  | 0, _, _ => none
  | n + 1, done, ts =>
    match document? n ts with
    | some (j, .comma :: rest) => items? n (done ++ [j]) rest
    | some (j, .endArray :: rest) => some (.array (done ++ [j]), rest)
    | _ => none

/-- Reads the fields of an object. Of two fields of one name the later counts. -/
def fields? : (calls : Nat) → List (String × Json) → List Token → Option (Json × List Token)
  | 0, _, _ => none
  | n + 1, done, .string key :: .colon :: ts =>
    match document? n ts with
    | some (j, .comma :: rest) => fields? n (setField done key j) rest
    | some (j, .endObject :: rest) => some (.object (setField done key j), rest)
    | _ => none
  | _ + 1, _, _ => none

end

/-- The document that a text holds, if it holds exactly one. -/
def parse? (s : String) : Option Json :=
  (tokens? s.toList).bind fun ts =>
    match document? (ts.length + 1) ts with
    | some (j, []) => some j
    | _ => none

end WritePlan.Json

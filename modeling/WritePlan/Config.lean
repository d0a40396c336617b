import WritePlan.Json
import WritePlan.Text.Quoted

namespace WritePlan

/-- How many writes a batch holds where nothing else is said. -/
def defaultMaxBatchSize : Nat := 42

def version : String := "0.4.0"

/-- The settings of a planner. -/
structure Config where
  /-- A smaller batch is sent as single writes. -/
  minBatchSize : Nat := 1
  maxBatchSize : Nat := defaultMaxBatchSize
  /-- Whether messages may show key values. -/
  sensitiveDataLogging : Bool := false
  /-- What the names of parameters begin with. -/
  parameterStem : String := "p"
  /-- The schema of tables that have none of their own. -/
  defaultSchema : Option String := none
deriving DecidableEq, Inhabited

inductive ConfigError
  | zeroMinimum
  | zeroMaximum
  | minimumAboveMaximum (maximum : Nat)
  | notIdentifier (stem : String)
deriving DecidableEq, Inhabited

namespace ConfigError

/-- The setting at fault. -/
def field : ConfigError → String
  | zeroMinimum | minimumAboveMaximum _ => "min_batch_size"
  | zeroMaximum => "max_batch_size"
  | notIdentifier _ => "parameter_prefix"

def reason : ConfigError → String
  | zeroMinimum | zeroMaximum => "must be at least 1"
  | minimumAboveMaximum maximum => "must not exceed max_batch_size (" ++ toString maximum ++ ")"
  | notIdentifier stem => "'" ++ stem ++ "' is not an identifier"

def message (e : ConfigError) : String :=
  "invalid update config field '" ++ e.field ++ "': " ++ e.reason

end ConfigError

def isIdentifierStart (c : Char) : Bool :=
  c.isAlpha || c = '_'

def isIdentifierRest (c : Char) : Bool :=
  c.isAlphanum || c = '_'

/-- A letter or an underscore, then any number of letters, digits and underscores, all ASCII. -/
def isIdentifier (s : String) : Bool :=
  match s.toList with
  | [] => false
  | c :: cs => isIdentifierStart c && cs.all isIdentifierRest

namespace Config

/-- The first fault, if there is one. -/
def validate (c : Config) : Except ConfigError Unit :=
  if c.minBatchSize = 0 then .error .zeroMinimum
  else if c.maxBatchSize = 0 then .error .zeroMaximum
  else if c.maxBatchSize < c.minBatchSize then .error (.minimumAboveMaximum c.maxBatchSize)
  else if !isIdentifier c.parameterStem then .error (.notIdentifier c.parameterStem)
  else .ok ()

def toJson (c : Config) : Json :=
  .object [("min_batch_size", .nat c.minBatchSize), ("max_batch_size", .nat c.maxBatchSize),
    ("sensitive_data_logging", .bool c.sensitiveDataLogging),
    ("parameter_prefix", .string c.parameterStem),
    ("default_schema", .ofOption .string c.defaultSchema)]

end Config

/-- The message for a file that does not exist. -/
def missingFileMessage (path : String) : String :=
  "failed to read update config " ++ path ++ ": No such file or directory (os error 2)"

end WritePlan

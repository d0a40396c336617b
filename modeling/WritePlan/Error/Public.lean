import WritePlan.Error.Report
import WritePlan.Json

namespace WritePlan

inductive UpdateKind
  | circularDependency
  | conflict
  | temporaryValue
  | invalidEntityState
deriving DecidableEq, Inhabited

/-- Who can do something about an error. -/
inductive PublicKind
  | update (kind : UpdateKind)
  | model
  | config
  | internal
deriving DecidableEq, Inhabited

/-- An error as callers see it. -/
structure PublicError where
  kind : PublicKind
  origin : Origin
  message : String
deriving DecidableEq, Inhabited

namespace UpdateKind

def name : UpdateKind → String
  | circularDependency => "CircularDependency"
  | conflict => "Conflict"
  | temporaryValue => "TemporaryValue"
  | invalidEntityState => "InvalidEntityState"

def all : List UpdateKind :=
  [circularDependency, conflict, temporaryValue, invalidEntityState]

def ofFault : Fault → UpdateKind
  | .circularDependency _ => circularDependency
  | .sharedIdentityConflict .. => conflict
  | .temporaryValue .. => temporaryValue
  | .invalidEntityState .. => invalidEntityState

end UpdateKind

/-- The origin's name towards callers. -/
def Origin.name : Origin → String
  | model => "Model"
  | command => "Command"
  | graph => "Graph"
  | batch => "Batch"
  | config => "Config"

/-- A bare name, or an object whose one field has the name and holds null. -/
def bareName? : Json → Option String
  | .string s => some s
  | .object [(s, .null)] => some s
  | _ => none

def UpdateKind.ofJson? (j : Json) : Option UpdateKind :=
  (bareName? j).bind fun s => all.find? (·.name = s)

def Origin.ofJson? (j : Json) : Option Origin :=
  (bareName? j).bind fun s => all.find? (·.name = s)

namespace PublicKind

def toJson : PublicKind → Json
  | update kind => .object [("Update", .string kind.name)]
  | model => .string "Model"
  | config => .string "Config"
  | internal => .string "Internal"

def ofName? (s : String) : Option PublicKind :=
  [("Model", model), ("Config", config), ("Internal", internal)].lookup s

def ofJson? (j : Json) : Option PublicKind :=
  match j with
  | .object [("Update", kind)] => (UpdateKind.ofJson? kind).map update
  | j => (bareName? j).bind ofName?

/-- The kind of an error by its fault, or else by its class and origin. -/
def ofReport (r : Report) : PublicKind :=
  match r.fault with
  | some fault => update (.ofFault fault)
  | none =>
    match r.category, r.origin with
    | .configuration, _ => config
    | .invariantViolation, .model | .notFound, .model => model
    | _, _ => internal

end PublicKind

def Report.toPublic (r : Report) : PublicError :=
  ⟨.ofReport r, r.origin, r.message⟩

namespace PublicError

def toJson (e : PublicError) : Json :=
  .object [("kind", e.kind.toJson), ("origin", .string e.origin.name),
    ("message", .string e.message)]

def ofParts? (kind origin message : Json) : Option PublicError := do
  match message with
  | .string s => return ⟨← PublicKind.ofJson? kind, ← Origin.ofJson? origin, s⟩
  | _ => none

/-- All three parts must be there, by name or in this order; other fields do not count. -/
def ofJson? (j : Json) : Option PublicError :=
  match j with
  | .array [kind, origin, message] => ofParts? kind origin message
  | _ => do ofParts? (← j.field? "kind") (← j.field? "origin") (← j.field? "message")

end PublicError

end WritePlan

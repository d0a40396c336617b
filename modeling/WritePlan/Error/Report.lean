import WritePlan.Config
import WritePlan.Error
import WritePlan.Graph.Cycle
import WritePlan.Model.Spec

namespace WritePlan

inductive ErrorClass
  | conflict
  | configuration
  | internal
  | invariantViolation
  | notFound
  | unsupported
deriving DecidableEq, Inhabited

namespace ErrorClass

def text : ErrorClass → String
  | conflict => "conflict"
  | configuration => "configuration"
  | internal => "internal"
  | invariantViolation => "invariant_violation"
  | notFound => "not_found"
  | unsupported => "unsupported"

def all : List ErrorClass :=
  [conflict, configuration, internal, invariantViolation, notFound, unsupported]

end ErrorClass

/-- The part of the library that an error comes from. -/
inductive Origin
  | model
  | command
  | graph
  | batch
  | config
deriving DecidableEq, Inhabited

namespace Origin

def text : Origin → String
  | model => "model"
  | command => "command"
  | graph => "graph"
  | batch => "batch"
  | config => "config"

def all : List Origin :=
  [model, command, graph, batch, config]

end Origin

/-- An error as it is reported, with the fault in the data where there is one. -/
structure Report where
  category : ErrorClass
  origin : Origin
  message : String
  fault : Option Fault
deriving DecidableEq, Inhabited

namespace Report

/-- Origin and class. -/
def label (r : Report) : String :=
  r.origin.text ++ ":" ++ r.category.text

def full (r : Report) : String :=
  r.label ++ ": " ++ r.message

def isCircular (r : Report) : Bool :=
  match r.fault with
  | some (.circularDependency _) => true
  | _ => false

def ofFault (category : ErrorClass) (origin : Origin) (fault : Fault) : Report :=
  ⟨category, origin, fault.message, some fault⟩

def plain (category : ErrorClass) (origin : Origin) (message : String) : Report :=
  ⟨category, origin, message, none⟩

end Report

def ModelError.report (e : ModelError) : Report :=
  .plain (if e.isMissing then .notFound else .invariantViolation) .model e.message

def ConfigError.report (e : ConfigError) : Report :=
  .plain .configuration .config e.message

namespace Defect

def category : Defect → ErrorClass
  | badEdge _ | untracedCycle => .invariantViolation
  | misplacedWrite _ | firstWriteRejected => .internal

def origin : Defect → Origin
  | badEdge _ | untracedCycle => .graph
  | misplacedWrite _ | firstWriteRejected => .batch

def report (d : Defect) : Report :=
  .plain d.category d.origin d.message

end Defect

/-- A conflict with the key of its row, if that is told. -/
def ConflictReason.textWith (reason : ConflictReason) (key : Option (List Value)) : String :=
  match key with
  | none => reason.text
  | some vs => reason.text ++ " (key " ++ Value.displayList vs ++ ")"

def PlanError.report : PlanError → Report
  | invalidState entityType state =>
    .ofFault .invariantViolation .command (.invalidEntityState entityType state.text)
  | sharedIdentity table entityTypes reason key =>
    .ofFault .conflict .command
      (.sharedIdentityConflict table.text entityTypes (reason.textWith key))
  | circular cycle => .ofFault .conflict .graph (.circularDependency cycle)
  | temporaryValue entityType property =>
    .ofFault .configuration .batch (.temporaryValue entityType property)
  | defect d => d.report

/-- How a sort that fails is reported: a cycle in the words of `format` or, where there is none, by
the texts of its vertices. -/
def Unsortable.report (text : V → String) (format : Option (List (Edge V E) → String)) :
    Unsortable V E → Report
  | circular edges => (PlanError.circular (format.getD (arrows text) edges)).report
  | untraced => Defect.untracedCycle.report

end WritePlan

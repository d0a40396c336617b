import WritePlan.Entry
import WritePlan.Graph.Basic

namespace WritePlan

/-- Why the entries of one row cannot be written together. -/
inductive ConflictReason
  | addedAndDeleted
  | deletedAndModified
  | repeatedType (name : String)
deriving DecidableEq, Inhabited

def ConflictReason.text : ConflictReason → String
  | addedAndDeleted => "an added entry and a deleted entry target the same row"
  | deletedAndModified => "a deleted entry shares the row with a modified entry"
  | repeatedType name => "entity type '" ++ name ++ "' appears more than once for the same row"

/-- A fault in what the application wants to save. -/
inductive Fault
  | circularDependency (cycle : String)
  | sharedIdentityConflict (table : String) (entityTypes : List String) (reason : String)
  | temporaryValue (entityType property : String)
  | invalidEntityState (entityType state : String)
deriving DecidableEq, Inhabited

def Fault.message : Fault → String
  | circularDependency cycle =>
    "unable to save changes because a circular dependency was detected in the data to save: '" ++
      cycle ++ "'"
  | sharedIdentityConflict table entityTypes reason =>
    "conflicting row changes for table '" ++ table ++ "' (" ++ ", ".intercalate entityTypes ++
      "): " ++ reason
  | temporaryValue entityType property =>
    "the value for '" ++ entityType ++ "." ++ property ++ "' is a temporary value; a value " ++
      "generator must produce a real value before the row is written"
  | invalidEntityState entityType state =>
    "entry for '" ++ entityType ++ "' has state " ++ state ++ " and cannot be written"

/-- A planner that contradicts itself: no entries account for it. -/
inductive Defect
  | badEdge (e : EdgeError)
  | untracedCycle
  | misplacedWrite (place : Nat)
  | firstWriteRejected
deriving DecidableEq, Inhabited

def Defect.message : Defect → String
  | badEdge e => e.message
  | untracedCycle => "topological sort stalled but no cycle could be reconstructed"
  | misplacedWrite place =>
    "command slot " ++ toString place ++ " was sorted twice or never built"
  | firstWriteRejected => "a new execution batch rejected its first command"

/-- Why a pass over entries ended early. -/
inductive PlanError
  /-- The entry of that type is in a state in which there is nothing to write. -/
  | invalidState (entityType : String) (state : EntityState)
  /-- The row's entries disagree; the key is told only where values may be shown. -/
  | sharedIdentity (table : Table) (entityTypes : List String) (reason : ConflictReason)
      (key : Option (List Value))
  | circular (cycle : String)
  | temporaryValue (entityType property : String)
  | defect (d : Defect)
deriving DecidableEq, Inhabited

namespace PlanError

def isCircular : PlanError → Bool
  | circular _ => true
  | _ => false

end PlanError

end WritePlan

import WritePlan.Batch
import WritePlan.Config
import WritePlan.Dependency
import WritePlan.Metrics

namespace WritePlan

/-- What plans are made with. -/
structure Planner where
  model : Model
  config : Config
  /-- The table to which entries of a type are written. -/
  tableOf : EntityTypeId → Table
  /-- How the values of keys and unique indexes are compared. -/
  collate : Collation
  /-- The numbering of parameters with which every pass begins. -/
  names : Names
  rule : BatchRule
  comparer : Comparer

/-- The sets of a pass, or why there are none, and what happened on the way. -/
structure Preparation where
  sets : Except PlanError (List (List RowWrite))
  events : List Event

/-- Takes a write from its place, where it must be and can be taken once. -/
def takeWrite (places : List (Option RowWrite)) (i : Nat) :
    Except PlanError (RowWrite × List (Option RowWrite)) :=
  match places[i]? with
  | some (some w) => .ok (w, places.set i none)
  | _ => .error (.defect (.misplacedWrite i))

def takeSet (places : List (Option RowWrite)) :
    List Nat → Except PlanError (List RowWrite × List (Option RowWrite))
  | [] => .ok ([], places)
  | i :: is => do
    let (w, places) ← takeWrite places i
    let (ws, places) ← takeSet places is
    return (w :: ws, places)

def takeSets (places : List (Option RowWrite)) :
    List (List Nat) → Except PlanError (List (List RowWrite))
  | [] => .ok []
  | is :: rest => do
    let (ws, places) ← takeSet places is
    return ws :: (← takeSets places rest)

namespace Planner

/-- The planner that goes by the model and the settings alone. -/
def ofConfig (m : Model) (c : Config) : Except ConfigError Planner := do
  c.validate
  return {
    model := m
    config := c
    tableOf := m.tableIn c.defaultSchema
    collate := id
    names := .ofStem c.parameterStem
    rule := .bounded c.maxBatchSize
    comparer := .standard }

def sharedTables (p : Planner) : List SharedTable :=
  p.model.sharedTables p.tableOf

def buildWrites (p : Planner) (t : Snapshot) (entries : List Nat) :
    Except PlanError BuiltWrites :=
  WritePlan.buildWrites p.model p.config.sensitiveDataLogging p.tableOf p.sharedTables t entries

def planErrorOf (p : Planner) : Unsortable Nat Dependency → PlanError
  | .circular edges => .circular (describeCycle p.model edges)
  | .untraced => .defect .untracedCycle

/-- Divides the writes into sets along their dependencies. -/
def arrange (p : Planner) (ws : List RowWrite) (g : DependencyGraph) :
    Except PlanError (List (List RowWrite)) := do
  let levels ← g.levels.mapError p.planErrorOf
  takeSets (ws.map some) levels

def prepare (p : Planner) (t : Snapshot) (entries : List Nat) : Preparation :=
  let started := [Event.prepareStart entries.length]
  match p.buildWrites t entries with
  | .error e => ⟨.error e, started⟩
  | .ok built =>
    let ws := built.writes
    let built := started ++ [.commandsBuilt ws.length built.merged built.dropped]
    match dependencyGraph p.model p.collate t ws with
    | .error e => ⟨.error e, built⟩
    | .ok g =>
      let connected := built ++ [.graphBuilt g.size g.labelCount]
      match p.arrange ws g with
      | .error e => ⟨.error e, if e.isCircular then connected ++ [.cycleDetected] else connected⟩
      | .ok sets => ⟨.ok sets, connected⟩

end Planner

end WritePlan

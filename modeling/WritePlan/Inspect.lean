import WritePlan.Session
import WritePlan.Text.Quoted

namespace WritePlan.Inspect

def bool (b : Bool) : String :=
  if b then "true" else "false"

def optional (text : α → String) : Option α → String
  | none => "None"
  | some a => "Some(" ++ text a ++ ")"

/-- A name with its parts; `more` says that some parts are left out. -/
def record (name : String) (parts : List (String × String)) (more : Bool) : String :=
  let shown := parts.map (fun (k, v) => k ++ ": " ++ v) ++ (if more then [".."] else [])
  name ++ " \x7b " ++ ", ".intercalate shown ++ " \x7d"

def table (t : Table) : String :=
  record "TableName"
    [("schema", optional Text.Quoted.quote t.schema), ("name", Text.Quoted.quote t.name)] false

def rowWrite (t : Snapshot) (w : RowWrite) : String :=
  record "ModificationCommand"
    [("table", table w.table), ("state", (w.state t).text),
      ("entries", toString w.entries.length)] true

def columnUse (c : ColumnUse) : String :=
  record "ColumnModification"
    [("column", Text.Quoted.quote c.column), ("is_read", bool c.roles.read),
      ("is_write", bool c.roles.write), ("is_condition", bool c.roles.condition),
      ("is_key", bool c.roles.key), ("is_concurrency_token", bool c.roles.concurrencyToken)] true

def names : String :=
  record "ParameterNames" [] true

def config (c : Config) : String :=
  record "UpdateConfig"
    [("min_batch_size", toString c.minBatchSize), ("max_batch_size", toString c.maxBatchSize),
      ("sensitive_data_logging", bool c.sensitiveDataLogging),
      ("parameter_prefix", Text.Quoted.quote c.parameterStem),
      ("default_schema", optional Text.Quoted.quote c.defaultSchema)] false

def stream (s : Stream) : String :=
  record "CommandBatches"
    [("started", bool s.isStarted), ("remaining_sets", toString s.sets.length),
      ("ready", toString s.packer.ready.length), ("done", bool s.done)] true

def planner (s : Session) : String :=
  record "CommandBatchPreparer"
    [("config", config s.planner.config),
      ("shared_tables", optional toString s.sharedCount?)] true

end WritePlan.Inspect

import WritePlan.Json

namespace WritePlan

/-- What is recorded during passes. -/
inductive Event
  | prepareStart (entries : Nat)
  | commandsBuilt (commands merged dropped : Nat)
  | graphBuilt (vertices edges : Nat)
  | cycleDetected
  | batchEmitted (commands : Nat)
  | batchSplit (commands : Nat)
deriving DecidableEq, Inhabited

/-- The largest value of a counter, at which it stays. -/
def counterLimit : Nat := UInt64.size - 1

def tally (counter amount : Nat) : Nat :=
  min (counter + amount) counterLimit

structure Counters where
  prepareCalls : Nat := 0
  entriesSeen : Nat := 0
  commandsBuilt : Nat := 0
  entriesMerged : Nat := 0
  commandsDropped : Nat := 0
  graphVertices : Nat := 0
  graphEdges : Nat := 0
  cyclesDetected : Nat := 0
  batchesEmitted : Nat := 0
  commandsEmitted : Nat := 0
  batchesSplit : Nat := 0
  commandsSplit : Nat := 0
deriving DecidableEq, Inhabited

namespace Counters

def record (c : Counters) : Event → Counters
  | .prepareStart entries =>
    { c with
      prepareCalls := tally c.prepareCalls 1
      entriesSeen := tally c.entriesSeen entries }
  | .commandsBuilt commands merged dropped =>
    { c with
      commandsBuilt := tally c.commandsBuilt commands
      entriesMerged := tally c.entriesMerged merged
      commandsDropped := tally c.commandsDropped dropped }
  | .graphBuilt vertices edges =>
    { c with
      graphVertices := tally c.graphVertices vertices
      graphEdges := tally c.graphEdges edges }
  | .cycleDetected => { c with cyclesDetected := tally c.cyclesDetected 1 }
  | .batchEmitted commands =>
    { c with
      batchesEmitted := tally c.batchesEmitted 1
      commandsEmitted := tally c.commandsEmitted commands }
  | .batchSplit commands =>
    { c with
      batchesSplit := tally c.batchesSplit 1
      commandsSplit := tally c.commandsSplit commands }

def recordAll (c : Counters) (events : List Event) : Counters :=
  events.foldl record c

def toJson (c : Counters) : Json :=
  .object [("prepare_calls", .nat c.prepareCalls), ("entries_seen", .nat c.entriesSeen),
    ("commands_built", .nat c.commandsBuilt), ("entries_merged", .nat c.entriesMerged),
    ("commands_dropped", .nat c.commandsDropped), ("graph_vertices", .nat c.graphVertices),
    ("graph_edges", .nat c.graphEdges), ("cycles_detected", .nat c.cyclesDetected),
    ("batches_emitted", .nat c.batchesEmitted), ("commands_emitted", .nat c.commandsEmitted),
    ("batches_split", .nat c.batchesSplit), ("commands_split", .nat c.commandsSplit)]

end Counters

end WritePlan

import WritePlan.Stream

namespace WritePlan

/-- A planner in use, pass after pass. The batches are numbered through all passes. -/
structure Session where
  planner : Planner
  /-- Whether the shared tables were looked up yet, which is done once. -/
  sharedKnown : Bool
  /-- The numberings of the passes before the one under way. -/
  pastNames : List Names
  stream : Stream

namespace Session

/-- A session that starts with a pass over some entries. -/
def start (p : Planner) (entries : List Nat) : Session :=
  ⟨p, false, [], .ofEntries entries 0⟩

/-- Leaves the pass under way and starts another one. -/
def restart (s : Session) (entries : List Nat) : Session :=
  { s with
    pastNames := s.pastNames ++ [s.stream.packer.names]
    stream := .ofEntries entries s.stream.packer.begun }

/-- The number of the pass under way. -/
def pass (s : Session) : Nat :=
  s.pastNames.length

def sharedTables (s : Session) : List SharedTable × Session :=
  (s.planner.sharedTables, { s with sharedKnown := true })

/-- The number of shared tables, if they were looked up. -/
def sharedCount? (s : Session) : Option Nat :=
  if s.sharedKnown then some s.planner.sharedTables.length else none

/-- The stream's answer, with the events and claims since the last one. -/
structure Answer where
  item : Item
  events : List Event
  claims : List Claim

/-- Asks the stream for its next batch. A pass that begins looks up the shared tables. -/
def next (s : Session) (t : Snapshot) : Answer × Session :=
  let (item, stream) := s.stream.next s.planner t
  let packer := stream.packer
  (⟨item, packer.events, packer.claims⟩,
    { s with
      sharedKnown := s.sharedKnown || !s.stream.isStarted
      stream := { stream with packer := { packer with events := [], claims := [] } } })

/-- Takes a name for each written column of some writes of a pass. -/
def claim (s : Session) (t : Snapshot) (pass : Nat) (ws : List RowWrite) :
    List String × Session :=
  let columns := ws.flatMap (·.writtenColumns s.planner.model t)
  if pass = s.pass then
    let (named, names) := s.stream.packer.names.takeFor columns
    (named.map (·.2), { s with stream.packer.names := names })
  else
    match s.pastNames[pass]? with
    | none => ([], s)
    | some names =>
      let (named, names) := names.takeFor columns
      (named.map (·.2), { s with pastNames := s.pastNames.set pass names })

end Session

end WritePlan

import WritePlan.RowWrite.Basic

namespace WritePlan

/-- What entries of one write have in common. Only in a table that roots share do a deleted row and
one that is written under the same key meet. -/
structure Route where
  table : Table
  key : RowKey
  deleted : Option Bool
deriving DecidableEq, Inhabited

/-- An entry whose row is not known yet has no route and is written on its own. -/
def Entry.route? (m : Model) (tableOf : EntityTypeId → Table) (shared : List SharedTable)
    (e : Entry) : Option Route :=
  (e.rowKey? m).map fun key =>
    let table := tableOf e.entityType
    let isShared := shared.any (·.table = table)
    ⟨table, key, if isShared then none else some e.state.isDeleted⟩

/-- The writes so far, each with the route by which it is found. -/
structure Routed where
  rows : List (Option Route × RowWrite)
  /-- How many entries have joined a write that was there. -/
  merged : Nat

namespace Routed

def empty : Routed := ⟨[], 0⟩

/-- Whether there is a write for the route. -/
def has (r : Routed) (route : Option Route) : Bool :=
  route.isSome && r.rows.any (·.1 = route)

/-- Puts an entry into the first write of its route. -/
def join (route : Option Route) (i : Nat) :
    List (Option Route × RowWrite) → List (Option Route × RowWrite)
  | [] => []
  | (key, w) :: rest =>
    if key = route then (key, { w with entries := w.entries ++ [i] }) :: rest
    else (key, w) :: join route i rest

def add (r : Routed) (route : Option Route) (table : Table) (i : Nat) : Routed :=
  if r.has route then { rows := join route i r.rows, merged := r.merged + 1 }
  else { r with rows := r.rows ++ [(route, ⟨table, [i], none⟩)] }

def writes (r : Routed) : List RowWrite :=
  r.rows.map (·.2)

/-- Routes entries in turn; one that is unchanged has nothing to write and ends it. -/
def addAll (m : Model) (tableOf : EntityTypeId → Table) (shared : List SharedTable)
    (t : Snapshot) (r : Routed) : List Nat → Except PlanError Routed
  | [] => .ok r
  | i :: is =>
    let e := t i
    if e.state = .unchanged then
      .error (.invalidState (m.entityType e.entityType).name e.state)
    else
      addAll m tableOf shared t (r.add (e.route? m tableOf shared) (tableOf e.entityType) i) is

end Routed

/-- The writes of some entries, with counts of the entries that joined another one's write and of
the writes that were dropped. -/
structure BuiltWrites where
  writes : List RowWrite
  merged : Nat
  dropped : Nat

/-- An update without a written column is not sent. To find that out its columns are settled. -/
def RowWrite.kept? (m : Model) (t : Snapshot) (w : RowWrite) : Option RowWrite :=
  if (w.state t).isModified then
    if w.hasWrites m t then some (w.settle m t) else none
  else some w

/-- The writes of some entries: those of one route come together, and updates that write nothing are
left out. -/
def buildWrites (m : Model) (sensitive : Bool) (tableOf : EntityTypeId → Table)
    (shared : List SharedTable) (t : Snapshot) (entries : List Nat) :
    Except PlanError BuiltWrites := do
  let routed ← Routed.empty.addAll m tableOf shared t entries
  routed.writes.forM (·.checkIdentity m sensitive t)
  let writes := routed.writes.filterMap (·.kept? m t)
  return ⟨writes, routed.merged, routed.writes.length - writes.length⟩

end WritePlan

import WritePlan.RowWrite.Basic

namespace WritePlan

/-- A numbering of parameter names. -/
structure Names where
  stem : String
  next : Nat
  /-- Whether every batch starts again at zero. -/
  restarts : Bool
deriving DecidableEq, Inhabited

namespace Names

def ofStem (stem : String) : Names := ⟨stem, 0, true⟩

/-- A numbering that goes on through all batches. -/
def endless (stem : String) : Names := ⟨stem, 0, false⟩

/-- The next name, and the numbering after it. -/
def take (n : Names) : String × Names :=
  (n.stem ++ toString n.next, { n with next := n.next + 1 })

def restart (n : Names) : Names :=
  if n.restarts then { n with next := 0 } else n

/-- As many names as there are elements, in order. -/
def takeFor (n : Names) : List α → List (α × String) × Names
  | [] => ([], n)
  | a :: as =>
    let rest := n.take.2.takeFor as
    ((a, n.take.1) :: rest.1, rest.2)

end Names

/-- Decides whether a batch takes one more write. A batch is offered a write at each length once at
most, so a rule may go by what happened before. -/
structure BatchRule where
  /-- Whether the batch of this number, which holds these writes, takes the last one too. -/
  accepts : Snapshot → (number : Nat) → (held : List RowWrite) → RowWrite → Bool
  /-- Whether a batch looks at the columns of what it is offered, and takes a parameter name for
  each written column of what it accepts. -/
  namesColumns : Bool

namespace BatchRule

/-- Batches of at most `capacity` writes. -/
def bounded (capacity : Nat) : BatchRule where
  accepts _ _ held _ := held.length < capacity
  namesColumns := false

/-- Batches of a limited number of columns: the limit of the batch with a number is the one at
that place, the last for all later batches; without limits everything fits. -/
def columnLimits (m : Model) (limits : List Nat) : BatchRule where
  accepts t number held w :=
    match limits[number]?.or limits.getLast? with
    | none => true
    | some limit =>
      ((held ++ [w]).map fun w => (w.columns m t).length).foldl (· + ·) 0 ≤ limit
  namesColumns := true

/-- Offers writes one by one to a batch that takes at most `capacity`. The first result tells of
each whether it was taken. -/
def fill (capacity : Nat) : (held : List RowWrite) → List RowWrite → List Bool × List RowWrite
  | held, [] => ([], held)
  | held, w :: ws =>
    let taken : Bool := held.length < capacity
    let rest := fill capacity (if taken then held ++ [w] else held) ws
    (taken :: rest.1, rest.2)

end BatchRule

/-- The order of the writes that could be sent in any order. -/
abbrev Comparer := Model → Snapshot → RowWrite → RowWrite → Ordering

namespace Comparer

/-- Deletes, then updates, then inserts. -/
def rank : EntityState → Nat
  | .deleted => 0
  | .modified => 1
  | .added => 2
  | .unchanged => 3

/-- By schema, table, kind and key. -/
def standard : Comparer := fun m t v w =>
  (compare v.table.schema w.table.schema).then <|
  (compare v.table.name w.table.name).then <|
  (compare (rank (v.state t)) (rank (w.state t))).then <|
  compare (v.keyValues m t) (w.keyValues m t)

def reversed (c : Comparer) : Comparer := fun m t v w => c m t w v

/-- All writes are equal. -/
def equal : Comparer := fun _ _ _ _ => .eq

def byKey : Comparer := fun m t v w => compare (v.keyValues m t) (w.keyValues m t)

end Comparer

end WritePlan

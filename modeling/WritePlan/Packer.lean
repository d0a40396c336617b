import WritePlan.Planner

namespace WritePlan

/-- A batch, with its number among all batches that were ever begun. -/
structure Batch where
  number : Nat
  writes : List RowWrite
deriving DecidableEq, Inhabited

/-- A name that was taken for a written column. -/
structure Claim where
  batch : Nat
  column : String
  name : String
deriving DecidableEq, Inhabited

def Claim.text (c : Claim) : String :=
  c.column ++ "=" ++ c.name

/-- The batches at hand, and a record of what was done. -/
structure Packer where
  names : Names
  /-- How many batches were begun. -/
  begun : Nat
  /-- The finished batches, first to be sent in front. -/
  ready : List Batch
  events : List Event
  claims : List Claim
deriving Inhabited

namespace Packer

variable (p : Planner) (t : Snapshot)

def log (k : Packer) (e : Event) : Packer :=
  { k with events := k.events ++ [e] }

def queue (k : Packer) (b : Batch) : Packer :=
  { k with ready := k.ready ++ [b] }

/-- Opens a batch, for which the names of parameters start again. -/
def openBatch (k : Packer) : Packer × Batch :=
  ({ k with names := k.names.restart, begun := k.begun + 1 }, ⟨k.begun, []⟩)

/-- Offers a write to a batch; gives the batch with the write if it takes it. -/
def offer (k : Packer) (b : Batch) (w : RowWrite) : Packer × Option Batch :=
  let w := if p.rule.namesColumns then w.settle p.model t else w
  if p.rule.accepts t b.number b.writes w then
    let taken : Batch := { b with writes := b.writes ++ [w] }
    if p.rule.namesColumns then
      let (named, names) := k.names.takeFor (w.writtenColumns p.model t)
      let claims := named.map fun (c, name) => ⟨b.number, c.column, name⟩
      ({ k with names, claims := k.claims ++ claims }, some taken)
    else (k, some taken)
  else (k, none)

/-- Offers a write to a batch of its own, which must take it. -/
def offerFirst (k : Packer) (w : RowWrite) : Packer × Except PlanError Batch :=
  let (k, b) := k.openBatch
  match k.offer p t b w with
  | (k, some b) => (k, .ok b)
  | (k, none) => (k, .error (.defect .firstWriteRejected))

/-- Makes a finished batch of each write. -/
def queueSingly (k : Packer) : List RowWrite → Packer × Except PlanError Unit
  | [] => (k, .ok ())
  | w :: ws =>
    match k.offerFirst p t w with
    | (k, .error e) => (k, .error e)
    | (k, .ok b) => queueSingly (k.queue b) ws

/-- Finishes a batch. -/
def finish (k : Packer) (b : Batch) : Packer × Except PlanError Unit :=
  if b.writes.length = 1 ∨ p.config.minBatchSize ≤ b.writes.length then (k.queue b, .ok ())
  else (k.log (.batchSplit b.writes.length)).queueSingly p t b.writes

/-- Puts a write into the open batch, or else finishes that batch and begins the next. Gives the
batch that is open afterwards. -/
def pack (k : Packer) (opened : Option Batch) (w : RowWrite) : Packer × Except PlanError Batch :=
  match opened with
  | none => k.offerFirst p t w
  | some b =>
    match k.offer p t b w with
    | (k, some b) => (k, .ok b)
    | (k, none) =>
      if b.writes.isEmpty then (k, .error (.defect .firstWriteRejected))
      else
        match k.finish p t b with
        | (k, .error e) => (k, .error e)
        | (k, .ok ()) => k.offerFirst p t w

end Packer

end WritePlan

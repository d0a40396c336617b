import WritePlan.Packer

namespace WritePlan

/-- A pass as a stream of batches. No more is done than what the next batch needs, and the entries
may change in between. -/
structure Stream where
  /-- The entries, as long as the pass has not begun. -/
  pending : Option (List Nat)
  /-- The sets that are not opened yet. -/
  sets : List (List RowWrite)
  /-- The writes of the open set that are not packed yet, in order. -/
  current : List RowWrite
  opened : Option Batch
  packer : Packer
  done : Bool
deriving Inhabited

/-- What a stream answers. -/
inductive Item
  | batch (b : Batch)
  | failed (e : PlanError)
  | ended
deriving DecidableEq, Inhabited

/-- One turn of a stream: it moves on, or it gives an answer. -/
inductive Turn
  | move (s : Stream)
  | answer (item : Item) (s : Stream)

/-- The write as it goes into packing. An insert is looked at first: its columns are settled, and
no value to be written may be temporary. -/
def RowWrite.examine (m : Model) (t : Snapshot) (w : RowWrite) : Except PlanError RowWrite := do
  w.checkTemporary m t
  return if (w.state t).isAdded then w.settle m t else w

namespace Stream

/-- The stream over some entries; `begun` batches were begun before it. -/
def ofEntries (entries : List Nat) (begun : Nat) : Stream :=
  ⟨some entries, [], [], none, ⟨default, begun, [], [], []⟩, false⟩

def isStarted (s : Stream) : Bool :=
  s.pending.isNone

/-- Ends the stream. -/
def stop (s : Stream) : Stream :=
  { s with done := true }

/-- Sends a finished batch; else packs the next write; else finishes the open batch; else opens
the next set; else ends. -/
def turn (p : Planner) (t : Snapshot) (s : Stream) : Turn :=
  match s.packer.ready, s.current, s.opened, s.sets with
  | b :: ready, _, _, _ =>
    let packer := { s.packer with ready }.log (.batchEmitted b.writes.length)
    .answer (.batch b) { s with packer }
  | [], w :: current, opened, _ =>
    match w.examine p.model t with
    | .error e => .answer (.failed e) { s with current }.stop
    | .ok w =>
      match s.packer.pack p t opened w with
      | (packer, .error e) => .answer (.failed e) { s with current, opened := none, packer }.stop
      | (packer, .ok b) => .move { s with current, opened := some b, packer }
  | [], [], some b, _ =>
    match s.packer.finish p t b with
    | (packer, .error e) => .answer (.failed e) { s with opened := none, packer }.stop
    | (packer, .ok ()) => .move { s with opened := none, packer }
  | [], [], none, set :: sets =>
    .move { s with sets, current := sortBy (p.comparer p.model t) set }
  | [], [], none, [] => .answer .ended s.stop

/-- How much is left to do before the end. -/
def work (s : Stream) : Nat :=
  2 * (s.current.length + s.sets.flatten.length) + s.sets.length +
    if s.opened.isSome then 1 else 0

theorem work_turn {p : Planner} {t : Snapshot} {s s' : Stream} (h : s.turn p t = .move s') :
    s'.work < s.work := by
  unfold turn at h
  split at h
  · simp at h
  · rename_i hc
    split at h
    · simp at h
    · split at h
      · simp at h
      · simp only [Turn.move.injEq] at h
        subst h
        simp only [work, hc, List.length_cons, Option.isSome_some, ↓reduceIte]
        omega
  · rename_i _ hc ho
    split at h
    · simp at h
    · simp only [Turn.move.injEq] at h
      subst h
      simp [work, hc, ho]
  · rename_i _ hc ho hs
    simp only [Turn.move.injEq] at h
    subst h
    simp only [work, hc, ho, hs, length_sortBy, List.flatten_cons, List.length_append,
      List.length_cons, List.length_nil]
    omega
  · simp at h

/-- Turns until there is an answer. -/
def advance (p : Planner) (t : Snapshot) (s : Stream) : Item × Stream :=
  match _h : s.turn p t with
  | .answer item s' => (item, s')
  | .move s' => advance p t s'
termination_by s.work
decreasing_by exact work_turn ‹_›

/-- Begins the pass: plans it with the entries as they are now. -/
def prepare (p : Planner) (t : Snapshot) (entries : List Nat) (s : Stream) :
    Except PlanError Unit × Stream :=
  let plan := p.prepare t entries
  let packer := { s.packer with names := p.names, events := s.packer.events ++ plan.events }
  let s := { s with pending := none, packer }
  match plan.sets with
  | .error e => (.error e, s.stop)
  | .ok sets => (.ok (), { s with sets })

/-- The next batch, or the end; a stream that has failed or ended gives nothing more. -/
def next (p : Planner) (t : Snapshot) (s : Stream) : Item × Stream :=
  if s.done then (.ended, s)
  else
    match s.pending with
    | none => s.advance p t
    | some entries =>
      match s.prepare p t entries with
      | (.error e, s) => (.failed e, s)
      | (.ok (), s) => s.advance p t

end Stream

end WritePlan

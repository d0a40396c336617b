import WritePlan.Graph.Basic

namespace WritePlan

/-- The list through the last occurrence of `v`. -/
def throughLast (v : Nat) : List Nat → List Nat
  | [] => []
  | i :: rest => if rest.contains v then i :: throughLast v rest else [i]

namespace Multigraph

variable {V E : Type}

/-- Walks against unbroken edges, each time to the first vertex that waits, until one comes again or
none waits. `fresh` are the waiting vertices that were not passed yet; the walk so far is put in
front of `passed`. -/
def walkBack (g : Multigraph V E) (waits : Nat → Bool) (broken : List (Nat × Nat))
    (fresh passed : List Nat) (i : Nat) : List Nat :=
  match (g.predecessors i).find? fun p => waits p && !broken.contains (p, i) with
  | none => i :: passed
  | some p =>
    if p ∈ fresh then g.walkBack waits broken (fresh.erase p) (i :: passed) p
    else p :: i :: passed
termination_by fresh.length
decreasing_by
  rename_i h
  have := List.length_erase_of_mem h
  have := List.length_pos_of_mem h
  omega

/-- A cycle through waiting vertices along the edges, its first place also the last; where the walk
finds none, only its end is left. `remaining` counts for each vertex what it waits for. -/
def cyclePlaces (g : Multigraph V E) (remaining : List Nat) (broken : List (Nat × Nat)) :
    List Nat :=
  let waits (i : Nat) : Bool := remaining.getD i 0 != 0
  match remaining.findIdx? (· != 0) with
  | none => []
  | some start =>
    let fresh := ((List.range remaining.length).filter waits).erase start
    match g.walkBack waits broken fresh [] start with
    | [] => []
    | i :: rest => throughLast i (i :: rest)

def cycle (g : Multigraph V E) (remaining : List Nat) : List V :=
  (g.cyclePlaces remaining []).filterMap g.vertex?

/-- The edges along a list of places. -/
def edgesAlong (g : Multigraph V E) (places : List Nat) : List (Edge V E) :=
  (places.zip (places.drop 1)).filterMap fun (i, j) => g.edge? i j

end Multigraph

/-- Why vertices could not be put in order. -/
inductive Unsortable (V E : Type)
  /-- The edges go round, each from the target of the one before it. -/
  | circular (edges : List (Edge V E))
  /-- Vertices wait, but not for one another. -/
  | untraced
deriving DecidableEq

namespace Multigraph

variable {V E : Type}

def unsortable (g : Multigraph V E) (remaining : List Nat) (broken : List (Nat × Nat)) :
    Unsortable V E :=
  let places := g.cyclePlaces remaining broken
  if places.length < 2 then .untraced else .circular (g.edgesAlong places)

end Multigraph

/-- A cycle as its vertices with arrows between them. -/
def arrows (text : V → String) : List (Edge V E) → String
  | [] => ""
  | e :: es => " -> ".intercalate (text e.source :: (e :: es).map fun e => text e.target)

end WritePlan

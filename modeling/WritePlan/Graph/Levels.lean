import WritePlan.Graph.Cycle
import WritePlan.Graph.Ready

namespace WritePlan.Multigraph

variable {V E : Type}

/-- The targets of all edges that leave some places, in turn. -/
def successorsOf (g : Multigraph V E) (places : List Nat) : List Nat :=
  places.flatMap g.successors

/-- The levels from `level` on, and the counts that are left after the last. -/
def levelsFrom (g : Multigraph V E) (counts level : List Nat) : List (List Nat) × List Nat :=
  if level.isEmpty then ([], counts)
  else
    let next := release counts (g.successorsOf level)
    let rest := g.levelsFrom next.1 next.2
    (level :: rest.1, rest.2)
termination_by level.length + waiting counts
decreasing_by
  rename_i h
  have := waiting_release counts (g.successorsOf level)
  have : 0 < level.length := List.length_pos_iff.2 (by simpa using h)
  omega

/-- The places that wait for nothing. -/
def free (counts : List Nat) : List Nat :=
  (List.range counts.length).filter fun i => counts[i]? = some 0

def levelPlaces (g : Multigraph V E) : List (List Nat) × List Nat :=
  g.levelsFrom g.predecessorCounts (free g.predecessorCounts)

/-- The vertices by levels, each in the first after all vertices with an edge to it; or a cycle. -/
def levels (g : Multigraph V E) : Except (Unsortable V E) (List (List V)) :=
  let (levels, counts) := g.levelPlaces
  if levels.flatten.length < g.size then .error (g.unsortable counts [])
  else .ok (levels.map (·.filterMap g.vertex?))

end WritePlan.Multigraph

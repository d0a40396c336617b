namespace WritePlan

/-- A vertex with the places of its neighbours, ascending on both sides. -/
structure Node (V E : Type) where
  vertex : V
  successors : List (Nat × List E)
  predecessors : List Nat
deriving DecidableEq

/-- A directed graph whose edges carry lists of labels. A vertex or an edge that is added again is
the same one, a label that is added again is one more label. -/
structure Multigraph (V E : Type) where
  /-- The vertices in the order in which they were added. -/
  nodes : List (Node V E)
  /-- The places of the vertices, that of the latest in front. -/
  index : List (V × Nat)
  /-- The number of all labels. -/
  labelCount : Nat
deriving DecidableEq

/-- An edge by the vertices that it joins. -/
structure Edge (V E : Type) where
  source : V
  target : V
  labels : List E
deriving DecidableEq

inductive EdgeError
  | unknownSource
  | unknownTarget
deriving DecidableEq, Inhabited

def EdgeError.message : EdgeError → String
  | unknownSource => "edge source is not a vertex of the graph"
  | unknownTarget => "edge target is not a vertex of the graph"

/-- A graph as a call leaves it, and the fault for which the call failed if it did. -/
structure Outcome (V E : Type) where
  graph : Multigraph V E
  fault? : Option EdgeError

def Outcome.toExcept : Outcome V E → Except EdgeError (Multigraph V E)
  | ⟨g, none⟩ => .ok g
  | ⟨_, some e⟩ => .error e

instance : Coe (Outcome V E) (Except EdgeError (Multigraph V E)) := ⟨Outcome.toExcept⟩

/-- Adds labels to the edge to `target`, which is a new edge if there is none yet. -/
def addLabels (target : Nat) (labels : List E) : List (Nat × List E) → List (Nat × List E)
  | [] => [(target, labels)]
  | (t, ls) :: rest =>
    if target < t then (target, labels) :: (t, ls) :: rest
    else if target = t then (t, ls ++ labels) :: rest
    else (t, ls) :: addLabels target labels rest

/-- Adds a place to an ascending list without repetitions. -/
def addPlace (place : Nat) : List Nat → List Nat
  | [] => [place]
  | p :: ps =>
    if place < p then place :: p :: ps
    else if place = p then p :: ps
    else p :: addPlace place ps

namespace Multigraph

variable {V E : Type}

def empty : Multigraph V E := ⟨[], [], 0⟩

instance : Inhabited (Multigraph V E) := ⟨empty⟩

def size (g : Multigraph V E) : Nat :=
  g.nodes.length

def vertices (g : Multigraph V E) : List V :=
  g.nodes.map (·.vertex)

def vertex? (g : Multigraph V E) (i : Nat) : Option V :=
  g.nodes[i]?.map (·.vertex)

/-- The edges that leave the vertex at a place, with their labels. -/
def outgoing (g : Multigraph V E) (i : Nat) : List (Nat × List E) :=
  (g.nodes[i]?.map (·.successors)).getD []

def successors (g : Multigraph V E) (i : Nat) : List Nat :=
  (g.outgoing i).map (·.1)

def predecessors (g : Multigraph V E) (i : Nat) : List Nat :=
  (g.nodes[i]?.map (·.predecessors)).getD []

/-- The labels from one place to another, none where no edge is. -/
def labelsAt (g : Multigraph V E) (i j : Nat) : List E :=
  ((g.outgoing i).lookup j).getD []

def edge? (g : Multigraph V E) (i j : Nat) : Option (Edge V E) :=
  (g.vertex? i).bind fun u => (g.vertex? j).map fun v => ⟨u, v, g.labelsAt i j⟩

/-- All edges by the places that they join, in the order of their targets, then sources. -/
def edgePlaces (g : Multigraph V E) : List (Nat × Nat) :=
  (List.range g.size).flatMap fun j => (g.predecessors j).map (·, j)

/-- How many vertices each vertex has an edge from. -/
def predecessorCounts (g : Multigraph V E) : List Nat :=
  g.nodes.map (·.predecessors.length)

variable [DecidableEq V]

/-- The place that the index has for a vertex. -/
def place? (g : Multigraph V E) (v : V) : Option Nat :=
  g.index.lookup v

def contains (g : Multigraph V E) (v : V) : Bool :=
  (g.place? v).isSome

def addVertex (g : Multigraph V E) (v : V) : Multigraph V E :=
  if g.contains v then g
  else { g with nodes := g.nodes ++ [⟨v, [], []⟩], index := (v, g.size) :: g.index }

def addVertices (g : Multigraph V E) (vs : List V) : Multigraph V E :=
  vs.foldl addVertex g

/-- The graph with more labels on the edge between two places. -/
def addEdgesAt (g : Multigraph V E) (i j : Nat) (labels : List E) : Multigraph V E :=
  let nodes := g.nodes.modify i fun n => { n with successors := addLabels j labels n.successors }
  { g with
    nodes := nodes.modify j fun n => { n with predecessors := addPlace i n.predecessors }
    labelCount := g.labelCount + labels.length }

/-- Adds labels to the edge between two vertices; with no labels it only adds the edge. -/
def addEdges (g : Multigraph V E) (source target : V) (labels : List E) : Outcome V E :=
  match g.place? source with
  | none => ⟨g, some .unknownSource⟩
  | some i =>
    match g.place? target with
    | none => ⟨g, some .unknownTarget⟩
    | some j => ⟨g.addEdgesAt i j labels, none⟩

def addEdge (g : Multigraph V E) (source target : V) (label : E) : Outcome V E :=
  g.addEdges source target [label]

def labels (g : Multigraph V E) (source target : V) : List E :=
  match g.place? source, g.place? target with
  | some i, some j => g.labelsAt i j
  | _, _ => []

/-- The vertices that `v` has an edge to. -/
def targets (g : Multigraph V E) (v : V) : List V :=
  match g.place? v with
  | some i => (g.successors i).filterMap g.vertex?
  | none => []

/-- The vertices that `v` has an edge from. -/
def sources (g : Multigraph V E) (v : V) : List V :=
  match g.place? v with
  | some i => (g.predecessors i).filterMap g.vertex?
  | none => []

end Multigraph

end WritePlan

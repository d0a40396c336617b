import WritePlan.Proofs.Arrangement

namespace WritePlan

/-- A call that adds to a graph. -/
inductive Addition (V E : Type)
  | vertex (v : V)
  | vertices (vs : List V)
  | edge (source target : V) (label : E)
  | edges (source target : V) (labels : List E)

/-- The edge leads from `u` to `v`. -/
def Edge.Joins {V E : Type} (e : Edge V E) (u v : V) : Prop :=
  e.source = u ∧ e.target = v

instance {V E : Type} [DecidableEq V] (e : Edge V E) (u v : V) : Decidable (e.Joins u v) :=
  inferInstanceAs (Decidable (_ ∧ _))

namespace Addition

variable {V E : Type}

/-- The vertices that the call adds if they are new. -/
def vertexList : Addition V E → List V
  | vertex v => [v]
  | vertices vs => vs
  | edge .. | edges .. => []

/-- The edge that the call is about, with the labels that it adds. -/
def edge? : Addition V E → Option (Edge V E)
  | vertex _ | vertices _ => none
  | edge source target label => some ⟨source, target, [label]⟩
  | edges source target labels => some ⟨source, target, labels⟩

/-- What is wrong with the call where only the vertices `known` are in the graph. -/
def fault? [DecidableEq V] (known : List V) (c : Addition V E) : Option EdgeError :=
  c.edge?.bind fun e =>
    if e.source ∉ known then some .unknownSource
    else if e.target ∉ known then some .unknownTarget
    else none

end Addition

namespace Multigraph

variable {V E : Type} [DecidableEq V]

def call (g : Multigraph V E) : Addition V E → Outcome V E
  | .vertex v => ⟨g.addVertex v, none⟩
  | .vertices vs => ⟨g.addVertices vs, none⟩
  | .edge source target label => g.addEdge source target label
  | .edges source target labels => g.addEdges source target labels

/-- The graph after calls in turn, be they successful or not. -/
def calls (g : Multigraph V E) (cs : List (Addition V E)) : Multigraph V E :=
  cs.foldl (fun g c => (g.call c).graph) g

/-- The edge of a call, if the call succeeds. -/
def callEdges (g : Multigraph V E) (c : Addition V E) : List (Edge V E) :=
  if (g.call c).fault? = none then c.edge?.toList else []

/-- The edges of the calls that succeed, in the order of the calls. -/
def joined (g : Multigraph V E) : List (Addition V E) → List (Edge V E)
  | [] => []
  | c :: cs => g.callEdges c ++ (g.call c).graph.joined cs

/-- The label lists of all edges, one behind the other, as the vertices keep them. -/
def keptLabels (g : Multigraph V E) : List E :=
  (List.range g.size).flatMap fun i => (g.outgoing i).flatMap (·.2)

section Neighbours

variable {g : Multigraph V E}

omit [DecidableEq V] in
/-- Ascending places are those of the vertices for which a test succeeds. -/
theorem filterMap_vertex?_eq_filter {places : List Nat} (hsorted : places.Pairwise (· < ·))
    (hin : ∀ j ∈ places, j < g.size) {p : V → Bool}
    (hp : ∀ j v, g.vertex? j = some v → (j ∈ places ↔ p v = true)) :
    places.filterMap g.vertex? = g.vertices.filter p := by
  have hplaces : (List.range g.size).filter (· ∈ places) = places := by
    have hrange : ((List.range g.size).filter (· ∈ places)).Pairwise (· < ·) :=
      List.Pairwise.filter _ List.pairwise_lt_range
    -- both lists ascend, so it is enough that they have the same members
    apply List.Perm.eq_of_pairwise (fun _ _ _ _ h h' => absurd h' (Nat.lt_asymm h)) hrange hsorted
    rw [List.perm_ext_iff_of_nodup (hrange.imp Nat.ne_of_lt) (hsorted.imp Nat.ne_of_lt)]
    intro j
    simp only [List.mem_filter, List.mem_range, decide_eq_true_eq, and_iff_right_iff_imp]
    exact hin j
  calc places.filterMap g.vertex?
      = ((List.range g.size).filter (· ∈ places)).filterMap g.vertex? := by rw [hplaces]
    _ = ((List.range g.size).filterMap g.vertex?).filter p := by
      rw [List.filterMap_filter, List.filter_filterMap]
      apply List.filterMap_congr
      intro j _
      cases hj : g.vertex? j with
      | none => simp
      | some v => simp [Option.filter, hp j v hj]
    _ = g.vertices.filter p := by rw [filterMap_vertex?_range]

theorem Indexed.targets_eq (hg : g.Indexed) (u : V) :
    g.targets u = g.vertices.filter fun v => g.HasEdge u v := by
  cases hu : g.place? u with
  | none =>
    have hnone (v : V) : ¬ g.HasEdge u v := by simp [HasEdge, targets, hu]
    simp [targets, hu, hnone]
  | some i =>
    simp only [targets, hu]
    apply filterMap_vertex?_eq_filter (hg.successors_sorted i) (hg.inside i)
    intro j v hj
    rw [decide_eq_true_iff, hg.hasEdge_iff_mem (hg.place?_eq_some.mp hu) hj]
    exact hg.mirrored i j

theorem Indexed.sources_eq (hg : g.Indexed) (v : V) :
    g.sources v = g.vertices.filter fun u => g.HasEdge u v := by
  cases hv : g.place? v with
  | none =>
    have hnone (u : V) : ¬ g.HasEdge u v := by
      intro huv
      obtain ⟨_, j, _, hj, _⟩ := hg.hasEdge_iff.mp huv
      rw [hg.place?_eq_some.mpr hj] at hv
      cases hv
    simp [sources, hv, hnone]
  | some j =>
    simp only [sources, hv]
    have hin : ∀ i ∈ g.predecessors j, i < g.size := fun i hi =>
      (hg.lt_size_of_mem_predecessors hi).1
    apply filterMap_vertex?_eq_filter (hg.predecessors_sorted j) hin
    intro i u hi
    rw [decide_eq_true_iff, hg.hasEdge_iff_mem hi (hg.place?_eq_some.mp hv)]

end Neighbours

section Calls

variable {g : Multigraph V E}

theorem vertex?_addVertex {i : Nat} (hi : i < g.size) (v : V) :
    (g.addVertex v).vertex? i = g.vertex? i := by
  rcases nodes_addVertex g v with h | h
  · simp [vertex?, h]
  · simp [vertex?, h, List.getElem?_append_left hi]

/-- A vertex that is added is joined to none. -/
theorem Indexed.hasEdge_addVertex (hg : g.Indexed) (v u w : V) :
    (g.addVertex v).HasEdge u w ↔ g.HasEdge u w := by
  rw [(hg.addVertex v).hasEdge_iff, hg.hasEdge_iff]
  refine exists_congr fun i => exists_congr fun j => ?_
  rw [predecessors_addVertex]
  constructor
  · rintro ⟨hu, hw, hij⟩
    obtain ⟨hi, hj⟩ := hg.lt_size_of_mem_predecessors hij
    rw [vertex?_addVertex hi] at hu
    rw [vertex?_addVertex hj] at hw
    exact ⟨hu, hw, hij⟩
  · rintro ⟨hu, hw, hij⟩
    obtain ⟨hi, hj⟩ := hg.lt_size_of_mem_predecessors hij
    rw [vertex?_addVertex hi, vertex?_addVertex hj]
    exact ⟨hu, hw, hij⟩

theorem keptLabels_addVertex (g : Multigraph V E) (v : V) :
    (g.addVertex v).keptLabels = g.keptLabels := by
  simp only [keptLabels, outgoing_addVertex]
  rcases nodes_addVertex g v with h | h
  · simp [size, h]
  · have hlast : g.outgoing g.nodes.length = [] := outgoing_of_size_le (Nat.le_refl _)
    simp [size, h, List.range_succ, hlast]

omit [DecidableEq V] in
theorem length_flatMap_addLabels (j : Nat) (labels : List E) (out : List (Nat × List E)) :
    ((addLabels j labels out).flatMap (·.2)).length =
      (out.flatMap (·.2)).length + labels.length := by
  induction out with
  | nil => simp [addLabels]
  | cons e out ih =>
    unfold addLabels
    split
    · simp only [List.flatMap_cons, List.length_append]
      omega
    · split
      · simp only [List.flatMap_cons, List.length_append]
        omega
      · simp only [List.flatMap_cons, List.length_append, ih]
        omega

theorem Indexed.length_keptLabels_addEdges {g' : Multigraph V E} {source target : V}
    {labels : List E} (hg : g.Indexed) (h : g.addEdges source target labels = ⟨g', none⟩) :
    g'.keptLabels.length = g.keptLabels.length + labels.length := by
  obtain ⟨i, j, hi, hj, rfl⟩ := addEdges_eq_added.mp h
  have hlt := hg.lt_size_of_place? hi
  rw [keptLabels, size_addEdgesAt]
  apply length_flatMap_add List.nodup_range (List.mem_range.mpr hlt)
  · intro k _ hk
    rw [outgoing_addEdgesAt hlt, if_neg hk]
  · rw [outgoing_addEdgesAt hlt, if_pos rfl, length_flatMap_addLabels]

/-- The graph is what has come of adding the vertices `vs` and the edges `es`. -/
structure Holds (g : Multigraph V E) (vs : List V) (es : List (Edge V E)) : Prop where
  built : g.Built
  vertices : g.vertices = vs.eraseDups
  labels : ∀ u v, g.labels u v = (es.filter fun e => e.Joins u v).flatMap (·.labels)
  hasEdge : ∀ u v, g.HasEdge u v ↔ ∃ e ∈ es, e.Joins u v
  kept : g.labelCount = g.keptLabels.length
  labelCount : g.labelCount = (es.flatMap (·.labels)).length

namespace Holds

theorem empty : (Multigraph.empty : Multigraph V E).Holds [] [] where
  built := .empty
  vertices := rfl
  labels _ _ := rfl
  hasEdge _ _ := by simp [HasEdge, targets, place?, Multigraph.empty]
  kept := rfl
  labelCount := rfl

variable {vs : List V} {es : List (Edge V E)}

theorem addVertex (h : g.Holds vs es) (v : V) : (g.addVertex v).Holds (vs ++ [v]) es where
  built := h.built.addVertex v
  vertices := by
    rw [h.built.indexed.vertices_addVertex, h.vertices, List.eraseDups_append]
    by_cases hv : v ∈ vs
    · simp [List.removeAll, hv, List.mem_eraseDups]
    · simp [List.removeAll, hv, List.mem_eraseDups, List.eraseDups_cons]
  labels u w := by rw [h.built.indexed.labels_addVertex, h.labels]
  hasEdge u w := by rw [h.built.indexed.hasEdge_addVertex, h.hasEdge]
  kept := by rw [keptLabels_addVertex, ← h.kept, labelCount_addVertex]
  labelCount := by rw [← h.labelCount, labelCount_addVertex]

theorem addVertices (h : g.Holds vs es) (us : List V) : (g.addVertices us).Holds (vs ++ us) es := by
  unfold Multigraph.addVertices
  induction us generalizing g vs with
  | nil => simpa using h
  | cons u us ih => simpa using ih (h.addVertex u)

theorem addEdges {g' : Multigraph V E} {e : Edge V E} (h : g.Holds vs es)
    (ha : g.addEdges e.source e.target e.labels = ⟨g', none⟩) : g'.Holds vs (es ++ [e]) where
  built := h.built.of_addEdges ha
  vertices := by rw [vertices_addEdges ha, h.vertices]
  labels u v := by
    rw [h.built.indexed.labels_addEdges ha, h.labels, List.filter_append, List.flatMap_append]
    by_cases hj : e.Joins u v
    · rw [if_pos ⟨hj.1.symm, hj.2.symm⟩]
      simp [hj]
    · rw [if_neg fun hj' => hj ⟨hj'.1.symm, hj'.2.symm⟩]
      simp [hj]
  hasEdge u v := by
    rw [h.built.indexed.hasEdge_addEdges ha, h.hasEdge]
    simp [Edge.Joins, or_and_right, exists_or, eq_comm]
  kept := by rw [h.built.indexed.length_keptLabels_addEdges ha, ← h.kept, labelCount_addEdges ha]
  labelCount := by
    rw [labelCount_addEdges ha, h.labelCount, List.flatMap_append, List.length_append,
      List.flatMap_singleton]

end Holds

theorem addEdges_of_fault {source target : V} {labels : List E}
    (h : (g.addEdges source target labels).fault? ≠ none) :
    (g.addEdges source target labels).graph = g := by
  rcases g.addEdges_cases source target labels with ⟨e, ha⟩ | ⟨g', ha⟩
  · rw [ha]
  · rw [ha] at h
    exact absurd rfl h

/-- A call that fails leaves the graph as it was. -/
theorem call_of_fault {c : Addition V E} (h : (g.call c).fault? ≠ none) :
    (g.call c).graph = g := by
  cases c with
  | vertex v => exact absurd rfl h
  | vertices vs => exact absurd rfl h
  | edge source target label => exact addEdges_of_fault h
  | edges source target labels => exact addEdges_of_fault h

/-- A call fails if an end of its edge is not in the graph; the source is looked for first. -/
theorem Indexed.fault?_call (hg : g.Indexed) (c : Addition V E) :
    (g.call c).fault? = c.fault? g.vertices := by
  have hedges (source target : V) (labels : List E) :
      (g.addEdges source target labels).fault? =
        (Addition.edges source target labels).fault? g.vertices := by
    simp only [Addition.fault?, Addition.edge?, Option.bind_some, ← hg.place?_eq_none,
      Multigraph.addEdges]
    cases g.place? source with
    | none => rfl
    | some i => cases g.place? target <;> rfl
  cases c with
  | vertex v => rfl
  | vertices vs => rfl
  | edge source target label => exact hedges source target [label]
  | edges source target labels => exact hedges source target labels

namespace Holds

variable {vs : List V} {es : List (Edge V E)}

theorem call_edges (h : g.Holds vs es) (source target : V) (labels : List E) :
    (g.call (.edges source target labels)).graph.Holds vs
      (es ++ g.callEdges (.edges source target labels)) := by
  unfold callEdges call
  rcases g.addEdges_cases source target labels with ⟨e, ha⟩ | ⟨g', ha⟩
  · simp only [ha, reduceCtorEq, if_false, List.append_nil]
    exact h
  · simp only [ha, if_true, Addition.edge?, Option.toList_some]
    exact h.addEdges ha

/-- What one call does to the vertices and the edges that have been added. -/
theorem call (h : g.Holds vs es) (c : Addition V E) :
    (g.call c).graph.Holds (vs ++ c.vertexList) (es ++ g.callEdges c) := by
  cases c with
  | vertex v =>
    rw [show g.callEdges (.vertex v) = [] from rfl, List.append_nil]
    exact h.addVertex v
  | vertices us =>
    rw [show g.callEdges (.vertices us) = [] from rfl, List.append_nil]
    exact h.addVertices us
  | edge source target label =>
    rw [Addition.vertexList, List.append_nil]
    exact h.call_edges source target [label]
  | edges source target labels =>
    rw [Addition.vertexList, List.append_nil]
    exact h.call_edges source target labels

theorem calls (h : g.Holds vs es) (cs : List (Addition V E)) :
    (g.calls cs).Holds (vs ++ cs.flatMap (·.vertexList)) (es ++ g.joined cs) := by
  induction cs generalizing g vs es with
  | nil => simpa [Multigraph.calls, joined] using h
  | cons c cs ih => simpa [Multigraph.calls, joined] using ih (h.call c)

end Holds

end Calls

/-- After any calls, failed ones among them, the graph holds what successful calls have added, and
its index, both sides of its edges and its count agree with that. A failed call changes nothing. -/
theorem graph_holds_what_was_added (cs : List (Addition V E)) :
    let g := (Multigraph.empty : Multigraph V E).calls cs
    let es := (Multigraph.empty : Multigraph V E).joined cs
    g.vertices = (cs.flatMap (·.vertexList)).eraseDups ∧ g.vertices.Nodup ∧
    (∀ v i, g.place? v = some i ↔ g.vertices[i]? = some v) ∧
    (∀ i j, j ∈ g.successors i ↔ i ∈ g.predecessors j) ∧
    (∀ i j, j ∈ g.successors i → i < g.size ∧ j < g.size) ∧
    g.labelCount = g.keptLabels.length ∧ g.labelCount = (es.flatMap (·.labels)).length ∧
    (∀ u v, g.labels u v = (es.filter fun e => e.Joins u v).flatMap (·.labels)) ∧
    (∀ u, g.targets u = g.vertices.filter fun v => ∃ e ∈ es, e.Joins u v) ∧
    (∀ v, g.sources v = g.vertices.filter fun u => ∃ e ∈ es, e.Joins u v) ∧
    ∀ c, (g.call c).fault? = c.fault? g.vertices ∧
      ((g.call c).fault? ≠ none → (g.call c).graph = g) := by
  intro g es
  have h : g.Holds (cs.flatMap (·.vertexList)) es := by
    simpa using (Holds.empty : (Multigraph.empty : Multigraph V E).Holds [] []).calls cs
  have hg := h.built.indexed
  refine ⟨h.vertices, hg.unique, ?_, hg.mirrored, ?_, h.kept, h.labelCount, h.labels, ?_, ?_, ?_⟩
  · intro v i
    rw [hg.place?_eq_some, vertex?_eq]
  · intro i j hj
    exact ⟨lt_size_of_mem_successors hj, hg.inside i j hj⟩
  · intro u
    simp only [hg.targets_eq, h.hasEdge]
  · intro v
    simp only [hg.sources_eq, h.hasEdge]
  · intro c
    exact ⟨hg.fault?_call c, call_of_fault⟩

/-- A vertex that comes twice, an end that is missing, an edge without labels and a loop. -/
example :
    let cs := [.vertex 1, .vertices [2, 1], .edge 1 3 'a', .edges 2 1 [], .edges 1 2 ['b', 'c'],
      .edge 1 1 'd', .edge 1 2 'b']
    let g := (Multigraph.empty : Multigraph Nat Char).calls cs
    g.vertices = [1, 2] ∧ g.targets 1 = [1, 2] ∧ g.targets 2 = [1] ∧ g.sources 1 = [1, 2] ∧
      g.labels 1 2 = ['b', 'c', 'b'] ∧ g.labels 2 1 = [] ∧ g.labelCount = 4 ∧
      (g.call (.edge 3 1 'a')).fault? = some .unknownSource := by
  decide

end Multigraph

end WritePlan

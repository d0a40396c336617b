import Mathlib.Data.List.Nodup
import WritePlan.Graph.Basic

namespace WritePlan

variable {V E : Type}

theorem getElem?_concat_eq_some {α : Type} {l : List α} {a b : α} {k : Nat} :
    (l ++ [a])[k]? = some b ↔ l[k]? = some b ∨ k = l.length ∧ b = a := by
  rw [List.getElem?_append]
  split
  · rename_i hlt
    constructor
    · exact .inl
    · intro h
      exact h.resolve_right fun h => absurd h.1 (Nat.ne_of_lt hlt)
  · rename_i hle
    have hnone : l[k]? = none := List.getElem?_eq_none (Nat.le_of_not_lt hle)
    rw [hnone, List.getElem?_singleton]
    constructor
    · intro h
      split at h
      · exact .inr ⟨by omega, (Option.some.inj h).symm⟩
      · cases h
    · intro h
      obtain ⟨rfl, rfl⟩ := h.resolve_left nofun
      simp

theorem mem_addPlace {p q : Nat} {ps : List Nat} : q ∈ addPlace p ps ↔ q = p ∨ q ∈ ps := by
  induction ps with
  | nil => simp [addPlace]
  | cons r ps ih =>
    unfold addPlace
    split
    · exact List.mem_cons
    · split
      · rename_i he
        subst he
        simp
      · simp only [List.mem_cons, ih]
        exact or_left_comm

theorem pairwise_addPlace {p : Nat} {ps : List Nat} (h : ps.Pairwise (· < ·)) :
    (addPlace p ps).Pairwise (· < ·) := by
  induction ps with
  | nil => simp [addPlace]
  | cons r ps ih =>
    obtain ⟨hr, hps⟩ := List.pairwise_cons.mp h
    unfold addPlace
    split
    · rename_i hlt
      refine List.pairwise_cons.mpr ⟨?_, h⟩
      intro q hq
      rcases List.mem_cons.mp hq with rfl | hq
      · exact hlt
      · exact Nat.lt_trans hlt (hr q hq)
    · split
      · exact h
      · refine List.pairwise_cons.mpr ⟨?_, ih hps⟩
        intro q hq
        rcases mem_addPlace.mp hq with rfl | hq
        · omega
        · exact hr q hq

theorem map_fst_addLabels (j : Nat) (labels : List E) (out : List (Nat × List E)) :
    (addLabels j labels out).map (·.1) = addPlace j (out.map (·.1)) := by
  induction out with
  | nil => rfl
  | cons e out ih =>
    obtain ⟨k, ls⟩ := e
    simp only [addLabels, List.map_cons, addPlace]
    split
    · rfl
    · split
      · rfl
      · simp only [List.map_cons, ih]

theorem lookup_eq_none {j : Nat} {out : List (Nat × List E)} (h : j ∉ out.map (·.1)) :
    out.lookup j = none := by
  rw [List.lookup_eq_none_iff]
  intro e he
  have : j ≠ e.1 := fun hj => h (List.mem_map.mpr ⟨e, he, hj.symm⟩)
  simpa using this

theorem lookup_cons_eq_ite {α β : Type} [DecidableEq α] (a : α) (b : β) (l : List (α × β))
    (c : α) : ((a, b) :: l).lookup c = if c = a then some b else l.lookup c := by
  rw [List.lookup_cons]
  by_cases h : c = a
  · simp [h]
  · have hca : (c == a) = false := by simpa using h
    simp [h, hca]

theorem lookup_addLabels {j k : Nat} {labels : List E} {out : List (Nat × List E)}
    (h : (out.map (·.1)).Pairwise (· < ·)) :
    (addLabels j labels out).lookup k =
      if k = j then some ((out.lookup j).getD [] ++ labels) else out.lookup k := by
  induction out with
  | nil =>
    rw [addLabels, lookup_cons_eq_ite]
    rfl
  | cons e out ih =>
    obtain ⟨i, ls⟩ := e
    obtain ⟨hi, hout⟩ := List.pairwise_cons.mp h
    simp only [addLabels]
    split
    · rename_i hlt
      have hnone : ((i, ls) :: out).lookup j = none := by
        apply lookup_eq_none
        intro hm
        rcases List.mem_cons.mp hm with he | hm
        · exact Nat.ne_of_lt hlt he
        · exact Nat.lt_asymm hlt (hi j hm)
      rw [hnone, lookup_cons_eq_ite]
      rfl
    · split
      · rename_i he
        subst he
        simp only [lookup_cons_eq_ite, ↓reduceIte, Option.getD_some]
        split <;> rfl
      · rename_i hne
        simp only [lookup_cons_eq_ite, ih hout, hne, ↓reduceIte]
        by_cases hk : k = i
        · subst hk
          simp [Ne.symm hne]
        · simp only [hk, ↓reduceIte]

namespace Multigraph

theorem vertex?_eq (g : Multigraph V E) (i : Nat) : g.vertex? i = g.vertices[i]? := by
  simp [vertex?, vertices]

theorem length_vertices (g : Multigraph V E) : g.vertices.length = g.size := by
  simp [vertices, size]

theorem filterMap_getElem?_range (l : List α) :
    (List.range l.length).filterMap (fun i => l[i]?) = l := by
  induction l with
  | nil => rfl
  | cons a l ih =>
    rw [List.length_cons, List.range_succ_eq_map]
    simpa [List.filterMap_cons, List.filterMap_map, Function.comp_def] using ih

/-- Lists that are put together for the elements of a list: `k` more elements in one of them. -/
theorem length_flatMap_add {α β : Type} {l : List α} (hl : l.Nodup) {f f' : α → List β} {a : α}
    (ha : a ∈ l) {k : Nat} (hother : ∀ x ∈ l, x ≠ a → (f' x).length = (f x).length)
    (hk : (f' a).length = (f a).length + k) :
    (l.flatMap f').length = (l.flatMap f).length + k := by
  induction l with
  | nil => exact absurd ha List.not_mem_nil
  | cons x l ih =>
    obtain ⟨hx, hl⟩ := List.nodup_cons.mp hl
    obtain ⟨hfirst, hrest⟩ := List.forall_mem_cons.mp hother
    simp only [List.flatMap_cons, List.length_append]
    rcases List.mem_cons.mp ha with rfl | ha
    · have : (l.flatMap f').length = (l.flatMap f).length := by
        simp only [List.length_flatMap]
        exact congrArg List.sum (List.map_congr_left fun y hy =>
          hrest y hy (ne_of_mem_of_not_mem hy hx))
      omega
    · have := hfirst (ne_of_mem_of_not_mem ha hx).symm
      have := ih hl ha hrest
      omega

theorem filterMap_vertex?_range (g : Multigraph V E) :
    (List.range g.size).filterMap g.vertex? = g.vertices := by
  have h : g.vertex? = fun i => g.vertices[i]? := funext (vertex?_eq g)
  rw [h, ← length_vertices]
  exact filterMap_getElem?_range g.vertices

theorem vertex?_isSome {g : Multigraph V E} {i : Nat} : (g.vertex? i).isSome ↔ i < g.size := by
  rw [vertex?_eq, isSome_getElem?, length_vertices]

theorem outgoing_of_size_le {g : Multigraph V E} {i : Nat} (h : g.size ≤ i) :
    g.outgoing i = [] := by
  have : g.nodes[i]? = none := List.getElem?_eq_none h
  simp [outgoing, this]

theorem predecessors_of_size_le {g : Multigraph V E} {i : Nat} (h : g.size ≤ i) :
    g.predecessors i = [] := by
  have : g.nodes[i]? = none := List.getElem?_eq_none h
  simp [predecessors, this]

theorem lt_size_of_mem_successors {g : Multigraph V E} {i j : Nat} (h : j ∈ g.successors i) :
    i < g.size := by
  apply Nat.lt_of_not_le
  intro hle
  simp [successors, outgoing_of_size_le hle] at h

/-- What all additions keep. -/
structure WellFormed (g : Multigraph V E) : Prop where
  unique : g.vertices.Nodup
  successors_sorted : ∀ i, (g.successors i).Pairwise (· < ·)
  predecessors_sorted : ∀ j, (g.predecessors j).Pairwise (· < ·)
  mirrored : ∀ i j, j ∈ g.successors i ↔ i ∈ g.predecessors j
  inside : ∀ i j, j ∈ g.successors i → j < g.size

namespace WellFormed

variable {g : Multigraph V E}

theorem successors_nodup (h : g.WellFormed) (i : Nat) : (g.successors i).Nodup :=
  (h.successors_sorted i).imp Nat.ne_of_lt

theorem predecessors_nodup (h : g.WellFormed) (j : Nat) : (g.predecessors j).Nodup :=
  (h.predecessors_sorted j).imp Nat.ne_of_lt

theorem lt_size_of_mem_predecessors (h : g.WellFormed) {i j : Nat} (hi : i ∈ g.predecessors j) :
    i < g.size ∧ j < g.size :=
  have hj := (h.mirrored i j).mpr hi
  ⟨lt_size_of_mem_successors hj, h.inside i j hj⟩

theorem empty : (Multigraph.empty : Multigraph V E).WellFormed := by
  constructor <;> simp [Multigraph.empty, vertices, successors, outgoing, predecessors]

theorem vertex?_inj (h : g.WellFormed) {v : V} {i j : Nat} (hi : g.vertex? i = some v)
    (hj : g.vertex? j = some v) : i = j := by
  rw [vertex?_eq] at hi hj
  have hlt : i < g.vertices.length := (List.getElem?_eq_some_iff.mp hi).1
  exact (List.getElem?_inj hlt h.unique).mp (hi.trans hj.symm)

end WellFormed

theorem vertices_addEdgesAt (g : Multigraph V E) (i j : Nat) (labels : List E) :
    (g.addEdgesAt i j labels).vertices = g.vertices := by
  apply List.ext_getElem?
  intro k
  simp only [vertices, addEdgesAt, List.getElem?_map, List.getElem?_modify]
  cases g.nodes[k]? with
  | none => rfl
  | some n => simp only [Option.map_some]; split <;> split <;> rfl

theorem size_addEdgesAt (g : Multigraph V E) (i j : Nat) (labels : List E) :
    (g.addEdgesAt i j labels).size = g.size := by
  simp [size, addEdgesAt]

theorem outgoing_addEdgesAt {g : Multigraph V E} {i : Nat} (hi : i < g.size) (j : Nat)
    (labels : List E) (k : Nat) :
    (g.addEdgesAt i j labels).outgoing k =
      if k = i then addLabels j labels (g.outgoing i) else g.outgoing k := by
  simp only [outgoing, addEdgesAt, List.getElem?_modify]
  by_cases hk : k = i
  · subst hk
    rw [List.getElem?_eq_getElem hi]
    by_cases hj : j = k <;> simp [hj]
  · cases g.nodes[k]? with
    | none => simp [hk]
    | some n => by_cases hj : j = k <;> simp [hj, hk, Ne.symm hk]

theorem predecessors_addEdgesAt {g : Multigraph V E} (i : Nat) {j : Nat} (hj : j < g.size)
    (labels : List E) (k : Nat) :
    (g.addEdgesAt i j labels).predecessors k =
      if k = j then addPlace i (g.predecessors j) else g.predecessors k := by
  simp only [predecessors, addEdgesAt, List.getElem?_modify]
  by_cases hk : k = j
  · subst hk
    rw [List.getElem?_eq_getElem hj]
    by_cases hi : i = k <;> simp [hi]
  · cases g.nodes[k]? with
    | none => simp [hk]
    | some n => by_cases hi : i = k <;> simp [hi, hk, Ne.symm hk]

theorem successors_addEdgesAt {g : Multigraph V E} {i : Nat} (hi : i < g.size) (j : Nat)
    (labels : List E) (k : Nat) :
    (g.addEdgesAt i j labels).successors k =
      if k = i then addPlace j (g.successors i) else g.successors k := by
  unfold successors
  rw [outgoing_addEdgesAt hi]
  split
  · exact map_fst_addLabels j labels _
  · rfl

theorem mem_predecessors_addEdgesAt {g : Multigraph V E} {i j : Nat} (hj : j < g.size)
    {labels : List E} {a b : Nat} :
    a ∈ (g.addEdgesAt i j labels).predecessors b ↔ a ∈ g.predecessors b ∨ a = i ∧ b = j := by
  rw [predecessors_addEdgesAt i hj]
  split
  · rename_i hb
    subst hb
    rw [mem_addPlace]
    simp [or_comm]
  · rename_i hb
    simp [hb]

theorem WellFormed.addEdgesAt {g : Multigraph V E} (h : g.WellFormed) {i j : Nat}
    (hi : i < g.size) (hj : j < g.size) (labels : List E) :
    (g.addEdgesAt i j labels).WellFormed where
  unique := by
    rw [vertices_addEdgesAt]
    exact h.unique
  successors_sorted k := by
    rw [successors_addEdgesAt hi]
    split
    · exact pairwise_addPlace (h.successors_sorted i)
    · exact h.successors_sorted k
  predecessors_sorted k := by
    rw [predecessors_addEdgesAt i hj]
    split
    · exact pairwise_addPlace (h.predecessors_sorted j)
    · exact h.predecessors_sorted k
  mirrored a b := by
    rw [mem_predecessors_addEdgesAt hj, ← h.mirrored, successors_addEdgesAt hi]
    split
    · rename_i ha
      subst ha
      rw [mem_addPlace]
      simp [or_comm]
    · rename_i ha
      simp [ha]
  inside a b hb := by
    rw [size_addEdgesAt]
    rw [successors_addEdgesAt hi] at hb
    split at hb
    · rcases mem_addPlace.mp hb with rfl | hb
      · exact hj
      · exact h.inside i b hb
    · exact h.inside a b hb

variable [DecidableEq V]

/-- The index finds each vertex at the place where it stands, and nothing else. -/
structure Indexed (g : Multigraph V E) : Prop extends g.WellFormed where
  indexed : ∀ v i, g.place? v = some i ↔ g.vertex? i = some v

namespace Indexed

variable {g : Multigraph V E}

theorem place?_eq_some (h : g.Indexed) {v : V} {i : Nat} :
    g.place? v = some i ↔ g.vertex? i = some v :=
  h.indexed v i

theorem place?_eq_none (h : g.Indexed) {v : V} : g.place? v = none ↔ v ∉ g.vertices := by
  rw [Option.eq_none_iff_forall_ne_some, List.mem_iff_getElem?, not_exists]
  simp only [ne_eq, h.place?_eq_some, vertex?_eq]

theorem contains_iff (h : g.Indexed) {v : V} : g.contains v = true ↔ v ∈ g.vertices := by
  rw [contains, Option.isSome_iff_ne_none, ne_eq, h.place?_eq_none, not_not]

theorem lt_size_of_place? (h : g.Indexed) {v : V} {i : Nat} (hi : g.place? v = some i) :
    i < g.size := by
  rw [← vertex?_isSome, h.place?_eq_some.mp hi]
  rfl

end Indexed

/-- The graphs that come of adding vertices and edges, be the additions successful or not. -/
inductive Built : Multigraph V E → Prop
  | empty : Built empty
  | addVertex {g : Multigraph V E} (v : V) : Built g → Built (g.addVertex v)
  | addEdges {g : Multigraph V E} (source target : V) (labels : List E) :
    Built g → Built (g.addEdges source target labels).graph

/-- An edge leads from `u` to `v`, with labels or without. -/
def HasEdge (g : Multigraph V E) (u v : V) : Prop :=
  v ∈ g.targets u

instance (g : Multigraph V E) (u v : V) : Decidable (g.HasEdge u v) :=
  inferInstanceAs (Decidable (v ∈ g.targets u))

theorem Indexed.hasEdge_iff {g : Multigraph V E} (h : g.Indexed) {u v : V} :
    g.HasEdge u v ↔
      ∃ i j, g.vertex? i = some u ∧ g.vertex? j = some v ∧ i ∈ g.predecessors j := by
  simp only [← h.mirrored, ← h.place?_eq_some]
  cases hu : g.place? u with
  | none => simp [HasEdge, targets, hu]
  | some i => simp [HasEdge, targets, hu, h.place?_eq_some, and_comm]

/-- An edge between vertices, by their places. -/
theorem Indexed.hasEdge_iff_mem {g : Multigraph V E} (h : g.Indexed) {u v : V} {i j : Nat}
    (hu : g.vertex? i = some u) (hv : g.vertex? j = some v) :
    g.HasEdge u v ↔ i ∈ g.predecessors j := by
  rw [h.hasEdge_iff]
  constructor
  · rintro ⟨i', j', hu', hv', hij⟩
    rwa [h.vertex?_inj hu hu', h.vertex?_inj hv hv']
  · intro hij
    exact ⟨i, j, hu, hv, hij⟩

theorem nodes_addVertex (g : Multigraph V E) (v : V) :
    (g.addVertex v).nodes = g.nodes ∨ (g.addVertex v).nodes = g.nodes ++ [⟨v, [], []⟩] := by
  unfold addVertex
  split
  · exact .inl rfl
  · exact .inr rfl

theorem labelCount_addVertex (g : Multigraph V E) (v : V) :
    (g.addVertex v).labelCount = g.labelCount := by
  unfold addVertex
  split <;> rfl

theorem Indexed.addVertex_of_mem {g : Multigraph V E} (h : g.Indexed) {v : V}
    (hv : v ∈ g.vertices) : g.addVertex v = g :=
  if_pos (h.contains_iff.mpr hv)

theorem Indexed.vertices_addVertex {g : Multigraph V E} (h : g.Indexed) (v : V) :
    (g.addVertex v).vertices = if v ∈ g.vertices then g.vertices else g.vertices ++ [v] := by
  split
  · rename_i hv
    rw [h.addVertex_of_mem hv]
  · rename_i hv
    rw [addVertex, if_neg (mt h.contains_iff.mp hv), vertices, List.map_append]
    rfl

/-- A new vertex is recorded at the place behind all others. -/
theorem Indexed.place?_addVertex {g : Multigraph V E} (h : g.Indexed) {v : V}
    (hv : v ∉ g.vertices) (u : V) :
    (g.addVertex v).place? u = if u = v then some g.size else g.place? u := by
  rw [addVertex, if_neg (mt h.contains_iff.mp hv), place?, lookup_cons_eq_ite, place?]

/-- A new vertex has no neighbours, and the others keep theirs. -/
theorem outgoing_addVertex (g : Multigraph V E) (v : V) (i : Nat) :
    (g.addVertex v).outgoing i = g.outgoing i := by
  rcases nodes_addVertex g v with h | h
  · simp [outgoing, h]
  · simp only [outgoing, h, List.getElem?_append, List.getElem?_singleton]
    split
    · rfl
    · rename_i hi
      rw [List.getElem?_eq_none (Nat.le_of_not_lt hi)]
      split <;> rfl

theorem predecessors_addVertex (g : Multigraph V E) (v : V) (i : Nat) :
    (g.addVertex v).predecessors i = g.predecessors i := by
  rcases nodes_addVertex g v with h | h
  · simp [predecessors, h]
  · simp only [predecessors, h, List.getElem?_append, List.getElem?_singleton]
    split
    · rfl
    · rename_i hi
      rw [List.getElem?_eq_none (Nat.le_of_not_lt hi)]
      split <;> rfl

theorem successors_addVertex (g : Multigraph V E) (v : V) (i : Nat) :
    (g.addVertex v).successors i = g.successors i := by
  simp only [successors, outgoing_addVertex]

theorem size_le_addVertex (g : Multigraph V E) (v : V) : g.size ≤ (g.addVertex v).size := by
  rcases nodes_addVertex g v with h | h <;> simp [size, h]

theorem Indexed.addVertex {g : Multigraph V E} (h : g.Indexed) (v : V) :
    (g.addVertex v).Indexed where
  unique := by
    rw [h.vertices_addVertex]
    split
    · exact h.unique
    · rename_i hv
      refine List.nodup_append.mpr ⟨h.unique, List.nodup_singleton v, ?_⟩
      intro u hu w hw he
      rw [List.mem_singleton.mp hw] at he
      exact hv (he ▸ hu)
  successors_sorted i := by
    rw [successors_addVertex]
    exact h.successors_sorted i
  predecessors_sorted j := by
    rw [predecessors_addVertex]
    exact h.predecessors_sorted j
  mirrored i j := by
    rw [successors_addVertex, predecessors_addVertex]
    exact h.mirrored i j
  inside i j hj := by
    rw [successors_addVertex] at hj
    exact Nat.lt_of_lt_of_le (h.inside i j hj) (size_le_addVertex g v)
  indexed u i := by
    by_cases hv : v ∈ g.vertices
    · rw [h.addVertex_of_mem hv, h.indexed]
    · rw [h.place?_addVertex hv, vertex?_eq, h.vertices_addVertex, if_neg hv,
        getElem?_concat_eq_some, length_vertices]
      split
      · rename_i hu
        subst hu
        -- the new vertex stands at no earlier place
        have hnone : g.vertices[i]? ≠ some u := fun hi => hv (List.mem_of_getElem? hi)
        simp [hnone, eq_comm]
      · rename_i hu
        simp [hu, h.place?_eq_some, vertex?_eq]

/-- A call fails and leaves the graph as it is, or the ends of its edge are found. -/
theorem addEdges_cases (g : Multigraph V E) (source target : V) (labels : List E) :
    (∃ e, g.addEdges source target labels = ⟨g, some e⟩) ∨
      ∃ g', g.addEdges source target labels = ⟨g', none⟩ := by
  unfold addEdges
  split
  · exact .inl ⟨_, rfl⟩
  · split
    · exact .inl ⟨_, rfl⟩
    · exact .inr ⟨_, rfl⟩

theorem addEdges_eq_added {g g' : Multigraph V E} {source target : V} {labels : List E} :
    g.addEdges source target labels = ⟨g', none⟩ ↔
      ∃ i j, g.place? source = some i ∧ g.place? target = some j ∧
        g' = g.addEdgesAt i j labels := by
  unfold addEdges
  cases hs : g.place? source with
  | none => simp
  | some i =>
    cases ht : g.place? target with
    | none => simp
    | some j => simp [eq_comm]

theorem Indexed.addEdges {g g' : Multigraph V E} (h : g.Indexed) {source target : V}
    {labels : List E} (ha : g.addEdges source target labels = ⟨g', none⟩) : g'.Indexed := by
  obtain ⟨i, j, hi, hj, rfl⟩ := addEdges_eq_added.mp ha
  refine ⟨h.addEdgesAt (h.lt_size_of_place? hi) (h.lt_size_of_place? hj) labels, fun v k => ?_⟩
  rw [vertex?_eq, vertices_addEdgesAt, ← vertex?_eq]
  exact h.indexed v k

theorem Indexed.empty : (Multigraph.empty : Multigraph V E).Indexed :=
  ⟨.empty, fun v i => by simp [place?, vertex?, Multigraph.empty]⟩

theorem Built.indexed {g : Multigraph V E} (h : g.Built) : g.Indexed := by
  induction h with
  | empty => exact .empty
  | addVertex v _ ih => exact ih.addVertex v
  | @addEdges g source target labels _ ih =>
    rcases g.addEdges_cases source target labels with ⟨e, ha⟩ | ⟨g', ha⟩
    · rwa [ha]
    · rw [ha]
      exact ih.addEdges ha

theorem Built.wellFormed {g : Multigraph V E} (h : g.Built) : g.WellFormed :=
  h.indexed.toWellFormed

theorem Built.of_addEdges {g g' : Multigraph V E} (h : g.Built) {source target : V}
    {labels : List E} (ha : g.addEdges source target labels = ⟨g', none⟩) : g'.Built := by
  have := h.addEdges source target labels
  rwa [ha] at this

theorem vertices_addEdges {g g' : Multigraph V E} {source target : V} {labels : List E}
    (ha : g.addEdges source target labels = ⟨g', none⟩) : g'.vertices = g.vertices := by
  obtain ⟨i, j, _, _, rfl⟩ := addEdges_eq_added.mp ha
  exact vertices_addEdgesAt g i j labels

theorem labelCount_addEdges {g g' : Multigraph V E} {source target : V} {labels : List E}
    (ha : g.addEdges source target labels = ⟨g', none⟩) :
    g'.labelCount = g.labelCount + labels.length := by
  obtain ⟨i, j, _, _, rfl⟩ := addEdges_eq_added.mp ha
  rfl

theorem place?_addEdges {g g' : Multigraph V E} {source target : V} {labels : List E}
    (ha : g.addEdges source target labels = ⟨g', none⟩) (v : V) : g'.place? v = g.place? v := by
  obtain ⟨i, j, _, _, rfl⟩ := addEdges_eq_added.mp ha
  rfl

/-- The labels that are added come behind those that the edge has, and no other edge changes. -/
theorem Indexed.labels_addEdges {g g' : Multigraph V E} (h : g.Indexed) {source target : V}
    {labels : List E} (ha : g.addEdges source target labels = ⟨g', none⟩) (u v : V) :
    g'.labels u v =
      if u = source ∧ v = target then g.labels u v ++ labels else g.labels u v := by
  have hplace := place?_addEdges ha
  obtain ⟨i, j, hi, hj, rfl⟩ := addEdges_eq_added.mp ha
  simp only [Multigraph.labels, hplace]
  cases hu : g.place? u with
  | none =>
    have : u ≠ source := fun he => by simp [he, hi] at hu
    simp [this]
  | some a =>
    cases hv : g.place? v with
    | none =>
      have : v ≠ target := fun he => by simp [he, hj] at hv
      simp [this]
    | some b =>
      -- the index is exact, so each end of the edge is known by its place
      have ha : u = source ↔ a = i := by
        constructor
        · rintro rfl
          exact Option.some.inj (hu.symm.trans hi)
        · rintro rfl
          exact Option.some.inj ((h.place?_eq_some.mp hu).symm.trans (h.place?_eq_some.mp hi))
      have hb : v = target ↔ b = j := by
        constructor
        · rintro rfl
          exact Option.some.inj (hv.symm.trans hj)
        · rintro rfl
          exact Option.some.inj ((h.place?_eq_some.mp hv).symm.trans (h.place?_eq_some.mp hj))
      simp only [ha, hb, labelsAt, outgoing_addEdgesAt (h.lt_size_of_place? hi)]
      by_cases hai : a = i
      · subst hai
        simp only [↓reduceIte, true_and, lookup_addLabels (h.successors_sorted a)]
        by_cases hbj : b = j <;> simp [hbj]
      · simp [hai]

theorem Indexed.hasEdge_addEdges {g g' : Multigraph V E} (h : g.Indexed)
    {source target : V} {labels : List E} (ha : g.addEdges source target labels = ⟨g', none⟩)
    (u v : V) : g'.HasEdge u v ↔ g.HasEdge u v ∨ u = source ∧ v = target := by
  rw [(h.addEdges ha).hasEdge_iff, h.hasEdge_iff]
  obtain ⟨i, j, hi, hj, rfl⟩ := addEdges_eq_added.mp ha
  simp only [vertex?_eq, vertices_addEdgesAt, mem_predecessors_addEdgesAt (h.lt_size_of_place? hj)]
  rw [h.place?_eq_some, vertex?_eq] at hi hj
  constructor
  · rintro ⟨a, b, hu, hv, hab | ⟨rfl, rfl⟩⟩
    · exact .inl ⟨a, b, hu, hv, hab⟩
    · exact .inr ⟨Option.some.inj (hu.symm.trans hi), Option.some.inj (hv.symm.trans hj)⟩
  · rintro (⟨a, b, hu, hv, hab⟩ | ⟨rfl, rfl⟩)
    · exact ⟨a, b, hu, hv, .inl hab⟩
    · exact ⟨i, j, hi, hj, .inr ⟨rfl, rfl⟩⟩

/-- The labels of all edges, pair by pair of vertices. -/
def allLabels (g : Multigraph V E) : List E :=
  g.vertices.flatMap fun u => g.vertices.flatMap fun v => g.labels u v

theorem Indexed.labels_of_not_mem {g : Multigraph V E} (h : g.Indexed) {u v : V}
    (huv : u ∉ g.vertices ∨ v ∉ g.vertices) : g.labels u v = [] := by
  unfold labels
  rcases huv with hu | hv
  · rw [h.place?_eq_none.mpr hu]
  · rw [h.place?_eq_none.mpr hv]
    split
    · rename_i hv'
      cases hv'
    · rfl

/-- A vertex that is added has no edges. -/
theorem Indexed.labels_addVertex {g : Multigraph V E} (h : g.Indexed) (v u w : V) :
    (g.addVertex v).labels u w = g.labels u w := by
  have hlabels (i j : Nat) : (g.addVertex v).labelsAt i j = g.labelsAt i j := by
    rw [labelsAt, outgoing_addVertex, labelsAt]
  have hfrom (j : Nat) : g.labelsAt g.size j = [] := by
    rw [labelsAt, outgoing_of_size_le (Nat.le_refl _)]
    rfl
  have hto (i : Nat) : g.labelsAt i g.size = [] := by
    rw [labelsAt, lookup_eq_none fun hmem => Nat.lt_irrefl _ (h.inside i _ hmem)]
    rfl
  by_cases hv : v ∈ g.vertices
  · rw [h.addVertex_of_mem hv]
  · by_cases hu : u = v
    · subst hu
      rw [h.labels_of_not_mem (.inl hv), labels, h.place?_addVertex hv, if_pos rfl]
      split
      · rename_i hi _
        cases hi
        rw [hlabels, hfrom]
      · rfl
    · by_cases hw : w = v
      · subst hw
        rw [h.labels_of_not_mem (.inr hv), labels, h.place?_addVertex hv w, if_pos rfl]
        split
        · rename_i _ hj
          cases hj
          rw [hlabels, hto]
        · rfl
      · simp only [labels, h.place?_addVertex hv, hu, hw, ↓reduceIte, hlabels]

theorem Indexed.length_allLabels_addVertex {g : Multigraph V E} (h : g.Indexed) (v : V) :
    (g.addVertex v).allLabels.length = g.allLabels.length := by
  have hlabels : (g.addVertex v).labels = g.labels :=
    funext fun u => funext fun w => h.labels_addVertex v u w
  rw [allLabels, allLabels, hlabels, h.vertices_addVertex]
  split
  · rfl
  · rename_i hv
    have hfrom (u : V) : g.labels v u = [] := h.labels_of_not_mem (.inl hv)
    have hto (u : V) : g.labels u v = [] := h.labels_of_not_mem (.inr hv)
    simp [List.flatMap_append, hfrom, hto]

theorem Indexed.length_allLabels_addEdges {g g' : Multigraph V E} (h : g.Indexed)
    {source target : V} {labels : List E} (ha : g.addEdges source target labels = ⟨g', none⟩) :
    g'.allLabels.length = g.allLabels.length + labels.length := by
  have hlabels := h.labels_addEdges ha
  obtain ⟨i, j, hi, hj, _⟩ := addEdges_eq_added.mp ha
  have hmem {v : V} {i : Nat} (hi : g.place? v = some i) : v ∈ g.vertices :=
    h.contains_iff.mp (by rw [contains, hi]; rfl)
  rw [allLabels, vertices_addEdges ha]
  refine length_flatMap_add h.unique (hmem hi) (fun u _ hu => ?_) ?_
  · simp [hlabels, hu]
  · refine length_flatMap_add h.unique (hmem hj) (fun v _ hv => ?_) ?_
    · simp [hlabels, hv]
    · simp [hlabels]

/-- The count of labels is that of the labels there are. -/
theorem Built.labelCount_eq {g : Multigraph V E} (h : g.Built) :
    g.labelCount = g.allLabels.length := by
  induction h with
  | empty => rfl
  | @addVertex g v hg ih =>
    rw [hg.indexed.length_allLabels_addVertex, ← ih, labelCount_addVertex]
  | @addEdges g source target labels hg ih =>
    rcases g.addEdges_cases source target labels with ⟨e, ha⟩ | ⟨g', ha⟩
    · rwa [ha]
    · rw [ha, hg.indexed.length_allLabels_addEdges ha, ← ih, labelCount_addEdges ha]

end Multigraph

end WritePlan

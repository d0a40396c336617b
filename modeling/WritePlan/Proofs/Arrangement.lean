import WritePlan.Planner
import WritePlan.Proofs.LevelOrder
import WritePlan.Proofs.OrderingRules

namespace WritePlan

namespace Multigraph

variable {V E : Type} [DecidableEq V] {g : Multigraph V E}

theorem Built.addVertices (hg : g.Built) (vs : List V) : (g.addVertices vs).Built := by
  unfold Multigraph.addVertices
  induction vs generalizing g with
  | nil => exact hg
  | cons v vs ih => exact ih (hg.addVertex v)

/-- New vertices stand behind the others. -/
theorem Indexed.vertices_addVertices (hg : g.Indexed) {vs : List V}
    (h : (g.vertices ++ vs).Nodup) :
    (g.addVertices vs).vertices = g.vertices ++ vs := by
  unfold addVertices
  induction vs generalizing g with
  | nil => simp
  | cons v vs ih =>
    have hv : v ∉ g.vertices := by
      intro hv
      exact (List.nodup_append.mp h).2.2 v hv v List.mem_cons_self rfl
    have hvertices : (g.addVertex v).vertices = g.vertices ++ [v] := by
      rw [hg.vertices_addVertex, if_neg hv]
    have h' : ((g.addVertex v).vertices ++ vs).Nodup := by
      rw [hvertices]
      simpa using h
    rw [List.foldl_cons, ih (hg.addVertex v) h', hvertices]
    simp

theorem outgoing_addVertices (g : Multigraph V E) (vs : List V) (i : Nat) :
    (g.addVertices vs).outgoing i = g.outgoing i := by
  unfold addVertices
  induction vs generalizing g with
  | nil => rfl
  | cons v vs ih => rw [List.foldl_cons, ih, outgoing_addVertex]

/-- Vertices alone have no edges. -/
theorem labels_addVertices_empty (vs : List V) (u v : V) :
    ((empty : Multigraph V E).addVertices vs).labels u v = [] ∧
      ¬ ((empty : Multigraph V E).addVertices vs).HasEdge u v := by
  have hnone (i : Nat) : ((empty : Multigraph V E).addVertices vs).outgoing i = [] := by
    rw [outgoing_addVertices]
    rfl
  unfold labels HasEdge targets
  constructor
  · split
    · simp [labelsAt, hnone]
    · rfl
  · split <;> simp [successors, hnone]

end Multigraph

theorem addPrecedence_eq_ok {g g' : DependencyGraph} {p : Precedence} :
    addPrecedence g p = .ok g' ↔ g.addEdges p.before p.after [p.label] = ⟨g', none⟩ := by
  unfold addPrecedence Multigraph.addEdge
  obtain ⟨_, fault⟩ := g.addEdges p.before p.after [p.label]
  cases fault <;> simp [Outcome.toExcept, Except.mapError]

/-- Precedences between vertices are all added, as labels of their edges. -/
theorem foldlM_addPrecedence {g : DependencyGraph} (hg : g.Built) (ps : List Precedence)
    (hps : ∀ p ∈ ps, p.before ∈ g.vertices ∧ p.after ∈ g.vertices) :
    ∃ g', ps.foldlM addPrecedence g = .ok g' ∧ g'.Built ∧ g'.vertices = g.vertices ∧
      (∀ i j label, label ∈ g'.labels i j ↔ label ∈ g.labels i j ∨ ⟨i, j, label⟩ ∈ ps) ∧
      ∀ i j, g'.HasEdge i j ↔ g.HasEdge i j ∨ ∃ label, ⟨i, j, label⟩ ∈ ps := by
  induction ps generalizing g with
  | nil => exact ⟨g, rfl, hg, rfl, by simp, by simp⟩
  | cons p ps ih =>
    obtain ⟨hbefore, hafter⟩ := hps p List.mem_cons_self
    obtain ⟨i, hi⟩ := Option.isSome_iff_exists.mp (hg.indexed.contains_iff.mpr hbefore)
    obtain ⟨j, hj⟩ := Option.isSome_iff_exists.mp (hg.indexed.contains_iff.mpr hafter)
    have hadd : g.addEdges p.before p.after [p.label] = ⟨g.addEdgesAt i j [p.label], none⟩ :=
      Multigraph.addEdges_eq_added.mpr ⟨i, j, hi, hj, rfl⟩
    have hvertices := Multigraph.vertices_addEdges hadd
    obtain ⟨g', hg', hbuilt, hv, hlabels, hedges⟩ := ih (hg.of_addEdges hadd) (by
      intro q hq
      rw [hvertices]
      exact hps q (List.mem_cons_of_mem p hq))
    refine ⟨g', ?_, hbuilt, hv.trans hvertices, fun a b label => ?_, fun a b => ?_⟩
    · rw [List.foldlM_cons, bind_eq_ok]
      exact ⟨_, addPrecedence_eq_ok.mpr hadd, hg'⟩
    · rw [hlabels, hg.indexed.labels_addEdges hadd, List.mem_cons]
      obtain ⟨before, after, l⟩ := p
      simp only [Precedence.mk.injEq]
      by_cases h : a = before ∧ b = after
      · simp [h, or_assoc]
      · rw [if_neg h]
        grind
    · rw [hedges, hg.indexed.hasEdge_addEdges hadd]
      obtain ⟨before, after, l⟩ := p
      simp only [List.mem_cons, Precedence.mk.injEq]
      grind

theorem lt_length_of_mem_dependencies {m : Model} {collate : Collation} {t : Snapshot}
    {ws : List RowWrite} {i j : Nat} {label : Dependency}
    (h : ⟨i, j, label⟩ ∈ dependencies m collate t ws) : i < ws.length ∧ j < ws.length := by
  have hlt {values : RowWrite → List KeyValue} {values' : RowWrite → List (KeyValue × Dependency)}
      (h : ⟨i, j, label⟩ ∈ precedences (provided values ws) (awaited values' ws)) :
      i < ws.length ∧ j < ws.length := by
    obtain ⟨_, p, d, hp, hd, _⟩ := mem_precedences.mp h
    exact ⟨(List.getElem?_eq_some_iff.mp hp).1, (List.getElem?_eq_some_iff.mp hd).1⟩
  rcases List.mem_append.mp h with h | h
  · exact hlt h
  · exact hlt h

/-- The graph can be made of any writes: its vertices are their places, and its labels are the
dependencies. -/
theorem dependencyGraph_eq_ok (m : Model) (collate : Collation) (t : Snapshot)
    (ws : List RowWrite) :
    ∃ g, dependencyGraph m collate t ws = .ok g ∧ g.Built ∧ g.vertices = List.range ws.length ∧
      (∀ i j label, label ∈ g.labels i j ↔ ⟨i, j, label⟩ ∈ dependencies m collate t ws) ∧
      ∀ i j, g.HasEdge i j ↔ ∃ label, ⟨i, j, label⟩ ∈ dependencies m collate t ws := by
  have hvertices : (Multigraph.empty.addVertices (List.range ws.length) :
      DependencyGraph).vertices = List.range ws.length :=
    Multigraph.Indexed.empty.vertices_addVertices List.nodup_range
  obtain ⟨g, hg, hbuilt, hv, hlabels, hedges⟩ := foldlM_addPrecedence
    (Multigraph.Built.empty.addVertices (List.range ws.length))
    (dependencies m collate t ws) (by
      intro p hp
      simp only [hvertices, List.mem_range]
      exact lt_length_of_mem_dependencies hp)
  refine ⟨g, hg, hbuilt, hv.trans hvertices, fun i j label => ?_, fun i j => ?_⟩
  · rw [hlabels, (Multigraph.labels_addVertices_empty _ i j).1]
    simp
  · rw [hedges]
    simp [(Multigraph.labels_addVertices_empty _ i j).2]

/-- The rules put the writes at the two places in order, for some constraint. -/
def Before (m : Model) (collate : Collation) (t : Snapshot) (ws : List RowWrite) (i j : Nat) :
    Prop :=
  ∃ label, Between ws (RowWrite.Required m collate t label) i j

theorem mem_labels_iff {s : Spec} {m : Model} (hm : s.build = .ok m) {collate : Collation}
    {t : Snapshot} {ws : List RowWrite} {g : DependencyGraph}
    (hg : dependencyGraph m collate t ws = .ok g) {i j : Nat} {label : Dependency} :
    label ∈ g.labels i j ↔ Between ws (fun p d =>
      RowWrite.Required m collate t label p d ∨ RowWrite.Mistaken m collate t label p d) i j := by
  obtain ⟨g', hg', _, _, hlabels, _⟩ := dependencyGraph_eq_ok m collate t ws
  obtain rfl := Except.ok.inj (hg.symm.trans hg')
  rw [hlabels, mem_dependencies (Spec.hierarchical_of_build hm)]

theorem hasEdge_iff {s : Spec} {m : Model} (hm : s.build = .ok m) {collate : Collation}
    {t : Snapshot} {ws : List RowWrite} {g : DependencyGraph}
    (hg : dependencyGraph m collate t ws = .ok g) {i j : Nat} :
    g.HasEdge i j ↔ ∃ label, Between ws (fun p d =>
      RowWrite.Required m collate t label p d ∨ RowWrite.Mistaken m collate t label p d) i j := by
  obtain ⟨g', hg', _, _, _, hedges⟩ := dependencyGraph_eq_ok m collate t ws
  obtain rfl := Except.ok.inj (hg.symm.trans hg')
  rw [hedges]
  simp only [mem_dependencies (Spec.hierarchical_of_build hm)]

/-- Places that still hold their writes give them up, and all others stay. -/
theorem takeSet_eq_ok {ws : List RowWrite} {places : List (Option RowWrite)} {is : List Nat}
    (hn : is.Nodup) (h : ∀ i ∈ is, i < ws.length ∧ places[i]? = some ws[i]?) :
    ∃ places', takeSet places is = .ok (is.filterMap (ws[·]?), places') ∧
      ∀ j, j ∉ is → places'[j]? = places[j]? := by
  induction is generalizing places with
  | nil => exact ⟨places, rfl, fun _ _ => rfl⟩
  | cons i is ih =>
    obtain ⟨hi, hn⟩ := List.nodup_cons.mp hn
    obtain ⟨hlt, hplace⟩ := h i List.mem_cons_self
    have hw := List.getElem?_eq_getElem hlt
    rw [hw] at hplace
    have hrest (j : Nat) (hj : j ∈ is) : j < ws.length ∧ (places.set i none)[j]? = some ws[j]? := by
      have hne : i ≠ j := fun he => hi (he ▸ hj)
      rw [List.getElem?_set_ne hne]
      exact h j (List.mem_cons_of_mem i hj)
    obtain ⟨places', htake, hothers⟩ := ih hn hrest
    refine ⟨places', ?_, fun j hj => ?_⟩
    · unfold takeSet
      rw [List.filterMap_cons_some hw]
      refine bind_eq_ok.mpr ⟨(ws[i], places.set i none), ?_, ?_⟩
      · simp [takeWrite, hplace]
      · exact bind_eq_ok.mpr ⟨_, htake, rfl⟩
    · rw [List.mem_cons, not_or] at hj
      rw [hothers j hj.2, List.getElem?_set_ne (Ne.symm hj.1)]

theorem takeSets_eq_ok {ws : List RowWrite} {places : List (Option RowWrite)}
    {sets : List (List Nat)} (hn : sets.flatten.Nodup)
    (h : ∀ i ∈ sets.flatten, i < ws.length ∧ places[i]? = some ws[i]?) :
    takeSets places sets = .ok (sets.map (·.filterMap (ws[·]?))) := by
  induction sets generalizing places with
  | nil => rfl
  | cons is sets ih =>
    rw [List.flatten_cons] at hn h
    obtain ⟨his, hsets, hdis⟩ := List.nodup_append.mp hn
    obtain ⟨places', htake, hothers⟩ := takeSet_eq_ok his fun i hi =>
      h i (List.mem_append_left _ hi)
    have hrest (i : Nat) (hi : i ∈ sets.flatten) :
        i < ws.length ∧ places'[i]? = some ws[i]? := by
      rw [hothers i fun hm => hdis i hm i hi rfl]
      exact h i (List.mem_append_right _ hi)
    unfold takeSets
    exact bind_eq_ok.mpr ⟨_, htake, bind_eq_ok.mpr ⟨_, ih hsets hrest, rfl⟩⟩

namespace Planner

/-- The writes of each level, in order. Nothing but a cycle keeps them from being arranged. -/
theorem arrange_eq (p : Planner) (ws : List RowWrite) {g : DependencyGraph} (hg : g.Indexed)
    (hv : g.vertices = List.range ws.length) :
    p.arrange ws g =
      (g.levels.mapError p.planErrorOf).map fun levels => levels.map (·.filterMap (ws[·]?)) := by
  unfold arrange
  cases hl : g.levels with
  | error e => rfl
  | ok levels =>
    have hperm := (Multigraph.levelled_of_levels hg hl).perm
    rw [hv] at hperm
    have hn : levels.flatten.Nodup := hperm.nodup_iff.mpr List.nodup_range
    have htake : takeSets (ws.map some) levels = .ok (levels.map (·.filterMap (ws[·]?))) := by
      refine takeSets_eq_ok hn fun i hi => ?_
      have hi := List.mem_range.mp (hperm.mem_iff.mp hi)
      simp [hi]
    exact htake

/-- A pass over entries that make writes is arranged by the levels of their graph. -/
theorem prepare_sets (p : Planner) {t : Snapshot} {entries : List Nat} {built : BuiltWrites}
    (hb : p.buildWrites t entries = .ok built) {g : DependencyGraph}
    (hg : dependencyGraph p.model p.collate t built.writes = .ok g) :
    (p.prepare t entries).sets = p.arrange built.writes g := by
  unfold prepare
  simp only [hb, hg]
  cases p.arrange built.writes g <;> rfl

theorem prepare_error {p : Planner} {t : Snapshot} {entries : List Nat} {e : PlanError}
    (hb : p.buildWrites t entries = .error e) : (p.prepare t entries).sets = .error e := by
  simp only [prepare, hb]

/-- The sets of a plan are the levels of the graph of its writes. -/
theorem levels_of_sets {p : Planner} {t : Snapshot} {entries : List Nat} {built : BuiltWrites}
    (hb : p.buildWrites t entries = .ok built) {g : DependencyGraph}
    (hg : dependencyGraph p.model p.collate t built.writes = .ok g) {sets : List (List RowWrite)}
    (h : (p.prepare t entries).sets = .ok sets) :
    ∃ levels, g.levels = .ok levels ∧ sets = levels.map (·.filterMap (built.writes[·]?)) := by
  obtain ⟨g', hg', hbuilt, hv, _⟩ := dependencyGraph_eq_ok p.model p.collate t built.writes
  obtain rfl := Except.ok.inj (hg.symm.trans hg')
  rw [p.prepare_sets hb hg, p.arrange_eq _ hbuilt.indexed hv] at h
  cases hl : g.levels with
  | error e =>
    rw [hl] at h
    cases h
  | ok levels =>
    rw [hl] at h
    exact ⟨levels, rfl, (Except.ok.inj h).symm⟩

end Planner

theorem exists_of_toOption_map {ε α β : Type} {x : Except ε α} {f : α → β} {b : β}
    (h : x.toOption.map f = some b) : ∃ a, x = .ok a ∧ f a = b := by
  cases x with
  | error e => cases h
  | ok a => exact ⟨a, rfl, Option.some.inj h⟩

namespace Family

/-- Parents, each with a code of its own, and children, each with a parent. -/
def spec : Spec where
  entities := [⟨"Parent", .root ⟨none, "Parents"⟩⟩, ⟨"Child", .root ⟨none, "Children"⟩⟩]
  properties := [{ owner := ⟨0⟩, name := "Id" }, { owner := ⟨0⟩, name := "Code" },
    { owner := ⟨1⟩, name := "Id" }, { owner := ⟨1⟩, name := "ParentId" }]
  keys := [{ owner := ⟨0⟩, properties := [⟨0⟩] }, { owner := ⟨1⟩, properties := [⟨2⟩] }]
  foreignKeys := [⟨⟨1⟩, [⟨3⟩], ⟨0⟩⟩]
  indexes := [{ owner := ⟨0⟩, name := "IX_Code", properties := [⟨1⟩] }]

def model : Model :=
  spec.build.toOption.getD ⟨[], [], [], [], []⟩

theorem spec_build : spec.build = .ok model := by decide +kernel

def planner : Planner where
  model := model
  config := {}
  tableOf := model.tableIn none
  collate := id
  names := .ofStem "p"
  rule := .bounded defaultMaxBatchSize
  comparer := .standard

/-- A row whose values are, and were, the given ones. -/
def row (type : Nat) (state : EntityState) (values : List Int64) : Entry :=
  let value (p : PropertyId) : Value :=
    match values[p.index - 2 * type]? with
    | some v => .int v
    | none => .null
  ⟨⟨type⟩, state, value, value, fun _ => false, fun _ => false⟩

/-- A parent is added, and a child of it. -/
def born : Snapshot
  | 0 => row 0 .added [3, 7]
  | _ => row 1 .added [5, 3]

def bornWrites : List RowWrite :=
  [⟨⟨none, "Parents"⟩, [0], none⟩, ⟨⟨none, "Children"⟩, [1], none⟩]

theorem buildWrites_born :
    ∃ built, planner.buildWrites born [0, 1] = .ok built ∧ built.writes = bornWrites :=
  exists_of_toOption_map (by decide +kernel)

def bornGraph : DependencyGraph :=
  (Multigraph.empty.addVertices [0, 1]).addEdgesAt 0 1 [.foreignKey ⟨0⟩]

end Family

end WritePlan

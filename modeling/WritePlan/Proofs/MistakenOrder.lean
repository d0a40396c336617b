import WritePlan.Proofs.Arrangement

namespace WritePlan

open RowWrite

/-- A plan fails as circular only if its graph goes round. -/
theorem Planner.not_acyclic_of_circular {p : Planner} {t : Snapshot} {entries : List Nat}
    {built : BuiltWrites} (hb : p.buildWrites t entries = .ok built) {g : DependencyGraph}
    (hg : dependencyGraph p.model p.collate t built.writes = .ok g) {cycle : String}
    (hc : (p.prepare t entries).sets = .error (.circular cycle)) : ¬ Acyclic g.HasEdge := by
  obtain ⟨g', hg', hbuilt, hv, _⟩ := dependencyGraph_eq_ok p.model p.collate t built.writes
  obtain rfl := Except.ok.inj (hg.symm.trans hg')
  rw [p.prepare_sets hb hg, p.arrange_eq _ hbuilt.indexed hv] at hc
  intro ha
  obtain ⟨sets, hs⟩ := (Multigraph.levels_isOk_iff hbuilt.indexed).mpr ha
  rw [hs] at hc
  cases hc

/-- All foreign keys on edges are asked for by the rules, and a plan is circular only where the
rules are, exactly if no writes are mistaken but for a foreign key that orders them as well. -/
theorem foreign_key_edges_required_iff (s : Spec) (p : Planner) (hm : s.build = .ok p.model)
    (t : Snapshot) (entries : List Nat) (built : BuiltWrites)
    (hb : p.buildWrites t entries = .ok built) :
    ∃ g, dependencyGraph p.model p.collate t built.writes = .ok g ∧
      (∀ i j label, label ∈ g.labels i j ↔ Between built.writes (fun p' d =>
        Required p.model p.collate t label p' d ∨ Mistaken p.model p.collate t label p' d) i j) ∧
      (((∀ i j fk, .foreignKey fk ∈ g.labels i j →
            Between built.writes (Required p.model p.collate t (.foreignKey fk)) i j) ∧
          ((∃ cycle, (p.prepare t entries).sets = .error (.circular cycle)) →
            ¬ Acyclic (Before p.model p.collate t built.writes))) ↔
        ∀ i j fk, Between built.writes (Mistaken p.model p.collate t (.foreignKey fk)) i j →
          Between built.writes (Required p.model p.collate t (.foreignKey fk)) i j) := by
  obtain ⟨g, hg, _⟩ := dependencyGraph_eq_ok p.model p.collate t built.writes
  refine ⟨g, hg, fun i j label => mem_labels_iff hm hg, ?_⟩
  constructor
  · intro h i j fk hmistaken
    exact h.1 i j fk ((mem_labels_iff hm hg).mpr (hmistaken.mono fun _ _ => .inr))
  · intro h
    have hedge {i j : Nat} {label : Dependency} (he : Between built.writes (fun p' d =>
        Required p.model p.collate t label p' d ∨ Mistaken p.model p.collate t label p' d) i j) :
        Between built.writes (Required p.model p.collate t label) i j := by
      obtain ⟨hne, p', d, hp, hd, hr | hmistaken⟩ := he
      · exact ⟨hne, p', d, hp, hd, hr⟩
      · cases label with
        | foreignKey fk => exact h i j fk ⟨hne, p', d, hp, hd, hmistaken⟩
        | uniqueIndex ix => exact hmistaken.elim
    refine ⟨fun i j fk hl => hedge ((mem_labels_iff hm hg).mp hl), fun hc ha => ?_⟩
    obtain ⟨cycle, hc⟩ := hc
    apply Planner.not_acyclic_of_circular hb hg hc
    refine ha.mono fun i j hij => ?_
    obtain ⟨label, he⟩ := (hasEdge_iff hm hg).mp hij
    exact ⟨label, hedge he⟩

namespace Family

theorem foreign_key_edges_required_iff_born :
    spec.build = .ok planner.model ∧
      ∃ built, planner.buildWrites born [0, 1] = .ok built ∧
      Between built.writes (fun p d =>
        Required planner.model planner.collate born (.foreignKey ⟨0⟩) p d ∨
          Mistaken planner.model planner.collate born (.foreignKey ⟨0⟩) p d) 0 1 := by
  obtain ⟨built, hb, hw⟩ := buildWrites_born
  obtain ⟨g, hg, hlabels, _⟩ :=
    foreign_key_edges_required_iff spec planner spec_build born [0, 1] built hb
  have hborn : dependencyGraph model id born bornWrites = .ok bornGraph := by decide +kernel
  obtain rfl := Except.ok.inj (hg.symm.trans (hw ▸ hborn))
  exact ⟨spec_build, built, hb, (hlabels 0 1 (.foreignKey ⟨0⟩)).mp (by decide)⟩

end Family

/-- No rule puts an insert before a delete. -/
theorem not_required_of_added_of_deleted {m : Model} {collate : Collation} {t : Snapshot}
    {label : Dependency} {p d : RowWrite} (hp : (p.state t).isAdded = true)
    (hd : (d.state t).isDeleted = true) : ¬ Required m collate t label p d := by
  have hp' : ¬ ((p.state t).isDeleted = true ∨ (p.state t).isModified = true) := by
    cases h : p.state t <;> simp_all [EntityState.isAdded, EntityState.isDeleted,
      EntityState.isModified]
  have hd' : d.isInsertOrUpdate t ≠ true := by
    rw [isDeleted_eq] at hd
    simpa using hd
  intro h
  cases label with
  | foreignKey fk =>
    rcases h with h | h
    · exact hd' h.2.1
    · exact hp' (h.1.imp_right And.left)
  | uniqueIndex ix => exact hd' h.2.1

namespace Family

/-- A parent is deleted, and another one takes over its key and its code. -/
def replaced : Snapshot
  | 0 => row 0 .deleted [3, 7]
  | _ => row 0 .added [3, 7]

def replacedWrites : List RowWrite :=
  [⟨⟨none, "Parents"⟩, [0], none⟩, ⟨⟨none, "Parents"⟩, [1], none⟩]

theorem buildWrites_replaced :
    ∃ built, planner.buildWrites replaced [0, 1] = .ok built ∧ built.writes = replacedWrites :=
  exists_of_toOption_map (by decide +kernel)

def replacedGraph : DependencyGraph :=
  let g := Multigraph.empty.addVertices [0, 1]
  (g.addEdgesAt 1 0 [.foreignKey ⟨0⟩]).addEdgesAt 0 1 [.uniqueIndex ⟨0⟩]

def replacedCycle : List (Edge Nat Dependency) :=
  [⟨0, 1, [.uniqueIndex ⟨0⟩]⟩, ⟨1, 0, [.foreignKey ⟨0⟩]⟩]

/-- The new parent waits for the code that the old one gives up, and no rule puts the two in order
for the sake of children that are not there. Still the old one waits for the new one. -/
theorem replaced_parent_is_circular :
    spec.build = .ok planner.model ∧
      ∃ built, planner.buildWrites replaced [0, 1] = .ok built ∧
      ∃ g, dependencyGraph planner.model planner.collate replaced built.writes = .ok g ∧
        .foreignKey ⟨0⟩ ∈ g.labels 1 0 ∧
        ¬ Between built.writes
          (Required planner.model planner.collate replaced (.foreignKey ⟨0⟩)) 1 0 ∧
        (∃ cycle, (planner.prepare replaced [0, 1]).sets = .error (.circular cycle)) ∧
        Acyclic (Before planner.model planner.collate replaced built.writes) := by
  obtain ⟨built, hb, hw⟩ := buildWrites_replaced
  have hg : dependencyGraph model id replaced replacedWrites = .ok replacedGraph := by
    decide +kernel
  have hlevels : replacedGraph.levels = .error (.circular replacedCycle) := by decide +kernel
  -- The places of the insert and the delete are known from their numbers alone.
  have hbefore {label : Dependency} :
      ¬ Between replacedWrites (Required model id replaced label) 1 0 := by
    intro h
    obtain ⟨_, p, d, hp, hd, h⟩ := h
    obtain rfl := Option.some.inj hp
    obtain rfl := Option.some.inj hd
    exact not_required_of_added_of_deleted (by decide) (by decide) h
  refine ⟨spec_build, built, hb, replacedGraph, hw ▸ hg, by decide, hw ▸ hbefore, ?_, ?_⟩
  · refine ⟨describeCycle model replacedCycle, ?_⟩
    rw [planner.prepare_sets hb (hw ▸ hg), Planner.arrange, hlevels]
    rfl
  · rw [hw]
    refine acyclic_of_lt (f := id) fun i j h => ?_
    obtain ⟨label, h⟩ := h
    obtain ⟨hne, _, _, hp, hd, _⟩ := id h
    have hi : i < 2 := (List.getElem?_eq_some_iff.mp hp).1
    have hj : j < 2 := (List.getElem?_eq_some_iff.mp hd).1
    by_contra hlt
    obtain ⟨rfl, rfl⟩ : i = 1 ∧ j = 0 := by
      simp only [id] at hlt
      omega
    exact hbefore h

end Family

end WritePlan

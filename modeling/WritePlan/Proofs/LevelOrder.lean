import WritePlan.Proofs.Frontier

namespace WritePlan

variable {V E : Type}

/-- The element is in the set of that number. -/
def InSet (sets : List (List α)) (k : Nat) (a : α) : Prop :=
  ∃ set, sets[k]? = some set ∧ a ∈ set

theorem mem_flatten_take {sets : List (List α)} {k : Nat} {a : α} :
    a ∈ (sets.take k).flatten ↔ ∃ i < k, InSet sets i a := by
  simp only [List.mem_flatten, List.mem_take_iff_getElem, InSet]
  constructor
  · rintro ⟨set, ⟨i, hi, rfl⟩, ha⟩
    exact ⟨i, by omega, _, List.getElem?_eq_getElem (by omega), ha⟩
  · rintro ⟨i, hi, set, hset, ha⟩
    obtain ⟨hlt, rfl⟩ := List.getElem?_eq_some_iff.mp hset
    exact ⟨_, ⟨i, by omega, rfl⟩, ha⟩

theorem mem_flatten_iff {sets : List (List α)} {a : α} :
    a ∈ sets.flatten ↔ ∃ k, InSet sets k a := by
  rw [List.mem_flatten]
  constructor
  · rintro ⟨set, hset, ha⟩
    obtain ⟨k, hk⟩ := List.mem_iff_getElem?.mp hset
    exact ⟨k, set, hk, ha⟩
  · rintro ⟨k, set, hk, ha⟩
    exact ⟨set, List.mem_of_getElem? hk, ha⟩

theorem InSet.lt_length {sets : List (List α)} {k : Nat} {a : α} (h : InSet sets k a) :
    k < sets.length := by
  obtain ⟨set, hk, _⟩ := h
  exact (List.getElem?_eq_some_iff.mp hk).1

/-- Where nothing occurs twice, an element is in one set only. -/
theorem InSet.unique {sets : List (List α)} (hn : sets.flatten.Nodup) {i j : Nat} {a : α}
    (hi : InSet sets i a) (hj : InSet sets j a) : i = j := by
  have hdis := (List.nodup_flatten.mp hn).2
  have hne {i j : Nat} (hi : InSet sets i a) (hj : InSet sets j a) (hlt : i < j) : False := by
    obtain ⟨s, hs, has⟩ := hi
    obtain ⟨t, ht, hat⟩ := hj
    obtain ⟨hil, rfl⟩ := List.getElem?_eq_some_iff.mp hs
    obtain ⟨hjl, rfl⟩ := List.getElem?_eq_some_iff.mp ht
    exact List.pairwise_iff_getElem.mp hdis i j hil hjl hlt has hat
  rcases Nat.lt_trichotomy i j with hlt | rfl | hlt
  · exact (hne hi hj hlt).elim
  · rfl
  · exact (hne hj hi hlt).elim

namespace Multigraph

/-- A division of the vertices along the edges: each vertex is in one set, and every edge leads on
to a later set. -/
structure Division [DecidableEq V] (g : Multigraph V E) (sets : List (List V)) : Prop where
  perm : sets.flatten.Perm g.vertices
  forward : ∀ u v i j, g.HasEdge u v → InSet sets i u → InSet sets j v → i < j

/-- A division in which every vertex comes as early as the edges allow. -/
structure Levelled [DecidableEq V] (g : Multigraph V E) (sets : List (List V)) : Prop
    extends Division g sets where
  nonempty : [] ∉ sets
  reached : ∀ k v, InSet sets (k + 1) v → ∃ u, g.HasEdge u v ∧ InSet sets k u

/-- The counts and the level with which each round of the sort begins. A round lowers the counts
of all that its level has an edge to. -/
inductive Round (g : Multigraph V E) : (counts level : List Nat) → Prop
  | first : Round g g.predecessorCounts (free g.predecessorCounts)
  | next {counts level : List Nat} : Round g counts level → level ≠ [] →
    Round g (release counts (g.successorsOf level)).1 (release counts (g.successorsOf level)).2

variable {g : Multigraph V E}

/-- The rounds are those of the sort: what it gives is what the rounds before have given, and
what it gives from this round on. -/
theorem Round.levelPlaces_eq {counts level : List Nat} (h : g.Round counts level) :
    ∃ before, g.levelPlaces =
      (before ++ (g.levelsFrom counts level).1, (g.levelsFrom counts level).2) := by
  induction h with
  | first => exact ⟨[], rfl⟩
  | @next counts level _ hne ih =>
    obtain ⟨before, hb⟩ := ih
    refine ⟨before ++ [level], ?_⟩
    rw [hb, levelsFrom]
    simp [List.isEmpty_iff, hne]

theorem Round.frontier (hg : g.WellFormed) {counts level : List Nat} (h : g.Round counts level) :
    ∃ done, Frontier g [] done level counts := by
  induction h with
  | first => exact ⟨[], Frontier.start g⟩
  | @next counts level _ hne ih =>
    obtain ⟨done, hf⟩ := ih
    rw [← List.append_nil level] at hf
    exact ⟨done ++ level, (hf.followLevel hg).1⟩

theorem Round.lowerable (hg : g.WellFormed) {counts level : List Nat}
    (h : g.Round counts level) : Lowerable counts (g.successorsOf level) := by
  obtain ⟨done, hf⟩ := h.frontier hg
  rw [← List.append_nil level] at hf
  exact (hf.followLevel hg).2

theorem nil_not_mem_levelsFrom (g : Multigraph V E) (counts level : List Nat) :
    [] ∉ (g.levelsFrom counts level).1 := by
  fun_induction levelsFrom g counts level with
  | case1 => simp
  | case2 counts level hne next rest ih =>
    simp only [List.mem_cons, not_or]
    exact ⟨fun he => hne (by simp [← he]), ih⟩

/-- Between any two levels the sort stands at a frontier. -/
theorem levelsFrom_frontier (hg : g.WellFormed) {done counts level : List Nat}
    (h : Frontier g [] done level counts) {k : Nat}
    (hk : k ≤ (g.levelsFrom counts level).1.length) :
    ∃ counts', Frontier g [] (done ++ ((g.levelsFrom counts level).1.take k).flatten)
      ((g.levelsFrom counts level).1.getD k []) counts' := by
  fun_induction levelsFrom g counts level generalizing done k with
  | case1 counts level he =>
    obtain rfl : level = [] := List.isEmpty_iff.mp he
    exact ⟨counts, by simpa using h⟩
  | case2 counts level hne next rest =>
    rename_i ih
    cases k with
    | zero => exact ⟨counts, by simpa using h⟩
    | succ k =>
      rw [← List.append_nil level] at h
      obtain ⟨counts', hf⟩ := ih (h.followLevel hg).1 (by simpa using hk)
      exact ⟨counts', by simpa using hf⟩

theorem levelPlaces_frontier (hg : g.WellFormed) {k : Nat} (hk : k ≤ g.levelPlaces.1.length) :
    ∃ counts, Frontier g [] (g.levelPlaces.1.take k).flatten (g.levelPlaces.1.getD k []) counts :=
  levelsFrom_frontier hg (Frontier.start g) hk

theorem levelPlaces_end (hg : g.WellFormed) :
    ∃ counts, Frontier g [] g.levelPlaces.1.flatten [] counts := by
  obtain ⟨counts, hf⟩ := levelPlaces_frontier hg (Nat.le_refl _)
  exact ⟨counts, by simpa using hf⟩

theorem levelPlaces_nodup (hg : g.WellFormed) : g.levelPlaces.1.flatten.Nodup := by
  obtain ⟨counts, hf⟩ := levelPlaces_end hg
  simpa using hf.nodup

theorem unbroken_nil {p j : Nat} : g.Unbroken [] p j ↔ p ∈ g.predecessors j := by
  simp [Unbroken]

theorem mem_getD_iff {sets : List (List α)} {k : Nat} {a : α} :
    a ∈ sets.getD k [] ↔ InSet sets k a := by
  rw [List.getD_eq_getElem?_getD]
  cases h : sets[k]? <;> simp [InSet, h]

/-- A place in some level has all its predecessors in the levels before. -/
theorem inSet_of_predecessor (hg : g.WellFormed) {k p j : Nat} (hj : InSet g.levelPlaces.1 k j)
    (hp : p ∈ g.predecessors j) : ∃ i < k, InSet g.levelPlaces.1 i p := by
  obtain ⟨counts, hf⟩ := levelPlaces_frontier hg (Nat.le_of_lt hj.lt_length)
  have hz := ((hf.mem_iff j).mp (List.mem_append_right _ (mem_getD_iff.mpr hj))).2
  exact mem_flatten_take.mp (unmet_eq_zero.mp hz p (unbroken_nil.mpr hp))

/-- It would be in an earlier level if it had none in the level just before. -/
theorem exists_predecessor_inSet (hg : g.WellFormed) {k j : Nat}
    (hj : InSet g.levelPlaces.1 (k + 1) j) :
    ∃ p ∈ g.predecessors j, InSet g.levelPlaces.1 k p := by
  have hn := levelPlaces_nodup hg
  obtain ⟨counts, hf⟩ := levelPlaces_frontier hg (k := k) (by have := hj.lt_length; omega)
  have hsize : j < g.size := by
    obtain ⟨counts, hf⟩ := levelPlaces_frontier hg (Nat.le_of_lt hj.lt_length)
    exact hf.lt_size_of_mem (List.mem_append_right _ (mem_getD_iff.mpr hj))
  have hnot : j ∉ (g.levelPlaces.1.take k).flatten ++ g.levelPlaces.1.getD k [] := by
    intro hm
    rcases List.mem_append.mp hm with hm | hm
    · obtain ⟨i, hi, hij⟩ := mem_flatten_take.mp hm
      have := hij.unique hn hj
      omega
    · have := (mem_getD_iff.mp hm).unique hn hj
      omega
  have hunmet : g.unmet (g.levelPlaces.1.take k).flatten [] j ≠ 0 :=
    fun hz => hnot ((hf.mem_iff j).mpr ⟨hsize, hz⟩)
  rw [ne_eq, unmet_eq_zero] at hunmet
  push Not at hunmet
  obtain ⟨p, hp, hpk⟩ := hunmet
  obtain ⟨i, hi, hpi⟩ := inSet_of_predecessor hg hj hp.1
  have hik : i = k := by
    by_contra hne
    exact hpk (mem_flatten_take.mpr ⟨i, by omega, hpi⟩)
  exact ⟨p, hp.1, hik ▸ hpi⟩

theorem inSet_map_vertex? {levels : List (List Nat)} {k : Nat} {v : V} :
    InSet (levels.map (·.filterMap g.vertex?)) k v ↔
      ∃ j, InSet levels k j ∧ g.vertex? j = some v := by
  simp only [InSet, List.getElem?_map, Option.map_eq_some_iff]
  constructor
  · rintro ⟨_, ⟨level, hk, rfl⟩, hv⟩
    obtain ⟨j, hj, hv⟩ := List.mem_filterMap.mp hv
    exact ⟨j, ⟨level, hk, hj⟩, hv⟩
  · rintro ⟨j, ⟨level, hk, hj⟩, hv⟩
    exact ⟨_, ⟨level, hk, rfl⟩, List.mem_filterMap.mpr ⟨j, hj, hv⟩⟩

theorem levels_eq_ok {sets : List (List V)} (h : g.levels = .ok sets) :
    g.size ≤ g.levelPlaces.1.flatten.length ∧
      sets = g.levelPlaces.1.map (·.filterMap g.vertex?) := by
  unfold levels at h
  split at h
  rename_i levels counts he
  split at h
  · cases h
  · rename_i hlt
    rw [he]
    exact ⟨Nat.le_of_not_lt hlt, (Except.ok.inj h).symm⟩

variable [DecidableEq V]

/-- The levels are a division, and every vertex is in the earliest set that the edges allow. -/
theorem levelled_of_levels (hg : g.Indexed) {sets : List (List V)} (h : g.levels = .ok sets) :
    g.Levelled sets := by
  obtain ⟨hle, rfl⟩ := levels_eq_ok h
  obtain ⟨counts, hend⟩ := levelPlaces_end hg.toWellFormed
  have hperm : g.levelPlaces.1.flatten.Perm (List.range g.size) := by
    simpa using hend.perm_range (by simpa using hle)
  refine ⟨⟨?_, ?_⟩, ?_, ?_⟩
  · rw [← List.filterMap_flatten, ← filterMap_vertex?_range]
    exact hperm.filterMap _
  · intro u v i j huv hu hv
    obtain ⟨a, hia, ha⟩ := inSet_map_vertex?.mp hu
    obtain ⟨b, hjb, hb⟩ := inSet_map_vertex?.mp hv
    have hab := (hg.hasEdge_iff_mem ha hb).mp huv
    obtain ⟨i', hi', hia'⟩ := inSet_of_predecessor hg.toWellFormed hjb hab
    rw [hia.unique (levelPlaces_nodup hg.toWellFormed) hia']
    exact hi'
  · intro hm
    obtain ⟨level, hlevel, he⟩ := List.mem_map.mp hm
    have hne : level ≠ [] := fun hn => nil_not_mem_levelsFrom g _ _ (hn ▸ hlevel)
    obtain ⟨j, hj⟩ := List.exists_mem_of_ne_nil level hne
    have hlt : j < g.size :=
      List.mem_range.mp (hperm.mem_iff.mp (List.mem_flatten_of_mem hlevel hj))
    obtain ⟨v, hv⟩ := Option.isSome_iff_exists.mp (vertex?_isSome.mpr hlt)
    have : v ∈ level.filterMap g.vertex? := List.mem_filterMap.mpr ⟨j, hj, hv⟩
    simp [he] at this
  · intro k v hv
    obtain ⟨j, hj, hjv⟩ := inSet_map_vertex?.mp hv
    obtain ⟨p, hp, hpk⟩ := exists_predecessor_inSet hg.toWellFormed hj
    obtain ⟨u, hu⟩ := Option.isSome_iff_exists.mp
      (vertex?_isSome.mpr (hg.lt_size_of_mem_predecessors hp).1)
    exact ⟨u, hg.hasEdge_iff.mpr ⟨p, j, hu, hjv, hp⟩, inSet_map_vertex?.mpr ⟨p, hpk, hu⟩⟩

theorem acyclic_hasEdge_iff (hg : g.Indexed) :
    Acyclic g.HasEdge ↔ Acyclic fun p j => p ∈ g.predecessors j :=
  acyclic_iff_places hg.toWellFormed (fun _ _ => hg.hasEdge_iff) fun _ _ h =>
    hg.lt_size_of_mem_predecessors h

/-- The number of the first set that holds a vertex. -/
def setOf (sets : List (List V)) (v : V) : Nat :=
  sets.findIdx fun set => v ∈ set

theorem inSet_setOf {sets : List (List V)} {v : V} (h : v ∈ sets.flatten) :
    InSet sets (setOf sets v) v := by
  obtain ⟨set, hset, hv⟩ := List.mem_flatten.mp h
  have hlt : setOf sets v < sets.length := List.findIdx_lt_length_of_exists ⟨set, hset, by simpa⟩
  have := List.findIdx_getElem (w := hlt)
  exact ⟨_, List.getElem?_eq_getElem hlt, of_decide_eq_true this⟩

theorem Indexed.mem_vertices_of_hasEdge (hg : g.Indexed) {u v : V} (h : g.HasEdge u v) :
    u ∈ g.vertices ∧ v ∈ g.vertices := by
  obtain ⟨i, j, hi, hj, _⟩ := hg.hasEdge_iff.mp h
  rw [vertex?_eq] at hi hj
  exact ⟨List.mem_of_getElem? hi, List.mem_of_getElem? hj⟩

namespace Division

variable {sets : List (List V)}

theorem inSet_of_mem (h : g.Division sets) {v : V} (hv : v ∈ g.vertices) :
    InSet sets (setOf sets v) v :=
  inSet_setOf (h.perm.mem_iff.mpr hv)

theorem setOf_lt (hg : g.Indexed) (h : g.Division sets) (u v : V) (huv : g.HasEdge u v) :
    setOf sets u < setOf sets v :=
  have hm := hg.mem_vertices_of_hasEdge huv
  h.forward u v _ _ huv (h.inSet_of_mem hm.1) (h.inSet_of_mem hm.2)

theorem acyclic (hg : g.Indexed) (h : g.Division sets) : Acyclic g.HasEdge :=
  acyclic_of_lt (h.setOf_lt hg)

end Division

namespace Levelled

variable {sets : List (List V)}

theorem pathTo (h : g.Levelled sets) {k : Nat} {v : V} (hv : InSet sets k v) :
    PathTo g.HasEdge k v := by
  induction k generalizing v with
  | zero => exact .start v
  | succ k ih =>
    obtain ⟨u, huv, hu⟩ := h.reached k v hv
    exact (ih hu).step huv

theorem longestPathTo (hg : g.Indexed) (h : g.Levelled sets) {v : V} (hv : v ∈ g.vertices) :
    LongestPathTo g.HasEdge (setOf sets v) v :=
  ⟨h.pathTo (h.inSet_of_mem hv), fun _ hp => hp.le_of_lt (h.setOf_lt hg)⟩

/-- The set of a vertex is the length of the longest path to it. -/
theorem inSet_iff (hg : g.Indexed) (h : g.Levelled sets) {v : V} (hv : v ∈ g.vertices)
    {k : Nat} : InSet sets k v ↔ LongestPathTo g.HasEdge k v := by
  have hlongest := h.longestPathTo hg hv
  constructor
  · intro hk
    have hn : sets.flatten.Nodup := h.perm.nodup_iff.mpr hg.unique
    rw [hk.unique hn (h.inSet_of_mem hv)]
    exact hlongest
  · intro hk
    rw [hk.unique hlongest]
    exact h.inSet_of_mem hv

/-- A division cannot have fewer sets than the vertices on a path. -/
theorem length_le (hg : g.Indexed) (h : g.Levelled sets) {others : List (List V)}
    (ho : g.Division others) : sets.length ≤ others.length := by
  cases hlen : sets.length with
  | zero => exact Nat.zero_le _
  | succ n =>
    have hlt : n < sets.length := by omega
    have hne : sets[n] ≠ [] := fun he => h.nonempty (he ▸ List.getElem_mem hlt)
    obtain ⟨v, hv⟩ := List.exists_mem_of_ne_nil _ hne
    have hn : InSet sets n v := ⟨_, List.getElem?_eq_getElem hlt, hv⟩
    have hvm : v ∈ g.vertices := h.perm.mem_iff.mp (mem_flatten_iff.mpr ⟨n, hn⟩)
    have hle : n ≤ setOf others v := (h.pathTo hn).le_of_lt (ho.setOf_lt hg)
    have := (ho.inSet_of_mem hvm).lt_length
    omega

end Levelled

/-- There are no levels exactly where some vertices wait for one another. -/
theorem levels_isOk_iff (hg : g.Indexed) :
    (∃ sets, g.levels = .ok sets) ↔ Acyclic g.HasEdge := by
  constructor
  · intro h
    obtain ⟨sets, hs⟩ := h
    exact (levelled_of_levels hg hs).acyclic hg
  · intro ha
    obtain ⟨counts, hend⟩ := levelPlaces_end hg.toWellFormed
    have hle : ¬ g.levelPlaces.1.flatten.length < g.size := by
      intro hlt
      apply hend.not_acyclic hg.toWellFormed hlt
      exact ((acyclic_hasEdge_iff hg).mp ha).mono fun p j h => h.1.1
    unfold levels
    simp only [hle, ↓reduceIte]
    exact ⟨_, rfl⟩

/-- The sort by levels succeeds exactly on graphs without cycles. The number of a vertex's set is
then the length of the longest path to it, and no division along the edges has fewer sets. -/
theorem levels_are_longest_paths (g : Multigraph V E) (hg : g.Built) :
    ((∃ sets, g.levels = .ok sets) ↔ Acyclic g.HasEdge) ∧
    (∀ sets, g.levels = .ok sets →
      g.vertices.Nodup ∧ g.Division sets ∧ [] ∉ sets ∧
      (∀ v ∈ g.vertices, ∀ k, InSet sets k v ↔ LongestPathTo g.HasEdge k v) ∧
      ∀ others, g.Division others → sets.length ≤ others.length) ∧
    ∀ counts level, g.Round counts level →
      (∃ before, g.levelPlaces =
        (before ++ (g.levelsFrom counts level).1, (g.levelsFrom counts level).2)) ∧
      Lowerable counts (g.successorsOf level) := by
  have hw := hg.indexed
  refine ⟨levels_isOk_iff hw, ?_, fun counts level h => ⟨h.levelPlaces_eq, h.lowerable hw.toWellFormed⟩⟩
  intro sets hs
  have h := levelled_of_levels hw hs
  exact ⟨hw.unique, h.toDivision, h.nonempty, fun v hv k => h.inSet_iff hw hv,
    fun others ho => h.length_le hw ho⟩

/-- Three vertices in a row; the first edge has no label. -/
def chain : Multigraph Nat String :=
  let g := ((empty.addVertex 1).addVertex 2).addVertex 3
  (g.addEdgesAt 0 1 []).addEdgesAt 1 2 ["next"]

theorem chain_built : chain.Built := by
  have hv : (((empty.addVertex 1).addVertex 2).addVertex 3 : Multigraph Nat String).Built :=
    .addVertex 3 (.addVertex 2 (.addVertex 1 .empty))
  exact (hv.addEdges 1 2 []).addEdges 2 3 ["next"]

theorem levels_are_longest_paths_chain :
    chain.Built ∧ chain.levels = .ok [[1], [2], [3]] ∧ Acyclic chain.HasEdge ∧
      ∀ k, InSet [[1], [2], [3]] k 3 ↔ LongestPathTo chain.HasEdge k 3 := by
  obtain ⟨hok, hsets, _⟩ := levels_are_longest_paths chain chain_built
  have hlevels : chain.levels = .ok [[1], [2], [3]] := by decide +kernel
  obtain ⟨_, _, _, hset, _⟩ := hsets _ hlevels
  exact ⟨chain_built, hlevels, hok.mp ⟨_, hlevels⟩, hset 3 (by decide)⟩

end Multigraph

end WritePlan

import WritePlan.Proofs.BatchOrder
import WritePlan.Proofs.Delivery
import WritePlan.Proofs.Members
import WritePlan.Proofs.MistakenOrder

namespace WritePlan

/-- Both are in the list, `i` in front of `j`. -/
def StandsBefore (places : List Nat) (i j : Nat) : Prop :=
  [i, j].Sublist places

theorem standsBefore_or {places : List Nat} {i j : Nat} (hi : i ∈ places) (hj : j ∈ places)
    (hne : i ≠ j) : StandsBefore places i j ∨ StandsBefore places j i := by
  obtain ⟨before, after, rfl⟩ := List.append_of_mem hi
  rcases List.mem_append.mp hj with hj | hj
  · have hsub : ([j] ++ [i]).Sublist (before ++ i :: after) :=
      (List.singleton_sublist.mpr hj).append (List.singleton_sublist.mpr List.mem_cons_self)
    exact .inr hsub
  · have hj : j ∈ after := (List.mem_cons.mp hj).resolve_left (Ne.symm hne)
    have hsub : [i, j].Sublist (i :: after) := (List.singleton_sublist.mpr hj).cons_cons i
    exact .inl (hsub.trans (List.sublist_append_right before _))

/-- In a list that goes by levels, and within a level never has `r` from front to back: where `r`
holds from `j` to `i`, it is `i` that stands in front, unless `j` is of an earlier level. -/
theorem standsBefore_iff {places : List Nat} {level : Nat → Nat} {r : Nat → Nat → Prop}
    (h : places.Pairwise fun i j => level i < level j ∨ level i = level j ∧ ¬ r i j) {i j : Nat}
    (hi : i ∈ places) (hj : j ∈ places) (hne : i ≠ j) (hr : r j i) :
    StandsBefore places i j ↔ level i ≤ level j := by
  have hpair {x y : Nat} (hxy : StandsBefore places x y) :
      level x < level y ∨ level x = level y ∧ ¬ r x y :=
    List.pairwise_iff_forall_sublist.mp h hxy
  constructor
  · intro hij
    rcases hpair hij with hlt | ⟨heq, _⟩
    · exact Nat.le_of_lt hlt
    · exact Nat.le_of_eq heq
  · intro hle
    rcases standsBefore_or hi hj hne with hij | hji
    · exact hij
    · rcases hpair hji with hlt | ⟨_, hnone⟩
      · exact absurd hle (Nat.not_le.mpr hlt)
      · exact absurd hr hnone

/-- Sets in turn, each in an order of its own: what stands in front is of an earlier set, or of
the same one and in front by its order. -/
theorem pairwise_flatten_sets {sets groups : List (List Nat)} {r : Nat → Nat → Prop}
    (hgroups : List.Forall₂ List.Perm groups sets) (hn : sets.flatten.Nodup)
    (hr : ∀ g ∈ groups, g.Pairwise r) :
    groups.flatten.Pairwise fun i j =>
      Multigraph.setOf sets i < Multigraph.setOf sets j ∨
        Multigraph.setOf sets i = Multigraph.setOf sets j ∧ r i j := by
  have hset {k : Nat} {g : List Nat} (hk : groups[k]? = some g) {i : Nat} (hi : i ∈ g) :
      Multigraph.setOf sets i = k := by
    obtain ⟨hlt, rfl⟩ := List.getElem?_eq_some_iff.mp hk
    have hperm := hgroups.get hlt (hgroups.length_eq ▸ hlt)
    have hin : InSet sets k i :=
      ⟨_, List.getElem?_eq_getElem (hgroups.length_eq ▸ hlt), hperm.mem_iff.mp hi⟩
    exact (Multigraph.inSet_setOf (mem_flatten_iff.mpr ⟨k, hin⟩)).unique hn hin
  rw [List.pairwise_flatten]
  constructor
  · intro g hg
    obtain ⟨k, hk⟩ := List.mem_iff_getElem?.mp hg
    refine (hr g hg).imp_of_mem ?_
    intro i j hi hj hij
    exact .inr ⟨(hset hk hi).trans (hset hk hj).symm, hij⟩
  · rw [List.pairwise_iff_getElem]
    intro k l hk hl hlt i hi j hj
    rw [hset (List.getElem?_eq_getElem hk) hi, hset (List.getElem?_eq_getElem hl) hj]
    exact .inl hlt

theorem RowWrite.state_congr {t u : Snapshot} (h : ∀ i, (u i).state = (t i).state)
    (w : RowWrite) : w.state u = w.state t := by
  simp only [RowWrite.state, h]

theorem RowWrite.SameRow.state_eq {v w : RowWrite} (h : v.SameRow w) (t : Snapshot) :
    v.state t = w.state t := by
  simp only [RowWrite.state, h.2]

/-- In one table an insert is above all deletes. -/
theorem Comparer.standard_eq_gt {m : Model} {t : Snapshot} {a d : RowWrite}
    (htable : a.table = d.table) (ha : a.state t = .added) (hd : d.state t = .deleted) :
    Comparer.standard m t a d = .gt := by
  unfold Comparer.standard
  rw [htable, ha, hd, Std.ReflOrd.compare_self, Std.ReflOrd.compare_self]
  rfl

/-- At the first place stands an insert, and at the second a delete in the same table. -/
def InsertAndDelete (ws : List RowWrite) (t : Snapshot) (i j : Nat) : Prop :=
  ∃ a d, ws[i]? = some a ∧ ws[j]? = some d ∧ a.table = d.table ∧ a.state t = .added ∧
    d.state t = .deleted

theorem Shows.exists_of_mem {ws vs : List RowWrite} {places : List Nat}
    (h : Shows ws places vs) {i : Nat} (hi : i ∈ places) :
    ∃ v ∈ vs, ∃ w, ws[i]? = some w ∧ v.SameRow w := by
  induction h with
  | nil => cases hi
  | cons hv _ ih =>
    rcases List.mem_cons.mp hi with rfl | hi
    · exact ⟨_, List.mem_cons_self, hv⟩
    · obtain ⟨v, hv, hw⟩ := ih hi
      exact ⟨v, List.mem_cons_of_mem _ hv, hw⟩

/-- In a sorted set no insert stands before a delete of its table. -/
theorem Shows.pairwise {m : Model} {ws vs : List RowWrite} {places : List Nat} {t u : Snapshot}
    (h : Shows ws places vs) (hu : ∀ i, (u i).state = (t i).state)
    (hvs : vs.Pairwise fun v w => (Comparer.standard m u v w).isLE = true) :
    places.Pairwise fun i j => ¬ InsertAndDelete ws t i j := by
  induction h with
  | nil => exact .nil
  | cons hv hrest ih =>
    obtain ⟨hfirst, hvs⟩ := List.pairwise_cons.mp hvs
    refine List.pairwise_cons.mpr ⟨?_, ih hvs⟩
    intro j hj hboth
    obtain ⟨a, d, ha, hd, htable, hadded, hdeleted⟩ := hboth
    obtain ⟨a', ha', hva⟩ := hv
    obtain ⟨v, hmem, d', hd', hvd⟩ := Shows.exists_of_mem hrest hj
    obtain rfl := Option.some.inj (ha.symm.trans ha')
    obtain rfl := Option.some.inj (hd.symm.trans hd')
    have hgt := Comparer.standard_eq_gt (m := m) (t := u)
      (hva.1.trans (htable.trans hvd.1.symm))
      ((hva.state_eq u).trans ((RowWrite.state_congr hu a).trans hadded))
      ((hvd.state_eq u).trans ((RowWrite.state_congr hu d).trans hdeleted))
    have hle := hfirst v hmem
    rw [hgt] at hle
    cases hle

/-- The schedule shows the places of the levels, level by level. -/
theorem OpenedInTurn.shows {p : Planner} (hp : p.comparer = .standard) {t : Snapshot}
    {ts : List Snapshot} (hts : ∀ u ∈ ts, ∀ i, (u i).state = (t i).state) {ws : List RowWrite}
    {levels : List (List Nat)} (hlt : ∀ i ∈ levels.flatten, i < ws.length)
    {opened : List OpenedSet}
    (h : OpenedInTurn p (levels.map (·.filterMap (ws[·]?))) ts opened) :
    ∃ groups, List.Forall₂ List.Perm groups (levels.take opened.length) ∧
      Shows ws groups.flatten (OpenedSet.schedule opened) ∧
      ∀ g ∈ groups, g.Pairwise fun i j => ¬ InsertAndDelete ws t i j := by
  induction opened using List.reverseRecOn with
  | nil => exact ⟨[], .nil, .nil, by simp⟩
  | append_singleton opened o ih =>
    obtain ⟨h, set, u, hset, hu, hsorted⟩ := openedInTurn_concat.mp h
    obtain ⟨groups, hgroups, hshows, hordered⟩ := ih h
    rw [List.getElem?_map, Option.map_eq_some_iff] at hset
    obtain ⟨level, hlevel, rfl⟩ := hset
    obtain ⟨hk, rfl⟩ := List.getElem?_eq_some_iff.mp hlevel
    have hstand : Shows ws levels[opened.length] (levels[opened.length].filterMap (ws[·]?)) :=
      .filterMap fun i hi => hlt i (List.mem_flatten_of_mem (List.getElem_mem hk) hi)
    obtain ⟨g, hg, hgshows⟩ := hstand.perm hsorted.perm
    have hascending := hsorted.ascending
    rw [hp] at hascending
    refine ⟨groups ++ [g], ?_, ?_, ?_⟩
    · rw [List.length_append, List.length_singleton, ← List.take_append_getElem hk]
      exact List.rel_append hgroups (.cons hg .nil)
    · rw [OpenedSet.schedule_concat, List.flatten_append, List.flatten_singleton]
      exact List.rel_append hshows hgshows
    · intro g' hg'
      rcases List.mem_append.mp hg' with hg' | hg'
      · exact hordered g' hg'
      · rw [List.mem_singleton.mp hg']
        exact hgshows.pairwise (hts u (List.mem_of_getElem? hu)) hascending

/-- The graph has an edge from the first place to the second: by a rule, or since the writes are
mistaken for such. -/
def PutBefore (m : Model) (collate : Collation) (t : Snapshot) (ws : List RowWrite)
    (i j : Nat) : Prop :=
  ∃ label, Between ws (fun p d =>
    RowWrite.Required m collate t label p d ∨ RowWrite.Mistaken m collate t label p d) i j

/-- The rows of the type may be referred to, by their primary key, for the sake of the foreign
key. -/
structure Model.RefersTo (m : Model) (fk : ForeignKeyId) (e : EntityTypeId) : Prop where
  fk_lt : fk.index < m.foreignKeys.length
  type_lt : e.index < m.entityTypes.length
  key_eq : (m.foreignKey fk).principalKey = (m.entityType e).primaryKey

section Edges

variable {s : Spec} {m : Model} {collate : Collation} {t : Snapshot} {ws : List RowWrite}
variable {i j : Nat} {a d : RowWrite}

theorem Model.RefersTo.onSide (hm : s.build = .ok m) {fk : ForeignKeyId} {e : EntityTypeId}
    (h : m.RefersTo fk e) : m.OnSide fk .principal e := by
  refine ⟨h.fk_lt, ?_⟩
  have hkey : m.principalKey fk = m.primaryKey e := by
    rw [Model.principalKey, Model.primaryKey, h.key_eq]
  change m.isSameOrBase (m.foreignKey fk).principal e = true
  rw [Spec.principal_declaring hm h.fk_lt, hkey]
  exact Spec.primaryKey_declaring hm h.type_lt

theorem isInsertOrUpdate_of_deleted (hd : d.state t = .deleted) :
    d.isInsertOrUpdate t = false := by
  simp [RowWrite.isInsertOrUpdate, hd, EntityState.isAdded, EntityState.isModified]

theorem ne_of_deleted_of_added (hd : ws[i]? = some d) (ha : ws[j]? = some a)
    (hdeleted : d.state t = .deleted) (hadded : a.state t = .added) : i ≠ j := by
  intro hij
  rw [hij, ha] at hd
  rw [← Option.some.inj hd, hadded] at hdeleted
  cases hdeleted

theorem entry_deleted_of_deleted (hd : d.state t = .deleted) {k : Nat} (hk : k ∈ d.entries) :
    (t k).state = .deleted := by
  unfold RowWrite.state at hd
  split at hd
  · rename_i hall
    exact of_decide_eq_true (List.all_eq_true.mp hall k hk)
  · split at hd
    · cases hd
    · cases hd

/-- A delete waits for nothing if no foreign key refers to rows of its types. -/
theorem not_putBefore_of_unreferred (hd : ws[j]? = some d) (hdeleted : d.state t = .deleted)
    (h : ∀ k ∈ d.entries, ∀ fk, ¬ m.OnSide fk .principal (t k).entityType) :
    ¬ PutBefore m collate t ws i j := by
  have hinsert := isInsertOrUpdate_of_deleted hdeleted
  intro hput
  obtain ⟨label, _, p, d', _, hd', hrule⟩ := hput
  obtain rfl := Option.some.inj (hd.symm.trans hd')
  cases label with
  | uniqueIndex ix =>
    rcases hrule with hfreed | hnone
    · exact Bool.false_ne_true (hinsert.symm.trans hfreed.2.1)
    · exact hnone
  | foreignKey fk =>
    rcases hrule with (hfirst | hfirst) | (hsame | hsame)
    · exact Bool.false_ne_true (hinsert.symm.trans hfirst.2.1)
    · obtain ⟨_, _, k, hk, _, hside, _⟩ := hfirst.2.2
      exact h k hk fk hside
    · exact Bool.false_ne_true (hinsert.symm.trans hsame.2.1)
    · obtain ⟨_, _, k, hk, _, hside, _⟩ := hsame.2.2
      exact h k hk fk hside

theorem Entry.rowKey?_eq_some {e : Entry} {key : RowKey} (h : e.rowKey? m = some key) :
    key.values = e.primaryKeyValues m
        (if e.state.isDeleted then .original else .current) ∧
      ∀ v ∈ key.values, v ≠ .null := by
  simp only [Entry.rowKey?, Option.ite_none_left_eq_some, Option.some.injEq] at h
  obtain ⟨_, hnull, rfl⟩ := h
  refine ⟨rfl, ?_⟩
  intro v hv hv'
  exact hnull (List.any_eq_true.mpr ⟨v, hv, decide_eq_true hv'⟩)

/-- What has one row key before and after agrees in all properties of the key. -/
theorem Entry.agrees_of_rowKey? {e f : Entry} {fk : ForeignKeyId} {key : RowKey}
    (he : (m.foreignKey fk).principalKey = (m.entityType e.entityType).primaryKey)
    (hf : (m.foreignKey fk).principalKey = (m.entityType f.entityType).primaryKey)
    (hekey : e.rowKey? m = some key) (hfkey : f.rowKey? m = some key)
    (hadded : e.state = .added) (hdeleted : f.state = .deleted) :
    e.Agrees collate (m.sideProperties fk .principal) .current
      f (m.sideProperties fk .principal) .original := by
  obtain ⟨hevalues, hnull⟩ := Entry.rowKey?_eq_some hekey
  obtain ⟨hfvalues, _⟩ := Entry.rowKey?_eq_some hfkey
  have hcolumns : m.keyByColumn e.entityType = m.keyByColumn f.entityType := by
    rw [Model.keyByColumn, Model.keyByColumn, Model.primaryKey, Model.primaryKey, ← he, hf]
  have hmem {q : PropertyId} : q ∈ m.keyByColumn e.entityType ↔
      q ∈ m.sideProperties fk .principal := by
    rw [Model.keyByColumn, mem_sortBy, Model.primaryKey, ← he]
    rfl
  rw [hadded] at hevalues
  rw [hdeleted, Entry.primaryKeyValues, ← hcolumns] at hfvalues
  have hsame := List.map_eq_map_iff.mp (hevalues.symm.trans hfvalues)
  have hcurrent (q : PropertyId) (hq : q ∈ m.sideProperties fk .principal) :
      e.read .current q ≠ .null := by
    apply hnull
    rw [hevalues]
    exact List.mem_map_of_mem (hmem.mpr hq)
  refine ⟨hcurrent, ?_, ?_⟩
  · intro q hq
    have hq' := hsame q (hmem.mpr hq)
    exact fun hnone => hcurrent q hq (hq'.trans hnone)
  · apply List.map_congr_left
    intro q hq
    have hq' := hsame q (hmem.mpr hq)
    exact congrArg collate hq'

/-- The insert `a` has the key of the row that `d` deletes, and a foreign key refers to it. -/
def ReusesReferred (m : Model) (t : Snapshot) (d a : RowWrite) : Prop :=
  ∃ l ∈ d.entries, ∃ k ∈ a.entries, ∃ key fk, (t k).state = .added ∧
    (t l).rowKey? m = some key ∧ (t k).rowKey? m = some key ∧
    m.RefersTo fk (t l).entityType ∧ m.RefersTo fk (t k).entityType

/-- The insert is put before the delete then: its key is new to the graph, and the delete waits for
the references to that key to end. -/
theorem putBefore_of_reused (hm : s.build = .ok m) (ha : ws[i]? = some a) (hd : ws[j]? = some d)
    (hadded : a.state t = .added) (hdeleted : d.state t = .deleted)
    (h : ReusesReferred m t d a) : PutBefore m collate t ws i j := by
  obtain ⟨l, hl, k, hk, key, fk, hkadded, hlkey, hkkey, hlfk, hkfk⟩ := h
  have hldeleted := entry_deleted_of_deleted hdeleted hl
  have hne : i ≠ j := (ne_of_deleted_of_added hd ha hdeleted hadded).symm
  have hmeets : (t k).Agrees collate (m.sideProperties fk .principal) .current
      (t l) (m.sideProperties fk .principal) .original :=
    Entry.agrees_of_rowKey? hkfk.key_eq hlfk.key_eq hkkey hlkey hkadded hldeleted
  refine ⟨.foreignKey fk, hne, a, d, ha, hd, .inr (.inr ⟨.inl ?_, ?_, ?_⟩)⟩
  · rw [hadded]
    rfl
  · rw [hdeleted]
    rfl
  · exact ⟨k, hk, l, hl, hkfk.onSide hm, hlfk.onSide hm, hmeets⟩

end Edges

/-- A stream that ends without a failure has sent the writes by their levels, and within a level no
insert in front of a delete of its table. -/
theorem Planner.sent_by_levels {s : Spec} {p : Planner} (hm : s.build = .ok p.model)
    (hp : p.comparer = .standard) {t : Snapshot} {later : List Snapshot}
    (hstates : ∀ u ∈ later, ∀ i, (u i).state = (t i).state) {entries : List Nat} {begun : Nat}
    (hended : .ended ∈ p.answers entries begun (t :: later))
    (hfailed : ∀ e, .failed e ∉ p.answers entries begun (t :: later)) :
    ∃ built places, ∃ level : Nat → Nat, p.buildWrites t entries = .ok built ∧
      places.Perm (List.range built.writes.length) ∧
      Shows built.writes places (writesOf (sentBatches (p.answers entries begun (t :: later)))) ∧
      (∀ i < built.writes.length,
        LongestPathTo (PutBefore p.model p.collate t built.writes) (level i) i) ∧
      places.Pairwise fun i j =>
        level i < level j ∨ level i = level j ∧ ¬ InsertAndDelete built.writes t i j := by
  cases hsets : (p.prepare t entries).sets with
  | error e =>
    rw [answers_of_error hsets] at hfailed
    exact absurd List.mem_cons_self (hfailed e)
  | ok sets =>
    have hc (u : Snapshot) : Std.TransCmp (p.comparer p.model u) := by
      rw [hp]
      infer_instance
    obtain ⟨built, hb, _⟩ := perm_of_sets hsets
    obtain ⟨g, hg, hbuilt, hv, _⟩ := dependencyGraph_eq_ok p.model p.collate t built.writes
    have hw := hbuilt.indexed
    have hedges : g.HasEdge = PutBefore p.model p.collate t built.writes := by
      funext i j
      exact propext (hasEdge_iff hm hg)
    obtain ⟨levels, hl, rfl⟩ := levels_of_sets hb hg hsets
    have hlevelled := Multigraph.levelled_of_levels hw hl
    have hperm := hlevelled.perm
    rw [hv] at hperm
    obtain ⟨opened, hdelivery⟩ := answers_of_sets hc hsets begun later
    obtain ⟨hlength, _, hrows⟩ := hdelivery.all_sent hended hfailed
    have hts : ∀ u ∈ t :: later, ∀ i, (u i).state = (t i).state :=
      List.forall_mem_cons.mpr ⟨fun _ => rfl, hstates⟩
    obtain ⟨groups, hgroups, hshows, hordered⟩ := hdelivery.inTurn.shows hp hts
      fun i hi => List.mem_range.mp (hperm.mem_iff.mp hi)
    rw [hlength, List.length_map, List.take_length] at hgroups
    refine ⟨built, groups.flatten, Multigraph.setOf levels, hb, ?_, hshows.of_sameRows hrows,
      ?_, ?_⟩
    · exact (List.Perm.flatten_congr hgroups).trans hperm
    · intro i hi
      have hmem : i ∈ g.vertices := by
        rw [hv]
        exact List.mem_range.mpr hi
      exact hedges ▸ hlevelled.longestPathTo hw hmem
    · exact pairwise_flatten_sets hgroups (hperm.nodup_iff.mpr List.nodup_range) hordered

theorem Planner.ofConfig_eq_ok {m : Model} {c : Config} {p : Planner}
    (h : Planner.ofConfig m c = .ok p) :
    p.model = m ∧ p.collate = id ∧ p.comparer = .standard := by
  obtain ⟨_, _, h⟩ := bind_eq_ok.mp h
  obtain rfl := Except.ok.inj h
  exact ⟨rfl, rfl, rfl⟩

/-- Of a row that is deleted and one that is inserted into its table, the delete is sent first
exactly if no longer path of edges leads to it. So it is where no foreign key refers to rows of the
type. -/
theorem deleted_row_first_iff (s : Spec) (m : Model) (hm : s.build = .ok m) (c : Config)
    (p : Planner) (hp : Planner.ofConfig m c = .ok p) (t : Snapshot) (later : List Snapshot)
    (hstates : ∀ u ∈ later, ∀ i, (u i).state = (t i).state) (entries : List Nat) (begun : Nat)
    (hended : .ended ∈ p.answers entries begun (t :: later))
    (hfailed : ∀ e, .failed e ∉ p.answers entries begun (t :: later)) :
    ∃ built places, p.buildWrites t entries = .ok built ∧
      places.Perm (List.range built.writes.length) ∧
      Shows built.writes places (writesOf (sentBatches (p.answers entries begun (t :: later)))) ∧
      ∀ i j d a, built.writes[i]? = some d → built.writes[j]? = some a →
        d.state t = .deleted → a.state t = .added → d.table = a.table →
        (∃ n k, LongestPathTo (PutBefore m id t built.writes) n i ∧
          LongestPathTo (PutBefore m id t built.writes) k j ∧
          (StandsBefore places i j ↔ n ≤ k)) ∧
        ((∀ l ∈ d.entries, ∀ fk, ¬ m.OnSide fk .principal (t l).entityType) →
          StandsBefore places i j) ∧
        (ReusesReferred m t d a → StandsBefore places j i) := by
  obtain ⟨rfl, hcollate, hcomparer⟩ := Planner.ofConfig_eq_ok hp
  obtain ⟨built, places, level, hb, hperm, hshows, hlevel, hpairwise⟩ :=
    Planner.sent_by_levels hm hcomparer hstates hended hfailed
  rw [hcollate] at hlevel
  refine ⟨built, places, hb, hperm, hshows, ?_⟩
  intro i j d a hi hj hd ha htable
  have hilt := (List.getElem?_eq_some_iff.mp hi).1
  have hjlt := (List.getElem?_eq_some_iff.mp hj).1
  have himem := hperm.mem_iff.mpr (List.mem_range.mpr hilt)
  have hjmem := hperm.mem_iff.mpr (List.mem_range.mpr hjlt)
  have hne := ne_of_deleted_of_added hi hj hd ha
  have hiff : StandsBefore places i j ↔ level i ≤ level j :=
    standsBefore_iff hpairwise himem hjmem hne ⟨a, d, hj, hi, htable.symm, ha, hd⟩
  refine ⟨⟨level i, level j, hlevel i hilt, hlevel j hjlt, hiff⟩, ?_, ?_⟩
  · intro hunreferred
    have hzero := (hlevel i hilt).1.eq_zero fun _ => not_putBefore_of_unreferred hi hd hunreferred
    rw [hiff, hzero]
    exact Nat.zero_le _
  · intro hreused
    have hput : PutBefore p.model id t built.writes j i :=
      putBefore_of_reused hm hj hi ha hd hreused
    have hlt : level j < level i := (hlevel i hilt).2 _ ((hlevel j hjlt).1.step hput)
    have hnot : ¬ StandsBefore places i j := fun h => absurd (hiff.mp h) (Nat.not_le.mpr hlt)
    exact (standsBefore_or himem hjmem hne).resolve_left hnot

namespace Family

/-- The planner that a model has if nothing is configured. -/
theorem ofConfig_empty (m : Model) :
    Planner.ofConfig m {} = .ok { planner with model := m, tableOf := m.tableIn none } := by
  have hvalid : ({} : Config).validate = .ok () := by decide +kernel
  unfold Planner.ofConfig
  rw [hvalid]
  rfl

theorem ofConfig_default : Planner.ofConfig model {} = .ok planner :=
  ofConfig_empty model

/-- Nothing refers to children. -/
theorem not_onSide_child (fk : ForeignKeyId) : ¬ model.OnSide fk .principal ⟨1⟩ := by
  intro hside
  obtain ⟨hlt, hside⟩ := hside
  have hlength : model.foreignKeys.length = 1 := by decide +kernel
  have hzero : fk = ⟨0⟩ := congrArg ForeignKeyId.mk (Nat.lt_one_iff.mp (hlength ▸ hlt))
  have hnot : model.isSameOrBase (model.foreignKey ⟨0⟩).principal ⟨1⟩ = false := by decide +kernel
  rw [hzero] at hside
  exact Bool.false_ne_true (hnot.symm.trans hside)

/-- A child is deleted and added again. -/
def restored : Snapshot
  | 0 => row 1 .deleted [5, 3]
  | _ => row 1 .added [5, 3]

theorem deleted_row_first_iff_restored :
    spec.build = .ok model ∧ Planner.ofConfig model {} = .ok planner ∧
      .ended ∈ planner.answers [0, 1] 0 [restored, restored, restored] ∧
      ∃ built places, planner.buildWrites restored [0, 1] = .ok built ∧
        built.writes.map (·.state restored) = [.deleted, .added] ∧
        Shows built.writes places
          (writesOf (sentBatches (planner.answers [0, 1] 0 [restored, restored, restored]))) ∧
        StandsBefore places 0 1 := by
  have hended : .ended ∈ planner.answers [0, 1] 0 [restored, restored, restored] := by
    decide +kernel
  obtain ⟨built, places, hb, _, hshows, hall⟩ := deleted_row_first_iff spec model spec_build {}
    planner ofConfig_default restored [restored, restored] (by simp) [0, 1] 0 hended
    (not_failed_of_all (by decide +kernel))
  obtain ⟨built', hb', hw⟩ : ∃ built, planner.buildWrites restored [0, 1] = .ok built ∧
      built.writes = [⟨⟨none, "Children"⟩, [0], none⟩, ⟨⟨none, "Children"⟩, [1], none⟩] :=
    exists_of_toOption_map (by decide +kernel)
  obtain rfl := Except.ok.inj (hb.symm.trans hb')
  refine ⟨spec_build, ofConfig_default, hended, built, places, hb, ?_, hshows, ?_⟩
  · rw [hw]
    decide
  · rw [hw] at hall
    obtain ⟨_, hunreferred, _⟩ := hall 0 1 _ _ rfl rfl (by decide) (by decide) rfl
    apply hunreferred
    intro l hl
    obtain rfl := List.mem_singleton.mp hl
    exact not_onSide_child

/-- A parent is deleted, and another one takes over its key with another code. -/
def renewed : Snapshot
  | 0 => row 0 .deleted [3, 7]
  | _ => row 0 .added [3, 8]

/-- The new parent is sent while the old one is still there. -/
theorem renewed_parent_is_inserted_first :
    spec.build = .ok model ∧ Planner.ofConfig model {} = .ok planner ∧
      ∃ built, planner.buildWrites renewed [0, 1] = .ok built ∧
        built.writes = [⟨⟨none, "Parents"⟩, [0], none⟩, ⟨⟨none, "Parents"⟩, [1], none⟩] ∧
        built.writes.map (·.state renewed) = [.deleted, .added] ∧
        (renewed 0).rowKey? model = some ⟨[.int 3]⟩ ∧
        (renewed 1).rowKey? model = some ⟨[.int 3]⟩ ∧
        .ended ∈ planner.answers [0, 1] 0 [renewed, renewed, renewed] ∧
        (∀ e, .failed e ∉ planner.answers [0, 1] 0 [renewed, renewed, renewed]) ∧
        (writesOf (sentBatches (planner.answers [0, 1] 0 [renewed, renewed, renewed]))).map
          (·.entries) = [[1], [0]] := by
  obtain ⟨built, hb, hw⟩ : ∃ built, planner.buildWrites renewed [0, 1] = .ok built ∧
      built.writes = [⟨⟨none, "Parents"⟩, [0], none⟩, ⟨⟨none, "Parents"⟩, [1], none⟩] :=
    exists_of_toOption_map (by decide +kernel)
  refine ⟨spec_build, ofConfig_default, built, hb, hw, ?_, by decide +kernel, by decide +kernel,
    by decide +kernel, not_failed_of_all (by decide +kernel), by decide +kernel⟩
  rw [hw]
  decide

end Family

end WritePlan

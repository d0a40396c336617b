import WritePlan.Error.Public
import WritePlan.Proofs.Renaming
import WritePlan.Proofs.RowContents

namespace WritePlan

/-- Lists that are the same up to their order have the same at places that answer to each other. -/
theorem exists_places {α β : Type} (g : α → β) {l l' : List α} (h : (l.map g).Perm (l'.map g)) :
    ∃ f : Nat → Nat, ((List.range l.length).map f).Perm (List.range l'.length) ∧
      ∀ i < l.length, (l'[f i]?).map g = (l[i]?).map g := by
  have hplaces (l : List α) :
      (List.range l.length).map (fun i => (l[i]?).map g) = (l.map g).map some := by
    refine List.ext_getElem (by simp) fun i _ hi => ?_
    have hi : i < l.length := by simpa using hi
    simp [hi]
  have hperm := h.map some
  rw [← hplaces l, ← hplaces l'] at hperm
  obtain ⟨js, hjs, hperm⟩ :=
    (congrFun₂ (List.eq_map_comp_perm fun i => (l'[i]?).map g) _ _).mpr hperm
  have hlength : js.length = l.length := by
    simpa using (congrArg List.length hjs).symm
  refine ⟨(js.getD · 0), ?_, fun i hi => ?_⟩
  · have heq : (List.range l.length).map (js.getD · 0) = js :=
      List.ext_getElem (by simp [hlength]) fun i _ hi => by simp [hi]
    rwa [heq]
  · have hi' : i < js.length := hlength ▸ hi
    have := congrArg (·[i]?) hjs
    simpa [hi, hi'] using this.symm

namespace RowWrite

variable {m : Model} {collate : Collation} {t : Snapshot}

/-- Writes of the same entries to the same table, each with the columns of its entries. -/
structure Alike (m : Model) (t : Snapshot) (v w : RowWrite) : Prop where
  content : v.content = w.content
  left : v.columns m t = m.columnsOf t v.entries
  right : w.columns m t = m.columnsOf t w.entries

namespace Alike

variable {v w : RowWrite}

theorem state_eq (h : v.Alike m t w) : v.state t = w.state t :=
  state_eq_of_content h.content t

theorem mem_iff (h : v.Alike m t w) (i : Nat) : i ∈ v.entries ↔ i ∈ w.entries :=
  (content_eq_iff.mp h.content).2.mem_iff

theorem changesAny_eq (h : v.Alike m t w) (ps : List PropertyId) :
    v.changesAny m t ps = w.changesAny m t ps := by
  rw [changesAny_eq_any h.left, changesAny_eq_any h.right]
  exact ((content_eq_iff.mp h.content).2.flatMap_right _).any_eq

end Alike

/-- Nothing but rows decides over which write must wait for which, and which are mistaken. -/
theorem Alike.precedes_iff {p p' d d' : RowWrite} (hp : p.Alike m t p') (hd : d.Alike m t d')
    (label : Dependency) :
    Required m collate t label p d ∨ Mistaken m collate t label p d ↔
      Required m collate t label p' d' ∨ Mistaken m collate t label p' d' := by
  cases label <;>
    simp only [Required, Mistaken, PrincipalFirst, DependentFirst, ValueFreed, SameReference,
      SameKey, BringsKey, EndsReference, Meets, isInsertOrUpdate, isUpdateOrDelete, hp.state_eq,
      hd.state_eq, hp.mem_iff, hd.mem_iff, hp.changesAny_eq]

end RowWrite

/-- A row is written unless it is updated and there is nothing to send. -/
def RowContent.IsWritten (m : Model) (t : Snapshot) (c : RowContent) : Prop :=
  (∀ i ∈ c.entries, (t i).state = .deleted) ∨ (∃ i ∈ c.entries, (t i).state = .added) ∨
    ∃ i ∈ c.entries, ∃ q ∈ (m.entityType (t i).entityType).properties,
      (⟨i, q⟩ : Source).Writes m t

instance (m : Model) (t : Snapshot) : DecidablePred (RowContent.IsWritten m t) := fun c =>
  letI (p : Nat → Prop) [DecidablePred p] : Decidable (∃ i ∈ c.entries, p i) :=
    Multiset.decidableExistsMultiset
  inferInstanceAs (Decidable (_ ∨ _ ∨ _))

namespace RowWrite

variable {m : Model} {t : Snapshot}

theorem isWritten_content {w : RowWrite} (hw : w.settled = none) :
    w.content.IsWritten m t ↔ w.state t ≠ .modified ∨ w.hasWrites m t = true := by
  have hstate : w.state t ≠ .modified ↔
      (∀ i ∈ w.entries, (t i).state = .deleted) ∨ ∃ i ∈ w.entries, (t i).state = .added := by
    rw [ne_eq, state_eq_modified_iff, Classical.not_and_iff_not_or_not]
    push Not
    rfl
  rw [hstate, hasWrites_iff hw, or_assoc]
  rfl

/-- Whether a write is kept is a matter of its row. -/
theorem content_of_kept? {w : RowWrite} (hw : w.settled = none) :
    (w.kept? m t).map content = Option.guard (RowContent.IsWritten m t ·) w.content := by
  have hmodified : (w.state t).isModified = true ↔ w.state t = .modified := decide_eq_true_iff
  unfold kept? Option.guard
  simp only [decide_eq_true_eq, isWritten_content hw, hmodified]
  by_cases hs : w.state t = .modified
  · cases hwrites : w.hasWrites m t with
    | true => simp [hs, (w.settle_sameRow m t).content_eq]
    | false => simp [hs]
  · simp [hs]

theorem contents_of_kept {ws : List RowWrite} (hws : ∀ w ∈ ws, w.settled = none) :
    (ws.filterMap (·.kept? m t)).map content =
      (ws.map content).filter (RowContent.IsWritten m t ·) := by
  rw [List.map_filterMap, ← List.filterMap_eq_filter, List.filterMap_map]
  exact List.filterMap_congr fun w hw => content_of_kept? (hws w hw)

theorem conflict?_congr {v w : RowWrite} (h : v.content = w.content) :
    v.conflict? m t = none ↔ w.conflict? m t = none := by
  have hperm := (content_eq_iff.mp h).2
  simp only [conflict?_eq_none_iff, hperm.mem_iff, (hperm.map _).nodup_iff]

end RowWrite

namespace Planner

variable {p : Planner} {t : Snapshot} {entries entries' : List Nat} {built built' : BuiltWrites}

/-- What is written is known from the routes of the entries alone. -/
theorem contents_of_built (hb : p.buildWrites t entries = .ok built) :
    (built.writes.map RowWrite.content : Multiset RowContent) =
      ((rowContents (p.routeOf t) (p.tableAt t) entries).map Prod.snd).filter
        (RowContent.IsWritten p.model t) := by
  obtain ⟨routed, hrouted, _, rfl⟩ := buildWrites_eq_ok.mp hb
  have hnone : ∀ w ∈ routed.writes, w.settled = none := fun w hw =>
    (Routed.addAll_within hrouted w hw).1
  rw [RowWrite.contents_of_kept hnone, ← contents_of_addAll hrouted, Routed.contents,
    Multiset.map_coe, Multiset.filter_coe, Routed.writes, List.map_map, List.map_map]
  rfl

/-- The same rows are written, in whatever order the entries are listed. -/
theorem contents_perm (hb : p.buildWrites t entries = .ok built)
    (hb' : p.buildWrites t entries' = .ok built') (h : entries.Perm entries') :
    (built.writes.map RowWrite.content).Perm (built'.writes.map RowWrite.content) := by
  rw [← Multiset.coe_eq_coe, contents_of_built hb, contents_of_built hb', Multiset.coe_eq_coe.mpr h]

/-- Nor does the order keep any from being written. -/
theorem buildWrites_of_perm (hb : p.buildWrites t entries = .ok built)
    (h : entries.Perm entries') : ∃ built', p.buildWrites t entries' = .ok built' := by
  have hwritten : ∀ i ∈ entries', (t i).state ≠ .unchanged := fun i hi =>
    not_unchanged_of_built hb i (h.mem_iff.mpr hi)
  obtain ⟨routed', hrouted'⟩ : ∃ routed', Routed.empty.addAll p.model p.tableOf p.sharedTables t
      entries' = .ok routed' := Routed.addAll_ok hwritten _
  refine ⟨_, buildWrites_eq_ok.mpr ⟨routed', hrouted', fun w hw => ?_, rfl⟩⟩
  obtain ⟨routed, hrouted, hconflict, _⟩ := buildWrites_eq_ok.mp hb
  obtain ⟨⟨k, _⟩, hk, rfl⟩ := List.mem_map.mp hw
  have hcontents : Routed.contents routed'.rows = Routed.contents routed.rows := by
    rw [contents_of_addAll hrouted, contents_of_addAll hrouted', Multiset.coe_eq_coe.mpr h]
  obtain ⟨v, hv, hcontent⟩ := Routed.mem_contents.mp
    (hcontents ▸ Routed.mem_contents.mpr ⟨_, hk, rfl⟩)
  exact (RowWrite.conflict?_congr hcontent).mp (hconflict v (List.mem_map.mpr ⟨_, hv, rfl⟩))

/-- Where nothing can be built, an entry is unchanged, or else entries are in conflict. -/
theorem kind_of_buildWrites {e : PlanError} (h : p.buildWrites t entries = .error e) :
    PublicKind.ofReport e.report = .update
      (if ∃ i ∈ entries, (t i).state = .unchanged then .invalidEntityState else .conflict) := by
  split
  · rename_i hunchanged
    obtain ⟨i, hi, hstate⟩ := hunchanged
    rcases bind_eq_error.mp h with hadd | ⟨_, hadd, _⟩
    · obtain ⟨_, hadd'⟩ := Routed.addAll_error hi hstate Routed.empty
      obtain rfl := Except.error.inj (hadd'.symm.trans hadd)
      rfl
    · obtain ⟨_, hadd'⟩ := Routed.addAll_error hi hstate Routed.empty
      cases hadd'.symm.trans hadd
  · rename_i hunchanged
    obtain ⟨_, hrouted⟩ :=
      Routed.addAll_ok (fun i hi hstate => hunchanged ⟨i, hi, hstate⟩) Routed.empty
    obtain ⟨_, _, _, _, rfl⟩ := sharedIdentity_of_routed hrouted h
    rfl

end Planner

/-- Two writes wait for one another as those do that are alike, at their own places. -/
theorem Between.renamed {m : Model} {collate : Collation} {t : Snapshot} {ws ws' : List RowWrite}
    {f : Nat → Nat} {label : Dependency} {i j : Nat} (hf : f i = f j → i = j)
    (hi : ∃ p p', ws[i]? = some p ∧ ws'[f i]? = some p' ∧ p.Alike m t p')
    (hj : ∃ d d', ws[j]? = some d ∧ ws'[f j]? = some d' ∧ d.Alike m t d') :
    Between ws (fun p d => RowWrite.Required m collate t label p d ∨
        RowWrite.Mistaken m collate t label p d) i j ↔
      Between ws' (fun p d => RowWrite.Required m collate t label p d ∨
        RowWrite.Mistaken m collate t label p d) (f i) (f j) := by
  obtain ⟨p, p', hp, hp', hpp'⟩ := hi
  obtain ⟨d, d', hd, hd', hdd'⟩ := hj
  have hne : i ≠ j ↔ f i ≠ f j := not_congr ⟨congrArg f, hf⟩
  simp only [Between, hp, hp', hd, hd', Option.some.injEq, exists_and_left, exists_eq_left', hne,
    hpp'.precedes_iff hdd']

/-- What is written in the sets of some levels goes by the rows at the places in them. -/
theorem bags_contents (ws : List RowWrite) (levels : List (List Nat)) :
    bags ((levels.map (·.filterMap (ws[·]?))).map (·.map RowWrite.content)) =
      (bags levels).map (Multiset.filterMap fun i => (ws[i]?).map RowWrite.content) := by
  simp only [bags, List.map_map]
  refine List.map_congr_left fun set _ => ?_
  simp only [Function.comp_apply, Multiset.filterMap_coe, List.map_filterMap]

namespace Planner

variable {p : Planner} {t : Snapshot} {entries entries' : List Nat} {built built' : BuiltWrites}
  {s : Spec}

/-- The graphs for two listings of the entries differ in the places of the writes only. -/
theorem exists_renaming (hm : s.build = .ok p.model) (h : entries.Perm entries')
    (hb : p.buildWrites t entries = .ok built) (hb' : p.buildWrites t entries' = .ok built')
    {g g' : DependencyGraph} (hg : dependencyGraph p.model p.collate t built.writes = .ok g)
    (hg' : dependencyGraph p.model p.collate t built'.writes = .ok g')
    (hv : g.vertices = List.range built.writes.length)
    (hv' : g'.vertices = List.range built'.writes.length) :
    ∃ f, Multigraph.Renaming g g' f ∧ ∀ i ∈ g.vertices,
      (built'.writes[f i]?).map RowWrite.content = (built.writes[i]?).map RowWrite.content := by
  obtain ⟨f, hf, hplaces⟩ := exists_places RowWrite.content (contents_perm hb hb' h)
  simp only [← List.mem_range, ← hv] at hplaces
  rw [← hv, ← hv'] at hf
  have hn : (g.vertices.map f).Nodup := hf.nodup_iff.mpr (hv' ▸ List.nodup_range)
  have halike : ∀ i ∈ g.vertices, ∃ w w', built.writes[i]? = some w ∧
      built'.writes[f i]? = some w' ∧ w.Alike p.model t w' := by
    intro i hi
    have hw := List.getElem?_eq_getElem (List.mem_range.mp (hv ▸ hi))
    have hcontent := hplaces i hi
    rw [hw] at hcontent
    obtain ⟨w', hw', hcontent⟩ := Option.map_eq_some_iff.mp hcontent
    exact ⟨_, w', hw, hw', hcontent.symm, columns_of_built hb _ (List.mem_of_getElem? hw),
      columns_of_built hb' _ (List.mem_of_getElem? hw')⟩
  refine ⟨f, ⟨hf, fun i hi j hj => ?_⟩, hplaces⟩
  rw [hasEdge_iff hm hg, hasEdge_iff hm hg']
  exact exists_congr fun label =>
    Between.renamed (List.inj_on_of_nodup_map hn hi hj) (halike i hi) (halike j hj)

/-- A plan for the one listing goes with a plan of the same rows for the other. -/
theorem sets_of_perm (hm : s.build = .ok p.model) (h : entries.Perm entries')
    {sets : List (List RowWrite)} (hs : (p.prepare t entries).sets = .ok sets) :
    ∃ sets', (p.prepare t entries').sets = .ok sets' ∧
      bags (sets'.map (·.map RowWrite.content)) = bags (sets.map (·.map RowWrite.content)) := by
  obtain ⟨built, hb, _⟩ := perm_of_sets hs
  obtain ⟨built', hb'⟩ := buildWrites_of_perm hb h
  obtain ⟨g, hg, hbuilt, hv, _⟩ := dependencyGraph_eq_ok p.model p.collate t built.writes
  obtain ⟨g', hg', hbuilt', hv', _⟩ := dependencyGraph_eq_ok p.model p.collate t built'.writes
  obtain ⟨f, hrenaming, hplaces⟩ := exists_renaming hm h hb hb' hg hg' hv hv'
  obtain ⟨levels, hl, rfl⟩ := levels_of_sets hb hg hs
  obtain ⟨levels', hl', hbags⟩ :=
    Multigraph.levels_rename hbuilt.indexed hbuilt'.indexed hrenaming hl
  refine ⟨levels'.map (·.filterMap (built'.writes[·]?)), ?_, ?_⟩
  · rw [p.prepare_sets hb' hg', p.arrange_eq _ hbuilt'.indexed hv', hl']
    rfl
  · have hperm := (Multigraph.levelled_of_levels hbuilt.indexed hl).perm
    rw [bags_contents, bags_contents, hbags, List.map_map, bags, List.map_map, List.map_map]
    refine List.map_congr_left fun level hlevel => ?_
    simp only [Function.comp_apply, Multiset.map_coe, Multiset.filterMap_coe, List.filterMap_map]
    congr 1
    -- all that stands in a level is a place of a write
    exact List.filterMap_congr fun i hi =>
      hplaces i (hperm.mem_iff.mp (List.mem_flatten_of_mem hlevel hi))

/-- The entries make no plan, for a fault of that kind. -/
def FailsWith (p : Planner) (t : Snapshot) (entries : List Nat) (kind : UpdateKind) : Prop :=
  ∃ e, (p.prepare t entries).sets = .error e ∧ PublicKind.ofReport e.report = .update kind

theorem failsWith_of_perm (h : entries.Perm entries') {e e' : PlanError}
    (he : (p.prepare t entries).sets = .error e) (he' : (p.prepare t entries').sets = .error e') :
    ∃ kind ∈ [UpdateKind.invalidEntityState, .conflict, .circularDependency],
      p.FailsWith t entries kind ∧ p.FailsWith t entries' kind := by
  cases hb : p.buildWrites t entries with
  | ok built =>
    obtain ⟨built', hb'⟩ := buildWrites_of_perm hb h
    obtain ⟨_, rfl⟩ := circular_of_prepare hb he
    obtain ⟨_, rfl⟩ := circular_of_prepare hb' he'
    exact ⟨.circularDependency, by simp, ⟨_, he, rfl⟩, _, he', rfl⟩
  | error u =>
    cases hb' : p.buildWrites t entries' with
    | ok built' =>
      obtain ⟨built, hb''⟩ := buildWrites_of_perm hb' h.symm
      cases hb.symm.trans hb''
    | error u' =>
      have hkind := kind_of_buildWrites hb
      simp only [h.mem_iff] at hkind
      refine ⟨_, ?_, ⟨u, prepare_error hb, hkind⟩, u', prepare_error hb', kind_of_buildWrites hb'⟩
      split <;> simp

end Planner

/-- In whatever order entries are listed, they make the same sets of the same rows, or they fail
for a fault of the same kind. -/
theorem plan_independent_of_listing (s : Spec) (p : Planner) (hm : s.build = .ok p.model)
    (t : Snapshot) (entries entries' : List Nat) (h : entries.Perm entries') :
    (∃ sets sets', (p.prepare t entries).sets = .ok sets ∧
      (p.prepare t entries').sets = .ok sets' ∧
      bags (sets.map (·.map RowWrite.content)) = bags (sets'.map (·.map RowWrite.content))) ∨
    ∃ kind ∈ [UpdateKind.invalidEntityState, .conflict, .circularDependency],
      p.FailsWith t entries kind ∧ p.FailsWith t entries' kind := by
  cases hs : (p.prepare t entries).sets with
  | ok sets =>
    obtain ⟨sets', hs', hbags⟩ := Planner.sets_of_perm hm h hs
    exact .inl ⟨sets, sets', rfl, hs', hbags.symm⟩
  | error e =>
    cases hs' : (p.prepare t entries').sets with
    | ok sets' =>
      obtain ⟨sets, hs'', _⟩ := Planner.sets_of_perm hm h.symm hs'
      cases hs.symm.trans hs''
    | error e' => exact .inr (Planner.failsWith_of_perm h hs hs')

namespace Family

/-- The child may be listed before its parent. -/
theorem plan_independent_of_listing_born :
    spec.build = .ok planner.model ∧ [0, 1].Perm [1, 0] ∧
      ∃ sets sets', (planner.prepare born [0, 1]).sets = .ok sets ∧
        (planner.prepare born [1, 0]).sets = .ok sets' ∧
        sets'.map (·.map (·.entries)) = [[[0]], [[1]]] ∧
        bags (sets.map (·.map RowWrite.content)) = bags (sets'.map (·.map RowWrite.content)) := by
  have hperm : [0, 1].Perm [1, 0] := .swap 1 0 []
  obtain ⟨sets', hsets', hentries⟩ : ∃ sets', (planner.prepare born [1, 0]).sets = .ok sets' ∧
      sets'.map (·.map (·.entries)) = [[[0]], [[1]]] :=
    exists_of_toOption_map (by decide +kernel)
  rcases plan_independent_of_listing spec planner spec_build born [0, 1] [1, 0] hperm with h | h
  · obtain ⟨sets, sets'', hsets, hsets'', hbags⟩ := h
    obtain rfl := Except.ok.inj (hsets'.symm.trans hsets'')
    exact ⟨spec_build, hperm, sets, sets', hsets, hsets', hentries, hbags⟩
  · obtain ⟨_, _, _, e, he, _⟩ := h
    cases hsets'.symm.trans he

end Family

end WritePlan

import Mathlib.Data.Multiset.Dedup
import Mathlib.Data.Multiset.Filter
import WritePlan.Proofs.BuiltWrites
import WritePlan.Proofs.Faults
import WritePlan.Proofs.SharedColumns

namespace WritePlan

/-- What is written as one row: entries, in no order, to a table. -/
structure RowContent where
  table : Table
  entries : Multiset Nat

def RowWrite.content (w : RowWrite) : RowContent :=
  ⟨w.table, w.entries⟩

theorem RowWrite.mem_content {w : RowWrite} {i : Nat} : i ∈ w.content.entries ↔ i ∈ w.entries :=
  Iff.rfl

theorem RowWrite.content_concat (w : RowWrite) (i : Nat) :
    ({ w with entries := w.entries ++ [i] } : RowWrite).content =
      ⟨w.content.table, i ::ₘ w.content.entries⟩ :=
  congrArg (RowContent.mk w.table) (Multiset.coe_eq_coe.mpr (List.perm_append_singleton i _))

theorem RowWrite.SameRow.content_eq {v w : RowWrite} (h : v.SameRow w) : v.content = w.content := by
  rw [content, content, h.1, h.2]

/-- What the writes are of, each with its route. -/
def Routed.contents (rows : List (Option Route × RowWrite)) :
    Multiset (Option Route × RowContent) :=
  (rows.map fun x => (x.1, x.2.content) : List (Option Route × RowContent))

section Routes

variable {route : Nat → Option Route} {tableAt : Nat → Table}

/-- The row of a route: all entries that have it. -/
def routeRow (route : Nat → Option Route) (s : Multiset Nat) (r : Route) : RowContent :=
  ⟨r.table, s.filter (route · = some r)⟩

/-- The rows that entries make by their routes. -/
def rowContents (route : Nat → Option Route) (tableAt : Nat → Table) (s : Multiset Nat) :
    Multiset (Option Route × RowContent) :=
  (s.filter (route · = none)).map (fun i => (none, ⟨tableAt i, {i}⟩)) +
    (s.filterMap route).dedup.map fun r => (some r, routeRow route s r)

theorem mem_rowContents_some {s : Multiset Nat} {r : Route} {c : RowContent} :
    (some r, c) ∈ rowContents route tableAt s ↔
      r ∈ s.filterMap route ∧ c = routeRow route s r := by
  simp only [rowContents, Multiset.mem_add, Multiset.mem_map, Prod.mk.injEq, reduceCtorEq,
    false_and, and_false, exists_false, false_or, Multiset.mem_dedup, Option.some.injEq]
  constructor
  · intro h
    obtain ⟨_, hr, rfl, rfl⟩ := h
    exact ⟨hr, rfl⟩
  · intro h
    obtain ⟨hr, rfl⟩ := h
    exact ⟨r, hr, rfl, rfl⟩

theorem mem_rowContents_none {s : Multiset Nat} {c : RowContent} :
    (none, c) ∈ rowContents route tableAt s ↔
      ∃ i ∈ s, route i = none ∧ c = ⟨tableAt i, {i}⟩ := by
  simp [rowContents, and_assoc, eq_comm]

variable {s : Multiset Nat} {i : Nat} {r : Route}

theorem mem_routeRow : i ∈ (routeRow route s r).entries ↔ i ∈ s ∧ route i = some r :=
  Multiset.mem_filter

/-- An entry makes no difference to the rows of other routes. -/
theorem routeRow_cons_of_ne (h : route i ≠ some r) :
    routeRow route (i ::ₘ s) r = routeRow route s r :=
  congrArg (RowContent.mk r.table) (Multiset.filter_cons_of_neg s h)

theorem routeRow_cons (h : route i = some r) :
    routeRow route (i ::ₘ s) r = ⟨r.table, i ::ₘ (routeRow route s r).entries⟩ :=
  congrArg (RowContent.mk r.table) (Multiset.filter_cons_of_pos s h)

theorem map_routeRow_cons {rs : Multiset Route} (hi : route i = some r) (hr : r ∉ rs) :
    rs.map (fun r' => (some r', routeRow route (i ::ₘ s) r')) =
      rs.map fun r' => (some r', routeRow route s r') := by
  refine Multiset.map_congr rfl fun r' hr' => ?_
  have hne : route i ≠ some r' := by
    intro h
    obtain rfl : r = r' := Option.some.inj (hi.symm.trans h)
    exact hr hr'
  rw [routeRow_cons_of_ne hne]

theorem rowContents_cons_none (hi : route i = none) :
    rowContents route tableAt (i ::ₘ s) =
      (none, ⟨tableAt i, {i}⟩) ::ₘ rowContents route tableAt s := by
  have hne (r : Route) : route i ≠ some r := by simp [hi]
  unfold rowContents
  rw [Multiset.filter_cons_of_pos s hi, Multiset.filterMap_cons_none i s hi, Multiset.map_cons,
    Multiset.cons_add]
  simp only [routeRow_cons_of_ne (hne _)]

/-- The first entry of a route begins the row of it. -/
theorem rowContents_cons_new (hi : route i = some r) (hr : r ∉ s.filterMap route) :
    rowContents route tableAt (i ::ₘ s) =
      (some r, ⟨r.table, {i}⟩) ::ₘ rowContents route tableAt s := by
  have hempty : (routeRow route s r).entries = 0 :=
    Multiset.filter_eq_nil.mpr fun j hj h => hr ((Multiset.mem_filterMap _ _).mpr ⟨j, hj, h⟩)
  have hnew : r ∉ (s.filterMap route).dedup := fun h => hr (Multiset.mem_dedup.mp h)
  unfold rowContents
  rw [Multiset.filter_cons_of_neg s (by simp [hi]), Multiset.filterMap_cons_some route i s hi,
    Multiset.dedup_cons_of_notMem hr, Multiset.map_cons, map_routeRow_cons hi hnew,
    routeRow_cons hi, hempty, Multiset.add_cons]
  rfl

/-- A further entry of a route joins the row of it, and the other rows stay. -/
theorem rowContents_cons_known (tableAt : Nat → Table) (hi : route i = some r)
    (hr : r ∈ s.filterMap route) :
    ∃ others, rowContents route tableAt s = (some r, routeRow route s r) ::ₘ others ∧
      rowContents route tableAt (i ::ₘ s) =
        (some r, ⟨r.table, i ::ₘ (routeRow route s r).entries⟩) ::ₘ others := by
  obtain ⟨rs, hrs⟩ := Multiset.exists_cons_of_mem (Multiset.mem_dedup.mpr hr)
  have hnew : r ∉ rs := (Multiset.nodup_cons.mp (hrs ▸ Multiset.nodup_dedup _)).1
  refine ⟨(s.filter (route · = none)).map (fun i => (none, ⟨tableAt i, {i}⟩)) +
    rs.map (fun r' => (some r', routeRow route s r')), ?_, ?_⟩
  · unfold rowContents
    rw [hrs, Multiset.map_cons, Multiset.add_cons]
  · unfold rowContents
    rw [Multiset.filter_cons_of_neg s (by simp [hi]), Multiset.filterMap_cons_some route i s hi,
      Multiset.dedup_cons_of_mem hr, hrs, Multiset.map_cons, map_routeRow_cons hi hnew,
      routeRow_cons hi, Multiset.add_cons]

end Routes

theorem Entry.table_of_route? {m : Model} {tableOf : EntityTypeId → Table}
    {shared : List SharedTable} {e : Entry} {k : Route} (h : e.route? m tableOf shared = some k) :
    k.table = tableOf e.entityType := by
  obtain ⟨_, _, rfl⟩ := Option.map_eq_some_iff.mp h
  rfl

namespace Routed

variable {route : Nat → Option Route} {tableAt : Nat → Table} {s : Multiset Nat}

/-- An entry joins the row of its route where it stands. -/
theorem join_split {k : Option Route} {rows : List (Option Route × RowWrite)}
    (h : rows.any (·.1 = k) = true) (i : Nat) :
    ∃ before w after, rows = before ++ (k, w) :: after ∧
      join k i rows = before ++ (k, { w with entries := w.entries ++ [i] }) :: after := by
  induction rows with
  | nil => cases h
  | cons x rows ih =>
    obtain ⟨k', w⟩ := x
    unfold join
    split
    · rename_i heq
      exact ⟨[], w, rows, by rw [heq]; rfl, by rw [heq]; rfl⟩
    · rename_i hne
      have hrest : rows.any (·.1 = k) = true := by
        simpa [hne] using h
      obtain ⟨before, v, after, hrows, hjoin⟩ := ih hrest
      exact ⟨(k', w) :: before, v, after, by rw [hrows]; rfl, by rw [hjoin]; rfl⟩

theorem contents_split (before after : List (Option Route × RowWrite))
    (x : Option Route × RowWrite) :
    contents (before ++ x :: after) = (x.1, x.2.content) ::ₘ contents (before ++ after) :=
  Multiset.coe_eq_coe.mpr (List.perm_middle.map _)

theorem mem_contents {rows : List (Option Route × RowWrite)} {k : Option Route} {c : RowContent} :
    (k, c) ∈ contents rows ↔ ∃ w, (k, w) ∈ rows ∧ w.content = c := by
  simp [contents]

theorem has_some_iff {r : Routed} (hr : contents r.rows = rowContents route tableAt s)
    {k : Route} : r.has (some k) = true ↔ k ∈ s.filterMap route := by
  have hmem : k ∈ s.filterMap route ↔ ∃ c, (some k, c) ∈ contents r.rows := by
    simp only [hr, mem_rowContents_some, exists_and_left, exists_eq, and_true]
  rw [hmem]
  simp only [has, mem_contents, List.any_eq_true, Option.isSome_some, Bool.true_and,
    decide_eq_true_eq]
  constructor
  · intro h
    obtain ⟨⟨_, w⟩, hw, rfl⟩ := h
    exact ⟨w.content, w, hw, rfl⟩
  · intro h
    obtain ⟨_, w, hw, _⟩ := h
    exact ⟨_, hw, rfl⟩

/-- Routing one more entry. -/
theorem contents_add {r : Routed} (hr : contents r.rows = rowContents route tableAt s) (i : Nat)
    (htable : ∀ k, route i = some k → k.table = tableAt i) :
    contents (r.add (route i) (tableAt i) i).rows = rowContents route tableAt (i ::ₘ s) := by
  have hnew (k : Option Route) : contents (r.rows ++ [(k, ⟨tableAt i, [i], none⟩)]) =
      (k, ⟨tableAt i, {i}⟩) ::ₘ rowContents route tableAt s := by
    rw [contents_split, List.append_nil, hr]
    rfl
  unfold add
  cases hi : route i with
  | none => exact (hnew none).trans (rowContents_cons_none hi).symm
  | some k =>
    by_cases hk : k ∈ s.filterMap route
    · have hhas := (has_some_iff hr).mpr hk
      have hany : r.rows.any (·.1 = some k) = true := by simpa [has] using hhas
      obtain ⟨before, w, after, hrows, hjoin⟩ := join_split hany i
      obtain ⟨others, hs, hcons⟩ := rowContents_cons_known tableAt hi hk
      rw [hrows, contents_split] at hr
      -- the row of a route is known by the route alone
      have hcontent : w.content = routeRow route s k :=
        (mem_rowContents_some.mp (hr ▸ Multiset.mem_cons_self _ _)).2
      have hothers : contents (before ++ after) = others := by
        rw [hs, hcontent] at hr
        exact (Multiset.cons_inj_right _).mp hr
      rw [if_pos hhas, hjoin, contents_split, hothers, hcons, RowWrite.content_concat, hcontent]
      rfl
    · rw [if_neg fun h => hk ((has_some_iff hr).mp h), rowContents_cons_new hi hk, htable k hi]
      exact hnew (some k)

variable {m : Model} {tableOf : EntityTypeId → Table} {shared : List SharedTable} {t : Snapshot}

theorem contents_addAll {r routed : Routed} {is : List Nat}
    (hr : contents r.rows = rowContents (fun i => (t i).route? m tableOf shared)
      (fun i => tableOf (t i).entityType) s)
    (h : r.addAll m tableOf shared t is = .ok routed) :
    contents routed.rows = rowContents (fun i => (t i).route? m tableOf shared)
      (fun i => tableOf (t i).entityType) (s + is) := by
  induction is generalizing r s with
  | nil =>
    obtain rfl : r = routed := Except.ok.inj h
    rw [hr, Multiset.coe_nil, Multiset.add_zero]
  | cons i is ih =>
    unfold addAll at h
    simp only at h
    split at h
    · cases h
    · have hadd := contents_add hr i fun k hk => Entry.table_of_route? hk
      rw [ih hadd h, Multiset.cons_add, ← Multiset.add_cons, Multiset.cons_coe]

/-- Entries are routed if none of them is unchanged. -/
theorem addAll_ok {is : List Nat} (his : ∀ i ∈ is, (t i).state ≠ .unchanged) (r : Routed) :
    ∃ routed, r.addAll m tableOf shared t is = .ok routed := by
  induction is generalizing r with
  | nil => exact ⟨r, rfl⟩
  | cons i is ih =>
    obtain ⟨hi, his⟩ := List.forall_mem_cons.mp his
    unfold addAll
    simp only [hi, ↓reduceIte]
    exact ih his _

theorem addAll_error {is : List Nat} {i : Nat} (hi : i ∈ is) (hstate : (t i).state = .unchanged)
    (r : Routed) :
    ∃ name, r.addAll m tableOf shared t is = .error (.invalidState name .unchanged) := by
  induction is generalizing r with
  | nil => cases hi
  | cons j is ih =>
    unfold addAll
    by_cases hj : (t j).state = .unchanged
    · exact ⟨(m.entityType (t j).entityType).name, by simp only [hj, ↓reduceIte]⟩
    · simp only [hj, ↓reduceIte]
      rcases List.mem_cons.mp hi with rfl | hi
      · exact absurd hstate hj
      · exact ih hi _

end Routed

/-- What is asked of a column holds of one exactly if it holds of one of its uses, where it holds of
uses that are joined if it holds of either. -/
theorem ColumnUse.any_add {g : ColumnUse → Bool}
    (hg : ∀ c d : ColumnUse, d.column = c.column →
      g { d with roles := d.roles.join c.roles } = (g d || g c)) (c : ColumnUse)
    (cs : List ColumnUse) : (c.add cs).any g = (cs.any g || g c) := by
  induction cs with
  | nil => simp [add]
  | cons d ds ih =>
    unfold add
    split
    · rename_i hcolumn
      rw [List.any_cons, List.any_cons, hg c d hcolumn, Bool.or_assoc, Bool.or_assoc,
        Bool.or_comm (g c)]
    · rw [List.any_cons, ih, List.any_cons, Bool.or_assoc]

theorem Model.any_columnsOf (m : Model) (t : Snapshot) {g : ColumnUse → Bool}
    (hg : ∀ c d : ColumnUse, d.column = c.column →
      g { d with roles := d.roles.join c.roles } = (g d || g c)) (entries : List Nat) :
    (m.columnsOf t entries).any g = (entries.flatMap (m.columnUses t)).any g := by
  have hfold (uses cs : List ColumnUse) :
      (uses.foldl (fun cs c => c.add cs) cs).any g = (cs.any g || uses.any g) := by
    induction uses generalizing cs with
    | nil => simp
    | cons c uses ih =>
      rw [List.foldl_cons, ih, ColumnUse.any_add hg, List.any_cons, Bool.or_assoc]
  unfold columnsOf
  rw [hfold, List.any_nil, Bool.false_or]

namespace RowWrite

variable {m : Model} {t now : Snapshot} {w : RowWrite}

theorem hasWrites_eq_any (hw : w.columns m now = m.columnsOf t w.entries) :
    w.hasWrites m now = (w.entries.flatMap (m.columnUses t)).any (·.roles.write) := by
  rw [hasWrites, hw]
  exact m.any_columnsOf t (fun _ _ _ => rfl) w.entries

theorem changesAny_eq_any (hw : w.columns m now = m.columnsOf t w.entries)
    (ps : List PropertyId) :
    w.changesAny m now ps = (w.entries.flatMap (m.columnUses t)).any fun c =>
      (c.roles.write || c.roles.read) && ps.any fun p => m.columnOf p = c.column := by
  rw [changesAny, hw]
  refine m.any_columnsOf t (fun c d hcolumn => ?_) w.entries
  change ((d.roles.write || c.roles.write || (d.roles.read || c.roles.read)) &&
    ps.any fun p => m.columnOf p = d.column) = _
  rw [hcolumn]
  cases d.roles.write <;> cases c.roles.write <;> cases d.roles.read <;> cases c.roles.read <;>
    simp

/-- A write has a column to send if one of its entries has one. -/
theorem hasWrites_iff (hw : w.settled = none) :
    w.hasWrites m t = true ↔ ∃ i ∈ w.entries,
      ∃ q ∈ (m.entityType (t i).entityType).properties, (⟨i, q⟩ : Source).Writes m t := by
  have huses (i : Nat) : m.columnUses t i =
      (m.entityType (t i).entityType).properties.filterMap fun q => (⟨i, q⟩ : Source).use? m t :=
    rfl
  rw [hasWrites_eq_any (columns_of_unsettled hw)]
  simp only [List.any_flatMap, List.any_eq_true, huses, List.mem_filterMap]
  constructor
  · intro h
    obtain ⟨i, hi, c, ⟨q, hq, hc⟩, hwrite⟩ := h
    exact ⟨i, hi, q, hq, c.roles, (Source.use?_eq_some hc).2.2, hwrite⟩
  · intro h
    obtain ⟨i, hi, q, hq, r, hr, hwrite⟩ := h
    exact ⟨i, hi, ⟨i, m.property q, r⟩, ⟨q, hq, by rw [Source.use?, hr]; rfl⟩, hwrite⟩

end RowWrite

/-- Of a deleted entry nothing is sent. -/
theorem Source.Writes.not_deleted {m : Model} {t : Snapshot} {q : Source} (h : q.Writes m t) :
    (t q.entry).state ≠ .deleted := by
  obtain ⟨r, hr, hwrite⟩ := h
  intro hdeleted
  unfold Source.roles? Entry.roles? at hr
  simp only [hdeleted, EntityState.isAdded, EntityState.isModified] at hr
  split at hr
  · rw [← Option.some.inj hr] at hwrite
    simp at hwrite
  · cases hr

namespace RowWrite

variable {m : Model} {t : Snapshot} {v w : RowWrite}

theorem content_eq_iff : v.content = w.content ↔ v.table = w.table ∧ v.entries.Perm w.entries := by
  rw [content, content, RowContent.mk.injEq, Multiset.coe_eq_coe]

theorem state_eq_of_content (h : v.content = w.content) (t : Snapshot) :
    v.state t = w.state t := by
  have hperm := (content_eq_iff.mp h).2
  simp only [state, hperm.all_eq, hperm.any_eq]

theorem state_eq_deleted_iff : w.state t = .deleted ↔ ∀ i ∈ w.entries, (t i).state = .deleted := by
  have hall : (w.entries.all fun i => (t i).state.isDeleted) = true ↔
      ∀ i ∈ w.entries, (t i).state = .deleted := by
    simp [EntityState.isDeleted]
  rw [← hall]
  unfold state
  cases w.entries.all fun i => (t i).state.isDeleted with
  | true => simp
  | false => cases w.entries.any fun i => (t i).state.isAdded <;> simp

theorem state_eq_modified_iff : w.state t = .modified ↔
    (∃ i ∈ w.entries, (t i).state ≠ .deleted) ∧ ∀ i ∈ w.entries, (t i).state ≠ .added := by
  have hall : (w.entries.all fun i => (t i).state.isDeleted) = false ↔
      ∃ i ∈ w.entries, (t i).state ≠ .deleted := by
    simp [EntityState.isDeleted]
  have hany : (w.entries.any fun i => (t i).state.isAdded) = false ↔
      ∀ i ∈ w.entries, (t i).state ≠ .added := by
    simp [EntityState.isAdded]
  rw [← hall, ← hany]
  unfold state
  cases w.entries.all fun i => (t i).state.isDeleted with
  | true => simp
  | false => cases w.entries.any fun i => (t i).state.isAdded <;> simp

theorem firstRepeated_eq_none {seen es : List EntityTypeId} :
    firstRepeated seen es = none ↔ es.Nodup ∧ ∀ e ∈ es, e ∉ seen := by
  induction es generalizing seen with
  | nil => simp [firstRepeated]
  | cons e es ih =>
    unfold firstRepeated
    by_cases he : e ∈ seen
    · simp [he]
    · simp only [List.contains_iff_mem, he, ↓reduceIte, ih, List.mem_append, List.mem_singleton,
        not_or, List.nodup_cons, List.forall_mem_cons, not_false_eq_true, true_and]
      constructor
      · intro h
        exact ⟨⟨fun hmem => (h.2 e hmem).2 rfl, h.1⟩, fun e' he' => (h.2 e' he').1⟩
      · intro h
        exact ⟨h.1.2, fun e' he' => ⟨h.2 e' he', fun heq => h.1.1 (heq ▸ he')⟩⟩

/-- Entries can be written as one row if all or none of them are deleted and no two are of one
type. -/
theorem conflict?_eq_none_iff : w.conflict? m t = none ↔
    ((∀ i ∈ w.entries, (t i).state = .deleted) ∨ ∀ i ∈ w.entries, (t i).state ≠ .deleted) ∧
      (w.entries.map fun i => (t i).entityType).Nodup := by
  have hcount : (w.entries.map fun i => (t i).state).countP (·.isDeleted) =
      w.entries.countP fun i => (t i).state.isDeleted := by
    rw [List.countP_map]
    rfl
  have hrepeated : ((firstRepeated [] (w.entries.map fun i => (t i).entityType)).map fun e =>
        ConflictReason.repeatedType (m.entityType e).name) = none ↔
      (w.entries.map fun i => (t i).entityType).Nodup := by
    simp [firstRepeated_eq_none]
  unfold conflict?
  simp only [hcount, List.length_map]
  by_cases hall : ∀ i ∈ w.entries, (t i).state = .deleted
  · have hlength : w.entries.countP (fun i => (t i).state.isDeleted) = w.entries.length :=
      List.countP_eq_length.mpr fun i hi => decide_eq_true (hall i hi)
    have hadded : (w.entries.map fun i => (t i).state).any (·.isAdded) = false := by
      rw [List.any_map, List.any_eq_false]
      intro i hi
      simp [hall i hi, EntityState.isAdded]
    rw [hlength, hadded, and_iff_right (.inl hall)]
    simpa using hrepeated
  · by_cases hnone : ∀ i ∈ w.entries, (t i).state ≠ .deleted
    · have hzero : w.entries.countP (fun i => (t i).state.isDeleted) = 0 :=
        List.countP_eq_zero.mpr fun i hi => by simpa [EntityState.isDeleted] using hnone i hi
      rw [hzero, and_iff_right (.inr hnone)]
      simpa using hrepeated
    · have hpos : 0 < w.entries.countP fun i => (t i).state.isDeleted := by
        push Not at hnone
        obtain ⟨i, hi, hdeleted⟩ := hnone
        exact List.countP_pos_iff.mpr ⟨i, hi, decide_eq_true hdeleted⟩
      have hlt : w.entries.countP (fun i => (t i).state.isDeleted) < w.entries.length := by
        refine Nat.lt_of_le_of_ne List.countP_le_length fun heq => hall fun i hi => ?_
        exact of_decide_eq_true (List.countP_eq_length.mp heq i hi)
      simp only [hpos, hlt, hall, hnone, decide_true, Bool.and_true, ↓reduceIte, or_self,
        false_and, iff_false]
      split <;> simp

/-- Where the entries are not in conflict, they are deleted as their write is. -/
theorem isDeleted_of_mem (hw : w.conflict? m t = none) {i : Nat} (hi : i ∈ w.entries) :
    (t i).state.isDeleted = (w.state t).isDeleted := by
  refine decide_eq_decide.mpr ?_
  rw [state_eq_deleted_iff]
  rcases (conflict?_eq_none_iff.mp hw).1 with hall | hnone
  · exact iff_of_true (hall i hi) hall
  · exact iff_of_false (hnone i hi) fun hall => hnone i hi (hall i hi)

theorem checkIdentity_eq_ok {sensitive : Bool} :
    w.checkIdentity m sensitive t = .ok () ↔ w.conflict? m t = none := by
  unfold checkIdentity
  cases w.conflict? m t <;> simp

theorem SameRow.conflict?_eq (h : v.SameRow w) (m : Model) (t : Snapshot) :
    v.conflict? m t = w.conflict? m t := by
  simp only [conflict?, h.2]

theorem sameRow_of_kept? (h : v.kept? m t = some w) : w.SameRow v := by
  rcases kept?_eq_some.mp h with ⟨_, rfl⟩ | ⟨_, _, rfl⟩
  · exact .refl v
  · exact v.settle_sameRow m t

end RowWrite

namespace Planner

variable (p : Planner) (t : Snapshot)

def routeOf (i : Nat) : Option Route :=
  (t i).route? p.model p.tableOf p.sharedTables

def tableAt (i : Nat) : Table :=
  p.tableOf (t i).entityType

variable {p t} {entries : List Nat} {built : BuiltWrites}

/-- Entries are written where they are routed to rows and no row is in conflict. -/
theorem buildWrites_eq_ok : p.buildWrites t entries = .ok built ↔
    ∃ routed, Routed.empty.addAll p.model p.tableOf p.sharedTables t entries = .ok routed ∧
      (∀ w ∈ routed.writes, w.conflict? p.model t = none) ∧
      ⟨routed.writes.filterMap (·.kept? p.model t), routed.merged,
        routed.writes.length - (routed.writes.filterMap (·.kept? p.model t)).length⟩ = built := by
  unfold buildWrites WritePlan.buildWrites
  simp only [bind_eq_ok, forM_eq_ok, RowWrite.checkIdentity_eq_ok]
  constructor
  · intro h
    obtain ⟨routed, hrouted, _, hconflict, h⟩ := h
    exact ⟨routed, hrouted, hconflict, Except.ok.inj h⟩
  · intro h
    obtain ⟨routed, hrouted, hconflict, h⟩ := h
    exact ⟨routed, hrouted, (), hconflict, congrArg Except.ok h⟩

theorem contents_of_addAll {routed : Routed}
    (h : Routed.empty.addAll p.model p.tableOf p.sharedTables t entries = .ok routed) :
    Routed.contents routed.rows = rowContents (p.routeOf t) (p.tableAt t) entries := by
  have hempty : Routed.contents Routed.empty.rows = rowContents (p.routeOf t) (p.tableAt t) 0 := rfl
  have := Routed.contents_addAll hempty h
  rwa [Multiset.zero_add] at this

/-- There is a row for every route of an entry. -/
theorem exists_routed {routed : Routed}
    (h : Routed.empty.addAll p.model p.tableOf p.sharedTables t entries = .ok routed) {i : Nat}
    (hi : i ∈ entries) {k : Route} (hk : p.routeOf t i = some k) :
    ∃ w ∈ routed.writes, w.content = routeRow (p.routeOf t) entries k := by
  have hrow : (some k, routeRow (p.routeOf t) entries k) ∈
      rowContents (p.routeOf t) (p.tableAt t) entries :=
    mem_rowContents_some.mpr ⟨(Multiset.mem_filterMap _ _).mpr ⟨i, hi, hk⟩, rfl⟩
  rw [← contents_of_addAll h] at hrow
  obtain ⟨w, hw, hcontent⟩ := Routed.mem_contents.mp hrow
  exact ⟨w, List.mem_map.mpr ⟨_, hw, rfl⟩, hcontent⟩

/-- Entries that are routed fail to be written only for a conflict. -/
theorem sharedIdentity_of_routed {routed : Routed}
    (h : Routed.empty.addAll p.model p.tableOf p.sharedTables t entries = .ok routed)
    {e : PlanError} (hb : p.buildWrites t entries = .error e) :
    ∃ table types reason key, e = .sharedIdentity table types reason key := by
  rcases bind_eq_error.mp hb with hadd | ⟨_, _, hb⟩
  · cases h.symm.trans hadd
  · rcases bind_eq_error.mp hb with hcheck | ⟨_, _, hb⟩
    · obtain ⟨w, _, hw⟩ := forM_eq_error hcheck
      exact RowWrite.checkIdentity_eq_error hw
    · cases hb

/-- A row in conflict keeps all from being written. -/
theorem buildWrites_of_conflict {routed : Routed}
    (h : Routed.empty.addAll p.model p.tableOf p.sharedTables t entries = .ok routed)
    {w : RowWrite} (hw : w ∈ routed.writes) (hconflict : w.conflict? p.model t ≠ none) :
    ∃ table types reason key,
      p.buildWrites t entries = .error (.sharedIdentity table types reason key) := by
  cases hb : p.buildWrites t entries with
  | ok built =>
    obtain ⟨routed', hrouted, hnone, _⟩ := buildWrites_eq_ok.mp hb
    obtain rfl := Except.ok.inj (h.symm.trans hrouted)
    exact absurd (hnone w hw) hconflict
  | error e =>
    obtain ⟨table, types, reason, key, rfl⟩ := sharedIdentity_of_routed h hb
    exact ⟨table, types, reason, key, rfl⟩

section Built

variable (hb : p.buildWrites t entries = .ok built)
include hb

/-- A write that was built is one of those that were routed; it may be settled. -/
theorem exists_routed_of_mem {w : RowWrite} (hw : w ∈ built.writes) :
    w.conflict? p.model t = none ∧
      ∃ k, (k, w.content) ∈ rowContents (p.routeOf t) (p.tableAt t) entries := by
  obtain ⟨routed, hrouted, hconflict, rfl⟩ := buildWrites_eq_ok.mp hb
  obtain ⟨v, hv, hkept⟩ := List.mem_filterMap.mp hw
  have hrow := RowWrite.sameRow_of_kept? hkept
  obtain ⟨⟨k, _⟩, hk, rfl⟩ := List.mem_map.mp hv
  rw [hrow.conflict?_eq, hrow.content_eq, ← contents_of_addAll hrouted]
  exact ⟨hconflict _ hv, k, Routed.mem_contents.mpr ⟨_, hk, rfl⟩⟩

/-- A write is of a single entry that has no route, or of all entries of a route. -/
theorem content_of_mem {w : RowWrite} (hw : w ∈ built.writes) {i : Nat} (hi : i ∈ w.entries) :
    p.routeOf t i = none ∧ w.entries = [i] ∨
      ∃ k, p.routeOf t i = some k ∧ w.content = routeRow (p.routeOf t) entries k := by
  obtain ⟨_, k, hk⟩ := exists_routed_of_mem hb hw
  cases k with
  | none =>
    obtain ⟨j, _, hj, hcontent⟩ := mem_rowContents_none.mp hk
    have hentries : w.entries = [j] :=
      Multiset.coe_eq_singleton.mp (congrArg RowContent.entries hcontent)
    obtain rfl : i = j := List.mem_singleton.mp (hentries ▸ hi)
    exact .inl ⟨hj, hentries⟩
  | some k =>
    obtain ⟨_, hcontent⟩ := mem_rowContents_some.mp hk
    rw [← RowWrite.mem_content, hcontent, mem_routeRow] at hi
    exact .inr ⟨k, hi.2, hcontent⟩

/-- The row of every route of an entry is written, unless it is an update of nothing. -/
theorem exists_write_of_route {i : Nat} (hi : i ∈ entries) {k : Route}
    (hk : p.routeOf t i = some k) :
    ∃ w : RowWrite, w.content = routeRow (p.routeOf t) entries k ∧ w.settled = none ∧
      ∀ w', w.kept? p.model t = some w' → w' ∈ built.writes := by
  obtain ⟨routed, hrouted, _, rfl⟩ := buildWrites_eq_ok.mp hb
  obtain ⟨w, hw, hcontent⟩ := exists_routed hrouted hi hk
  exact ⟨w, hcontent, (Routed.addAll_within hrouted w hw).1,
    fun w' hw' => List.mem_filterMap.mpr ⟨w, hw, hw'⟩⟩

/-- The columns of a write are those of its entries, be they settled or not. -/
theorem columns_of_built : ∀ w ∈ built.writes,
    w.columns p.model t = p.model.columnsOf t w.entries := by
  obtain ⟨routed, hrouted, _, rfl⟩ := buildWrites_eq_ok.mp hb
  intro w hw
  obtain ⟨v, hv, hkept⟩ := List.mem_filterMap.mp hw
  have hcolumns : v.columns p.model t = p.model.columnsOf t v.entries :=
    RowWrite.columns_of_unsettled (Routed.addAll_within hrouted v hv).1
  rcases RowWrite.kept?_eq_some.mp hkept with ⟨_, rfl⟩ | ⟨_, _, rfl⟩
  · exact hcolumns
  · exact hcolumns

/-- Nothing unchanged is written. -/
theorem not_unchanged_of_built : ∀ i ∈ entries, (t i).state ≠ .unchanged := by
  intro i hi hstate
  obtain ⟨routed, hrouted, _⟩ := buildWrites_eq_ok.mp hb
  obtain ⟨_, herror⟩ := Routed.addAll_error hi hstate Routed.empty
  cases hrouted.symm.trans herror

end Built

end Planner

end WritePlan

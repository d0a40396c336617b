import WritePlan.Proofs.RowIdentity

namespace WritePlan

/-- Two lists with the same marks, no mark twice, read the same if what they have under one mark
does. -/
theorem map_eq_map_iff_of_marks {α β γ δ : Type} {as : List α} {bs : List β} {mark : α → γ}
    {mark' : β → γ} (hmarks : as.map mark = bs.map mark') (hn : (as.map mark).Nodup)
    (f : α → δ) (g : β → δ) :
    as.map f = bs.map g ↔ ∀ a ∈ as, ∀ b ∈ bs, mark a = mark' b → f a = g b := by
  induction as generalizing bs with
  | nil =>
    obtain rfl : bs = [] := List.map_eq_nil_iff.mp hmarks.symm
    simp
  | cons a as ih =>
    cases bs with
    | nil => simp at hmarks
    | cons b bs =>
      simp only [List.map_cons, List.cons.injEq] at hmarks hn ⊢
      obtain ⟨hab, hrest⟩ := hmarks
      obtain ⟨ha, hn⟩ := List.nodup_cons.mp hn
      rw [ih hrest hn]
      -- a mark of one head is not found in the rest of the other list
      have hleft (c : α) (hc : c ∈ as) : mark c ≠ mark' b := fun h =>
        ha (hab.trans h.symm ▸ List.mem_map_of_mem hc)
      have hright (c : β) (hc : c ∈ bs) : mark a ≠ mark' c := fun h =>
        ha (h ▸ hrest ▸ List.mem_map_of_mem hc)
      constructor
      · rintro ⟨hfirst, hothers⟩ c hc d hd hcd
        rcases List.mem_cons.mp hc with rfl | hc <;> rcases List.mem_cons.mp hd with rfl | hd
        · exact hfirst
        · exact absurd hcd (hright d hd)
        · exact absurd hcd (hleft c hc)
        · exact hothers c hc d hd hcd
      · intro h
        refine ⟨h a List.mem_cons_self b List.mem_cons_self hab, fun c hc d hd => ?_⟩
        exact h c (List.mem_cons_of_mem a hc) d (List.mem_cons_of_mem b hd)

namespace Model

variable {m : Model} {a b : EntityTypeId}

/-- The columns of a type's primary key, in the order in which it lists its properties. -/
def keyColumns (m : Model) (e : EntityTypeId) : List String :=
  (m.primaryKey e).properties.map m.columnOf

/-- The primary keys of the two types have the same columns, none of them twice. -/
structure SameKeyColumns (m : Model) (a b : EntityTypeId) : Prop where
  left : (m.keyColumns a).Nodup
  right : (m.keyColumns b).Nodup
  mem_iff : ∀ column, column ∈ m.keyColumns a ↔ column ∈ m.keyColumns b

theorem map_columnOf_keyByColumn (m : Model) (e : EntityTypeId) :
    (m.keyByColumn e).map m.columnOf = sortBy compare (m.keyColumns e) := by
  rw [keyColumns, sortBy_map, keyByColumn]

theorem mem_keyByColumn {p : PropertyId} :
    p ∈ m.keyByColumn a ↔ p ∈ (m.primaryKey a).properties :=
  mem_sortBy

theorem SameKeyColumns.columns_eq (h : m.SameKeyColumns a b) :
    (m.keyByColumn a).map m.columnOf = (m.keyByColumn b).map m.columnOf := by
  rw [map_columnOf_keyByColumn, map_columnOf_keyByColumn]
  exact sortBy_eq_of_perm ((List.perm_ext_iff_of_nodup h.left h.right).mpr h.mem_iff)

theorem SameKeyColumns.columns_nodup (h : m.SameKeyColumns a b) :
    ((m.keyByColumn a).map m.columnOf).Nodup := by
  rw [map_columnOf_keyByColumn]
  exact (sortBy_perm compare _).nodup_iff.mpr h.left

end Model

namespace Entry

variable {m : Model} {e f : Entry}

/-- The reading of the key by which the row of the entry is known. -/
def knownBy (e : Entry) : Projection :=
  if e.state.isDeleted then .original else .current

/-- In each column of the key the one entry has, in the one reading, the value that the other entry
has in the other reading. -/
def AgreesOnKey (m : Model) (e : Entry) (source : Projection) (f : Entry) (source' : Projection) :
    Prop :=
  ∀ p ∈ (m.primaryKey e.entityType).properties, ∀ q ∈ (m.primaryKey f.entityType).properties,
    m.columnOf p = m.columnOf q → e.read source p = f.read source' q

theorem primaryKeyValues_eq_iff (h : m.SameKeyColumns e.entityType f.entityType)
    (source source' : Projection) :
    e.primaryKeyValues m source = f.primaryKeyValues m source' ↔
      e.AgreesOnKey m source f source' := by
  rw [primaryKeyValues, primaryKeyValues, map_eq_map_iff_of_marks h.columns_eq h.columns_nodup]
  simp only [Model.mem_keyByColumn, AgreesOnKey]

theorem mem_primaryKeyValues {source : Projection} {v : Value} :
    v ∈ e.primaryKeyValues m source ↔
      ∃ p ∈ (m.primaryKey e.entityType).properties, e.read source p = v := by
  simp only [primaryKeyValues, List.mem_map, Model.mem_keyByColumn]

/-- No row is known where a part of the key is missing, or where the store will yet supply it. -/
theorem rowKey?_eq_none_iff (m : Model) (e : Entry) :
    e.rowKey? m = none ↔
      (∃ p ∈ (m.primaryKey e.entityType).properties, e.read e.knownBy p = .null) ∨
        e.state ≠ .deleted ∧
          ∃ p ∈ (m.primaryKey e.entityType).properties, e.temporary p = true := by
  have hnull : (e.primaryKeyValues m e.knownBy).any Value.isNull = true ↔
      ∃ p ∈ (m.primaryKey e.entityType).properties, e.read e.knownBy p = .null := by
    simp only [List.any_eq_true, mem_primaryKeyValues, Value.isNull, decide_eq_true_eq,
      exists_eq_right]
  have htemporary : (!e.state.isDeleted &&
      (m.primaryKey e.entityType).properties.any e.temporary) = true ↔
      e.state ≠ .deleted ∧
        ∃ p ∈ (m.primaryKey e.entityType).properties, e.temporary p = true := by
    simp only [Bool.and_eq_true, Bool.not_eq_true', EntityState.isDeleted, decide_eq_false_iff_not,
      List.any_eq_true, ne_eq]
  have hnone {placeholder missing : Bool} {key : RowKey} :
      (if placeholder then none else if missing then none else some key) = none ↔
        missing = true ∨ placeholder = true := by
    cases placeholder <;> cases missing <;> simp
  exact hnone.trans (or_congr hnull htemporary)

theorem values_of_rowKey? {key : RowKey} (h : e.rowKey? m = some key) :
    key.values = e.primaryKeyValues m e.knownBy :=
  (rowKey?_eq_some h).1

end Entry

namespace RowWrite

variable {m : Model} {t : Snapshot} {w : RowWrite}

theorem keyValues_of_head? {e : Entry} (h : w.entries.head?.map t = some e) :
    w.keyValues m t = e.primaryKeyValues m (w.locatedBy t) := by
  unfold keyValues
  cases hentries : w.entries with
  | nil => simp [hentries] at h
  | cons i is =>
    obtain rfl : t i = e := by simpa [hentries] using h
    rfl

end RowWrite

/-- Where two types have the same columns in their keys, in whatever order, known row keys are equal
exactly if the entries have the same value in every column. -/
theorem keys_line_up_by_column (m : Model) :
    (∀ e : Entry, e.rowKey? m = none ↔
      (∃ p ∈ (m.primaryKey e.entityType).properties, e.read e.knownBy p = .null) ∨
        e.state ≠ .deleted ∧
          ∃ p ∈ (m.primaryKey e.entityType).properties, e.temporary p = true) ∧
    ∀ e f : Entry, m.SameKeyColumns e.entityType f.entityType →
      (∀ k l, e.rowKey? m = some k → f.rowKey? m = some l →
        (k = l ↔ e.AgreesOnKey m e.knownBy f f.knownBy)) ∧
      ∀ (t : Snapshot) (v w : RowWrite), v.entries.head?.map t = some e →
        w.entries.head?.map t = some f →
        (v.keyValues m t = w.keyValues m t ↔
          e.AgreesOnKey m (v.locatedBy t) f (w.locatedBy t)) := by
  refine ⟨Entry.rowKey?_eq_none_iff m, fun e f hkeys => ⟨fun k l hk hl => ?_, ?_⟩⟩
  · rw [← Entry.primaryKeyValues_eq_iff hkeys, ← Entry.values_of_rowKey? hk,
      ← Entry.values_of_rowKey? hl]
    cases k
    cases l
    rw [RowKey.mk.injEq]
  · intro t v w hv hw
    rw [← Entry.primaryKeyValues_eq_iff hkeys, RowWrite.keyValues_of_head? hv,
      RowWrite.keyValues_of_head? hw]

namespace Archive

/-- Orders and invoices are stored together, under a region and a number. -/
def spec : Spec where
  entities := [⟨"Order", .root ⟨none, "Documents"⟩⟩, ⟨"Invoice", .root ⟨none, "Documents"⟩⟩]
  properties := [{ owner := ⟨0⟩, name := "Region" }, { owner := ⟨0⟩, name := "Number" },
    { owner := ⟨1⟩, name := "Serial", column := some "Number" },
    { owner := ⟨1⟩, name := "Area", column := some "Region" }]
  keys := [{ owner := ⟨0⟩, properties := [⟨0⟩, ⟨1⟩] }, { owner := ⟨1⟩, properties := [⟨2⟩, ⟨3⟩] }]
  foreignKeys := []
  indexes := []

def model : Model :=
  spec.build.toOption.getD ⟨[], [], [], [], []⟩

theorem spec_build : spec.build = .ok model := by decide +kernel

/-- An order that moves from the south to the north, and an invoice of the north that goes. -/
def entries : Snapshot :=
  .ofList [
    (((Entry.blank ⟨0⟩ .modified).withCurrent ⟨0⟩ (.text "north")).withCurrent ⟨1⟩
      (.int 7)).withOriginal ⟨0⟩ (.text "south") |>.withOriginal ⟨1⟩ (.int 7),
    ((Entry.blank ⟨1⟩ .deleted).withOriginal ⟨2⟩ (.int 7)).withOriginal ⟨3⟩ (.text "north")]

def update : RowWrite := ⟨⟨none, "Documents"⟩, [0], none⟩

def delete : RowWrite := ⟨⟨none, "Documents"⟩, [1], none⟩

theorem sameKeyColumns : model.SameKeyColumns ⟨0⟩ ⟨1⟩ where
  left := by decide +kernel
  right := by decide +kernel
  mem_iff _ := by
    have h : (model.keyColumns ⟨0⟩).Perm (model.keyColumns ⟨1⟩) := by decide +kernel
    exact h.mem_iff

/-- The two are of one row, though the writes on their own would look for it at different places. -/
theorem keys_line_up_by_column_north :
    spec.build = .ok model ∧ model.SameKeyColumns ⟨0⟩ ⟨1⟩ ∧
      model.keyColumns ⟨0⟩ ≠ model.keyColumns ⟨1⟩ ∧
      (entries 0).rowKey? model = some ⟨[.int 7, .text "north"]⟩ ∧
      (entries 1).rowKey? model = some ⟨[.int 7, .text "north"]⟩ ∧
      (entries 0).AgreesOnKey model .current (entries 1) .original ∧
      ¬ (entries 0).AgreesOnKey model .original (entries 1) .original := by
  obtain ⟨hrow, hwrite⟩ := (keys_line_up_by_column model).2 (entries 0) (entries 1) sameKeyColumns
  have hfirst : (entries 0).rowKey? model = some ⟨[.int 7, .text "north"]⟩ := by decide +kernel
  have hsecond : (entries 1).rowKey? model = some ⟨[.int 7, .text "north"]⟩ := by decide +kernel
  refine ⟨spec_build, sameKeyColumns, by decide +kernel, hfirst, hsecond,
    (hrow _ _ hfirst hsecond).mp rfl, fun h => ?_⟩
  have hkeys := (hwrite entries update delete rfl rfl).mpr h
  exact absurd hkeys (by decide +kernel)

end Archive

end WritePlan

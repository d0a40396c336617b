import WritePlan.Proofs.Placeholders

namespace WritePlan

namespace Source

variable {m : Model} {t : Snapshot} {q : Source} {r : Roles}

/-- The property belongs to the primary key of the entry's type. -/
def IsKey (m : Model) (t : Snapshot) (q : Source) : Prop :=
  q.property ∈ (m.primaryKey (t q.entry).entityType).properties

/-- The property guards the row against changes that were not seen. -/
def IsToken (m : Model) (q : Source) : Prop :=
  (m.property q.property).concurrencyToken = true

instance : Decidable (q.IsKey m t) :=
  inferInstanceAs (Decidable (_ ∈ _))

instance : Decidable (q.IsToken m) :=
  inferInstanceAs (Decidable (_ = true))

/-- A property that takes part is read back, written or a condition. -/
theorem takes_part (h : q.roles? m t = some r) :
    r.read = true ∨ r.write = true ∨ r.condition = true := by
  unfold roles? Entry.roles? at h
  simp only at h
  split at h
  · rename_i hparts
    rw [← Option.some.inj h]
    simpa only [Bool.or_eq_true, or_assoc] using hparts
  · cases h

theorem condition_iff :
    (∃ r, q.roles? m t = some r ∧ r.condition = true) ↔
      (t q.entry).state ≠ .added ∧ (q.IsKey m t ∨ q.IsToken m) := by
  have hcondition : (!(t q.entry).state.isAdded &&
      ((m.primaryKey (t q.entry).entityType).properties.contains q.property ||
        (m.property q.property).concurrencyToken)) = true ↔
      (t q.entry).state ≠ .added ∧ (q.IsKey m t ∨ q.IsToken m) := by
    simp [EntityState.isAdded, IsKey, IsToken]
  rw [← hcondition]
  unfold roles? Entry.roles?
  simp only
  constructor
  · intro h
    obtain ⟨r, hr, hcondition⟩ := h
    split at hr
    · rwa [← Option.some.inj hr] at hcondition
    · cases hr
  · intro h
    exact ⟨_, if_pos (by rw [h, Bool.or_true]), h⟩

/-- Of a deleted entry nothing is read back. -/
theorem Reads.not_deleted (h : q.Reads m t) : (t q.entry).state ≠ .deleted := by
  obtain ⟨r, hr, hread⟩ := h
  intro hdeleted
  unfold roles? Entry.roles? Entry.isStoreGenerated at hr
  simp only [hdeleted, EntityState.isAdded, EntityState.isModified] at hr
  split at hr
  · rw [← Option.some.inj hr] at hread
    simp at hread
  · cases hr

theorem isKey_of_key (h : q.roles? m t = some r) (hkey : r.key = true) : q.IsKey m t := by
  unfold roles? Entry.roles? at h
  simp only at h
  split at h
  · rw [← Option.some.inj h] at hkey
    exact List.contains_iff_mem.mp hkey
  · cases h

/-- A key is written for new entries only. -/
theorem Writes.not_key (h : q.Writes m t) (hadded : (t q.entry).state ≠ .added) :
    ¬ q.IsKey m t := by
  obtain ⟨r, hr, hwrite⟩ := h
  intro hkey
  have hcontains : (m.primaryKey (t q.entry).entityType).properties.contains q.property = true :=
    List.contains_iff_mem.mpr hkey
  have hstate : (t q.entry).state.isAdded = false := decide_eq_false hadded
  unfold roles? Entry.roles? at hr
  simp only [hcontains, hstate] at hr
  split at hr
  · rw [← Option.some.inj hr] at hwrite
    simp at hwrite
  · cases hr

end Source

namespace RowWrite

variable {m : Model} {t : Snapshot} {w : RowWrite}

/-- The primary key of an entry is stored in the column. -/
def KeyColumn (m : Model) (t : Snapshot) (w : RowWrite) (column : String) : Prop :=
  ∃ i ∈ w.entries, ∃ p ∈ (m.primaryKey (t i).entityType).properties, m.columnOf p = column

/-- Nothing but keys is stored in the columns of keys. -/
def KeysAlone (m : Model) (t : Snapshot) (w : RowWrite) : Prop :=
  ∀ i ∈ w.entries, ∀ p ∈ (m.entityType (t i).entityType).properties,
    w.KeyColumn m t (m.columnOf p) → (⟨i, p⟩ : Source).IsKey m t

instance (column : String) : Decidable (w.KeyColumn m t column) :=
  inferInstanceAs (Decidable (∃ i ∈ w.entries, ∃ p ∈ _, m.columnOf p = column))

instance : Decidable (w.KeysAlone m t) :=
  inferInstanceAs (Decidable (∀ i ∈ w.entries, ∀ p ∈ _, _ → _))

/-- A column plays a part exactly if one of its sources does. -/
theorem part_iff (part : Roles → Bool)
    (hpart : ∀ r s : Roles, part (r.join s) = (part r || part s)) {c : ColumnUse}
    (hc : c ∈ m.columnsOf t w.entries) :
    part c.roles = true ↔ ∃ q ∈ w.sources m t c.column, ∃ r, q.roles? m t = some r ∧
      part r = true := by
  constructor
  · exact exists_source part hpart hc
  · intro h
    obtain ⟨q, hq, r, hr, hqpart⟩ := h
    have huse : ⟨q.entry, m.property q.property, r⟩ ∈
        (w.entries.flatMap (m.columnUses t)).filter (·.column = c.column) := by
      rw [w.filter_columnUses m t c.column]
      exact List.mem_filterMap.mpr ⟨q, hq, by rw [Source.use?, hr]; rfl⟩
    obtain ⟨huse, hcolumn⟩ := List.mem_filter.mp huse
    have hany : (w.entries.flatMap (m.columnUses t)).any
        (fun d => decide (d.column = c.column) && part d.roles) = true :=
      List.any_eq_true.mpr ⟨_, huse, by rw [hcolumn, hqpart]; rfl⟩
    rw [← m.any_columnsOf t fun c' d hcolumn => ?_] at hany
    · obtain ⟨d, hd, hdpart⟩ := List.any_eq_true.mp hany
      rw [Bool.and_eq_true, decide_eq_true_eq] at hdpart
      -- a row has each column once
      obtain rfl := List.inj_on_of_nodup_map (m.columnsOf_collects t w.entries).nodup hd hc hdpart.1
      exact hdpart.2
    · change (decide (d.column = c.column) && part (d.roles.join c'.roles)) = _
      rw [hpart, hcolumn, Bool.and_or_distrib_left]

/-- A column of an insert is a condition for the sake of an entry that was there before. -/
theorem condition_of_insert (hcheck : w.conflict? m t = none) (hs : w.state t = .added)
    {c : ColumnUse} (hc : c ∈ m.columnsOf t w.entries) :
    c.roles.condition = true ↔ ∃ q ∈ w.sources m t c.column, (t q.entry).state ≠ .added ∧
      (t q.entry).state ≠ .deleted ∧ (q.IsKey m t ∨ q.IsToken m) := by
  have hdeleted {q : Source} (hq : q ∈ w.sources m t c.column) :
      (t q.entry).state ≠ .deleted := by
    have hsame := isDeleted_of_mem hcheck (mem_sources.mp hq).1
    rw [hs] at hsame
    exact of_decide_eq_false hsame
  rw [part_iff Roles.condition (fun _ _ => rfl) hc]
  refine exists_congr fun q => and_congr_right fun hq => ?_
  rw [Source.condition_iff]
  constructor
  · intro h
    exact ⟨h.1, hdeleted hq, h.2⟩
  · intro h
    exact ⟨h.1, h.2.2⟩

/-- A delete is all conditions. -/
theorem parts_of_delete (hs : w.state t = .deleted) {c : ColumnUse}
    (hc : c ∈ m.columnsOf t w.entries) :
    c.roles.condition = true ∧ c.roles.read = false ∧ c.roles.write = false := by
  have hdeleted {q : Source} (hq : q ∈ w.sources m t c.column) : (t q.entry).state = .deleted :=
    state_eq_deleted_iff.mp hs q.entry (mem_sources.mp hq).1
  have hread : c.roles.read = false := by
    by_contra hread
    rw [Bool.not_eq_false] at hread
    obtain ⟨q, hq, hreads⟩ := exists_source Roles.read (fun _ _ => rfl) hc hread
    exact Source.Reads.not_deleted hreads (hdeleted hq)
  refine ⟨?_, hread, not_write_of_deleted hs hc⟩
  obtain ⟨q, hq, r, hr, _⟩ := exists_source (fun _ => true) (fun _ _ => rfl) hc rfl
  rw [part_iff Roles.condition (fun _ _ => rfl) hc]
  rcases Source.takes_part hr with hreads | hwrites | hcondition
  · exact absurd (hdeleted hq) (Source.Reads.not_deleted ⟨r, hr, hreads⟩)
  · exact absurd (hdeleted hq) (Source.Writes.not_deleted ⟨r, hr, hwrites⟩)
  · exact ⟨q, hq, r, hr, hcondition⟩

/-- A column that plays the part of a key is a column of one. -/
theorem keyColumn_of_key {c : ColumnUse} (hc : c ∈ m.columnsOf t w.entries)
    (h : c.roles.key = true) : w.KeyColumn m t c.column := by
  obtain ⟨q, hq, r, hr, hkey⟩ := exists_source Roles.key (fun _ _ => rfl) hc h
  obtain ⟨hentry, _, hcolumn⟩ := mem_sources.mp hq
  exact ⟨q.entry, hentry, q.property, Source.isKey_of_key hr hkey, hcolumn⟩

/-- An update leaves the columns of keys alone, if nothing else is stored in them. -/
theorem not_write_of_keyColumn (hs : w.state t = .modified) (halone : w.KeysAlone m t)
    {c : ColumnUse} (hc : c ∈ m.columnsOf t w.entries) (hkey : w.KeyColumn m t c.column) :
    c.roles.write = false := by
  by_contra hwrite
  rw [Bool.not_eq_false] at hwrite
  obtain ⟨q, hq, hwrites⟩ := exists_source Roles.write (fun _ _ => rfl) hc hwrite
  obtain ⟨hentry, hproperty, hcolumn⟩ := mem_sources.mp hq
  have hadded := (state_eq_modified_iff.mp hs).2 q.entry hentry
  exact Source.Writes.not_key hwrites hadded
    (halone q.entry hentry q.property hproperty (hcolumn ▸ hkey))

end RowWrite

/-- A delete has nothing but conditions, an insert has them just for keys and tokens of entries that
were not added, and an update writes no key column in which nothing but keys is stored. -/
theorem columns_fit_kind (m : Model) (sensitive : Bool) (t now : Snapshot) (w : RowWrite)
    (hw : w.settled = none) (hcheck : w.checkIdentity m sensitive t = .ok ()) :
    (w.state t = .added → ∀ c ∈ (w.settle m t).columns m now,
      c.roles.condition = true ↔ ∃ q ∈ w.sources m t c.column, (t q.entry).state ≠ .added ∧
        (t q.entry).state ≠ .deleted ∧ (q.IsKey m t ∨ q.IsToken m)) ∧
    (w.state t = .deleted → ∀ c ∈ (w.settle m t).columns m now,
      c.roles.condition = true ∧ c.roles.read = false ∧ c.roles.write = false) ∧
    (w.state t = .modified → w.KeysAlone m t → ∀ c ∈ (w.settle m t).columns m now,
      c.roles.key = true ∨ w.KeyColumn m t c.column → c.roles.write = false) := by
  have hconflict := RowWrite.checkIdentity_eq_ok.mp hcheck
  rw [RowWrite.columns_settle hw]
  refine ⟨fun hs c hc => RowWrite.condition_of_insert hconflict hs hc,
    fun hs c hc => RowWrite.parts_of_delete hs hc, fun hs halone c hc hkey => ?_⟩
  rcases hkey with hkey | hkey
  · exact RowWrite.not_write_of_keyColumn hs halone hc (RowWrite.keyColumn_of_key hc hkey)
  · exact RowWrite.not_write_of_keyColumn hs halone hc hkey

namespace Garage

/-- An engine is added to a vehicle that is there, and the vehicle gets a new version. -/
def refitted : Snapshot
  | 0 => (Family.row 0 .modified [1, 5]).withModified ⟨1⟩ true
  | _ => Family.row 1 .added [1, 5]

def refit : RowWrite :=
  ⟨⟨none, "Vehicles"⟩, [0, 1], none⟩

/-- The number of the vehicle as a column of the insert. -/
def refittedId : ColumnUse :=
  ⟨0, model.property ⟨0⟩, ⟨false, true, true, true, false⟩⟩

theorem refittedId_mem_columns :
    refittedId ∈ (refit.settle model refitted).columns model refitted := by decide +kernel

theorem columns_fit_kind_refitted :
    refit.settled = none ∧ refit.checkIdentity model false refitted = .ok () ∧
      refit.state refitted = .added ∧
      (∃ q ∈ refit.sources model refitted refittedId.column, (refitted q.entry).state ≠ .added ∧
        (refitted q.entry).state ≠ .deleted ∧ (q.IsKey model refitted ∨ q.IsToken model)) ∧
      upgrade.checkIdentity model false upgraded = .ok () ∧ upgrade.state upgraded = .modified ∧
      upgrade.KeysAlone model upgraded ∧
      ∀ c ∈ (upgrade.settle model upgraded).columns model upgraded,
        c.roles.key = true ∨ upgrade.KeyColumn model upgraded c.column →
          c.roles.write = false := by
  have hrefit : refit.checkIdentity model false refitted = .ok () := by decide +kernel
  have hupgrade : upgrade.checkIdentity model false upgraded = .ok () := by decide +kernel
  obtain ⟨hinsert, _⟩ := columns_fit_kind model false refitted refitted refit rfl hrefit
  obtain ⟨_, _, hupdate⟩ := columns_fit_kind model false upgraded upgraded upgrade rfl hupgrade
  have halone : upgrade.KeysAlone model upgraded := by decide +kernel
  exact ⟨rfl, hrefit, by decide +kernel,
    (hinsert (by decide +kernel) refittedId refittedId_mem_columns).mp rfl, hupgrade,
    by decide +kernel, halone, hupdate (by decide +kernel) halone⟩

/-- The row is inserted, and the number of the vehicle is a condition. -/
theorem insert_has_condition :
    spec.build = .ok planner.model ∧
      .batch ⟨0, [refit.settle planner.model refitted]⟩ ∈
        planner.answers [0, 1] 0 [refitted] ∧
      refit.checkIdentity planner.model false refitted = .ok () ∧
      (refit.settle planner.model refitted).state refitted = .added ∧
      ∃ c ∈ (refit.settle planner.model refitted).columns planner.model refitted,
        c.roles.condition = true :=
  ⟨spec_build, by decide +kernel, by decide +kernel, by decide +kernel, refittedId,
    refittedId_mem_columns, rfl⟩

end Garage

end WritePlan

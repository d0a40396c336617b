import WritePlan.Proofs.Arrangement
import WritePlan.Proofs.Closure

namespace WritePlan

namespace Roles

/-- The parts that are played in some list. -/
def union (rs : List Roles) : Roles where
  read := rs.any (·.read)
  write := rs.any (·.write)
  condition := rs.any (·.condition)
  key := rs.any (·.key)
  concurrencyToken := rs.any (·.concurrencyToken)

theorem union_concat (rs : List Roles) (r : Roles) : union (rs ++ [r]) = (union rs).join r := by
  simp [union, join]

end Roles

namespace ColumnUse

/-- A further use of a column that may be in use. -/
def joinTo (c : ColumnUse) : Option ColumnUse → ColumnUse
  | none => c
  | some d => { d with roles := d.roles.join c.roles }

/-- Uses of one column in turn. -/
def joined (uses : List ColumnUse) : Option ColumnUse :=
  uses.foldl (fun found c => some (c.joinTo found)) none

theorem joined_concat (uses : List ColumnUse) (c : ColumnUse) :
    joined (uses ++ [c]) = some (c.joinTo (joined uses)) := by
  simp [joined]

/-- The first use is the source, and plays all parts that one of them plays. -/
theorem joined_cons (c : ColumnUse) (uses : List ColumnUse) :
    joined (c :: uses) = some { c with roles := Roles.union ((c :: uses).map (·.roles)) } := by
  induction uses using List.reverseRecOn with
  | nil => simp [joined, joinTo, Roles.union]
  | append_singleton uses d ih =>
    rw [← List.cons_append, joined_concat, ih, List.map_append, List.map_singleton,
      Roles.union_concat]
    rfl

theorem find?_add (c : ColumnUse) (cs : List ColumnUse) (column : String) :
    (c.add cs).find? (·.column = column) =
      if c.column = column then some (c.joinTo (cs.find? (·.column = column)))
      else cs.find? (·.column = column) := by
  induction cs with
  | nil =>
    by_cases h : c.column = column <;> simp [add, joinTo, h]
  | cons d ds ih =>
    unfold add
    by_cases hdc : d.column = c.column
    · have hkept (r : Roles) : ({ d with roles := r } : ColumnUse).column = c.column := hdc
      by_cases h : c.column = column
      · simp [hdc, hkept, h, joinTo]
      · simp [hdc, hkept, h]
    · rw [if_neg hdc, List.find?_cons, List.find?_cons, ih]
      by_cases h : d.column = column
      · have hne : c.column ≠ column := fun hc => hdc (h.trans hc.symm)
        simp [h, hne]
      · simp [h]

theorem map_column_add (c : ColumnUse) (cs : List ColumnUse) :
    (c.add cs).map column =
      if c.column ∈ cs.map column then cs.map column else cs.map column ++ [c.column] := by
  induction cs with
  | nil => rfl
  | cons d ds ih =>
    unfold add
    by_cases hdc : d.column = c.column
    · rw [if_pos hdc, if_pos (by simp [hdc])]
      rfl
    · rw [if_neg hdc, List.map_cons, ih, List.map_cons]
      simp only [List.mem_cons, Ne.symm hdc, false_or]
      split <;> rfl

/-- The columns stand for uses: each column once, with all of its uses joined. -/
structure Collects (cs uses : List ColumnUse) : Prop where
  nodup : (cs.map column).Nodup
  find? : ∀ column, cs.find? (·.column = column) = joined (uses.filter (·.column = column))

theorem Collects.add {cs uses : List ColumnUse} (h : Collects cs uses) (c : ColumnUse) :
    Collects (c.add cs) (uses ++ [c]) := by
  constructor
  · rw [map_column_add]
    split
    · exact h.nodup
    · rename_i hnew
      rw [← List.concat_eq_append]
      exact h.nodup.concat hnew
  · intro column
    rw [find?_add, h.find?, List.filter_append]
    by_cases hc : c.column = column
    · rw [if_pos hc, List.filter_cons_of_pos (by simpa using hc), List.filter_nil, joined_concat]
    · rw [if_neg hc, List.filter_cons_of_neg (by simpa using hc), List.filter_nil,
        List.append_nil]

theorem Collects.foldl {cs done : List ColumnUse} (h : Collects cs done) (uses : List ColumnUse) :
    Collects (uses.foldl (fun cs c => c.add cs) cs) (done ++ uses) := by
  induction uses generalizing cs done with
  | nil => simpa using h
  | cons c uses ih =>
    have := ih (h.add c)
    rwa [List.append_assoc] at this

/-- A column that was collected is what its uses make together. -/
theorem Collects.joined_eq {cs uses : List ColumnUse} (h : Collects cs uses) {c : ColumnUse}
    (hc : c ∈ cs) : joined (uses.filter (·.column = c.column)) = some c := by
  rw [← h.find?]
  obtain ⟨before, after, rfl⟩ := List.append_of_mem hc
  rw [List.find?_eq_some_iff_append]
  refine ⟨by simp, before, after, rfl, fun d hd => ?_⟩
  have hn := h.nodup
  rw [List.map_append, List.nodup_append] at hn
  have hne := hn.2.2 _ (List.mem_map_of_mem hd) _ List.mem_cons_self
  simpa using hne

end ColumnUse

theorem Model.columnsOf_collects (m : Model) (t : Snapshot) (entries : List Nat) :
    ColumnUse.Collects (m.columnsOf t entries) (entries.flatMap (m.columnUses t)) := by
  have h : ColumnUse.Collects [] [] := ⟨List.nodup_nil, fun _ => rfl⟩
  exact h.foldl _

/-- A property of an entry, by number. -/
structure Source where
  entry : Nat
  property : PropertyId
deriving DecidableEq

namespace Source

/-- The parts that the property wants its column to play in the write of the entry. -/
def roles? (m : Model) (t : Snapshot) (q : Source) : Option Roles :=
  (t q.entry).roles? (m.property q.property)
    ((m.primaryKey (t q.entry).entityType).properties.contains q.property)

/-- By itself the property is to be written. -/
def Writes (m : Model) (t : Snapshot) (q : Source) : Prop :=
  ∃ r, q.roles? m t = some r ∧ r.write = true

instance (m : Model) (t : Snapshot) (q : Source) : Decidable (q.Writes m t) :=
  decidable_of_iff ((q.roles? m t).any (·.write) = true) (by simp [Writes, Option.any_eq_true])

def value (t : Snapshot) (q : Source) : Value :=
  (t q.entry).current q.property

/-- What the property wants of its column. -/
def use? (m : Model) (t : Snapshot) (q : Source) : Option ColumnUse :=
  (q.roles? m t).map fun roles => ⟨q.entry, m.property q.property, roles⟩

theorem use?_eq_some {m : Model} {t : Snapshot} {q : Source} {c : ColumnUse}
    (h : q.use? m t = some c) :
    c.entry = q.entry ∧ c.property = m.property q.property ∧ q.roles? m t = some c.roles := by
  obtain ⟨roles, hroles, rfl⟩ := Option.map_eq_some_iff.mp h
  exact ⟨rfl, rfl, hroles⟩

end Source

/-- From where the values of a column are read. -/
def ColumnUse.source (c : ColumnUse) : Source :=
  ⟨c.entry, c.property.id⟩

namespace RowWrite

theorem columns_of_unsettled {m : Model} {t : Snapshot} {w : RowWrite} (hw : w.settled = none) :
    w.columns m t = m.columnsOf t w.entries := by
  rw [columns, hw, Option.getD_none]

/-- Columns that are settled stay as they were found. -/
theorem columns_settle {m : Model} {t : Snapshot} {w : RowWrite} (hw : w.settled = none)
    (now : Snapshot) : (w.settle m t).columns m now = m.columnsOf t w.entries :=
  columns_of_unsettled hw

/-- The properties of the write's entries that are stored to a column: those of the first entry
first, each entry's in the order of its type. -/
def sources (m : Model) (t : Snapshot) (w : RowWrite) (column : String) : List Source :=
  w.entries.flatMap fun i =>
    ((m.entityType (t i).entityType).properties.filter (m.columnOf · = column)).map (⟨i, ·⟩)

theorem mem_sources {m : Model} {t : Snapshot} {w : RowWrite} {column : String} {q : Source} :
    q ∈ w.sources m t column ↔ q.entry ∈ w.entries ∧
      q.property ∈ (m.entityType (t q.entry).entityType).properties ∧
      m.columnOf q.property = column := by
  cases q
  simp [sources, and_assoc]

/-- The uses of a column are those of its sources. -/
theorem filter_columnUses (m : Model) (t : Snapshot) (w : RowWrite) (column : String) :
    (w.entries.flatMap (m.columnUses t)).filter (·.column = column) =
      (w.sources m t column).filterMap (·.use? m t) := by
  unfold sources
  rw [List.filter_flatMap, List.filterMap_flatMap]
  congr 1
  funext i
  unfold Model.columnUses
  rw [List.filterMap_map, List.filter_filterMap, List.filterMap_filter]
  congr 1
  funext p
  change ((⟨i, p⟩ : Source).use? m t).filter (·.column = column) =
    if decide (m.columnOf p = column) = true then (⟨i, p⟩ : Source).use? m t else none
  cases hu : (⟨i, p⟩ : Source).use? m t with
  | none => simp
  | some c =>
    have hcolumn := congrArg Property.column (Source.use?_eq_some hu).2.1
    change c.column = m.columnOf p at hcolumn
    simp only [Option.filter_some, hcolumn]

end RowWrite

/-- A column has the first of its sources that takes part at all, and is written for the sake of
one of them. -/
theorem ColumnUse.source_of_joined {m : Model} {t : Snapshot} {qs : List Source} {c : ColumnUse}
    (h : ColumnUse.joined (qs.filterMap (·.use? m t)) = some c) :
    (∃ first, qs.find? (fun q => (q.roles? m t).isSome) = some first ∧
      c.entry = first.entry ∧ c.property = m.property first.property) ∧
    (c.roles.write = true → ∃ q ∈ qs, q.Writes m t) := by
  cases huses : qs.filterMap (·.use? m t) with
  | nil =>
    rw [huses] at h
    cases h
  | cons u uses =>
    rw [huses, ColumnUse.joined_cons] at h
    obtain rfl := Option.some.inj h
    obtain ⟨before, first, after, hqs, hbefore, hfirst, _⟩ := List.filterMap_eq_cons_iff.mp huses
    obtain ⟨hentry, hproperty, hroles⟩ := Source.use?_eq_some hfirst
    constructor
    · refine ⟨first, ?_, hentry, hproperty⟩
      rw [List.find?_eq_some_iff_append]
      refine ⟨by simp [hroles], before, after, hqs, fun q hq => ?_⟩
      have hnone : (q.roles? m t).map _ = none := hbefore q hq
      rw [Option.map_eq_none_iff] at hnone
      simp [hnone]
    · intro hwrite
      obtain ⟨r, hr, hrwrite⟩ := List.any_eq_true.mp hwrite
      obtain ⟨v, hv, rfl⟩ := List.mem_map.mp hr
      rw [← huses] at hv
      obtain ⟨q, hq, hqv⟩ := List.mem_filterMap.mp hv
      exact ⟨q, hq, v.roles, (Source.use?_eq_some hqv).2.2, hrwrite⟩

/-- A column that is written has the values of the first property to take part among those that are
stored to it, whether or not that one is to be written by itself. -/
theorem written_column_reports_first_source {s : Spec} {m : Model} (hm : s.build = .ok m)
    (classified now : Snapshot) (w : RowWrite) (hw : w.settled = none) (c : ColumnUse)
    (hc : c ∈ (w.settle m classified).columns m now) (hwrite : c.roles.write = true) :
    ∃ first, (w.sources m classified c.column).find? (fun q => (q.roles? m classified).isSome) =
        some first ∧
      c.source = first ∧ c.value now = first.value now ∧
      (∃ q ∈ w.sources m classified c.column, q.Writes m classified) ∧
      ((∃ q ∈ w.sources m classified c.column, q.Writes m classified ∧ c.source = q) ↔
        first.Writes m classified) := by
  rw [RowWrite.columns_settle hw] at hc
  have hjoined := (m.columnsOf_collects classified w.entries).joined_eq hc
  rw [w.filter_columnUses m classified c.column] at hjoined
  obtain ⟨⟨first, hfirst, hentry, hproperty⟩, hwriter⟩ := ColumnUse.source_of_joined hjoined
  have hmem := List.mem_of_find?_eq_some hfirst
  have hsource : c.source = first := by
    unfold ColumnUse.source
    rw [hentry, hproperty, Spec.property_id_of_mem hm (RowWrite.mem_sources.mp hmem).2.1]
  refine ⟨first, hfirst, hsource, ?_, hwriter hwrite, ?_⟩
  · rw [← hsource]
    rfl
  · constructor
    · intro h
      obtain ⟨q, _, hq, hq'⟩ := h
      rwa [← hq', hsource] at hq
    · intro h
      exact ⟨first, hmem, h, hsource⟩

namespace Garage

/-- Vehicles and engines in one table, where both hold the version of the row. -/
def spec : Spec where
  entities := [⟨"Vehicle", .root ⟨none, "Vehicles"⟩⟩, ⟨"Engine", .root ⟨none, "Vehicles"⟩⟩]
  properties := [{ owner := ⟨0⟩, name := "Id" },
    { owner := ⟨0⟩, name := "Version", concurrencyToken := true },
    { owner := ⟨1⟩, name := "Id" }, { owner := ⟨1⟩, name := "Version" }]
  keys := [{ owner := ⟨0⟩, properties := [⟨0⟩] }, { owner := ⟨1⟩, properties := [⟨2⟩] }]
  foreignKeys := []
  indexes := []

def model : Model :=
  spec.build.toOption.getD ⟨[], [], [], [], []⟩

theorem spec_build : spec.build = .ok model := by decide +kernel

/-- Nothing of the vehicle has changed; the engine gets a new version. -/
def upgraded : Snapshot
  | 0 => Family.row 0 .modified [1, 5]
  | _ => ((Family.row 1 .modified [1, 5]).withCurrent ⟨3⟩ (.int 6)).withModified ⟨3⟩ true

def upgrade : RowWrite :=
  ⟨⟨none, "Vehicles"⟩, [0, 1], none⟩

/-- The version as a column of the row: a condition for the vehicle, written for the engine. -/
def version : ColumnUse :=
  ⟨0, model.property ⟨1⟩, ⟨false, true, true, false, true⟩⟩

theorem version_mem_columns :
    version ∈ (upgrade.settle model upgraded).columns model upgraded := by decide +kernel

theorem written_column_reports_first_source_upgraded :
    spec.build = .ok model ∧ version ∈ (upgrade.settle model upgraded).columns model upgraded ∧
      ∃ first, (upgrade.sources model upgraded version.column).find?
          (fun q => (q.roles? model upgraded).isSome) = some first ∧ version.source = first ∧
        ∃ q ∈ upgrade.sources model upgraded version.column, q.Writes model upgraded := by
  obtain ⟨first, hfirst, hsource, _, hwriter, _⟩ := written_column_reports_first_source spec_build
    upgraded upgraded upgrade rfl version version_mem_columns rfl
  exact ⟨spec_build, version_mem_columns, first, hfirst, hsource, hwriter⟩

/-- The engine's new version is not what the row is written with. -/
theorem version_of_engine_is_lost :
    spec.build = .ok model ∧
      ∃ built, buildWrites model false (model.tableIn none)
          (model.sharedTables (model.tableIn none)) upgraded [0, 1] = .ok built ∧
        ∃ w ∈ built.writes, w.checkIdentity model false upgraded = .ok () ∧
        ∃ c ∈ w.columns model upgraded, c.roles.write = true ∧
        ∀ q ∈ w.sources model upgraded c.column, q.Writes model upgraded →
          q.value upgraded ≠ c.value upgraded := by
  obtain ⟨built, hb, hw⟩ : ∃ built, buildWrites model false (model.tableIn none)
      (model.sharedTables (model.tableIn none)) upgraded [0, 1] = .ok built ∧
        built.writes = [upgrade.settle model upgraded] :=
    exists_of_toOption_map (by decide +kernel)
  refine ⟨spec_build, built, hb, upgrade.settle model upgraded, ?_, by decide +kernel, version,
    version_mem_columns, rfl, ?_⟩
  · rw [hw]
    exact List.mem_singleton_self _
  · decide +kernel

end Garage

end WritePlan

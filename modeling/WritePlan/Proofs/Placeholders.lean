import WritePlan.Proofs.LaterSets
import WritePlan.Proofs.RowContents
import WritePlan.Proofs.RowPartition

namespace WritePlan

/-- By itself the property is to be read back. -/
def Source.Reads (m : Model) (t : Snapshot) (q : Source) : Prop :=
  ∃ r, q.roles? m t = some r ∧ r.read = true

instance (m : Model) (t : Snapshot) (q : Source) : Decidable (q.Reads m t) :=
  decidable_of_iff ((q.roles? m t).any (·.read) = true) (by simp [Source.Reads, Option.any_eq_true])

/-- What the store supplies is not sent. -/
theorem Source.Reads.not_writes {m : Model} {t : Snapshot} {q : Source} (h : q.Reads m t) :
    ¬ q.Writes m t := by
  obtain ⟨r, hr, hread⟩ := h
  intro hwrites
  obtain ⟨r', hr', hwrite⟩ := hwrites
  obtain rfl := Option.some.inj (hr.symm.trans hr')
  unfold Source.roles? Entry.roles? at hr
  simp only at hr
  split at hr
  · obtain rfl := Option.some.inj hr
    simp only at hread hwrite
    simp [hread] at hwrite
  · cases hr

namespace RowWrite

variable {m : Model} {t : Snapshot} {w : RowWrite}

/-- A part that a column plays is played by one of its sources. -/
theorem exists_source (part : Roles → Bool)
    (hpart : ∀ r s : Roles, part (r.join s) = (part r || part s)) {c : ColumnUse}
    (hc : c ∈ m.columnsOf t w.entries) (h : part c.roles = true) :
    ∃ q ∈ w.sources m t c.column, ∃ r, q.roles? m t = some r ∧ part r = true := by
  have hany : (m.columnsOf t w.entries).any
      (fun d => decide (d.column = c.column) && part d.roles) = true :=
    List.any_eq_true.mpr ⟨c, hc, by simp [h]⟩
  rw [m.any_columnsOf t fun c' d hcolumn => ?_] at hany
  · obtain ⟨d, hd, hdpart⟩ := List.any_eq_true.mp hany
    rw [Bool.and_eq_true] at hdpart
    have huse : d ∈ (w.entries.flatMap (m.columnUses t)).filter (·.column = c.column) :=
      List.mem_filter.mpr ⟨hd, hdpart.1⟩
    rw [w.filter_columnUses m t c.column] at huse
    obtain ⟨q, hq, hqd⟩ := List.mem_filterMap.mp huse
    exact ⟨q, hq, d.roles, (Source.use?_eq_some hqd).2.2, hdpart.2⟩
  · change (decide (d.column = c.column) && part (d.roles.join c'.roles)) = _
    rw [hpart, hcolumn, Bool.and_or_distrib_left]

/-- A column that is read back and written as well is so for the sake of two properties. -/
theorem exists_reader_and_writer {c : ColumnUse} (hc : c ∈ m.columnsOf t w.entries)
    (hread : c.roles.read = true) (hwrite : c.roles.write = true) :
    ∃ q ∈ w.sources m t c.column, ∃ q' ∈ w.sources m t c.column,
      q ≠ q' ∧ q.Reads m t ∧ q'.Writes m t := by
  obtain ⟨q, hq, hreads⟩ := exists_source Roles.read (fun _ _ => rfl) hc hread
  obtain ⟨q', hq', hwrites⟩ := exists_source Roles.write (fun _ _ => rfl) hc hwrite
  refine ⟨q, hq, q', hq', ?_, hreads, hwrites⟩
  rintro rfl
  exact Source.Reads.not_writes hreads hwrites

/-- A delete sends nothing. -/
theorem not_write_of_deleted (hs : w.state t = .deleted) {c : ColumnUse}
    (hc : c ∈ m.columnsOf t w.entries) : c.roles.write = false := by
  by_contra hwrite
  rw [Bool.not_eq_false] at hwrite
  obtain ⟨q, hq, hwrites⟩ := exists_source Roles.write (fun _ _ => rfl) hc hwrite
  exact Source.Writes.not_deleted hwrites
    (state_eq_deleted_iff.mp hs q.entry (mem_sources.mp hq).1)

end RowWrite

/-- The columns of the write are those that its entries have, and if it is an insert then no value
holds the place of another but in columns that are read back. -/
structure RowWrite.Cleared (m : Model) (t : Snapshot) (w : RowWrite) : Prop where
  columns : w.columns m t = m.columnsOf t w.entries
  insert : w.state t = .added →
    ∀ c ∈ m.columnsOf t w.entries, c.roles.read = false → c.isTemporary t = false

namespace RowWrite

variable {m : Model} {t : Snapshot} {w w' : RowWrite}

theorem Cleared.settle (h : w.Cleared m t) : (w.settle m t).Cleared m t where
  columns := h.columns
  insert := h.insert

/-- What has been examined is cleared. -/
theorem cleared_of_examine (hw : w.columns m t = m.columnsOf t w.entries)
    (h : w.examine m t = .ok w') : w'.Cleared m t := by
  obtain ⟨_, hcheck, h⟩ := bind_eq_ok.mp h
  have hcleared : w.Cleared m t :=
    ⟨hw, fun hadded => hw ▸ sends_of_checkTemporary hadded hcheck⟩
  obtain rfl := Except.ok.inj h
  split
  · exact hcleared.settle
  · exact hcleared

end RowWrite

theorem Planner.columns_of_sets {p : Planner} {t : Snapshot} {entries : List Nat}
    {sets : List (List RowWrite)} (h : (p.prepare t entries).sets = .ok sets) :
    ∀ w ∈ sets.flatten, w.columns p.model t = p.model.columnsOf t w.entries := by
  obtain ⟨built, hb, hperm⟩ := perm_of_sets h
  exact fun w hw => columns_of_built hb w (hperm.mem_iff.mp hw)

namespace Stream

/-- A pass over entries that stay as they are: what is packed is cleared. -/
structure Cleared (m : Model) (t : Snapshot) (s : Stream) : Prop where
  running : s.Running
  waiting : ∀ w ∈ s.sets.flatten ++ s.current, w.columns m t = m.columnsOf t w.entries
  packed : ∀ w ∈ writesOf s.packer.ready ++ heldBy s.opened, w.Cleared m t

namespace Cleared

variable {p : Planner} {t : Snapshot} {s s' : Stream}

theorem move (h : s.Cleared p.model t) (hturn : s.turn p t = .move s') :
    s'.Cleared p.model t := by
  have hrunning := (turn_eq_move hturn).2.1 h.running
  have hsettle (w : RowWrite) (hw : w.Cleared p.model t) :
      (w.settle p.model t).Cleared p.model t := hw.settle
  obtain ⟨hready, hheld⟩ := List.forall_mem_append.mp h.packed
  cases moved_of_turn hturn with
  | @pack w w' current _ _ _ hc hw hpack =>
    have hwaiting := h.waiting
    rw [hc] at hwaiting
    have hcleared := RowWrite.cleared_of_examine (hwaiting w (by simp)) hw
    refine ⟨hrunning, fun v hv => ?_, List.forall_mem_append.mpr ?_⟩
    · apply hwaiting v
      simp only [List.mem_append, List.mem_cons] at hv ⊢
      tauto
    · exact Packer.pack_forall hsettle hheld hcleared hready hpack
  | @finish b _ _ hc ho hfinish =>
    have hb : heldBy s.opened = b.writes := by rw [ho]; rfl
    have hready' := Packer.finish_forall hsettle (hb ▸ hheld) hready hfinish
    exact ⟨hrunning, h.waiting, List.forall_mem_append.mpr ⟨hready', List.forall_mem_nil _⟩⟩
  | @openNext set sets _ _ ho hs =>
    refine ⟨hrunning, fun w hw => ?_, h.packed⟩
    apply h.waiting w
    rw [hs]
    simp only [List.mem_append, mem_sortBy, List.flatten_cons] at hw ⊢
    tauto

theorem send (h : s.Cleared p.model t) {b : Batch} (hturn : s.turn p t = .answer (.batch b) s') :
    (∀ w ∈ b.writes, w.Cleared p.model t) ∧ s'.Cleared p.model t := by
  cases answered_of_turn hturn with
  | @send _ ready hready =>
    have hpacked := h.packed
    rw [hready, writesOf, List.flatMap_cons, List.append_assoc, List.forall_mem_append] at hpacked
    exact ⟨hpacked.1, h.running, h.waiting, hpacked.2⟩

theorem invariant (p : Planner) (t : Snapshot) :
    Invariant p t (Cleared p.model t) fun b => ∀ w ∈ b.writes, w.Cleared p.model t where
  running _ h := h.running
  move _ _ h := h.move
  send _ _ _ h := h.send

end Cleared

end Stream

/-- All that a pass sends over entries that stay as they are is cleared. -/
theorem Planner.cleared_of_answers {p : Planner} {t : Snapshot} {entries : List Nat} {begun : Nat}
    {ts : List Snapshot} (hts : ∀ u ∈ ts, u = t) {b : Batch}
    (hb : .batch b ∈ p.answers entries begun ts) : ∀ w ∈ b.writes, w.Cleared p.model t := by
  refine (Stream.Cleared.invariant p t).good_of_plan (fun sets s hsets hs => ?_) hts hb
  refine ⟨hs.running, fun w hw => ?_, ?_⟩
  · rw [hs.sets, hs.current, List.append_nil] at hw
    exact columns_of_sets hsets w hw
  · simp [hs.ready, hs.opened, heldBy, writesOf]

/-- While entries stay as they are, a delete sends nothing, and an insert sends a value that holds
the place of another only in a column that is read back as well. -/
theorem placeholders_sent (p : Planner) (t : Snapshot) (entries : List Nat) (begun : Nat)
    (ts : List Snapshot) (hts : ∀ u ∈ ts, u = t) (b : Batch)
    (hb : .batch b ∈ p.answers entries begun ts) (w : RowWrite) (hw : w ∈ b.writes)
    (c : ColumnUse) (hc : c ∈ w.columns p.model t) (hwrite : c.roles.write = true) :
    w.state t ≠ .deleted ∧
      (w.state t = .added → c.roles.read = false → c.isTemporary t = false) ∧
      (c.roles.read = true →
        ∃ q ∈ w.sources p.model t c.column, ∃ q' ∈ w.sources p.model t c.column,
          q ≠ q' ∧ q.Reads p.model t ∧ q'.Writes p.model t) := by
  have hcleared := Planner.cleared_of_answers hts hb w hw
  rw [hcleared.columns] at hc
  refine ⟨fun hdeleted => ?_, fun hadded => hcleared.insert hadded c hc, fun hread =>
    RowWrite.exists_reader_and_writer hc hread hwrite⟩
  rw [RowWrite.not_write_of_deleted hdeleted hc] at hwrite
  cases hwrite

namespace Garage

/-- The store gives new vehicles their versions. -/
def numberingSpec : Spec :=
  { spec with properties := spec.properties.modify 1 fun d => { d with generated := .onAdd } }

def numbering : Planner :=
  let model := numberingSpec.build.toOption.getD ⟨[], [], [], [], []⟩
  { planner with model, tableOf := model.tableIn none }

theorem numberingSpec_build : numberingSpec.build = .ok numbering.model := by decide +kernel

theorem ofConfig_numbering : Planner.ofConfig numbering.model {} = .ok numbering :=
  Family.ofConfig_empty numbering.model

/-- A vehicle is added whose version is not known as yet, with an engine that has one. -/
def assembled : Snapshot
  | 0 => ((Family.row 0 .added [1, 5]).withCurrent ⟨1⟩ (.int (-1))).withTemporary ⟨1⟩ true
  | _ => Family.row 1 .added [1, 6]

def assembledWrite : RowWrite :=
  (⟨⟨none, "Vehicles"⟩, [0, 1], none⟩ : RowWrite).settle numbering.model assembled

/-- The version of the row: read back for the vehicle, written for the engine. -/
def assembledVersion : ColumnUse :=
  ⟨0, numbering.model.property ⟨1⟩, ⟨true, true, false, false, true⟩⟩

theorem assembled_is_sent :
    .batch ⟨0, [assembledWrite]⟩ ∈ numbering.answers [0, 1] 0 [assembled] := by decide +kernel

theorem assembledVersion_mem_columns :
    assembledVersion ∈ assembledWrite.columns numbering.model assembled := by decide +kernel

theorem placeholders_sent_assembled :
    numberingSpec.build = .ok numbering.model ∧
      .batch ⟨0, [assembledWrite]⟩ ∈ numbering.answers [0, 1] 0 [assembled] ∧
      assembledWrite.state assembled = .added ∧
      assembledVersion ∈ assembledWrite.columns numbering.model assembled ∧
      assembledVersion.roles.write = true ∧ assembledVersion.isTemporary assembled = true ∧
      ∃ q ∈ assembledWrite.sources numbering.model assembled assembledVersion.column,
        ∃ q' ∈ assembledWrite.sources numbering.model assembled assembledVersion.column,
          q ≠ q' ∧ q.Reads numbering.model assembled ∧ q'.Writes numbering.model assembled := by
  obtain ⟨_, _, hsources⟩ := placeholders_sent numbering assembled [0, 1] 0 [assembled] (by simp)
    _ assembled_is_sent assembledWrite (List.mem_singleton_self _) assembledVersion
    assembledVersion_mem_columns rfl
  exact ⟨numberingSpec_build, assembled_is_sent, by decide +kernel, assembledVersion_mem_columns,
    rfl, by decide +kernel, hsources rfl⟩

end Garage

namespace Family

/-- A child moves to a parent whose key is not known as yet. -/
def adopted : Snapshot := fun _ =>
  (((row 1 .modified [5, 2]).withCurrent ⟨3⟩ (.int (-1))).withTemporary ⟨3⟩ true).withModified
    ⟨3⟩ true

def adoptedWrite : RowWrite :=
  (⟨⟨none, "Children"⟩, [0], none⟩ : RowWrite).settle model adopted

/-- The update sends what only holds the place of the key, and so does an insert for the version of
its vehicle. -/
theorem placeholders_are_sent :
    spec.build = .ok model ∧ Planner.ofConfig model {} = .ok planner ∧
      .batch ⟨0, [adoptedWrite]⟩ ∈ planner.answers [0] 0 [adopted] ∧
      adoptedWrite.state adopted = .modified ∧
      (∃ c ∈ adoptedWrite.columns model adopted,
        c.roles.write = true ∧ c.isTemporary adopted = true) ∧
      Garage.numberingSpec.build = .ok Garage.numbering.model ∧
      Planner.ofConfig Garage.numbering.model {} = .ok Garage.numbering ∧
      .batch ⟨0, [Garage.assembledWrite]⟩ ∈
        Garage.numbering.answers [0, 1] 0 [Garage.assembled] ∧
      Garage.assembledWrite.state Garage.assembled = .added ∧
      ∃ c ∈ Garage.assembledWrite.columns Garage.numbering.model Garage.assembled,
        c.roles.write = true ∧ c.isTemporary Garage.assembled = true := by
  refine ⟨spec_build, ofConfig_default, by decide +kernel, by decide +kernel,
    ⟨⟨0, model.property ⟨3⟩, ⟨false, true, false, false, false⟩⟩, by decide +kernel⟩,
    Garage.numberingSpec_build, Garage.ofConfig_numbering, Garage.assembled_is_sent,
    by decide +kernel, Garage.assembledVersion, Garage.assembledVersion_mem_columns, rfl,
    by decide +kernel⟩

end Family

end WritePlan

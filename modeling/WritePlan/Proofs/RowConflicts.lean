import WritePlan.Proofs.RowContents
import WritePlan.Proofs.RowPartition

namespace WritePlan

theorem eq_error_of_map {ε α β : Type} {x : Except ε α} {f : α → β} {e : ε}
    (h : x.map f = .error e) : x = .error e := by
  cases x with
  | error e' => exact congrArg Except.error (Except.error.inj h)
  | ok a => cases h

/-- The entries cannot be written as one row: two are of one type, or some are deleted and others
are not. -/
def Disagree (t : Snapshot) (is : List Nat) : Prop :=
  ¬ (is.map fun i => (t i).entityType).Nodup ∨
    (∃ i ∈ is, (t i).state = .deleted) ∧ ∃ i ∈ is, (t i).state ≠ .deleted

/-- Each of the two states is that of an entry. -/
def Mixed (t : Snapshot) (is : List Nat) (a b : EntityState) : Prop :=
  (∃ i ∈ is, (t i).state = a) ∧ ∃ i ∈ is, (t i).state = b

instance (t : Snapshot) (is : List Nat) : Decidable (Disagree t is) :=
  inferInstanceAs (Decidable (_ ∨ _))

instance (t : Snapshot) (is : List Nat) (a b : EntityState) : Decidable (Mixed t is a b) :=
  inferInstanceAs (Decidable (_ ∧ _))

/-- What is told of entries that disagree: that a deleted one meets an added one; else that it meets
a modified one; else which type comes again first. -/
inductive Blames (m : Model) (t : Snapshot) (is : List Nat) : ConflictReason → Prop
  | addedAndDeleted : Mixed t is .added .deleted → Blames m t is .addedAndDeleted
  | deletedAndModified : ¬ Mixed t is .added .deleted → Mixed t is .deleted .modified →
    Blames m t is .deletedAndModified
  | repeatedType {before after : List Nat} {i : Nat} : ¬ Mixed t is .added .deleted →
    ¬ Mixed t is .deleted .modified → is = before ++ i :: after →
    (before.map fun j => (t j).entityType).Nodup →
    (t i).entityType ∈ before.map (fun j => (t j).entityType) →
    Blames m t is (.repeatedType (RowWrite.typeName m t i))

namespace RowWrite

variable {m : Model} {t : Snapshot} {w : RowWrite}

theorem firstRepeated_eq_some {seen es : List EntityTypeId} {e : EntityTypeId} :
    firstRepeated seen es = some e ↔ ∃ before after, es = before ++ e :: after ∧
      (before.Nodup ∧ ∀ a ∈ before, a ∉ seen) ∧ (e ∈ seen ∨ e ∈ before) := by
  induction es generalizing seen with
  | nil => simp [firstRepeated]
  | cons a es ih =>
    unfold firstRepeated
    by_cases ha : a ∈ seen
    · rw [if_pos (List.contains_iff_mem.mpr ha), Option.some.injEq]
      constructor
      · intro h
        subst h
        exact ⟨[], es, rfl, ⟨.nil, fun _ hb => absurd hb List.not_mem_nil⟩, .inl ha⟩
      · intro h
        obtain ⟨before, after, hsplit, ⟨_, hbefore⟩, _⟩ := h
        cases before with
        | nil => exact (List.cons.inj hsplit).1
        | cons b before =>
          obtain ⟨rfl, _⟩ := List.cons.inj hsplit
          exact absurd ha (hbefore a List.mem_cons_self)
    · rw [if_neg (fun h => ha (List.contains_iff_mem.mp h)), ih]
      constructor
      · intro h
        obtain ⟨before, after, rfl, ⟨hnodup, hbefore⟩, he⟩ := h
        refine ⟨a :: before, after, rfl, ⟨List.nodup_cons.mpr ⟨?_, hnodup⟩, ?_⟩, ?_⟩
        · exact fun hmem => hbefore a hmem (List.mem_append_right _ List.mem_cons_self)
        · exact List.forall_mem_cons.mpr
            ⟨ha, fun b hb hseen => hbefore b hb (List.mem_append_left _ hseen)⟩
        · simpa [or_assoc] using he
      · intro h
        obtain ⟨before, after, hsplit, ⟨hnodup, hbefore⟩, he⟩ := h
        cases before with
        | nil =>
          obtain ⟨rfl, _⟩ := List.cons.inj hsplit
          exact absurd (he.resolve_right List.not_mem_nil) ha
        | cons b before =>
          obtain ⟨rfl, rfl⟩ := List.cons.inj hsplit
          obtain ⟨hb, hnodup⟩ := List.nodup_cons.mp hnodup
          refine ⟨before, after, rfl, ⟨hnodup, fun c hc hseen => ?_⟩, ?_⟩
          · rcases List.mem_append.mp hseen with hseen | hseen
            · exact hbefore c (List.mem_cons_of_mem a hc) hseen
            · exact hb (List.mem_singleton.mp hseen ▸ hc)
          · simpa [or_assoc] using he

/-- The three checks of a row, in turn. -/
theorem conflict?_eq (hw : ∀ i ∈ w.entries, (t i).state ≠ .unchanged) :
    w.conflict? m t =
      if Mixed t w.entries .added .deleted then some .addedAndDeleted
      else if Mixed t w.entries .deleted .modified then some .deletedAndModified
      else (firstRepeated [] (w.entries.map fun i => (t i).entityType)).map fun e =>
        .repeatedType (m.entityType e).name := by
  have hcount : (w.entries.map fun i => (t i).state).countP (·.isDeleted) =
      w.entries.countP fun i => (t i).state.isDeleted := by
    rw [List.countP_map]
    rfl
  have hdeleted : 0 < w.entries.countP (fun i => (t i).state.isDeleted) ↔
      ∃ i ∈ w.entries, (t i).state = .deleted := by
    simp [List.countP_pos_iff, EntityState.isDeleted]
  have hothers : w.entries.countP (fun i => (t i).state.isDeleted) < w.entries.length ↔
      ∃ i ∈ w.entries, (t i).state ≠ .deleted := by
    rw [List.countP_le_length.lt_iff_ne, Ne, List.countP_eq_length]
    simp [EntityState.isDeleted]
  have hadded : ((w.entries.map fun i => (t i).state).any (·.isAdded)) = true ↔
      ∃ i ∈ w.entries, (t i).state = .added := by
    simp [EntityState.isAdded]
  have hfirst : ((w.entries.map fun i => (t i).state).any (·.isAdded) &&
        decide (0 < w.entries.countP fun i => (t i).state.isDeleted)) = true ↔
      Mixed t w.entries .added .deleted := by
    rw [Bool.and_eq_true, decide_eq_true_eq, hadded, hdeleted, Mixed]
  have hsecond (hmixed : ¬ Mixed t w.entries .added .deleted) :
      (decide (0 < w.entries.countP fun i => (t i).state.isDeleted) &&
        decide (w.entries.countP (fun i => (t i).state.isDeleted) < w.entries.length)) = true ↔
      Mixed t w.entries .deleted .modified := by
    -- beside a deleted entry there is no added one here, so one that is not deleted is modified
    rw [Bool.and_eq_true, decide_eq_true_eq, decide_eq_true_eq, hdeleted, hothers, Mixed]
    refine and_congr_right fun hsome => exists_congr fun i => and_congr_right fun hi => ?_
    cases hstate : (t i).state with
    | unchanged => exact absurd hstate (hw i hi)
    | added => exact absurd ⟨⟨i, hi, hstate⟩, hsome⟩ hmixed
    | modified => simp
    | deleted => simp
  unfold conflict?
  simp only [hcount, List.length_map, hfirst]
  split
  · rfl
  · rename_i hmixed
    simp only [hsecond hmixed]

/-- The reason that is told is the right one. -/
theorem conflict?_eq_some_iff (hw : ∀ i ∈ w.entries, (t i).state ≠ .unchanged)
    {reason : ConflictReason} :
    w.conflict? m t = some reason ↔ Blames m t w.entries reason := by
  rw [conflict?_eq hw]
  split
  · rename_i hadded
    rw [Option.some.injEq]
    constructor
    · intro h
      exact h ▸ .addedAndDeleted hadded
    · intro h
      cases h with
      | addedAndDeleted => rfl
      | deletedAndModified hnot | repeatedType hnot => exact absurd hadded hnot
  · rename_i hadded
    split
    · rename_i hmodified
      rw [Option.some.injEq]
      constructor
      · intro h
        exact h ▸ .deletedAndModified hadded hmodified
      · intro h
        cases h with
        | addedAndDeleted h => exact absurd h hadded
        | deletedAndModified => rfl
        | repeatedType _ hnot => exact absurd hmodified hnot
    · rename_i hmodified
      simp only [Option.map_eq_some_iff, firstRepeated_eq_some]
      constructor
      · intro h
        obtain ⟨e, ⟨before, after, hsplit, ⟨hnodup, _⟩, he⟩, rfl⟩ := h
        obtain ⟨before, rest, hentries, rfl, hrest⟩ := List.map_eq_append_iff.mp hsplit
        obtain ⟨i, after, rfl, rfl, rfl⟩ := List.map_eq_cons_iff.mp hrest
        exact .repeatedType hadded hmodified hentries hnodup
          (he.resolve_left List.not_mem_nil)
      · intro h
        cases h with
        | addedAndDeleted h => exact absurd h hadded
        | deletedAndModified _ h => exact absurd h hmodified
        | @repeatedType before after i _ _ hentries hnodup hi =>
          refine ⟨(t i).entityType, ⟨before.map fun j => (t j).entityType,
            after.map fun j => (t j).entityType, ?_, ⟨hnodup, fun _ _ => List.not_mem_nil⟩,
            .inr hi⟩, rfl⟩
          rw [hentries, List.map_append, List.map_cons]

theorem disagree_iff : Disagree t w.entries ↔ w.conflict? m t ≠ none := by
  rw [Ne, conflict?_eq_none_iff, not_and_or, or_comm, Disagree, not_or]
  push Not
  exact or_congr_right and_comm

theorem checkIdentity_eq_error_iff {sensitive : Bool} {e : PlanError} :
    w.checkIdentity m sensitive t = .error e ↔ ∃ reason, w.conflict? m t = some reason ∧
      e = .sharedIdentity w.table (w.entries.map (typeName m t)) reason
        (if sensitive then some (w.keyValues m t) else none) := by
  unfold checkIdentity
  cases w.conflict? m t with
  | none => simp
  | some reason => simp [eq_comm]

theorem disagree_of_checkIdentity {sensitive : Bool} {e : PlanError}
    (h : w.checkIdentity m sensitive t = .error e) : Disagree t w.entries := by
  obtain ⟨reason, hreason, _⟩ := checkIdentity_eq_error_iff.mp h
  exact disagree_iff.mpr (Option.ne_none_iff_exists'.mpr ⟨reason, hreason⟩)

end RowWrite

/-- The error says of entries of one row why they disagree, with the table and the types in the
order of the entries, and with the key of the row where values may be shown. -/
inductive Tells (p : Planner) (t : Snapshot) (is : List Nat) : PlanError → Prop
  | intro {table : Table} {reason : ConflictReason} :
    (∀ i ∈ is, p.tableOf (t i).entityType = table) → Blames p.model t is reason →
    Tells p t is (.sharedIdentity table (is.map (RowWrite.typeName p.model t)) reason
      (if p.config.sensitiveDataLogging then
        some ((⟨table, is, none⟩ : RowWrite).keyValues p.model t) else none))

theorem RowWrite.tells_iff {p : Planner} {t : Snapshot} {w : RowWrite} (hw : w.settled = none)
    (hstate : ∀ i ∈ w.entries, (t i).state ≠ .unchanged) (hnil : w.entries ≠ [])
    (htable : ∀ i ∈ w.entries, p.tableOf (t i).entityType = w.table) {e : PlanError} :
    w.checkIdentity p.model p.config.sensitiveDataLogging t = .error e ↔ Tells p t w.entries e := by
  obtain ⟨table, is, _⟩ := w
  obtain rfl : _ = none := hw
  rw [checkIdentity_eq_error_iff]
  simp only [conflict?_eq_some_iff hstate]
  constructor
  · intro h
    obtain ⟨reason, hreason, rfl⟩ := h
    exact .intro htable hreason
  · intro h
    obtain ⟨htable', hreason⟩ := h
    obtain ⟨i, hi⟩ := List.exists_mem_of_ne_nil is hnil
    obtain rfl := (htable' i hi).symm.trans (htable i hi)
    exact ⟨_, hreason, rfl⟩

namespace Planner

variable {p : Planner} {t : Snapshot} {entries : List Nat}

/-- Entries that are routed make a row of each group of those that are written together. -/
theorem rows_of_addAll {s : Spec} (hm : s.build = .ok p.model) {routed : Routed}
    (h : Routed.empty.addAll p.model p.tableOf p.sharedTables t entries = .ok routed) :
    ∃ groups, Grouping entries.length (fun i j => (t (entries.getD i 0)).WrittenWith p.model
        p.tableOf (t (entries.getD j 0))) groups ∧
      routed.writes.map (·.entries) = groups.map (·.map (entries.getD · 0)) ∧
      ∀ w ∈ routed.writes,
        w.entries ≠ [] ∧ ∀ i ∈ w.entries, p.tableOf (t i).entityType = w.table := by
  have hstart : Routed.empty.rows =
      Routed.rowsUpTo p.model p.tableOf p.sharedTables t ([] ++ entries) 0 := rfl
  have hrows := Routed.addAll_eq_ok hstart h
  have hgroups := grouping_groupsBy
    (Routed.routeAt p.model p.tableOf p.sharedTables t entries) entries.length
  have hsame : KeysAgree (Routed.routeAt p.model p.tableOf p.sharedTables t entries) =
      fun i j => (t (entries.getD i 0)).WrittenWith p.model p.tableOf
        (t (entries.getD j 0)) := by
    funext i j
    exact propext (Spec.route_iff hm p.tableOf _ _)
  rw [List.nil_append, Routed.rowsUpTo, Routed.rowsOf] at hrows
  refine ⟨_, hsame ▸ hgroups, ?_, fun w hw => ?_⟩
  · rw [Routed.writes, hrows, List.map_map, List.map_map]
    rfl
  · rw [Routed.writes, hrows, List.map_map] at hw
    obtain ⟨g, hg, rfl⟩ := List.mem_map.mp hw
    have hnil := hgroups.ne_nil g hg
    refine ⟨fun h => hnil (List.map_eq_nil_iff.mp h), fun i hi => ?_⟩
    obtain ⟨j, hj, rfl⟩ := List.mem_map.mp hi
    rcases hgroups.keysAgree_of_mem hg hj (headD_mem hnil) with rfl | hagree
    · rfl
    · rw [hsame] at hagree
      exact hagree.table

section Routed

variable {routed : Routed}
variable (h : Routed.empty.addAll p.model p.tableOf p.sharedTables t entries = .ok routed)
include h

theorem buildWrites_eq_error_iff {e : PlanError} : p.buildWrites t entries = .error e ↔
    routed.writes.forM (·.checkIdentity p.model p.config.sensitiveDataLogging t) = .error e := by
  unfold buildWrites WritePlan.buildWrites
  rw [bind_eq_error, h]
  constructor
  · intro hb
    rcases hb with hb | ⟨_, hrouted, hb⟩
    · cases hb
    · obtain rfl := Except.ok.inj hrouted
      rcases bind_eq_error.mp hb with hb | ⟨_, _, hb⟩
      · exact hb
      · cases hb
  · intro hb
    exact .inr ⟨routed, rfl, bind_eq_error.mpr (.inl hb)⟩

/-- Entries that are routed cannot be written if the entries of some row disagree. -/
theorem not_built_iff : (∃ e, p.buildWrites t entries = .error e) ↔
    ∃ is ∈ routed.writes.map (·.entries), Disagree t is := by
  constructor
  · intro hb
    obtain ⟨e, he⟩ := hb
    obtain ⟨w, hw, hcheck⟩ := forM_eq_error ((buildWrites_eq_error_iff h).mp he)
    exact ⟨w.entries, List.mem_map_of_mem hw, RowWrite.disagree_of_checkIdentity hcheck⟩
  · intro hrow
    obtain ⟨_, his, hrow⟩ := hrow
    obtain ⟨w, hw, rfl⟩ := List.mem_map.mp his
    obtain ⟨_, _, _, _, he⟩ := buildWrites_of_conflict h hw (RowWrite.disagree_iff.mp hrow)
    exact ⟨_, he⟩

/-- What is told then is why the entries of the first such row do. -/
theorem buildWrites_tells_iff (hstate : ∀ i ∈ entries, (t i).state ≠ .unchanged)
    (hwrites : ∀ w ∈ routed.writes,
      w.entries ≠ [] ∧ ∀ i ∈ w.entries, p.tableOf (t i).entityType = w.table) {e : PlanError} :
    p.buildWrites t entries = .error e ↔ ∃ before is after,
      routed.writes.map (·.entries) = before ++ is :: after ∧
        (∀ js ∈ before, ¬ Disagree t js) ∧ Disagree t is ∧ Tells p t is e := by
  have htells {w : RowWrite} (hw : w ∈ routed.writes) :
      w.checkIdentity p.model p.config.sensitiveDataLogging t = .error e ↔
        Tells p t w.entries e := by
    obtain ⟨hsettled, hwithin⟩ := Routed.addAll_within h w hw
    obtain ⟨hnil, htable⟩ := hwrites w hw
    exact RowWrite.tells_iff hsettled (fun i hi => hstate i (hwithin.mem i hi)) hnil htable
  rw [buildWrites_eq_error_iff h, forM_eq_error_iff]
  constructor
  · intro hb
    obtain ⟨before, w, after, hsplit, hbefore, hw⟩ := hb
    have hmem : w ∈ routed.writes := hsplit ▸ List.mem_append_right _ List.mem_cons_self
    refine ⟨before.map (·.entries), w.entries, after.map (·.entries), ?_, ?_,
      RowWrite.disagree_of_checkIdentity hw, (htells hmem).mp hw⟩
    · rw [hsplit, List.map_append, List.map_cons]
    · rw [List.forall_mem_map]
      intro v hv hrow
      exact RowWrite.disagree_iff.mp hrow (RowWrite.checkIdentity_eq_ok.mp (hbefore v hv))
  · intro hb
    obtain ⟨_, is, _, hall, hbefore, _, hw⟩ := hb
    obtain ⟨before, rest, hsplit, rfl, hrest⟩ := List.map_eq_append_iff.mp hall
    obtain ⟨w, after, rfl, rfl, rfl⟩ := List.map_eq_cons_iff.mp hrest
    rw [List.forall_mem_map] at hbefore
    have hmem : w ∈ routed.writes := hsplit ▸ List.mem_append_right _ List.mem_cons_self
    refine ⟨before, w, after, hsplit, fun v hv => ?_, (htells hmem).mpr hw⟩
    exact RowWrite.checkIdentity_eq_ok.mpr
      (not_not.mp fun hrow => hbefore v hv (RowWrite.disagree_iff.mpr hrow))

end Routed

end Planner

/-- Writes are not built if an entry is unchanged, the first of which is told, or else if the
entries of a row disagree; then it is told why those of the first such row do. -/
theorem building_fails_for_two_reasons (s : Spec) (p : Planner) (hm : s.build = .ok p.model)
    (t : Snapshot) (entries : List Nat) :
    (∀ before i after, entries = before ++ i :: after →
      (∀ j ∈ before, (t j).state ≠ .unchanged) → (t i).state = .unchanged →
      p.buildWrites t entries = .error (.invalidState (RowWrite.typeName p.model t i) .unchanged)) ∧
    ((∀ i ∈ entries, (t i).state ≠ .unchanged) → ∃ groups rows,
      Grouping entries.length (fun i j => (t (entries.getD i 0)).WrittenWith p.model p.tableOf
        (t (entries.getD j 0))) groups ∧
      rows = groups.map (·.map (entries.getD · 0)) ∧
      ((∃ e, p.buildWrites t entries = .error e) ↔ ∃ is ∈ rows, Disagree t is) ∧
      ∀ e, p.buildWrites t entries = .error e ↔ ∃ before is after,
        rows = before ++ is :: after ∧ (∀ js ∈ before, ¬ Disagree t js) ∧ Disagree t is ∧
          Tells p t is e) := by
  constructor
  · intro before i after hentries hbefore hi
    exact bind_eq_error.mpr (.inl (Routed.addAll_eq_error_iff.mpr
      ⟨before, i, after, hentries, hbefore, hi, rfl⟩))
  · intro hstate
    obtain ⟨routed, hrouted⟩ : ∃ routed,
        Routed.empty.addAll p.model p.tableOf p.sharedTables t entries = .ok routed :=
      Routed.addAll_ok hstate Routed.empty
    obtain ⟨groups, hgroups, hrows, hwrites⟩ := Planner.rows_of_addAll hm hrouted
    refine ⟨groups, _, hgroups, rfl, ?_, fun e => ?_⟩
    · rw [← hrows]
      exact Planner.not_built_iff hrouted
    · rw [← hrows]
      exact Planner.buildWrites_tells_iff hrouted hstate hwrites

namespace Garage

/-- Of one row the vehicle is changed and the engine removed; of another row the engine is removed
twice. -/
def stripped : Snapshot
  | 0 => Family.row 1 .deleted [2, 5]
  | 1 => (Family.row 0 .modified [1, 5]).withModified ⟨1⟩ true
  | 2 => Family.row 1 .deleted [2, 5]
  | 3 => Family.row 1 .deleted [1, 5]
  | _ => Family.row 0 .unchanged [3, 5]

theorem building_fails_for_two_reasons_stripped :
    spec.build = .ok planner.model ∧
      planner.buildWrites stripped [1, 4, 3] = .error (.invalidState "Vehicle" .unchanged) ∧
      (∀ i ∈ [1, 0, 3, 2], (stripped i).state ≠ .unchanged) ∧
      ∃ e, planner.buildWrites stripped [1, 0, 3, 2] = .error e ∧
        ∃ is, Disagree stripped is ∧ Tells planner stripped is e ∧
          e = .sharedIdentity ⟨none, "Vehicles"⟩ ["Vehicle", "Engine"] .deletedAndModified
            none := by
  have hstate : ∀ i ∈ [1, 0, 3, 2], (stripped i).state ≠ .unchanged := by decide
  obtain ⟨hunchanged, hconflict⟩ :=
    building_fails_for_two_reasons spec planner spec_build stripped [1, 4, 3]
  obtain ⟨_, hrows⟩ := building_fails_for_two_reasons spec planner spec_build stripped [1, 0, 3, 2]
  obtain ⟨groups, rows, _, _, _, herror⟩ := hrows hstate
  have he : planner.buildWrites stripped [1, 0, 3, 2] = .error
      (.sharedIdentity ⟨none, "Vehicles"⟩ ["Vehicle", "Engine"] .deletedAndModified none) := by
    have h : (planner.buildWrites stripped [1, 0, 3, 2]).map (fun _ => ()) = .error
        (.sharedIdentity ⟨none, "Vehicles"⟩ ["Vehicle", "Engine"] .deletedAndModified none) := by
      decide +kernel
    exact eq_error_of_map h
  obtain ⟨_, is, _, _, _, hdisagree, htells⟩ := (herror _).mp he
  have hname : RowWrite.typeName planner.model stripped 4 = "Vehicle" := by decide +kernel
  refine ⟨spec_build, ?_, hstate, _, he, is, hdisagree, htells, rfl⟩
  exact hname ▸ hunchanged [1] 4 [3] rfl (by decide) rfl

end Garage

end WritePlan

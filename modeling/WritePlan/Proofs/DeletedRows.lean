import WritePlan.Proofs.RowContents
import WritePlan.Proofs.Replacement
import WritePlan.Proofs.RowPartition

namespace WritePlan

namespace Planner

variable {s : Spec} {p : Planner} {t : Snapshot} {entries : List Nat} {built : BuiltWrites}
variable {table : Table} {key : RowKey}

/-- The entry is known to be of that row. -/
def OnRow (p : Planner) (table : Table) (key : RowKey) (e : Entry) : Prop :=
  p.tableOf e.entityType = table ∧ e.rowKey? p.model = some key

/-- The write is of an entry of that row. -/
def WritesTo (p : Planner) (t : Snapshot) (table : Table) (key : RowKey) (w : RowWrite) : Prop :=
  ∃ i ∈ w.entries, p.OnRow table key (t i)

instance (e : Entry) : Decidable (p.OnRow table key e) :=
  inferInstanceAs (Decidable (_ ∧ _))

instance (w : RowWrite) : Decidable (p.WritesTo t table key w) :=
  inferInstanceAs (Decidable (∃ i ∈ w.entries, p.OnRow table key (t i)))

theorem routeOf_of_shared (hm : s.build = .ok p.model)
    (hshared : p.model.HoldsRoots p.tableOf table) {i : Nat} (hi : p.OnRow table key (t i)) :
    p.routeOf t i = some ⟨table, key, none⟩ := by
  have hany := (Spec.mem_sharedTables hm p.tableOf table).mpr hshared
  obtain ⟨rfl, hkey⟩ := hi
  simp only [routeOf, Entry.route?, hkey, Option.map_some, sharedTables, hany, ↓reduceIte]

theorem routeOf_eq_iff (hm : s.build = .ok p.model)
    (hshared : ¬ p.model.HoldsRoots p.tableOf table) {i : Nat} {b : Bool} :
    p.routeOf t i = some ⟨table, key, some b⟩ ↔
      p.OnRow table key (t i) ∧ (t i).state.isDeleted = b := by
  rw [← Spec.mem_sharedTables hm p.tableOf table] at hshared
  simp only [routeOf, Entry.route?, Option.map_eq_some_iff, Route.mk.injEq, OnRow]
  constructor
  · intro h
    obtain ⟨_, hkey, rfl, rfl, hdeleted⟩ := h
    rw [sharedTables, if_neg hshared] at hdeleted
    exact ⟨⟨rfl, hkey⟩, Option.some.inj hdeleted⟩
  · intro h
    obtain ⟨⟨rfl, hkey⟩, rfl⟩ := h
    exact ⟨key, hkey, rfl, rfl, by rw [sharedTables, if_neg hshared]⟩

/-- Where roots share the table, a row is not written if some of its entries are deleted and others
are not. -/
theorem buildWrites_of_deleted_shared (hm : s.build = .ok p.model)
    (hshared : p.model.HoldsRoots p.tableOf table)
    (hwritten : ∀ i ∈ entries, (t i).state ≠ .unchanged) {i j : Nat} (hi : i ∈ entries)
    (hirow : p.OnRow table key (t i)) (hdeleted : (t i).state = .deleted) (hj : j ∈ entries)
    (hjrow : p.OnRow table key (t j)) (hmodified : (t j).state = .modified) :
    ∃ table' types reason shown,
      p.buildWrites t entries = .error (.sharedIdentity table' types reason shown) := by
  obtain ⟨routed, hrouted⟩ := Routed.addAll_ok hwritten Routed.empty
  have hiroute := routeOf_of_shared hm hshared hirow
  obtain ⟨w, hw, hcontent⟩ := exists_routed hrouted hi hiroute
  have hmem {k : Nat} (hk : k ∈ entries) (hroute : p.routeOf t k = some ⟨table, key, none⟩) :
      k ∈ w.entries := by
    rw [← RowWrite.mem_content, hcontent]
    exact mem_routeRow.mpr ⟨hk, hroute⟩
  refine buildWrites_of_conflict hrouted hw fun hnone => ?_
  have hsame := (RowWrite.isDeleted_of_mem hnone (hmem hi hiroute)).trans
    (RowWrite.isDeleted_of_mem hnone (hmem hj (routeOf_of_shared hm hshared hjrow))).symm
  rw [hdeleted, hmodified] at hsame
  cases hsame

theorem content_of_route (hb : p.buildWrites t entries = .ok built) {w : RowWrite}
    (hw : w ∈ built.writes) {i : Nat} (hi : i ∈ w.entries) {k : Route}
    (hk : p.routeOf t i = some k) : w.content = routeRow (p.routeOf t) entries k := by
  rcases content_of_mem hb hw hi with ⟨hnone, _⟩ | ⟨k', hk', hcontent⟩
  · cases hnone.symm.trans hk
  · rw [hcontent, Option.some.inj (hk'.symm.trans hk)]

/-- An update that was built has something to send. -/
theorem writes_of_update (hb : p.buildWrites t entries = .ok built) {w : RowWrite}
    (hw : w ∈ built.writes) (hstate : w.state t = .modified) : ∃ i ∈ w.entries,
      ∃ q ∈ (p.model.entityType (t i).entityType).properties,
        (⟨i, q⟩ : Source).Writes p.model t := by
  obtain ⟨routed, hrouted, _, rfl⟩ := buildWrites_eq_ok.mp hb
  obtain ⟨v, hv, hkept⟩ := List.mem_filterMap.mp hw
  have hnone := (Routed.addAll_within hrouted v hv).1
  rcases RowWrite.kept?_eq_some.mp hkept with ⟨hmodified, rfl⟩ | ⟨_, hsends, rfl⟩
  · rw [hstate] at hmodified
    cases hmodified
  · exact (RowWrite.hasWrites_iff hnone).mp hsends

section Unshared

variable (hm : s.build = .ok p.model) (hb : p.buildWrites t entries = .ok built)
variable (hshared : ¬ p.model.HoldsRoots p.tableOf table)
include hm hb hshared

theorem delete_built {i : Nat} (hi : i ∈ entries) (hrow : p.OnRow table key (t i))
    (hdeleted : (t i).state = .deleted) :
    ∃ d ∈ built.writes, p.WritesTo t table key d ∧ d.state t = .deleted := by
  have hroute {j : Nat} : p.routeOf t j = some ⟨table, key, some true⟩ ↔
      p.OnRow table key (t j) ∧ (t j).state.isDeleted = true := routeOf_eq_iff hm hshared
  have hi' := hroute.mpr ⟨hrow, decide_eq_true hdeleted⟩
  obtain ⟨d, hcontent, _, hkept⟩ := exists_write_of_route hb hi hi'
  have hstate : d.state t = .deleted := by
    refine RowWrite.state_eq_deleted_iff.mpr fun j hj => ?_
    rw [← RowWrite.mem_content, hcontent, mem_routeRow] at hj
    exact of_decide_eq_true (hroute.mp hj.2).2
  refine ⟨d, hkept d ?_, ⟨i, ?_, hrow⟩, hstate⟩
  · rw [RowWrite.kept?, hstate]
    rfl
  · rw [← RowWrite.mem_content, hcontent]
    exact mem_routeRow.mpr ⟨hi, hi'⟩

theorem update_built {i : Nat} (hi : i ∈ entries) (hrow : p.OnRow table key (t i))
    (hmodified : (t i).state = .modified)
    (hadded : ∀ j ∈ entries, p.OnRow table key (t j) → (t j).state ≠ .added)
    (hwrites : ∃ j ∈ entries, p.OnRow table key (t j) ∧
      ∃ q ∈ (p.model.entityType (t j).entityType).properties, (⟨j, q⟩ : Source).Writes p.model t) :
    ∃ w ∈ built.writes, p.WritesTo t table key w ∧ w.state t = .modified := by
  have hroute {j : Nat} : p.routeOf t j = some ⟨table, key, some false⟩ ↔
      p.OnRow table key (t j) ∧ (t j).state.isDeleted = false := routeOf_eq_iff hm hshared
  have hi' := hroute.mpr ⟨hrow, by rw [hmodified]; rfl⟩
  obtain ⟨w, hcontent, hsettled, hkept⟩ := exists_write_of_route hb hi hi'
  have hmem {j : Nat} : j ∈ w.entries ↔ j ∈ entries ∧ p.OnRow table key (t j) ∧
      (t j).state.isDeleted = false := by
    rw [← RowWrite.mem_content, hcontent, mem_routeRow, hroute]
    rfl
  have hiw : i ∈ w.entries := hmem.mpr ⟨hi, hrow, by rw [hmodified]; rfl⟩
  have hstate : w.state t = .modified := by
    refine RowWrite.state_eq_modified_iff.mpr ⟨⟨i, hiw, by rw [hmodified]; nofun⟩, fun j hj => ?_⟩
    exact hadded j (hmem.mp hj).1 (hmem.mp hj).2.1
  have hsends : w.hasWrites p.model t = true := by
    obtain ⟨j, hj, hjrow, q, hq, hwrite⟩ := hwrites
    refine (RowWrite.hasWrites_iff hsettled).mpr ⟨j, hmem.mpr ⟨hj, hjrow, ?_⟩, q, hq, hwrite⟩
    exact decide_eq_false hwrite.not_deleted
  refine ⟨w.settle p.model t, hkept _ ?_, ⟨i, hiw, hrow⟩, hstate⟩
  rw [RowWrite.kept?, hstate, hsends]
  rfl

end Unshared

/-- What must be so that a row is deleted and updated. -/
theorem of_delete_and_update (hm : s.build = .ok p.model)
    (hb : p.buildWrites t entries = .ok built) {d w : RowWrite} (hd : d ∈ built.writes)
    (hdrow : p.WritesTo t table key d) (hdeleted : d.state t = .deleted) (hw : w ∈ built.writes)
    (hwrow : p.WritesTo t table key w) (hmodified : w.state t = .modified) :
    ¬ p.model.HoldsRoots p.tableOf table ∧
      (∃ i ∈ entries, p.OnRow table key (t i) ∧ (t i).state = .deleted) ∧
      (∃ i ∈ entries, p.OnRow table key (t i) ∧ (t i).state = .modified) ∧
      (∀ i ∈ entries, p.OnRow table key (t i) → (t i).state ≠ .added) ∧
      ∃ i ∈ entries, p.OnRow table key (t i) ∧
        ∃ q ∈ (p.model.entityType (t i).entityType).properties,
          (⟨i, q⟩ : Source).Writes p.model t := by
  obtain ⟨i, hi, hirow⟩ := hdrow
  obtain ⟨j, hj, hjrow⟩ := hwrow
  have hidentries := (buildWrites_within hb d hd).1.mem i hi
  have hjentries := (buildWrites_within hb w hw).1.mem j hj
  have hshared : ¬ p.model.HoldsRoots p.tableOf table := by
    intro hshared
    have hcontent := (content_of_route hb hd hi (routeOf_of_shared hm hshared hirow)).trans
      (content_of_route hb hw hj (routeOf_of_shared hm hshared hjrow)).symm
    have hsame := RowWrite.state_eq_of_content hcontent t
    rw [hdeleted, hmodified] at hsame
    cases hsame
  obtain ⟨hconflict, _⟩ := exists_routed_of_mem hb hw
  obtain ⟨_, hadded⟩ := RowWrite.state_eq_modified_iff.mp hmodified
  have hundeleted : (t j).state.isDeleted = false := by
    rw [RowWrite.isDeleted_of_mem hconflict hj, hmodified]
    rfl
  have hrow {l : Nat} : l ∈ w.entries ↔
      l ∈ entries ∧ p.OnRow table key (t l) ∧ (t l).state.isDeleted = false := by
    have hroute := (routeOf_eq_iff hm hshared).mpr ⟨hjrow, hundeleted⟩
    rw [← RowWrite.mem_content, content_of_route hb hw hj hroute, mem_routeRow,
      routeOf_eq_iff hm hshared]
    rfl
  refine ⟨hshared, ⟨i, hidentries, hirow, RowWrite.state_eq_deleted_iff.mp hdeleted i hi⟩,
    ⟨j, hjentries, hjrow, ?_⟩, fun l hl hlrow hladded => ?_, ?_⟩
  · cases hstate : (t j).state with
    | modified => rfl
    | unchanged => exact absurd hstate (not_unchanged_of_built hb j hjentries)
    | added => exact absurd hstate (hadded j hj)
    | deleted =>
      rw [hstate] at hundeleted
      cases hundeleted
  · exact hadded l (hrow.mpr ⟨hl, hlrow, by rw [hladded]; rfl⟩) hladded
  · obtain ⟨l, hl, hwrites⟩ := writes_of_update hb hw hmodified
    exact ⟨l, (hrow.mp hl).1, (hrow.mp hl).2.1, hwrites⟩

end Planner

/-- In a table that roots share, a row with a deleted and a modified entry is a conflict. In a table
of one root it is both deleted and updated if no entry of it is added and there is something to
send. -/
theorem row_deleted_and_updated_iff (s : Spec) (p : Planner) (hm : s.build = .ok p.model)
    (t : Snapshot) (entries : List Nat) (table : Table) (key : RowKey) :
    (p.model.HoldsRoots p.tableOf table → (∀ i ∈ entries, (t i).state ≠ .unchanged) →
      (∃ i ∈ entries, p.OnRow table key (t i) ∧ (t i).state = .deleted) →
      (∃ i ∈ entries, p.OnRow table key (t i) ∧ (t i).state = .modified) →
      ∃ table' types reason shown,
        p.buildWrites t entries = .error (.sharedIdentity table' types reason shown)) ∧
    ∀ built, p.buildWrites t entries = .ok built →
      (((∃ d ∈ built.writes, p.WritesTo t table key d ∧ d.state t = .deleted) ∧
          ∃ w ∈ built.writes, p.WritesTo t table key w ∧ w.state t = .modified) ↔
        ¬ p.model.HoldsRoots p.tableOf table ∧
        (∃ i ∈ entries, p.OnRow table key (t i) ∧ (t i).state = .deleted) ∧
        (∃ i ∈ entries, p.OnRow table key (t i) ∧ (t i).state = .modified) ∧
        (∀ i ∈ entries, p.OnRow table key (t i) → (t i).state ≠ .added) ∧
        ∃ i ∈ entries, p.OnRow table key (t i) ∧
          ∃ q ∈ (p.model.entityType (t i).entityType).properties,
            (⟨i, q⟩ : Source).Writes p.model t) := by
  constructor
  · intro hshared hwritten hdeleted hmodified
    obtain ⟨i, hi, hirow, hideleted⟩ := hdeleted
    obtain ⟨j, hj, hjrow, hjmodified⟩ := hmodified
    exact Planner.buildWrites_of_deleted_shared hm hshared hwritten hi hirow hideleted hj hjrow
      hjmodified
  · intro built hb
    constructor
    · intro h
      obtain ⟨⟨d, hd, hdrow, hdeleted⟩, w, hw, hwrow, hmodified⟩ := h
      exact Planner.of_delete_and_update hm hb hd hdrow hdeleted hw hwrow hmodified
    · intro h
      obtain ⟨hshared, ⟨i, hi, hirow, hdeleted⟩, ⟨j, hj, hjrow, hmodified⟩, hadded, hwrites⟩ := h
      exact ⟨Planner.delete_built hm hb hshared hi hirow hdeleted,
        Planner.update_built hm hb hshared hj hjrow hmodified hadded hwrites⟩

namespace Garage

/-- The vehicle is deleted, and the engine in its row gets a new version. -/
def scrapped : Snapshot
  | 0 => Family.row 0 .deleted [1, 5]
  | _ => (Family.row 1 .modified [1, 5]).withModified ⟨3⟩ true

end Garage

namespace Family

/-- A parent is deleted, and another entry of its row gets a new code. -/
def overwritten : Snapshot
  | 0 => row 0 .deleted [3, 7]
  | _ => ((row 0 .modified [3, 7]).withCurrent ⟨1⟩ (.int 8)).withModified ⟨1⟩ true

def parents : Table := ⟨none, "Parents"⟩

def updateParent : RowWrite :=
  (⟨parents, [1], none⟩ : RowWrite).settle model overwritten

theorem buildWrites_overwritten : ∃ built, planner.buildWrites overwritten [0, 1] = .ok built ∧
    built.writes = [⟨parents, [0], none⟩, updateParent] :=
  exists_of_toOption_map (by decide +kernel)

theorem row_deleted_and_updated_iff_overwritten :
    spec.build = .ok planner.model ∧ Garage.spec.build = .ok Garage.planner.model ∧
      (∃ built, planner.buildWrites overwritten [0, 1] = .ok built ∧
        ∃ w ∈ built.writes, planner.WritesTo overwritten parents ⟨[.int 3]⟩ w ∧
          w.state overwritten = .modified) ∧
      ∃ table types reason shown, Garage.planner.buildWrites Garage.scrapped [0, 1] =
        .error (.sharedIdentity table types reason shown) := by
  refine ⟨spec_build, Garage.spec_build, ?_, ?_⟩
  · obtain ⟨built, hb, _⟩ := buildWrites_overwritten
    have hshared : ¬ planner.model.HoldsRoots planner.tableOf parents :=
      (not_congr (Spec.mem_sharedTables spec_build _ _)).mp (by decide +kernel)
    obtain ⟨_, hiff⟩ := row_deleted_and_updated_iff spec planner spec_build overwritten [0, 1]
      parents ⟨[.int 3]⟩
    have hupdate := ((hiff built hb).mpr ⟨hshared, ⟨0, by decide +kernel⟩, ⟨1, by decide +kernel⟩,
      by decide +kernel, 1, by decide, by decide +kernel, ⟨1⟩, by decide +kernel⟩).2
    exact ⟨built, hb, hupdate⟩
  · have hshared : Garage.planner.model.HoldsRoots Garage.planner.tableOf ⟨none, "Vehicles"⟩ :=
      (Spec.mem_sharedTables Garage.spec_build _ _).mp (by decide +kernel)
    obtain ⟨hconflict, _⟩ := row_deleted_and_updated_iff Garage.spec Garage.planner
      Garage.spec_build Garage.scrapped [0, 1] ⟨none, "Vehicles"⟩ ⟨[.int 1]⟩
    exact hconflict hshared (by decide +kernel) ⟨0, by decide +kernel⟩ ⟨1, by decide +kernel⟩

/-- The parent is deleted and updated in one plan. -/
theorem overwritten_parent_is_deleted_and_updated :
    spec.build = .ok planner.model ∧
      ∃ built, planner.buildWrites overwritten [0, 1] = .ok built ∧
        (∃ d ∈ built.writes, planner.WritesTo overwritten parents ⟨[.int 3]⟩ d ∧
          d.state overwritten = .deleted) ∧
        ∃ w ∈ built.writes, planner.WritesTo overwritten parents ⟨[.int 3]⟩ w ∧
          w.state overwritten = .modified := by
  obtain ⟨built, hb, hwrites⟩ := buildWrites_overwritten
  refine ⟨spec_build, built, hb, ⟨⟨parents, [0], none⟩, ?_, by decide +kernel⟩,
    updateParent, ?_, by decide +kernel⟩
  · rw [hwrites]
    exact List.mem_cons_self
  · rw [hwrites]
    exact List.mem_cons_of_mem _ (List.mem_singleton_self _)

end Family

end WritePlan

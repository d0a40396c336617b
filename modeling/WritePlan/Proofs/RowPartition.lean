import Mathlib.Data.Finset.Card
import WritePlan.Proofs.Grouping
import WritePlan.Proofs.Packing
import WritePlan.Proofs.SharedColumns

namespace WritePlan

/-- The writes of entries, given the groups of their positions. -/
def Routed.rowsOf (key : Nat → Option Route) (tableAt : Nat → Table) (entryAt : Nat → Nat)
    (groups : List (List Nat)) : List (Option Route × RowWrite) :=
  groups.map fun g => (key (g.headD 0), ⟨tableAt (g.headD 0), g.map entryAt, none⟩)

namespace Routed

variable {key : Nat → Option Route} {tableAt : Nat → Table} {entryAt : Nat → Nat}

theorem join_rowsOf {groups : List (List Nat)} (hnil : ∀ g ∈ groups, g ≠ []) {n : Nat}
    (hkey : key n ≠ none) (hhas : ∃ g ∈ groups, key (g.headD 0) = key n) :
    join (key n) (entryAt n) (rowsOf key tableAt entryAt groups) =
      rowsOf key tableAt entryAt (groupWith key n groups) := by
  induction groups with
  | nil =>
    obtain ⟨_, hg, _⟩ := hhas
    exact absurd hg List.not_mem_nil
  | cons g gs ih =>
    rw [List.forall_mem_cons] at hnil
    unfold rowsOf groupWith
    rw [List.map_cons, join]
    by_cases h : key (g.headD 0) = key n
    · rw [if_pos h, if_pos ⟨hkey, h⟩, List.map_cons, headD_concat hnil.1, List.map_append]
      rfl
    · rw [if_neg h, if_neg fun hor => h hor.2, List.map_cons]
      have hhas : ∃ g ∈ gs, key (g.headD 0) = key n := by
        obtain ⟨g', hg', heq⟩ := hhas
        rcases List.mem_cons.mp hg' with rfl | hg'
        · exact absurd heq h
        · exact ⟨g', hg', heq⟩
      exact congrArg _ (ih hnil.2 hhas)

/-- A position that no group has the key of begins a group. -/
theorem groupWith_eq_concat {groups : List (List Nat)} {n : Nat}
    (h : ¬ (key n ≠ none ∧ ∃ g ∈ groups, key (g.headD 0) = key n)) :
    groupWith key n groups = groups ++ [[n]] := by
  induction groups with
  | nil => rfl
  | cons g gs ih =>
    unfold groupWith
    rw [if_neg fun hor => h ⟨hor.1, g, List.mem_cons_self, hor.2⟩, List.cons_append, ih]
    intro hor
    obtain ⟨hkey, g', hg', heq⟩ := hor
    exact h ⟨hkey, g', List.mem_cons_of_mem g hg', heq⟩

/-- Routing an entry puts its position into a group. -/
theorem add_rows {r : Routed} {groups : List (List Nat)}
    (hr : r.rows = rowsOf key tableAt entryAt groups) (hnil : ∀ g ∈ groups, g ≠ []) (n : Nat) :
    (r.add (key n) (tableAt n) (entryAt n)).rows =
      rowsOf key tableAt entryAt (groupWith key n groups) := by
  have hhas : r.has (key n) = true ↔
      key n ≠ none ∧ ∃ g ∈ groups, key (g.headD 0) = key n := by
    unfold has
    rw [hr, Bool.and_eq_true, Option.isSome_iff_ne_none, List.any_eq_true]
    simp [rowsOf]
  unfold add
  split
  · rename_i h
    obtain ⟨hkey, hex⟩ := hhas.mp h
    rw [← join_rowsOf hnil hkey hex, ← hr]
  · rename_i h
    rw [groupWith_eq_concat fun hor => h (hhas.mpr hor)]
    simp [rowsOf, hr]

variable {m : Model} {tableOf : EntityTypeId → Table} {shared : List SharedTable} {t : Snapshot}

/-- The route of the entry at a position. -/
def routeAt (m : Model) (tableOf : EntityTypeId → Table) (shared : List SharedTable)
    (t : Snapshot) (entries : List Nat) (i : Nat) : Option Route :=
  (t (entries.getD i 0)).route? m tableOf shared

/-- The rows of the first `n` entries. -/
def rowsUpTo (m : Model) (tableOf : EntityTypeId → Table) (shared : List SharedTable)
    (t : Snapshot) (entries : List Nat) (n : Nat) : List (Option Route × RowWrite) :=
  rowsOf (routeAt m tableOf shared t entries) (fun i => tableOf (t (entries.getD i 0)).entityType)
    (entries.getD · 0) (groupsBy (routeAt m tableOf shared t entries) n)

theorem addAll_eq_ok {done rest : List Nat} {r routed : Routed}
    (hr : r.rows = rowsUpTo m tableOf shared t (done ++ rest) done.length)
    (h : r.addAll m tableOf shared t rest = .ok routed) :
    routed.rows = rowsUpTo m tableOf shared t (done ++ rest) (done ++ rest).length := by
  induction rest generalizing done r with
  | nil =>
    obtain rfl : r = routed := Except.ok.inj h
    rw [hr]
    simp
  | cons i rest ih =>
    unfold addAll at h
    simp only at h
    split at h
    · cases h
    · have hi : (done ++ i :: rest).getD done.length 0 = i := by simp
      have hadd := add_rows hr (grouping_groupsBy _ _).ne_nil done.length
      rw [List.append_cons] at hadd hi ⊢
      refine ih ?_ h
      rw [List.length_append, List.length_singleton]
      simp only [routeAt, hi] at hadd
      exact hadd

end Routed

/-- The type is a root, and it is stored in the table. -/
def Model.RootIn (m : Model) (tableOf : EntityTypeId → Table) (table : Table)
    (e : EntityTypeId) : Prop :=
  (e.index < m.entityTypes.length ∧ (m.entityType e).base = none) ∧ tableOf e = table

/-- Two different roots are stored in the table. -/
def Model.HoldsRoots (m : Model) (tableOf : EntityTypeId → Table) (table : Table) : Prop :=
  ∃ a b, a ≠ b ∧ m.RootIn tableOf table a ∧ m.RootIn tableOf table b

/-- The entries are known to be of one row, and it is written for both at once: always in a table
that roots share, and in one of a single root if both are deleted or neither is. -/
structure Entry.WrittenWith (m : Model) (tableOf : EntityTypeId → Table) (e f : Entry) :
    Prop where
  key : ∃ k, e.rowKey? m = some k ∧ f.rowKey? m = some k
  table : tableOf e.entityType = tableOf f.entityType
  kind : m.HoldsRoots tableOf (tableOf e.entityType) ∨ e.state.isDeleted = f.state.isDeleted

theorem one_lt_length_iff {α : Type} [DecidableEq α] {l : List α} (hl : l.Nodup) :
    1 < l.length ↔ ∃ a ∈ l, ∃ b ∈ l, a ≠ b := by
  rw [← List.toFinset_card_of_nodup hl, Finset.one_lt_card]
  simp only [List.mem_toFinset]

/-- The tables that are listed as shared are those of several roots. -/
theorem Spec.mem_sharedTables {s : Spec} {m : Model} (hm : s.build = .ok m)
    (tableOf : EntityTypeId → Table) (table : Table) :
    (m.sharedTables tableOf).any (·.table = table) = true ↔ m.HoldsRoots tableOf table := by
  have hcount : m.HoldsRoots tableOf table ↔
      1 < ((m.roots.map (·.id)).filter (tableOf · = table)).length := by
    rw [one_lt_length_iff ((roots_nodup hm).filter _)]
    simp only [List.mem_filter, mem_roots hm, decide_eq_true_eq]
    constructor
    · intro h
      obtain ⟨a, b, hne, ha, hb⟩ := h
      exact ⟨a, ha, b, hb, hne⟩
    · intro h
      obtain ⟨a, ha, b, hb, hne⟩ := h
      exact ⟨a, b, hne, ha, hb⟩
  rw [hcount]
  unfold Model.sharedTables
  simp only [List.any_eq_true, List.mem_filter, List.mem_map, decide_eq_true_eq]
  constructor
  · intro h
    obtain ⟨_, ⟨⟨table', _, rfl⟩, hlt⟩, rfl⟩ := h
    exact hlt
  · intro hlt
    obtain ⟨e, he⟩ := List.exists_mem_of_length_pos (Nat.zero_lt_of_lt hlt)
    obtain ⟨hroot, ht⟩ := List.mem_filter.mp he
    refine ⟨⟨table, (m.roots.map (·.id)).filter (tableOf · = table)⟩, ⟨⟨table, ?_, rfl⟩, hlt⟩, rfl⟩
    rw [mem_sortBy, List.mem_eraseDups]
    exact List.mem_map.mpr ⟨e, hroot, of_decide_eq_true ht⟩

/-- Entries have one route where they are written as one row. -/
theorem Spec.route_iff {s : Spec} {m : Model} (hm : s.build = .ok m)
    (tableOf : EntityTypeId → Table) (e f : Entry) :
    (∃ r, e.route? m tableOf (m.sharedTables tableOf) = some r ∧
        f.route? m tableOf (m.sharedTables tableOf) = some r) ↔ e.WrittenWith m tableOf f := by
  unfold Entry.route?
  constructor
  · intro h
    obtain ⟨r, he, hf⟩ := h
    obtain ⟨k, hk, rfl⟩ := Option.map_eq_some_iff.mp he
    obtain ⟨k', hk', heq⟩ := Option.map_eq_some_iff.mp hf
    obtain ⟨htable, rfl, hdeleted⟩ := Route.mk.inj heq
    refine ⟨⟨k', hk, hk'⟩, htable.symm, ?_⟩
    rw [htable] at hdeleted
    by_cases hshared : (m.sharedTables tableOf).any (·.table = tableOf e.entityType) = true
    · exact .inl ((mem_sharedTables hm tableOf _).mp hshared)
    · rw [if_neg hshared, if_neg hshared] at hdeleted
      exact .inr (Option.some.inj hdeleted).symm
  · intro h
    obtain ⟨⟨k, hk, hk'⟩, htable, hkind⟩ := h
    refine ⟨_, by rw [hk, Option.map_some], ?_⟩
    rw [hk', Option.map_some, ← htable]
    rcases hkind with hshared | hdeleted
    · have hshared := (mem_sharedTables hm tableOf _).mpr hshared
      simp only [hshared, if_true]
    · rw [hdeleted]

/-- Only updates that write nothing are left out, and the others stay as they are. -/
theorem sameRows_filterMap_kept (m : Model) (t : Snapshot) (ws : List RowWrite) :
    SameRows (ws.filterMap (·.kept? m t))
      (ws.filter fun w => !((w.state t).isModified && !w.hasWrites m t)) := by
  induction ws with
  | nil => exact .nil
  | cons w ws ih =>
    rw [List.filterMap_cons, List.filter_cons, RowWrite.kept?]
    cases (w.state t).isModified with
    | false => exact .cons (.refl w) ih
    | true =>
      cases w.hasWrites m t with
      | false => exact ih
      | true => exact .cons (w.settle_sameRow m t) ih

/-- The positions of the entries are parted into groups by what is written as one row, and each
group is a write. Those left out are the updates that write no column. -/
theorem entries_parted_by_row (s : Spec) (p : Planner) (hm : s.build = .ok p.model) (t : Snapshot)
    (entries : List Nat) (built : BuiltWrites) (hb : p.buildWrites t entries = .ok built) :
    ∃ groups ws,
      Grouping entries.length (fun i j => (t (entries.getD i 0)).WrittenWith p.model p.tableOf
        (t (entries.getD j 0))) groups ∧
      List.Forall₂ (fun g w => w.entries = g.map (entries.getD · 0) ∧ w.settled = none ∧
        ∀ i ∈ w.entries, p.tableOf (t i).entityType = w.table) groups ws ∧
      SameRows built.writes
        (ws.filter fun w => !((w.state t).isModified && !w.hasWrites p.model t)) := by
  obtain ⟨routed, hrouted, hb⟩ := bind_eq_ok.mp hb
  obtain ⟨_, _, hb⟩ := bind_eq_ok.mp hb
  obtain rfl := Except.ok.inj hb
  have hstart : Routed.empty.rows =
      Routed.rowsUpTo p.model p.tableOf p.sharedTables t ([] ++ entries) 0 := rfl
  have hrows := Routed.addAll_eq_ok hstart hrouted
  rw [List.nil_append] at hrows
  have hgroups := grouping_groupsBy
    (Routed.routeAt p.model p.tableOf p.sharedTables t entries) entries.length
  have hsame : KeysAgree (Routed.routeAt p.model p.tableOf p.sharedTables t entries) =
      fun i j => (t (entries.getD i 0)).WrittenWith p.model p.tableOf
        (t (entries.getD j 0)) := by
    funext i j
    exact propext (Spec.route_iff hm p.tableOf _ _)
  refine ⟨groupsBy (Routed.routeAt p.model p.tableOf p.sharedTables t entries) entries.length,
    routed.writes, hsame ▸ hgroups, ?_, sameRows_filterMap_kept p.model t routed.writes⟩
  rw [Routed.writes, hrows, Routed.rowsUpTo, Routed.rowsOf, List.map_map,
    List.forall₂_map_right_iff, List.forall₂_same]
  intro g hg
  refine ⟨rfl, rfl, ?_⟩
  intro e he
  obtain ⟨i, hi, rfl⟩ := List.mem_map.mp he
  have hfirst := headD_mem (hgroups.ne_nil g hg)
  rcases hgroups.keysAgree_of_mem hg hi hfirst with rfl | hagree
  · rfl
  · rw [hsame] at hagree
    exact hagree.table

namespace Garage

/-- Vehicle and engine of one row are changed, and the vehicle of another row is deleted. -/
def fleet : Snapshot
  | 0 => (Family.row 0 .modified [1, 5]).withModified ⟨1⟩ true
  | 1 => (Family.row 1 .modified [1, 5]).withModified ⟨3⟩ true
  | _ => Family.row 0 .deleted [2, 5]

def planner : Planner :=
  { Family.planner with model := model, tableOf := model.tableIn none }

theorem entries_parted_by_row_fleet :
    spec.build = .ok planner.model ∧
      ∃ built, planner.buildWrites fleet [0, 1, 2] = .ok built ∧
        built.writes.map (·.entries) = [[0, 1], [2]] ∧
        ∃ groups : List (List Nat), groups.flatten.Perm (List.range 3) ∧
          (∃ g ∈ groups, 0 ∈ g ∧ 1 ∈ g) ∧
          ¬ ∃ g ∈ groups, 0 ∈ g ∧ 2 ∈ g := by
  obtain ⟨built, hb, hwrites⟩ : ∃ built, planner.buildWrites fleet [0, 1, 2] = .ok built ∧
      built.writes.map (·.entries) = [[0, 1], [2]] :=
    exists_of_toOption_map (by decide +kernel)
  obtain ⟨groups, _, hgroups, _⟩ :=
    entries_parted_by_row spec planner spec_build fleet [0, 1, 2] built hb
  refine ⟨spec_build, built, hb, hwrites, groups, hgroups.perm, ?_, ?_⟩
  · have hroots : planner.model.HoldsRoots planner.tableOf
        (planner.tableOf (fleet 0).entityType) :=
      ⟨⟨0⟩, ⟨1⟩, by decide, ⟨by decide +kernel, by decide +kernel⟩,
        by decide +kernel, by decide +kernel⟩
    rw [hgroups.together 0 1 (by decide) (by decide)]
    exact ⟨⟨⟨[.int 1]⟩, by decide +kernel, by decide +kernel⟩, by decide +kernel, .inl hroots⟩
  · rw [hgroups.together 0 2 (by decide) (by decide)]
    intro h
    obtain ⟨k, hk, hk'⟩ := h.key
    have h0 : (fleet 0).rowKey? model = some ⟨[.int 1]⟩ := by decide +kernel
    have h2 : (fleet 2).rowKey? model = some ⟨[.int 2]⟩ := by decide +kernel
    have heq := Option.some.inj (h0.symm.trans (hk.trans (hk'.symm.trans h2)))
    exact absurd heq (by decide)

end Garage

end WritePlan

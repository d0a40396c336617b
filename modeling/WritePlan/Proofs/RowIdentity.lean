import WritePlan.Proofs.Replacement
import WritePlan.Proofs.RowContents
import WritePlan.Proofs.RowPartition

namespace WritePlan

/-- The key of the entry is the one that it was read with. -/
def Entry.KeepsKey (m : Model) (e : Entry) : Prop :=
  e.primaryKeyValues m .original = e.primaryKeyValues m .current

instance (m : Model) (e : Entry) : Decidable (e.KeepsKey m) :=
  inferInstanceAs (Decidable (_ = _))

namespace RowWrite

variable {m : Model} {t : Snapshot} {v w : RowWrite}

/-- The reading of keys by which entries come together in a write of this kind. -/
def gatheredBy (t : Snapshot) (w : RowWrite) : Projection :=
  if (w.state t).isDeleted then .original else .current

/-- The reading of the key by which the row is found. -/
def locatedBy (t : Snapshot) (w : RowWrite) : Projection :=
  if (w.state t).isAdded then .current else .original

/-- All entries have the same key in that reading. -/
def OneKey (m : Model) (t : Snapshot) (source : Projection) (w : RowWrite) : Prop :=
  ∀ i ∈ w.entries, ∀ j ∈ w.entries,
    (t i).primaryKeyValues m source = (t j).primaryKeyValues m source

instance (source : Projection) : Decidable (w.OneKey m t source) :=
  inferInstanceAs (Decidable (∀ i ∈ w.entries, ∀ j ∈ w.entries, _ = _))

theorem state_ne_unchanged (t : Snapshot) (w : RowWrite) : w.state t ≠ .unchanged := by
  unfold state
  cases w.entries.all fun i => (t i).state.isDeleted <;>
    cases w.entries.any fun i => (t i).state.isAdded <;> simp

/-- The two readings differ for updates only, where they come to the same if keys are kept. -/
theorem OneKey.located (h : w.OneKey m t (w.gatheredBy t))
    (hkept : w.state t = .modified → ∀ i ∈ w.entries, (t i).KeepsKey m) :
    w.OneKey m t (w.locatedBy t) := by
  unfold gatheredBy at h
  unfold locatedBy
  cases hs : w.state t with
  | added => rwa [hs] at h
  | deleted => rwa [hs] at h
  | unchanged => exact absurd hs (w.state_ne_unchanged t)
  | modified =>
    rw [hs] at h
    intro i hi j hj
    exact (hkept hs i hi).trans ((h i hi j hj).trans (hkept hs j hj).symm)

/-- The row is found by the key of any of its entries. -/
theorem OneKey.keyValues_eq (h : w.OneKey m t (w.locatedBy t)) {i : Nat} (hi : i ∈ w.entries) :
    w.keyValues m t = (t i).primaryKeyValues m (w.locatedBy t) := by
  unfold keyValues
  cases hentries : w.entries with
  | nil => exact absurd hi (hentries ▸ List.not_mem_nil)
  | cons j js => exact h j (hentries ▸ List.mem_cons_self) i hi

/-- Nor does it matter in which order they came. -/
theorem OneKey.keyValues_congr (h : w.OneKey m t (w.locatedBy t)) (hv : v.content = w.content) :
    v.keyValues m t = w.keyValues m t := by
  have hperm := (content_eq_iff.mp hv).2
  have hlocated : v.locatedBy t = w.locatedBy t := by
    rw [locatedBy, state_eq_of_content hv, locatedBy]
  have hv' : v.OneKey m t (v.locatedBy t) := by
    rw [hlocated]
    exact fun i hi j hj => h i (hperm.mem_iff.mp hi) j (hperm.mem_iff.mp hj)
  cases hentries : w.entries with
  | nil =>
    have hnil : v.entries = [] := (hentries ▸ hperm).eq_nil
    simp only [keyValues, hentries, hnil]
  | cons i is =>
    have hi : i ∈ w.entries := hentries ▸ List.mem_cons_self
    rw [h.keyValues_eq hi, hv'.keyValues_eq (hperm.mem_iff.mpr hi), hlocated]

theorem OneKey.text_congr (h : w.OneKey m t (w.locatedBy t)) (hv : v.content = w.content)
    (sensitive : Bool) : v.text m sensitive t = w.text m sensitive t := by
  rw [text, text, state_eq_of_content hv, (content_eq_iff.mp hv).1, h.keyValues_congr hv]

theorem OneKey.standard_congr (h : w.OneKey m t (w.locatedBy t)) (hv : v.content = w.content)
    (u : RowWrite) : Comparer.standard m t v u = Comparer.standard m t w u ∧
      Comparer.standard m t u v = Comparer.standard m t u w := by
  unfold Comparer.standard
  rw [state_eq_of_content hv, (content_eq_iff.mp hv).1, h.keyValues_congr hv]
  exact ⟨rfl, rfl⟩

/-- A condition on a property of the key asks for the part of the row's key at its place. -/
theorem OneKey.originalValue_eq (h : w.OneKey m t (w.locatedBy t)) (hs : w.state t ≠ .added)
    {c : ColumnUse} (hc : c.entry ∈ w.entries) {n : Nat}
    (hn : (m.keyByColumn (t c.entry).entityType)[n]? = some c.property.id) :
    (w.keyValues m t)[n]? = some (c.originalValue t) := by
  have hlocated : w.locatedBy t = .original := by
    have hadded : (w.state t).isAdded = false := decide_eq_false hs
    rw [locatedBy, hadded]
    rfl
  rw [h.keyValues_eq hc, hlocated, Entry.primaryKeyValues, List.getElem?_map, hn]
  rfl

end RowWrite

/-- Entries that are routed together have one key as they were read for it. -/
theorem Planner.oneKey_of_mem {p : Planner} {t : Snapshot} {entries : List Nat}
    {built : BuiltWrites} (hb : p.buildWrites t entries = .ok built) {w : RowWrite}
    (hw : w ∈ built.writes) : w.OneKey p.model t (w.gatheredBy t) := by
  obtain ⟨hconflict, _⟩ := exists_routed_of_mem hb hw
  have hread {i : Nat} (hi : i ∈ w.entries) :
      (if (t i).state.isDeleted then Projection.original else .current) = w.gatheredBy t := by
    rw [RowWrite.isDeleted_of_mem hconflict hi]
    rfl
  intro i hi j hj
  rcases content_of_mem hb hw hi with ⟨_, hentries⟩ | ⟨k, hik, hcontent⟩
  · obtain rfl : j = i := List.mem_singleton.mp (hentries ▸ hj)
    rfl
  · have hjk : p.routeOf t j = some k := by
      rw [← RowWrite.mem_content, hcontent, mem_routeRow] at hj
      exact hj.2
    obtain ⟨key, hikey, hi'⟩ := Option.map_eq_some_iff.mp hik
    obtain ⟨key', hjkey, hj'⟩ := Option.map_eq_some_iff.mp hjk
    obtain rfl : key = key' := (congrArg Route.key hi').trans (congrArg Route.key hj').symm
    have hikey := (Entry.rowKey?_eq_some hikey).1
    have hjkey := (Entry.rowKey?_eq_some hjkey).1
    rw [hread hi] at hikey
    rw [hread hj] at hjkey
    exact hikey.symm.trans hjkey

/-- The entries of a write have one key in the reading by which they came together. The row is found
by it if the write is an insert or a delete, and for an update if its entries keep their keys. -/
theorem merged_entries_name_row (p : Planner) (t : Snapshot) (entries : List Nat)
    (built : BuiltWrites) (hb : p.buildWrites t entries = .ok built) (w : RowWrite)
    (hw : w ∈ built.writes) :
    w.OneKey p.model t (w.gatheredBy t) ∧
      ((w.state t = .modified → ∀ i ∈ w.entries, (t i).KeepsKey p.model) →
        w.OneKey p.model t (w.locatedBy t) ∧
        (∀ i ∈ w.entries,
          w.keyValues p.model t = (t i).primaryKeyValues p.model (w.locatedBy t)) ∧
        ∀ v : RowWrite, v.content = w.content →
          v.keyValues p.model t = w.keyValues p.model t ∧
          (∀ sensitive, v.text p.model sensitive t = w.text p.model sensitive t) ∧
          (∀ u, Comparer.standard p.model t v u = Comparer.standard p.model t w u ∧
            Comparer.standard p.model t u v = Comparer.standard p.model t u w) ∧
          (w.state t ≠ .added → ∀ c ∈ p.model.columnsOf t v.entries, ∀ n : Nat,
            (p.model.keyByColumn (t c.entry).entityType)[n]? = some c.property.id →
              (w.keyValues p.model t)[n]? = some (c.originalValue t))) := by
  have hgathered := Planner.oneKey_of_mem hb hw
  refine ⟨hgathered, fun hkept => ?_⟩
  have hlocated := hgathered.located hkept
  refine ⟨hlocated, fun i hi => hlocated.keyValues_eq hi, fun v hv => ⟨hlocated.keyValues_congr hv,
    hlocated.text_congr hv, hlocated.standard_congr hv, fun hs c hc n hn => ?_⟩⟩
  have hentry := (RowWrite.content_eq_iff.mp hv).2.mem_iff.mp (Model.entry_of_mem_columnsOf hc)
  exact hlocated.originalValue_eq hs hentry hn

namespace Garage

/-- Vehicle and engine of one row, in either order. -/
def assembly (order : List Nat) (t : Snapshot) : RowWrite :=
  (⟨⟨none, "Vehicles"⟩, order, none⟩ : RowWrite).settle model t

theorem assembly_content (t : Snapshot) :
    (assembly [1, 0] t).content = (assembly [0, 1] t).content :=
  RowWrite.content_eq_iff.mpr ⟨rfl, .swap 0 1 []⟩

theorem merged_entries_name_row_fleet :
    ∃ built, planner.buildWrites fleet [0, 1, 2] = .ok built ∧
      assembly [0, 1] fleet ∈ built.writes ∧
      (∀ i ∈ [0, 1], (fleet i).KeepsKey planner.model) ∧
      (assembly [1, 0] fleet).keyValues planner.model fleet = [.int 1] := by
  obtain ⟨built, hb, hwrites⟩ : ∃ built, planner.buildWrites fleet [0, 1, 2] = .ok built ∧
      built.writes = [assembly [0, 1] fleet, ⟨⟨none, "Vehicles"⟩, [2], none⟩] :=
    exists_of_toOption_map (by decide +kernel)
  have hmem : assembly [0, 1] fleet ∈ built.writes := hwrites ▸ List.mem_cons_self
  have hkept : ∀ i ∈ [0, 1], (fleet i).KeepsKey planner.model := by decide +kernel
  obtain ⟨_, _, _, hany⟩ := (merged_entries_name_row planner fleet [0, 1, 2] built hb
    (assembly [0, 1] fleet) hmem).imp_right fun h => h fun _ => hkept
  refine ⟨built, hb, hmem, hkept, (hany _ (assembly_content fleet)).1.trans ?_⟩
  decide +kernel

/-- The vehicle has always had the number that the engine takes over. -/
def swapped : Snapshot
  | 0 => (Family.row 0 .modified [1, 5]).withModified ⟨1⟩ true
  | _ => ((Family.row 1 .modified [1, 5]).withOriginal ⟨2⟩ (.int 2)).withModified ⟨3⟩ true

/-- The two are written as one row, and which one it is hangs on the order in which they came. -/
theorem row_of_update_hangs_on_order :
    ∃ built built', planner.buildWrites swapped [0, 1] = .ok built ∧
      planner.buildWrites swapped [1, 0] = .ok built' ∧
      ∃ w ∈ built.writes, ∃ w' ∈ built'.writes, w.content = w'.content ∧
        ¬ w.OneKey planner.model swapped (w.locatedBy swapped) ∧
        w.keyValues planner.model swapped ≠ w'.keyValues planner.model swapped := by
  have hbuilt (order : List Nat)
      (h : (planner.buildWrites swapped order).toOption.map (·.writes) =
        some [assembly order swapped]) :
      ∃ built, planner.buildWrites swapped order = .ok built ∧
        assembly order swapped ∈ built.writes := by
    obtain ⟨built, hb, hwrites⟩ := exists_of_toOption_map h
    exact ⟨built, hb, hwrites ▸ List.mem_cons_self⟩
  obtain ⟨built, hb, hmem⟩ := hbuilt [0, 1] (by decide +kernel)
  obtain ⟨built', hb', hmem'⟩ := hbuilt [1, 0] (by decide +kernel)
  exact ⟨built, built', hb, hb', _, hmem, _, hmem', (assembly_content swapped).symm,
    by decide +kernel, by decide +kernel⟩

end Garage

end WritePlan

import WritePlan.Proofs.Delivery

namespace WritePlan

/-- The write is of some of the entries, and so are its columns where they are settled. -/
structure RowWrite.Within (entries : List Nat) (w : RowWrite) : Prop where
  mem : ∀ i ∈ w.entries, i ∈ entries
  settled : ∀ cs, w.settled = some cs → ∀ c ∈ cs, c.entry ∈ entries

/-- A column that is used again keeps its source. -/
theorem ColumnUse.entry_of_mem_add {c d : ColumnUse} {cs : List ColumnUse} (h : d ∈ c.add cs) :
    d.entry = c.entry ∨ ∃ b ∈ cs, d.entry = b.entry := by
  induction cs with
  | nil => exact .inl (congrArg entry (List.mem_singleton.mp h))
  | cons b cs ih =>
    unfold add at h
    split at h
    · rcases List.mem_cons.mp h with rfl | hd
      · exact .inr ⟨b, List.mem_cons_self, rfl⟩
      · exact .inr ⟨d, List.mem_cons_of_mem b hd, rfl⟩
    · rcases List.mem_cons.mp h with rfl | hd
      · exact .inr ⟨d, List.mem_cons_self, rfl⟩
      · rcases ih hd with hd | ⟨b', hb', hd⟩
        · exact .inl hd
        · exact .inr ⟨b', List.mem_cons_of_mem b hb', hd⟩

theorem Model.entry_of_mem_columnsOf {m : Model} {t : Snapshot} {entries : List Nat}
    {c : ColumnUse} (hc : c ∈ m.columnsOf t entries) : c.entry ∈ entries := by
  have huse : ∀ c ∈ entries.flatMap (m.columnUses t), c.entry ∈ entries := by
    intro c hc
    obtain ⟨i, hi, hc⟩ := List.mem_flatMap.mp hc
    obtain ⟨p, _, hc⟩ := List.mem_filterMap.mp hc
    obtain ⟨roles, _, rfl⟩ := Option.map_eq_some_iff.mp hc
    exact hi
  have hfold (uses cs : List ColumnUse) (huses : ∀ c ∈ uses, c.entry ∈ entries)
      (hcs : ∀ c ∈ cs, c.entry ∈ entries) :
      ∀ c ∈ uses.foldl (fun cs c => c.add cs) cs, c.entry ∈ entries := by
    induction uses generalizing cs with
    | nil => exact hcs
    | cons u uses ih =>
      obtain ⟨hu, huses⟩ := List.forall_mem_cons.mp huses
      refine ih (u.add cs) huses fun d hd => ?_
      rcases ColumnUse.entry_of_mem_add hd with hd | ⟨b, hb, hd⟩
      · exact hd ▸ hu
      · exact hd ▸ hcs b hb
  exact hfold _ [] huse (fun _ hc => absurd hc List.not_mem_nil) c hc

/-- What is kept is the write, with its columns settled if it is an update, and an update is kept
only if it has something to send. -/
theorem RowWrite.kept?_eq_some {m : Model} {t : Snapshot} {v w : RowWrite} :
    v.kept? m t = some w ↔ (v.state t).isModified = false ∧ v = w ∨
      (v.state t).isModified = true ∧ v.hasWrites m t = true ∧ v.settle m t = w := by
  unfold kept?
  cases (v.state t).isModified <;> simp

namespace RowWrite.Within

variable {entries : List Nat} {w : RowWrite} (h : w.Within entries) (m : Model) (t : Snapshot)
include h

theorem columns : ∀ c ∈ w.columns m t, c.entry ∈ entries := by
  intro c hc
  unfold RowWrite.columns at hc
  cases hs : w.settled with
  | some cs =>
    rw [hs] at hc
    exact h.settled cs hs c hc
  | none =>
    rw [hs] at hc
    exact h.mem _ (Model.entry_of_mem_columnsOf hc)

theorem settle : (w.settle m t).Within entries where
  mem := h.mem
  settled _ hcs := Option.some.inj hcs ▸ h.columns m t

theorem of_kept? {w' : RowWrite} (hk : w.kept? m t = some w') : w'.Within entries := by
  rcases RowWrite.kept?_eq_some.mp hk with ⟨_, rfl⟩ | ⟨_, _, rfl⟩
  · exact h
  · exact h.settle m t

end RowWrite.Within

namespace Routed

variable {entries : List Nat} {r : Routed}

/-- Routing settles nothing. -/
theorem add_unsettled (hr : ∀ w ∈ r.writes, w.settled = none ∧ ∀ i ∈ w.entries, i ∈ entries)
    (route : Option Route) (table : Table) {i : Nat} (hi : i ∈ entries) :
    ∀ w ∈ (r.add route table i).writes, w.settled = none ∧ ∀ i ∈ w.entries, i ∈ entries := by
  have hjoin (rows : List (Option Route × RowWrite))
      (hrows : ∀ x ∈ rows, x.2.settled = none ∧ ∀ i ∈ x.2.entries, i ∈ entries) :
      ∀ x ∈ join route i rows, x.2.settled = none ∧ ∀ i ∈ x.2.entries, i ∈ entries := by
    induction rows with
    | nil => exact hrows
    | cons x rows ih =>
      obtain ⟨key, w⟩ := x
      obtain ⟨hw, hrows⟩ := List.forall_mem_cons.mp hrows
      unfold join
      split
      · refine List.forall_mem_cons.mpr ⟨⟨hw.1, fun j hj => ?_⟩, hrows⟩
        rcases List.mem_append.mp hj with hj | hj
        · exact hw.2 j hj
        · exact List.mem_singleton.mp hj ▸ hi
      · exact List.forall_mem_cons.mpr ⟨hw, ih hrows⟩
  unfold writes at hr
  rw [List.forall_mem_map] at hr
  unfold add writes
  rw [List.forall_mem_map]
  split
  · exact hjoin r.rows hr
  · intro x hx
    rcases List.mem_append.mp hx with hx | hx
    · exact hr x hx
    · rw [List.mem_singleton.mp hx]
      exact ⟨rfl, fun j hj => List.mem_singleton.mp hj ▸ hi⟩

theorem addAll_unsettled {m : Model} {tableOf : EntityTypeId → Table} {shared : List SharedTable}
    {t : Snapshot} {is : List Nat} {routed : Routed}
    (hr : ∀ w ∈ r.writes, w.settled = none ∧ ∀ i ∈ w.entries, i ∈ entries)
    (his : ∀ i ∈ is, i ∈ entries) (h : r.addAll m tableOf shared t is = .ok routed) :
    ∀ w ∈ routed.writes, w.settled = none ∧ ∀ i ∈ w.entries, i ∈ entries := by
  induction is generalizing r with
  | nil => exact Except.ok.inj h ▸ hr
  | cons i is ih =>
    obtain ⟨hi, his⟩ := List.forall_mem_cons.mp his
    unfold addAll at h
    simp only at h
    split at h
    · cases h
    · exact ih (add_unsettled hr _ _ hi) his h

theorem addAll_within {m : Model} {tableOf : EntityTypeId → Table} {shared : List SharedTable}
    {t : Snapshot} {routed : Routed} (h : empty.addAll m tableOf shared t entries = .ok routed) :
    ∀ w ∈ routed.writes, w.settled = none ∧ w.Within entries := by
  intro w hw
  obtain ⟨hnone, hmem⟩ := addAll_unsettled (fun _ hw => absurd hw List.not_mem_nil)
    (fun _ hi => hi) h w hw
  exact ⟨hnone, hmem, fun cs hcs => by cases hnone.symm.trans hcs⟩

theorem length_join (route : Option Route) (i : Nat) (rows : List (Option Route × RowWrite)) :
    (join route i rows).length = rows.length := by
  induction rows with
  | nil => rfl
  | cons x rows ih =>
    obtain ⟨key, w⟩ := x
    unfold join
    split
    · rfl
    · rw [List.length_cons, ih, List.length_cons]

/-- Each entry makes a row or joins one. -/
theorem count_addAll {m : Model} {tableOf : EntityTypeId → Table} {shared : List SharedTable}
    {t : Snapshot} {is : List Nat} {routed : Routed}
    (h : r.addAll m tableOf shared t is = .ok routed) :
    routed.rows.length + routed.merged = r.rows.length + r.merged + is.length := by
  have hadd (r : Routed) (route : Option Route) (table : Table) (i : Nat) :
      (r.add route table i).rows.length + (r.add route table i).merged =
        r.rows.length + r.merged + 1 := by
    unfold add
    split
    · rw [length_join, Nat.add_assoc]
    · simp only [List.length_append, List.length_singleton]
      omega
  induction is generalizing r with
  | nil =>
    obtain rfl := Except.ok.inj h
    rfl
  | cons i is ih =>
    unfold addAll at h
    simp only at h
    split at h
    · cases h
    · rw [ih h, hadd, List.length_cons]
      omega

end Routed

namespace Planner

variable {p : Planner} {t : Snapshot} {entries : List Nat}

theorem buildWrites_within {built : BuiltWrites} (h : p.buildWrites t entries = .ok built) :
    ∀ w ∈ built.writes, w.Within entries ∧ ((w.state t).isModified = false → w.settled = none) := by
  obtain ⟨routed, hrouted, h⟩ := bind_eq_ok.mp h
  obtain ⟨_, _, h⟩ := bind_eq_ok.mp h
  obtain rfl := Except.ok.inj h
  intro w hw
  obtain ⟨v, hv, hk⟩ := List.mem_filterMap.mp hw
  obtain ⟨hnone, hwithin⟩ := Routed.addAll_within hrouted v hv
  refine ⟨hwithin.of_kept? _ _ hk, fun hstate => ?_⟩
  rcases RowWrite.kept?_eq_some.mp hk with ⟨_, rfl⟩ | ⟨hmodified, _, rfl⟩
  · exact hnone
  · exact absurd (hstate.symm.trans hmodified) Bool.false_ne_true

theorem sets_within {sets : List (List RowWrite)} (h : (p.prepare t entries).sets = .ok sets) :
    ∀ w ∈ sets.flatten, w.Within entries ∧ ((w.state t).isModified = false → w.settled = none) := by
  obtain ⟨built, hb, hperm⟩ := perm_of_sets h
  exact fun w hw => buildWrites_within hb w (hperm.mem_iff.mp hw)

/-- Each entry has a write of its own, joins another one's or is in one that is dropped. -/
theorem count_buildWrites {built : BuiltWrites} (h : p.buildWrites t entries = .ok built) :
    built.writes.length + built.merged + built.dropped = entries.length := by
  obtain ⟨routed, hrouted, h⟩ := bind_eq_ok.mp h
  obtain ⟨_, _, h⟩ := bind_eq_ok.mp h
  obtain rfl := Except.ok.inj h
  have hcount := Routed.count_addAll hrouted
  have hrows : routed.writes.length = routed.rows.length := List.length_map _
  have hkept := List.length_filterMap_le (·.kept? p.model t) routed.writes
  simp only [Routed.empty, List.length_nil] at hcount ⊢
  omega

end Planner

end WritePlan

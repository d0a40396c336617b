import WritePlan.Proofs.RowContents

namespace WritePlan

/-- What a list makes of its elements may drop some of them, but changes the order of none. -/
theorem findIdx_lt_of_filterMap {α β : Type} {f : α → Option β} {p q : β → Bool} {l : List α}
    (h : (l.filterMap f).findIdx p < (l.filterMap f).findIdx q) :
    l.findIdx (fun a => (f a).any p) < l.findIdx fun a => (f a).any q := by
  induction l with
  | nil => simp at h
  | cons a l ih =>
    cases ha : f a with
    | none =>
      rw [List.filterMap_cons_none ha] at h
      simpa [List.findIdx_cons, ha] using ih h
    | some b =>
      rw [List.filterMap_cons_some ha, List.findIdx_cons, List.findIdx_cons] at h
      rw [List.findIdx_cons, List.findIdx_cons, ha, Option.any_some, Option.any_some]
      cases hp : p b <;> cases hq : q b <;> simp only [hp, hq, cond_true, cond_false] at h ⊢
      · have := ih (Nat.lt_of_succ_lt_succ h)
        omega
      · omega
      · omega
      · omega

namespace Roles

/-- Which parts are played does not hang on the order. -/
theorem union_perm {rs ss : List Roles} (h : rs.Perm ss) : union rs = union ss := by
  simp only [union, h.any_eq]

end Roles

namespace ColumnUse

theorem roles_joined (uses : List ColumnUse) :
    (joined uses).map (·.roles) =
      if uses = [] then none else some (Roles.union (uses.map (·.roles))) := by
  cases uses with
  | nil => rfl
  | cons c uses => rw [joined_cons, if_neg (List.cons_ne_nil c uses), Option.map_some]

/-- Names that stand in the order in which they first occur among `all`. -/
structure InOrderOfUse (names all : List String) : Prop where
  mem_iff : ∀ a, a ∈ names ↔ a ∈ all
  ordered : names.Pairwise fun a b => all.idxOf a < all.idxOf b

theorem InOrderOfUse.concat {names all : List String} (h : InOrderOfUse names all) (a : String) :
    InOrderOfUse (if a ∈ names then names else names ++ [a]) (all ++ [a]) := by
  have hold {b : String} (hb : b ∈ names) : (all ++ [a]).idxOf b = all.idxOf b :=
    List.idxOf_append_of_mem ((h.mem_iff b).mp hb)
  have hordered : names.Pairwise fun b c => (all ++ [a]).idxOf b < (all ++ [a]).idxOf c := by
    refine h.ordered.imp_of_mem fun hb hc hlt => ?_
    rwa [hold hb, hold hc]
  by_cases ha : a ∈ names
  · rw [if_pos ha]
    refine ⟨fun b => ?_, hordered⟩
    simp only [h.mem_iff, List.mem_append, List.mem_singleton]
    constructor
    · exact Or.inl
    · rintro (hb | rfl)
      · exact hb
      · exact (h.mem_iff b).mp ha
  · rw [if_neg ha]
    refine ⟨fun b => by simp [h.mem_iff], ?_⟩
    rw [List.pairwise_append]
    refine ⟨hordered, List.pairwise_singleton _ _, fun b hb c hc => ?_⟩
    obtain rfl := List.mem_singleton.mp hc
    rw [hold hb, List.idxOf_append_of_notMem (mt (h.mem_iff c).mpr ha)]
    have := List.idxOf_lt_length_iff.mpr ((h.mem_iff b).mp hb)
    omega

theorem inOrderOfUse_foldl (uses : List ColumnUse) :
    InOrderOfUse ((uses.foldl (fun cs c => c.add cs) []).map column) (uses.map column) := by
  induction uses using List.reverseRecOn with
  | nil => exact ⟨by simp, List.Pairwise.nil⟩
  | append_singleton uses c ih =>
    rw [List.foldl_append, List.foldl_cons, List.foldl_nil, map_column_add, List.map_append,
      List.map_singleton]
    exact ih.concat c.column

end ColumnUse

/-- The property is stored to the column and takes part in the write of its entry. -/
def Source.takesPartIn (m : Model) (t : Snapshot) (column : String) (q : Source) : Bool :=
  m.columnOf q.property = column && (q.roles? m t).isSome

theorem Source.takesPartIn_eq {m : Model} {t : Snapshot} {column : String} {q : Source} :
    q.takesPartIn m t column = (q.use? m t).any (·.column = column) := by
  cases hroles : q.roles? m t with
  | none => simp [takesPartIn, use?, hroles]
  | some r =>
    simp only [takesPartIn, use?, hroles, Option.isSome_some, Bool.and_true, Option.map_some,
      Option.any_some]
    rfl

namespace RowWrite

variable {m : Model} {t now : Snapshot} {v w : RowWrite}

/-- The properties of the write's entries: those of the first entry first, each entry's in the order
of its type. -/
def pairs (m : Model) (t : Snapshot) (w : RowWrite) : List Source :=
  w.entries.flatMap fun i => (m.entityType (t i).entityType).properties.map (⟨i, ·⟩)

/-- The parts that a column plays; none if the write does not have it. -/
def rolesOf (m : Model) (t : Snapshot) (w : RowWrite) (column : String) : Option Roles :=
  ((w.columns m t).find? (·.column = column)).map (·.roles)

/-- The columns are the properties that take part, grouped by the names of their columns. -/
structure GroupsByColumn (m : Model) (t : Snapshot) (w : RowWrite) (cs : List ColumnUse) :
    Prop where
  nodup : (cs.map (·.column)).Nodup
  mem_iff : ∀ column, column ∈ cs.map (·.column) ↔
    ∃ q ∈ w.pairs m t, q.takesPartIn m t column = true
  roles : ∀ c ∈ cs, c.roles =
    Roles.union (((w.pairs m t).filter (·.takesPartIn m t c.column)).filterMap (·.roles? m t))
  source : ∀ c ∈ cs, ∃ first,
    (w.pairs m t).find? (·.takesPartIn m t c.column) = some first ∧
      c.entry = first.entry ∧ c.property = m.property first.property
  ordered : cs.Pairwise fun c d => (w.pairs m t).findIdx (·.takesPartIn m t c.column) <
    (w.pairs m t).findIdx (·.takesPartIn m t d.column)

/-- What the entries want of their columns is what each of their properties wants. -/
theorem flatMap_columnUses (m : Model) (t : Snapshot) (w : RowWrite) :
    w.entries.flatMap (m.columnUses t) = (w.pairs m t).filterMap (·.use? m t) := by
  rw [pairs, List.filterMap_flatMap]
  congr 1
  funext i
  rw [List.filterMap_map]
  rfl

theorem filter_uses (m : Model) (t : Snapshot) (w : RowWrite) (column : String) :
    ((w.pairs m t).filterMap (·.use? m t)).filter (·.column = column) =
      ((w.pairs m t).filter (·.takesPartIn m t column)).filterMap (·.use? m t) := by
  rw [List.filter_filterMap, List.filterMap_filter]
  congr 1
  funext q
  rw [Source.takesPartIn_eq]
  cases q.use? m t <;> simp [Option.filter_some]

theorem map_roles_filterMap (m : Model) (t : Snapshot) (qs : List Source) :
    (qs.filterMap (·.use? m t)).map (·.roles) = qs.filterMap (·.roles? m t) := by
  rw [List.map_filterMap]
  congr 1
  funext q
  simp [Source.use?, Function.comp_def]

theorem inOrderOfUse_columnsOf (m : Model) (t : Snapshot) (w : RowWrite) :
    ColumnUse.InOrderOfUse ((m.columnsOf t w.entries).map (·.column))
      (((w.pairs m t).filterMap (·.use? m t)).map (·.column)) := by
  rw [← flatMap_columnUses]
  exact ColumnUse.inOrderOfUse_foldl _

/-- A column is what those properties make together that take part in it. -/
theorem exists_group {c : ColumnUse} (hc : c ∈ m.columnsOf t w.entries) :
    ∃ first rest d, (w.pairs m t).filter (·.takesPartIn m t c.column) = first :: rest ∧
      first.use? m t = some d ∧
      c = { d with roles := Roles.union ((first :: rest).filterMap (·.roles? m t)) } := by
  have hjoined := (m.columnsOf_collects t w.entries).joined_eq hc
  rw [flatMap_columnUses, filter_uses] at hjoined
  cases hpairs : (w.pairs m t).filter (·.takesPartIn m t c.column) with
  | nil => simp [hpairs, ColumnUse.joined] at hjoined
  | cons first rest =>
    have hfirst : first ∈ (w.pairs m t).filter (·.takesPartIn m t c.column) := by simp [hpairs]
    have htakes := (List.mem_filter.mp hfirst).2
    rw [Source.takesPartIn_eq, Option.any_eq_true] at htakes
    obtain ⟨d, hd, _⟩ := htakes
    rw [hpairs, List.filterMap_cons_some hd, ColumnUse.joined_cons,
      ← List.filterMap_cons_some hd, map_roles_filterMap] at hjoined
    exact ⟨first, rest, d, rfl, hd, (Option.some.inj hjoined).symm⟩

theorem groupsByColumn_columnsOf (m : Model) (t : Snapshot) (w : RowWrite) :
    w.GroupsByColumn m t (m.columnsOf t w.entries) := by
  have horder := inOrderOfUse_columnsOf m t w
  constructor
  case nodup => exact (m.columnsOf_collects t w.entries).nodup
  case mem_iff =>
    intro column
    rw [horder.mem_iff]
    simp only [List.mem_map, List.mem_filterMap, Source.takesPartIn_eq, Option.any_eq_true,
      decide_eq_true_eq]
    constructor
    · rintro ⟨c, ⟨q, hq, hc⟩, hcolumn⟩
      exact ⟨q, hq, c, hc, hcolumn⟩
    · rintro ⟨q, hq, c, hc, hcolumn⟩
      exact ⟨c, ⟨q, hq, hc⟩, hcolumn⟩
  case roles =>
    intro c hc
    obtain ⟨first, rest, d, hpairs, _, hcd⟩ := exists_group hc
    rw [hpairs]
    exact congrArg ColumnUse.roles hcd
  case source =>
    intro c hc
    obtain ⟨first, rest, d, hpairs, hd, hcd⟩ := exists_group hc
    obtain ⟨hentry, hproperty, _⟩ := Source.use?_eq_some hd
    refine ⟨first, ?_, (congrArg ColumnUse.entry hcd).trans hentry,
      (congrArg ColumnUse.property hcd).trans hproperty⟩
    rw [← List.head?_filter, hpairs, List.head?_cons]
  case ordered =>
    refine (List.pairwise_map.mp horder.ordered).imp fun {c d} hlt => ?_
    simp only [List.idxOf, List.findIdx_map] at hlt
    simp only [Source.takesPartIn_eq]
    exact findIdx_lt_of_filterMap hlt

theorem rolesOf_eq (hw : w.columns m now = m.columnsOf t w.entries) (column : String) :
    w.rolesOf m now column =
      (ColumnUse.joined ((w.entries.flatMap (m.columnUses t)).filter (·.column = column))).map
        (·.roles) := by
  rw [rolesOf, hw, (m.columnsOf_collects t w.entries).find?]

/-- The parts of a column do not hang on the order of the entries. -/
theorem rolesOf_perm (hv : v.columns m now = m.columnsOf t v.entries)
    (hw : w.columns m now = m.columnsOf t w.entries) (hperm : v.entries.Perm w.entries)
    (column : String) : v.rolesOf m now column = w.rolesOf m now column := by
  have huses := (hperm.flatMap_right (m.columnUses t)).filter (·.column = column)
  rw [rolesOf_eq hv, rolesOf_eq hw, ColumnUse.roles_joined, ColumnUse.roles_joined,
    Roles.union_perm (huses.map (·.roles))]
  simp only [← List.length_eq_zero_iff, huses.length_eq]

end RowWrite

/-- A write has each column once, with all parts that its properties want and read from the first of
them. For every order of the entries it has the same columns, with the same parts. -/
theorem columns_group_properties (m : Model) (t now : Snapshot) (w : RowWrite)
    (hw : w.settled = none) :
    w.GroupsByColumn m t ((w.settle m t).columns m now) ∧
      ∀ v : RowWrite, v.settled = none → v.entries.Perm w.entries →
        (v.settle m t).hasWrites m now = (w.settle m t).hasWrites m now ∧
        (∀ ps, (v.settle m t).changesAny m now ps = (w.settle m t).changesAny m now ps) ∧
        ∀ column, (v.settle m t).rolesOf m now column = (w.settle m t).rolesOf m now column := by
  have hcolumns := RowWrite.columns_settle (m := m) (t := t) hw now
  refine ⟨hcolumns ▸ RowWrite.groupsByColumn_columnsOf m t w, fun v hv hperm => ?_⟩
  have hcolumns' := RowWrite.columns_settle (m := m) (t := t) hv now
  have huses := hperm.flatMap_right (m.columnUses t)
  refine ⟨?_, fun ps => ?_, RowWrite.rolesOf_perm hcolumns' hcolumns hperm⟩
  · rw [RowWrite.hasWrites_eq_any hcolumns', RowWrite.hasWrites_eq_any hcolumns]
    exact huses.any_eq
  · rw [RowWrite.changesAny_eq_any hcolumns', RowWrite.changesAny_eq_any hcolumns]
    exact huses.any_eq

namespace Garage

/-- The engine comes first. -/
def upgradeOfEngine : RowWrite :=
  ⟨⟨none, "Vehicles"⟩, [1, 0], none⟩

/-- The version is written for the engine and a condition for the vehicle, whichever comes first. -/
theorem columns_group_properties_upgraded :
    upgrade.settled = none ∧ upgradeOfEngine.settled = none ∧
      upgradeOfEngine.entries.Perm upgrade.entries ∧
      upgrade.GroupsByColumn model upgraded
        ((upgrade.settle model upgraded).columns model upgraded) ∧
      (upgradeOfEngine.settle model upgraded).hasWrites model upgraded = true ∧
      (upgradeOfEngine.settle model upgraded).changesAny model upgraded [⟨3⟩] = true ∧
      (upgradeOfEngine.settle model upgraded).rolesOf model upgraded "Version" =
        some ⟨false, true, true, false, true⟩ := by
  have hperm : upgradeOfEngine.entries.Perm upgrade.entries := List.Perm.swap 0 1 []
  obtain ⟨hgroups, hperms⟩ := columns_group_properties model upgraded upgraded upgrade rfl
  obtain ⟨hwrites, hchanges, hroles⟩ := hperms upgradeOfEngine rfl hperm
  refine ⟨rfl, rfl, hperm, hgroups, hwrites.trans ?_, (hchanges _).trans ?_, (hroles _).trans ?_⟩
  · decide +kernel
  · decide +kernel
  · decide +kernel

end Garage

end WritePlan

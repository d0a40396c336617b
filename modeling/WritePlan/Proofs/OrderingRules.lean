import WritePlan.Dependency
import WritePlan.Proofs.Hierarchy

namespace WritePlan

/-- The two ends of a foreign key. -/
inductive Side
  | principal
  | dependent

namespace Model

/-- Rows of the type may be at that end of the foreign key. -/
def OnSide (m : Model) (fk : ForeignKeyId) (side : Side) (e : EntityTypeId) : Prop :=
  fk.index < m.foreignKeys.length ∧
    match side with
    | .principal => m.isSameOrBase (m.foreignKey fk).principal e = true
    | .dependent => m.isSameOrBase (m.foreignKey fk).declaring e = true

def sideProperties (m : Model) (fk : ForeignKeyId) : Side → List PropertyId
  | .principal => (m.principalKey fk).properties
  | .dependent => (m.foreignKey fk).properties

/-- Rows of the type are in the unique index. -/
def InUnique (m : Model) (ix : IndexId) (e : EntityTypeId) : Prop :=
  (ix.index < m.indexes.length ∧ (m.index ix).unique = true) ∧
    m.isSameOrBase (m.index ix).declaring e = true

end Model

/-- Two entries hold equal values, and none of them is null. -/
def Entry.Agrees (collate : Collation) (e : Entry) (ps : List PropertyId) (source : Projection)
    (f : Entry) (qs : List PropertyId) (source' : Projection) : Prop :=
  (∀ p ∈ ps, e.read source p ≠ .null) ∧ (∀ q ∈ qs, f.read source' q ≠ .null) ∧
    ps.map (fun p => collate (e.read source p)) = qs.map (fun q => collate (f.read source' q))

namespace RowWrite

variable (m : Model) (collate : Collation) (t : Snapshot)

/-- An entry of the one write, at one end of the foreign key, and an entry of the other agree. -/
def Meets (fk : ForeignKeyId) (side : Side) (source : Projection) (side' : Side)
    (source' : Projection) (p d : RowWrite) : Prop :=
  ∃ i ∈ p.entries, ∃ j ∈ d.entries,
    m.OnSide fk side (t i).entityType ∧ m.OnSide fk side' (t j).entityType ∧
    (t i).Agrees collate (m.sideProperties fk side) source
      (t j) (m.sideProperties fk side') source'

/-- An insert, or an update that changes the key to which the foreign key refers. -/
def BringsKey (fk : ForeignKeyId) (w : RowWrite) : Prop :=
  (w.state t).isAdded = true ∨
    (w.state t).isModified = true ∧ w.changesAny m t (m.principalKey fk).properties = true

/-- A delete, or an update that changes the reference. -/
def EndsReference (fk : ForeignKeyId) (w : RowWrite) : Prop :=
  (w.state t).isDeleted = true ∨
    (w.state t).isModified = true ∧ w.changesAny m t (m.foreignKey fk).properties = true

/-- A row is there before the rows that refer to it. -/
def PrincipalFirst (fk : ForeignKeyId) (p d : RowWrite) : Prop :=
  p.BringsKey m t fk ∧ d.isInsertOrUpdate t = true ∧
    Meets m collate t fk .principal .current .dependent .current p d

/-- A row stays until no row refers to it any more. -/
def DependentFirst (fk : ForeignKeyId) (p d : RowWrite) : Prop :=
  p.EndsReference m t fk ∧ (d.state t).isDeleted = true ∧
    Meets m collate t fk .dependent .original .principal .original p d

/-- The write may change the value of its row in the index. -/
def TouchesIndex (ix : IndexId) (e : Entry) : Prop :=
  m.InUnique ix e.entityType ∧
    (e.state.isModified = true → (m.index ix).properties.any e.modified = true)

/-- A unique value is given up before it is taken. -/
def ValueFreed (ix : IndexId) (p d : RowWrite) : Prop :=
  p.isUpdateOrDelete t = true ∧ d.isInsertOrUpdate t = true ∧
    ∃ i ∈ p.entries, ∃ j ∈ d.entries, TouchesIndex m ix (t i) ∧ TouchesIndex m ix (t j) ∧
      (t i).Agrees collate (m.index ix).properties .original (t j) (m.index ix).properties .current

/-- The write `d` must wait for `p` for the sake of the constraint. -/
def Required : Dependency → RowWrite → RowWrite → Prop
  | .foreignKey fk, p, d => PrincipalFirst m collate t fk p d ∨ DependentFirst m collate t fk p d
  | .uniqueIndex ix, p, d => ValueFreed m collate t ix p d

/-- A reference ends and another one to the same row begins. -/
def SameReference (fk : ForeignKeyId) (p d : RowWrite) : Prop :=
  p.EndsReference m t fk ∧ d.isInsertOrUpdate t = true ∧
    Meets m collate t fk .dependent .original .dependent .current p d

/-- A key is new that a row has until it is deleted. -/
def SameKey (fk : ForeignKeyId) (p d : RowWrite) : Prop :=
  p.BringsKey m t fk ∧ (d.state t).isDeleted = true ∧
    Meets m collate t fk .principal .current .principal .original p d

/-- The writes meet in a key value, but from ends that no rule puts in order. -/
def Mistaken : Dependency → RowWrite → RowWrite → Prop
  | .foreignKey fk, p, d => SameReference m collate t fk p d ∨ SameKey m collate t fk p d
  | .uniqueIndex _, _, _ => False

end RowWrite

namespace Entry

variable {collate : Collation} {e f : Entry}

theorem valuesOf?_eq_some {ps : List PropertyId} {source : Projection} {vs : List Value} :
    e.valuesOf? ps source = some vs ↔
      (∀ p ∈ ps, e.read source p ≠ .null) ∧ ps.map (e.read source) = vs := by
  unfold valuesOf?
  induction ps generalizing vs with
  | nil => simp
  | cons p ps ih =>
    simp only [List.mapM_cons, Option.bind_eq_bind, Option.bind_eq_some_iff, ih, Option.pure_def,
      Option.some.injEq, List.mem_cons, forall_eq_or_imp, List.map_cons,
      Option.ite_none_left_eq_some]
    simp only [Value.isNull, decide_eq_true_eq]
    constructor
    · intro h
      obtain ⟨_, ⟨hp, rfl⟩, _, ⟨hps, rfl⟩, rfl⟩ := h
      exact ⟨⟨hp, hps⟩, rfl⟩
    · intro h
      obtain ⟨⟨hp, hps⟩, rfl⟩ := h
      exact ⟨_, ⟨hp, rfl⟩, _, ⟨hps, rfl⟩, rfl⟩

theorem keyValue?_eq_some {c : Constraint} {ps : List PropertyId} {source : Projection}
    {k : KeyValue} : e.keyValue? collate c ps source = some k ↔
      (∀ p ∈ ps, e.read source p ≠ .null) ∧
        k = ⟨c, ps.map fun p => collate (e.read source p)⟩ := by
  simp only [keyValue?, Option.map_eq_some_iff, valuesOf?_eq_some]
  constructor
  · intro h
    obtain ⟨_, ⟨hps, rfl⟩, rfl⟩ := h
    exact ⟨hps, by simp⟩
  · intro h
    obtain ⟨hps, rfl⟩ := h
    exact ⟨_, ⟨hps, rfl⟩, by simp⟩

/-- Entries agree where they make the same key value. -/
theorem agrees_iff {c : Constraint} {ps qs : List PropertyId} {source source' : Projection} :
    e.Agrees collate ps source f qs source' ↔
      ∃ k, e.keyValue? collate c ps source = some k ∧
        f.keyValue? collate c qs source' = some k := by
  simp only [keyValue?_eq_some, Agrees]
  constructor
  · intro h
    obtain ⟨hps, hqs, heq⟩ := h
    exact ⟨_, ⟨hps, rfl⟩, hqs, by rw [heq]⟩
  · intro h
    obtain ⟨_, ⟨hps, rfl⟩, hqs, heq⟩ := h
    exact ⟨hps, hqs, (KeyValue.mk.inj heq).2⟩

end Entry

namespace RowWrite

variable {m : Model} {collate : Collation} {t : Snapshot} {w : RowWrite}

/-- The write has an entry at that end of the foreign key that holds the key value. -/
def Holds (m : Model) (collate : Collation) (t : Snapshot) (fk : ForeignKeyId) (side : Side)
    (source : Projection) (k : KeyValue) (w : RowWrite) : Prop :=
  ∃ i ∈ w.entries, m.OnSide fk side (t i).entityType ∧
    (t i).keyValue? collate (.foreignKey fk) (m.sideProperties fk side) source = some k

theorem Holds.constraint {fk : ForeignKeyId} {side : Side} {source : Projection} {k : KeyValue}
    (h : Holds m collate t fk side source k w) : k.constraint = .foreignKey fk := by
  obtain ⟨_, _, _, hk⟩ := h
  rw [(Entry.keyValue?_eq_some.mp hk).2]

theorem meets_iff {fk : ForeignKeyId} {side side' : Side} {source source' : Projection}
    {p d : RowWrite} : Meets m collate t fk side source side' source' p d ↔
      ∃ k, Holds m collate t fk side source k p ∧ Holds m collate t fk side' source' k d := by
  simp only [Meets, Holds, Entry.agrees_iff (c := .foreignKey fk)]
  constructor
  · intro h
    obtain ⟨i, hi, j, hj, his, hjs, k, hk, hk'⟩ := h
    exact ⟨k, ⟨i, hi, his, hk⟩, j, hj, hjs, hk'⟩
  · intro h
    obtain ⟨k, ⟨i, hi, his, hk⟩, j, hj, hjs, hk'⟩ := h
    exact ⟨i, hi, j, hj, his, hjs, k, hk, hk'⟩

theorem isDeleted_eq : (w.state t).isDeleted = !w.isInsertOrUpdate t := by
  unfold isInsertOrUpdate state
  split
  · rfl
  · split <;> rfl

/-- What is collected from the members of entries where something holds always, or sometimes for
some of the members. -/
theorem mem_collected_iff {entries : List Nat} {always sometimes : Bool}
    {changes : ForeignKeyId → Bool} {members : Nat → List ForeignKeyId}
    {value? : Nat → ForeignKeyId → Option KeyValue} {k : KeyValue} :
    k ∈ (if always || sometimes then
        entries.flatMap fun i => (members i).filterMap fun fk =>
          if always || changes fk then value? i fk else none
      else []) ↔
      ∃ fk, (always = true ∨ sometimes = true ∧ changes fk = true) ∧
        ∃ i ∈ entries, fk ∈ members i ∧ value? i fk = some k := by
  split <;> rename_i h
  · simp only [List.mem_flatMap, List.mem_filterMap, Option.ite_none_right_eq_some, Bool.or_eq_true]
    rw [Bool.or_eq_true] at h
    constructor
    · intro hk
      obtain ⟨i, hi, fk, hfk, hb, hk⟩ := hk
      refine ⟨fk, ?_, i, hi, hfk, hk⟩
      rcases h with ha | hs
      · exact .inl ha
      · exact hb.imp_right fun hc => ⟨hs, hc⟩
    · intro hk
      obtain ⟨fk, hb, i, hi, hfk, hk⟩ := hk
      exact ⟨i, hi, fk, hfk, hb.imp_right And.right, hk⟩
  · rw [Bool.or_eq_true] at h
    constructor
    · intro hk
      exact absurd hk List.not_mem_nil
    · intro hk
      obtain ⟨fk, hb, _⟩ := hk
      exact absurd (hb.imp_right And.left) h

theorem mem_principalsProvided (hm : m.Hierarchical) {k : KeyValue} :
    k ∈ w.principalsProvided m collate t ↔
      ∃ fk, w.BringsKey m t fk ∧ w.Holds m collate t fk .principal .current k := by
  rw [principalsProvided, isInsertOrUpdate, mem_collected_iff]
  simp only [typeOf, hm.mem_referencing]
  rfl

theorem mem_referencesProvided (hm : m.Hierarchical) {k : KeyValue} :
    k ∈ w.referencesProvided m collate t ↔
      ∃ fk, w.EndsReference m t fk ∧ w.Holds m collate t fk .dependent .original k := by
  rw [referencesProvided, isUpdateOrDelete, Bool.or_comm, mem_collected_iff]
  simp only [typeOf, hm.mem_foreignKeys]
  rfl

theorem mem_referencesAwaited (hm : m.Hierarchical) {k : KeyValue} {label : Dependency} :
    (k, label) ∈ w.referencesAwaited m collate t ↔ ∃ fk, label = .foreignKey fk ∧
      (w.isInsertOrUpdate t = true ∧ w.Holds m collate t fk .dependent .current k ∨
        (w.state t).isDeleted = true ∧ w.Holds m collate t fk .principal .original k) := by
  rw [isDeleted_eq]
  unfold referencesAwaited
  rw [isDeleted_eq]
  cases w.isInsertOrUpdate t with
  | true =>
    simp only [↓reduceIte, List.mem_flatMap, List.mem_filterMap, typeOf, hm.mem_foreignKeys,
      Option.map_eq_some_iff, Prod.mk.injEq]
    constructor
    · intro hk
      obtain ⟨i, hi, fk, hfk, _, hk, rfl, rfl⟩ := hk
      exact ⟨fk, rfl, .inl ⟨trivial, i, hi, hfk, hk⟩⟩
    · intro hk
      obtain ⟨fk, rfl, ⟨_, i, hi, hfk, hk⟩ | ⟨h, _⟩⟩ := hk
      · exact ⟨i, hi, fk, hfk, k, hk, rfl, rfl⟩
      · cases h
  | false =>
    simp only [↓reduceIte, Bool.false_eq_true, Bool.not_false, List.mem_flatMap,
      List.mem_filterMap, typeOf, hm.mem_referencing, Option.map_eq_some_iff, Prod.mk.injEq]
    constructor
    · intro hk
      obtain ⟨i, hi, fk, hfk, _, hk, rfl, rfl⟩ := hk
      exact ⟨fk, rfl, .inr ⟨trivial, i, hi, hfk, hk⟩⟩
    · intro hk
      obtain ⟨fk, rfl, ⟨h, _⟩ | ⟨_, i, hi, hfk, hk⟩⟩ := hk
      · exact h.elim
      · exact ⟨i, hi, fk, hfk, k, hk, rfl, rfl⟩

theorem mem_indexesTouched (hm : m.Hierarchical) {ix : IndexId} {i : Nat} :
    ix ∈ indexesTouched m t i ↔ TouchesIndex m ix (t i) := by
  simp only [indexesTouched, typeOf, List.mem_filter, hm.mem_uniqueIndexes, TouchesIndex,
    Model.InUnique]
  refine and_congr_right fun _ => ?_
  cases (t i).state.isModified <;> simp

/-- The write has an entry that holds the key value and may change it. -/
def HoldsUnique (m : Model) (collate : Collation) (t : Snapshot) (ix : IndexId)
    (source : Projection) (k : KeyValue) (w : RowWrite) : Prop :=
  ∃ i ∈ w.entries, TouchesIndex m ix (t i) ∧
    (t i).keyValue? collate (.index ix) (m.index ix).properties source = some k

theorem HoldsUnique.constraint {ix : IndexId} {source : Projection} {k : KeyValue}
    (h : HoldsUnique m collate t ix source k w) : k.constraint = .index ix := by
  obtain ⟨_, _, _, hk⟩ := h
  rw [(Entry.keyValue?_eq_some.mp hk).2]

theorem valueFreed_iff {ix : IndexId} {p d : RowWrite} :
    ValueFreed m collate t ix p d ↔ ∃ k,
      (p.isUpdateOrDelete t = true ∧ HoldsUnique m collate t ix .original k p) ∧
        d.isInsertOrUpdate t = true ∧ HoldsUnique m collate t ix .current k d := by
  simp only [ValueFreed, HoldsUnique, Entry.agrees_iff (c := .index ix)]
  constructor
  · intro h
    obtain ⟨hp, hd, i, hi, j, hj, his, hjs, k, hk, hk'⟩ := h
    exact ⟨k, ⟨hp, i, hi, his, hk⟩, hd, j, hj, hjs, hk'⟩
  · intro h
    obtain ⟨k, ⟨hp, i, hi, his, hk⟩, hd, j, hj, hjs, hk'⟩ := h
    exact ⟨hp, hd, i, hi, j, hj, his, hjs, k, hk, hk'⟩

theorem mem_indexValuesProvided (hm : m.Hierarchical) {k : KeyValue} :
    k ∈ w.indexValuesProvided m collate t ↔
      ∃ ix, w.isUpdateOrDelete t = true ∧ w.HoldsUnique m collate t ix .original k := by
  unfold indexValuesProvided
  split <;> rename_i h
  · simp only [List.mem_flatMap, List.mem_filterMap, mem_indexesTouched hm, h, true_and]
    constructor
    · intro hk
      obtain ⟨i, hi, ix, hix, hk⟩ := hk
      exact ⟨ix, i, hi, hix, hk⟩
    · intro hk
      obtain ⟨ix, i, hi, hix, hk⟩ := hk
      exact ⟨i, hi, ix, hix, hk⟩
  · simp [h]

theorem mem_indexValuesAwaited (hm : m.Hierarchical) {k : KeyValue} {label : Dependency} :
    (k, label) ∈ w.indexValuesAwaited m collate t ↔ ∃ ix, label = .uniqueIndex ix ∧
      w.isInsertOrUpdate t = true ∧ w.HoldsUnique m collate t ix .current k := by
  unfold indexValuesAwaited
  split <;> rename_i h
  · simp only [List.mem_flatMap, List.mem_filterMap, mem_indexesTouched hm,
      Option.map_eq_some_iff, Prod.mk.injEq, h, true_and]
    constructor
    · intro hk
      obtain ⟨i, hi, ix, hix, _, hk, rfl, rfl⟩ := hk
      exact ⟨ix, rfl, i, hi, hix, hk⟩
    · intro hk
      obtain ⟨ix, rfl, i, hi, hix, hk⟩ := hk
      exact ⟨i, hi, ix, hix, k, hk, rfl, rfl⟩
  · simp [h]

/-- For a foreign key, one write provides what another one awaits where a rule puts the two in
order, and where they are mistaken for such. -/
theorem foreignKey_value_iff (hm : m.Hierarchical) {fk : ForeignKeyId} {p d : RowWrite} :
    (∃ k ∈ p.principalsProvided m collate t ++ p.referencesProvided m collate t,
        (k, .foreignKey fk) ∈ d.referencesAwaited m collate t) ↔
      Required m collate t (.foreignKey fk) p d ∨ Mistaken m collate t (.foreignKey fk) p d := by
  simp only [List.mem_append, mem_principalsProvided hm, mem_referencesProvided hm,
    mem_referencesAwaited hm, Dependency.foreignKey.injEq, Required, Mistaken, PrincipalFirst,
    DependentFirst, SameReference, SameKey, meets_iff]
  constructor
  · intro h
    obtain ⟨k, hk, fk, rfl, ⟨hd, hawaited⟩ | ⟨hd, hawaited⟩⟩ := h <;>
      rcases hk with ⟨fk', hb, hheld⟩ | ⟨fk', hb, hheld⟩ <;>
      obtain rfl : fk' = fk :=
        Constraint.foreignKey.inj (hheld.constraint.symm.trans hawaited.constraint)
    · exact .inl (.inl ⟨hb, hd, k, hheld, hawaited⟩)
    · exact .inr (.inl ⟨hb, hd, k, hheld, hawaited⟩)
    · exact .inr (.inr ⟨hb, hd, k, hheld, hawaited⟩)
    · exact .inl (.inr ⟨hb, hd, k, hheld, hawaited⟩)
  · intro h
    rcases h with (⟨hb, hd, k, hheld, hawaited⟩ | ⟨hb, hd, k, hheld, hawaited⟩) |
      ⟨hb, hd, k, hheld, hawaited⟩ | ⟨hb, hd, k, hheld, hawaited⟩
    · exact ⟨k, .inl ⟨fk, hb, hheld⟩, fk, rfl, .inl ⟨hd, hawaited⟩⟩
    · exact ⟨k, .inr ⟨fk, hb, hheld⟩, fk, rfl, .inr ⟨hd, hawaited⟩⟩
    · exact ⟨k, .inr ⟨fk, hb, hheld⟩, fk, rfl, .inl ⟨hd, hawaited⟩⟩
    · exact ⟨k, .inl ⟨fk, hb, hheld⟩, fk, rfl, .inr ⟨hd, hawaited⟩⟩

theorem uniqueIndex_value_iff (hm : m.Hierarchical) {ix : IndexId} {p d : RowWrite} :
    (∃ k ∈ p.indexValuesProvided m collate t,
        (k, .uniqueIndex ix) ∈ d.indexValuesAwaited m collate t) ↔
      Required m collate t (.uniqueIndex ix) p d := by
  simp only [mem_indexValuesProvided hm, mem_indexValuesAwaited hm, Dependency.uniqueIndex.injEq,
    Required, valueFreed_iff]
  constructor
  · intro h
    obtain ⟨k, ⟨ix', hp, hheld⟩, ix, rfl, hd, hawaited⟩ := h
    obtain rfl : ix' = ix := Constraint.index.inj (hheld.constraint.symm.trans hawaited.constraint)
    exact ⟨k, ⟨hp, hheld⟩, hd, hawaited⟩
  · intro h
    obtain ⟨k, ⟨hp, hheld⟩, hd, hawaited⟩ := h
    exact ⟨k, ⟨ix, hp, hheld⟩, ix, rfl, hd, hawaited⟩

end RowWrite

/-- The relation holds of two different writes, by place. -/
def Between (ws : List RowWrite) (r : RowWrite → RowWrite → Prop) (i j : Nat) : Prop :=
  i ≠ j ∧ ∃ p d, ws[i]? = some p ∧ ws[j]? = some d ∧ r p d

theorem Between.mono {ws : List RowWrite} {r r' : RowWrite → RowWrite → Prop} {i j : Nat}
    (h : Between ws r i j) (hr : ∀ p d, r p d → r' p d) : Between ws r' i j := by
  obtain ⟨hne, p, d, hp, hd, h⟩ := h
  exact ⟨hne, p, d, hp, hd, hr p d h⟩

theorem mem_provided {values : RowWrite → List KeyValue} {ws : List RowWrite} {k : KeyValue}
    {place : Nat} :
    (k, place) ∈ provided values ws ↔ ∃ w, ws[place]? = some w ∧ k ∈ values w := by
  simp only [provided, List.mem_flatMap, Prod.exists, List.mk_mem_zipIdx_iff_getElem?,
    List.mem_map, Prod.mk.injEq]
  constructor
  · intro h
    obtain ⟨w, _, hw, _, hk, rfl, rfl⟩ := h
    exact ⟨w, hw, hk⟩
  · intro h
    obtain ⟨w, hw, hk⟩ := h
    exact ⟨w, place, hw, k, hk, rfl, rfl⟩

theorem mem_awaited {values : RowWrite → List (KeyValue × Dependency)} {ws : List RowWrite}
    {k : KeyValue} {label : Dependency} {place : Nat} :
    ⟨place, k, label⟩ ∈ awaited values ws ↔ ∃ w, ws[place]? = some w ∧ (k, label) ∈ values w := by
  simp only [awaited, List.mem_flatMap, Prod.exists, List.mk_mem_zipIdx_iff_getElem?,
    List.mem_map, Await.mk.injEq]
  constructor
  · intro h
    obtain ⟨w, _, hw, _, _, hk, rfl, rfl, rfl⟩ := h
    exact ⟨w, hw, hk⟩
  · intro h
    obtain ⟨w, hw, hk⟩ := h
    exact ⟨w, place, hw, k, label, hk, rfl, rfl, rfl⟩

theorem mem_precedences {values : RowWrite → List KeyValue}
    {values' : RowWrite → List (KeyValue × Dependency)} {ws : List RowWrite} {i j : Nat}
    {label : Dependency} :
    ⟨i, j, label⟩ ∈ precedences (provided values ws) (awaited values' ws) ↔
      Between ws (fun p d => ∃ k ∈ values p, (k, label) ∈ values' d) i j := by
  simp only [precedences, List.mem_flatMap, List.mem_filterMap, Prod.exists,
    Option.ite_none_right_eq_some, Option.some.injEq, Precedence.mk.injEq, Between]
  constructor
  · intro h
    obtain ⟨⟨place, key, _⟩, ha, k, _, hp, ⟨rfl, hne⟩, rfl, rfl, rfl⟩ := h
    obtain ⟨d, hd, hkd⟩ := mem_awaited.mp ha
    obtain ⟨p, hp, hkp⟩ := mem_provided.mp hp
    exact ⟨hne, p, d, hp, hd, _, hkp, hkd⟩
  · intro h
    obtain ⟨hne, p, d, hp, hd, k, hkp, hkd⟩ := h
    exact ⟨⟨j, k, label⟩, mem_awaited.mpr ⟨d, hd, hkd⟩, k, i, mem_provided.mpr ⟨p, hp, hkp⟩,
      ⟨rfl, hne⟩, rfl, rfl, rfl⟩

/-- The edges are those that the rules ask for, and those between writes that are mistaken for
such. -/
theorem mem_dependencies {m : Model} (hm : m.Hierarchical) {collate : Collation} {t : Snapshot}
    {ws : List RowWrite} {i j : Nat} {label : Dependency} :
    ⟨i, j, label⟩ ∈ dependencies m collate t ws ↔ Between ws (fun p d =>
      RowWrite.Required m collate t label p d ∨ RowWrite.Mistaken m collate t label p d) i j := by
  rw [dependencies, List.mem_append, mem_precedences, mem_precedences]
  have hnone {k : KeyValue} {fk : ForeignKeyId} {d : RowWrite} :
      (k, .foreignKey fk) ∉ d.indexValuesAwaited m collate t := by
    rw [RowWrite.mem_indexValuesAwaited hm]
    intro h
    obtain ⟨_, h, _⟩ := h
    cases h
  have hnone' {k : KeyValue} {ix : IndexId} {d : RowWrite} :
      (k, .uniqueIndex ix) ∉ d.referencesAwaited m collate t := by
    rw [RowWrite.mem_referencesAwaited hm]
    intro h
    obtain ⟨_, h, _⟩ := h
    cases h
  cases label with
  | foreignKey fk => simp only [RowWrite.foreignKey_value_iff hm, hnone, and_false, exists_false,
      Between, or_false]
  | uniqueIndex ix => simp only [RowWrite.uniqueIndex_value_iff hm, hnone', and_false,
      exists_false, Between, false_or, RowWrite.Mistaken, or_false]

end WritePlan

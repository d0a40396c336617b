import WritePlan.Model.Build

namespace WritePlan

theorem bind_eq_ok {ε α β : Type} {x : Except ε α} {f : α → Except ε β} {b : β} :
    (x >>= f) = .ok b ↔ ∃ a, x = .ok a ∧ f a = .ok b := by
  cases x <;> simp [bind, Except.bind]

/-- A check of all elements succeeds if it does on each. -/
theorem forM_eq_ok {ε α : Type} {l : List α} {f : α → Except ε Unit} {u : Unit} :
    l.forM f = .ok u ↔ ∀ a ∈ l, f a = .ok () := by
  induction l with
  | nil => simp [pure, Except.pure]
  | cons a l ih =>
    simp only [List.forM_eq_forM, List.forM_cons] at ih ⊢
    simp only [bind_eq_ok, ih, List.mem_cons, forall_eq_or_imp]
    constructor
    · intro h
      obtain ⟨_, ha, hl⟩ := h
      exact ⟨ha, hl⟩
    · intro h
      exact ⟨(), h.1, h.2⟩

theorem mem_lineage {baseOf : EntityTypeId → Option EntityTypeId} {a e : EntityTypeId} :
    a ∈ lineage baseOf e ↔
      a = e ∨ ∃ b, baseOf e = some b ∧ b.index < e.index ∧ a ∈ lineage baseOf b := by
  rw [lineage]
  cases h : baseOf e with
  | none => simp
  | some b =>
    by_cases hb : b.index < e.index <;> simp [hb]

/-- What a model made from declarations keeps: bases stand before what derives from them, members
are on types of the model, and each type has the members of its base and its own. -/
structure Model.Hierarchical (m : Model) : Prop where
  base_lt : ∀ e b, (m.entityType e).base = some b → b.index < e.index
  declaring_lt : ∀ fk, fk.index < m.foreignKeys.length →
    (m.foreignKey fk).declaring.index < m.entityTypes.length
  principal_lt : ∀ fk, fk.index < m.foreignKeys.length →
    (m.foreignKey fk).principal.index < m.entityTypes.length
  index_lt : ∀ ix, ix.index < m.indexes.length →
    (m.index ix).declaring.index < m.entityTypes.length
  foreignKeys_eq : ∀ e, e.index < m.entityTypes.length → ∀ fk,
    fk ∈ (m.entityType e).foreignKeys ↔
      (∃ b, (m.entityType e).base = some b ∧ fk ∈ (m.entityType b).foreignKeys) ∨
      fk.index < m.foreignKeys.length ∧ (m.foreignKey fk).declaring = e
  referencing_eq : ∀ e, e.index < m.entityTypes.length → ∀ fk,
    fk ∈ (m.entityType e).referencing ↔
      (∃ b, (m.entityType e).base = some b ∧ fk ∈ (m.entityType b).referencing) ∨
      fk.index < m.foreignKeys.length ∧ (m.foreignKey fk).principal = e
  uniqueIndexes_eq : ∀ e, e.index < m.entityTypes.length → ∀ ix,
    ix ∈ (m.entityType e).uniqueIndexes ↔
      (∃ b, (m.entityType e).base = some b ∧ ix ∈ (m.entityType b).uniqueIndexes) ∨
      ix.index < m.indexes.length ∧ (m.index ix).unique = true ∧ (m.index ix).declaring = e

namespace Model

variable {m : Model}

theorem entityType_of_length_le {e : EntityTypeId} (h : m.entityTypes.length ≤ e.index) :
    m.entityType e = default := by
  simp [entityType, List.getD_eq_getElem?_getD, List.getElem?_eq_none h]

theorem isSameOrBase_iff {a e : EntityTypeId} :
    m.isSameOrBase a e = true ↔ a ∈ lineage (fun d => (m.entityType d).base) e := by
  rw [isSameOrBase, List.contains_iff_mem]

namespace Hierarchical

/-- A base that something derives from: what is above it is above that as well. -/
theorem isSameOrBase_iff (hm : m.Hierarchical) {a e : EntityTypeId} :
    m.isSameOrBase a e = true ↔
      a = e ∨ ∃ b, (m.entityType e).base = some b ∧ m.isSameOrBase a b = true := by
  simp only [Model.isSameOrBase_iff]
  rw [mem_lineage]
  constructor
  · intro h
    rcases h with h | ⟨b, hb, _, ha⟩
    · exact .inl h
    · exact .inr ⟨b, hb, ha⟩
  · intro h
    rcases h with h | ⟨b, hb, ha⟩
    · exact .inl h
    · exact .inr ⟨b, hb, hm.base_lt e b hb, ha⟩

/-- Members that a type takes over from its base belong to all that derives from where they are
declared, and to nothing else. -/
theorem mem_members_iff (hm : m.Hierarchical) {α : Type} {members : EntityType → List α}
    (valid : α → Prop) (declaring : α → EntityTypeId)
    (hnone : members default = [])
    (hlt : ∀ a, valid a → (declaring a).index < m.entityTypes.length)
    (heq : ∀ e, e.index < m.entityTypes.length → ∀ a, a ∈ members (m.entityType e) ↔
      (∃ b, (m.entityType e).base = some b ∧ a ∈ members (m.entityType b)) ∨
      valid a ∧ declaring a = e) (a : α) (e : EntityTypeId) :
    a ∈ members (m.entityType e) ↔ valid a ∧ m.isSameOrBase (declaring a) e = true := by
  induction hn : e.index using Nat.strongRecOn generalizing e with
  | ind n ih =>
    subst hn
    rw [hm.isSameOrBase_iff]
    by_cases he : e.index < m.entityTypes.length
    · rw [heq e he a]
      constructor
      · intro h
        rcases h with ⟨b, hb, ha⟩ | ⟨hv, hd⟩
        · obtain ⟨hv, hd⟩ := (ih b.index (hm.base_lt e b hb) b rfl).mp ha
          exact ⟨hv, .inr ⟨b, hb, hd⟩⟩
        · exact ⟨hv, .inl hd⟩
      · intro h
        obtain ⟨hv, hd | ⟨b, hb, hd⟩⟩ := h
        · exact .inr ⟨hv, hd⟩
        · exact .inl ⟨b, hb, (ih b.index (hm.base_lt e b hb) b rfl).mpr ⟨hv, hd⟩⟩
    · rw [entityType_of_length_le (Nat.le_of_not_lt he), hnone]
      constructor
      · intro h
        exact absurd h List.not_mem_nil
      · intro h
        obtain ⟨hv, hd | ⟨b, hb, _⟩⟩ := h
        · exact absurd (hd ▸ hlt a hv) he
        · cases hb

theorem mem_foreignKeys (hm : m.Hierarchical) (fk : ForeignKeyId) (e : EntityTypeId) :
    fk ∈ (m.entityType e).foreignKeys ↔
      fk.index < m.foreignKeys.length ∧
        m.isSameOrBase (m.foreignKey fk).declaring e = true :=
  hm.mem_members_iff _ _ rfl hm.declaring_lt hm.foreignKeys_eq fk e

theorem mem_referencing (hm : m.Hierarchical) (fk : ForeignKeyId) (e : EntityTypeId) :
    fk ∈ (m.entityType e).referencing ↔
      fk.index < m.foreignKeys.length ∧
        m.isSameOrBase (m.foreignKey fk).principal e = true :=
  hm.mem_members_iff _ _ rfl hm.principal_lt hm.referencing_eq fk e

theorem mem_uniqueIndexes (hm : m.Hierarchical) (ix : IndexId) (e : EntityTypeId) :
    ix ∈ (m.entityType e).uniqueIndexes ↔
      (ix.index < m.indexes.length ∧ (m.index ix).unique = true) ∧
        m.isSameOrBase (m.index ix).declaring e = true := by
  refine hm.mem_members_iff
    (fun ix : IndexId => ix.index < m.indexes.length ∧ (m.index ix).unique = true)
    (fun ix => (m.index ix).declaring) rfl (fun ix h => hm.index_lt ix h.1)
    (fun e he ix => ?_) ix e
  rw [hm.uniqueIndexes_eq e he, and_assoc]

end Hierarchical

end Model

theorem placeFrom_eq_ok {seen : List String} {placed : List Placement} {ds : List EntityDecl}
    {ps : List Placement} (h : placeFrom seen placed ds = .ok ps) :
    ps.length = placed.length + ds.length ∧
      ∀ k d b, ds[k]? = some d → d.mapping.base? = some b → b.index < placed.length + k := by
  induction ds generalizing seen placed with
  | nil =>
    obtain rfl : placed = ps := Except.ok.inj h
    simp
  | cons d ds ih =>
    have hrest {p : Placement} (hp : placeFrom (d.name :: seen) (placed ++ [p]) ds = .ok ps)
        (hb : ∀ b, d.mapping.base? = some b → b.index < placed.length) :
        ps.length = placed.length + (d :: ds).length ∧ ∀ k d' b, (d :: ds)[k]? = some d' →
          d'.mapping.base? = some b → b.index < placed.length + k := by
      obtain ⟨hlen, hbase⟩ := ih hp
      rw [List.length_append, List.length_singleton] at hlen hbase
      refine ⟨by rw [hlen, List.length_cons]; omega, fun k d' b hk hd => ?_⟩
      cases k with
      | zero =>
        obtain rfl : d = d' := by simpa using hk
        exact hb b hd
      | succ k =>
        have := hbase k d' b (by simpa using hk) hd
        omega
    unfold placeFrom at h
    split at h
    · cases h
    · split at h
      · rename_i hm
        exact hrest h (by simp [hm, Mapping.base?])
      · rename_i base table hm
        split at h
        · cases h
        · rename_i p hp
          refine hrest h fun b hb => ?_
          obtain rfl : base = b := by simpa [hm, Mapping.base?] using hb
          exact (List.getElem?_eq_some_iff.mp hp).1

namespace Spec

variable {s : Spec}

theorem entityType_eq_ok {id : EntityTypeId} {d : EntityDecl} {place : Placement}
    {base : Option EntityType} {e : EntityType} (h : s.entityType id d place base = .ok e) :
    e.base = d.mapping.base? ∧
      e.foreignKeys = inherited base (·.foreignKeys) ++ (s.foreignKeysOn id).map (·.id) ∧
      e.referencing = inherited base (·.referencing) ++ (s.foreignKeysTo id).map (·.id) ∧
      e.uniqueIndexes = inherited base (·.uniqueIndexes) ++ (s.uniqueIndexesOn id).map (·.id) := by
  unfold entityType at h
  obtain ⟨properties, _, h⟩ := bind_eq_ok.mp h
  cases base with
  | none =>
    obtain ⟨key, _, h⟩ := bind_eq_ok.mp h
    obtain rfl := Except.ok.inj h
    exact ⟨rfl, rfl, rfl, rfl⟩
  | some b =>
    obtain rfl := Except.ok.inj h
    exact ⟨rfl, rfl, rfl, rfl⟩

/-- Each type is made with its number and, as base, the one that its declaration names among those
before it. -/
theorem entityTypesFrom_eq_ok {done es : List EntityType} {ds : List (EntityDecl × Placement)}
    (h : s.entityTypesFrom done ds = .ok es) :
    done <+: es ∧ es.length = done.length + ds.length ∧
      ∀ k d place, ds[k]? = some (d, place) → ∃ e, es[done.length + k]? = some e ∧
        s.entityType ⟨done.length + k⟩ d place
          (d.mapping.base?.bind fun b => (es.take (done.length + k))[b.index]?) = .ok e := by
  induction ds generalizing done with
  | nil =>
    obtain rfl : done = es := Except.ok.inj h
    simp
  | cons d ds ih =>
    obtain ⟨d, place⟩ := d
    unfold entityTypesFrom at h
    obtain ⟨e, he, h⟩ := bind_eq_ok.mp h
    obtain ⟨hpre, hlen, hall⟩ := ih h
    have hdone : done <+: es := (List.prefix_append done [e]).trans hpre
    rw [List.length_append, List.length_singleton] at hlen hall
    refine ⟨hdone, by rw [hlen, List.length_cons]; omega, fun k d' place' hk => ?_⟩
    cases k with
    | zero =>
      obtain ⟨rfl, rfl⟩ : d = d' ∧ place = place' := by simpa using hk
      refine ⟨e, ?_, ?_⟩
      · obtain ⟨rest, rfl⟩ := hpre
        simp
      · rw [Nat.add_zero, ← List.prefix_iff_eq_take.mp hdone]
        exact he
    | succ k =>
      have := hall k d' place' (by simpa using hk)
      rwa [Nat.add_assoc, Nat.add_comm 1 k] at this

/-- The elements of a numbered list that pass a test, by number. -/
theorem mem_map_filter_iff {α β : Type} [Inhabited β] {l : List β} {idOf : β → α}
    {place : α → Nat} (hplace : Function.Injective place)
    (hl : ∀ i b, l[i]? = some b → place (idOf b) = i) (p : β → Bool) (a : α) :
    a ∈ (l.filter p).map idOf ↔ place a < l.length ∧ p (l.getD (place a) default) = true := by
  simp only [List.mem_map, List.mem_filter]
  constructor
  · intro h
    obtain ⟨b, ⟨hb, hp⟩, rfl⟩ := h
    obtain ⟨i, hi⟩ := List.mem_iff_getElem?.mp hb
    rw [hl i b hi, List.getD_eq_getElem?_getD, hi]
    exact ⟨(List.getElem?_eq_some_iff.mp hi).1, hp⟩
  · intro h
    obtain ⟨hlt, hp⟩ := h
    have hi := List.getElem?_eq_getElem hlt
    rw [List.getD_eq_getElem?_getD, hi] at hp
    exact ⟨_, ⟨List.getElem_mem hlt, hp⟩, hplace (hl _ _ hi)⟩

theorem mem_inherited {α : Type} {m : Model} {base : Option EntityTypeId}
    {members : EntityType → List α} {a : α} :
    a ∈ inherited (base.map m.entityType) members ↔
      ∃ b, base = some b ∧ a ∈ members (m.entityType b) := by
  cases base <;> simp [inherited]

theorem mem_foreignKeyIds (s : Spec) (p : ForeignKey → Bool) (fk : ForeignKeyId) :
    fk ∈ (s.modelForeignKeys.filter p).map (·.id) ↔ fk.index < s.modelForeignKeys.length ∧
      p (s.modelForeignKeys.getD fk.index default) = true := by
  refine mem_map_filter_iff (fun a b h => ?_) (fun i b hi => ?_) p fk
  · exact congrArg ForeignKeyId.mk h
  · rw [modelForeignKeys, List.getElem?_mapIdx, Option.map_eq_some_iff] at hi
    obtain ⟨_, _, rfl⟩ := hi
    rfl

theorem mem_indexIds (s : Spec) (p : Index → Bool) (ix : IndexId) :
    ix ∈ (s.modelIndexes.filter p).map (·.id) ↔ ix.index < s.modelIndexes.length ∧
      p (s.modelIndexes.getD ix.index default) = true := by
  refine mem_map_filter_iff (fun a b h => ?_) (fun i b hi => ?_) p ix
  · exact congrArg IndexId.mk h
  · rw [modelIndexes, List.getElem?_mapIdx, Option.map_eq_some_iff] at hi
    obtain ⟨_, _, rfl⟩ := hi
    rfl

theorem checkOwner_eq_ok {kind : MemberKind} {label : String} {owner : EntityTypeId} {u : Unit}
    (h : s.checkOwner kind label owner = .ok u) : owner.index < s.entities.length := by
  unfold checkOwner at h
  split at h
  · assumption
  · cases h

/-- What a successful check of the members has found. -/
theorem checkMembers_eq_ok {u : Unit} (h : s.checkMembers = .ok u) :
    (∀ k ∈ s.keys, k.owner.index < s.entities.length) ∧
      (∀ fk ∈ s.foreignKeys, fk.owner.index < s.entities.length ∧
        fk.principalKey.index < s.keys.length) ∧
      ∀ ix ∈ s.indexes, ix.owner.index < s.entities.length := by
  obtain ⟨_, _, h⟩ := bind_eq_ok.mp h
  obtain ⟨_, hkeys, h⟩ := bind_eq_ok.mp h
  obtain ⟨_, hfks, hixs⟩ := bind_eq_ok.mp h
  rw [forM_eq_ok] at hkeys hfks hixs
  refine ⟨fun k hk => ?_, fun fk hfk => ?_, fun ix hix => ?_⟩
  · obtain ⟨i, hi⟩ := List.mem_iff_getElem?.mp hk
    obtain ⟨_, howner, _⟩ := bind_eq_ok.mp (hkeys (k, i) (List.mk_mem_zipIdx_iff_getElem?.mpr hi))
    exact checkOwner_eq_ok howner
  · obtain ⟨i, hi⟩ := List.mem_iff_getElem?.mp hfk
    obtain ⟨_, howner, h⟩ := bind_eq_ok.mp (hfks (fk, i) (List.mk_mem_zipIdx_iff_getElem?.mpr hi))
    obtain ⟨_, _, h⟩ := bind_eq_ok.mp h
    split at h
    · cases h
    · rename_i k hkey
      exact ⟨checkOwner_eq_ok howner, (List.getElem?_eq_some_iff.mp hkey).1⟩
  · obtain ⟨_, howner, _⟩ := bind_eq_ok.mp (hixs ix hix)
    exact checkOwner_eq_ok howner

theorem build_eq_ok {m : Model} (h : s.build = .ok m) :
    ∃ places entityTypes, s.placements = .ok places ∧ s.checkMembers = .ok () ∧
      s.entityTypesFrom [] (s.entities.zip places) = .ok entityTypes ∧
      m = ⟨entityTypes, s.modelProperties, s.modelKeys, s.modelForeignKeys, s.modelIndexes⟩ := by
  obtain ⟨places, hplaces, h⟩ := bind_eq_ok.mp h
  obtain ⟨_, hcheck, h⟩ := bind_eq_ok.mp h
  obtain ⟨entityTypes, htypes, h⟩ := bind_eq_ok.mp h
  exact ⟨places, entityTypes, hplaces, hcheck, htypes, (Except.ok.inj h).symm⟩

/-- Each type of the model is made from its declaration and where it was placed, over the base that
this names. -/
theorem made_of_build {m : Model} (h : s.build = .ok m) :
    m.entityTypes.length = s.entities.length ∧ ∃ places, s.placements = .ok places ∧
      ∀ e : EntityTypeId, e.index < m.entityTypes.length → ∃ d place,
        s.entities[e.index]? = some d ∧ places[e.index]? = some place ∧
        s.entityType e d place ((m.entityType e).base.map m.entityType) = .ok (m.entityType e) ∧
        ∀ b, (m.entityType e).base = some b → b.index < e.index := by
  obtain ⟨places, entityTypes, hplaces, _, htypes, rfl⟩ := build_eq_ok h
  obtain ⟨hlen, hbase⟩ := placeFrom_eq_ok hplaces
  obtain ⟨_, htlen, hall⟩ := entityTypesFrom_eq_ok htypes
  simp only [List.length_nil, Nat.zero_add, List.length_zip] at hlen htlen hall hbase
  refine ⟨by simp only; omega, places, hplaces, fun e he => ?_⟩
  simp only at he
  have hd : e.index < s.entities.length := by omega
  have hp : e.index < places.length := by omega
  have hzip : (s.entities.zip places)[e.index]? =
      some (s.entities[e.index], places[e.index]) := by
    rw [List.getElem?_zip_eq_some]
    exact ⟨List.getElem?_eq_getElem hd, List.getElem?_eq_getElem hp⟩
  obtain ⟨t, ht, hmade⟩ := hall _ _ _ hzip
  have hte (f : EntityTypeId) (t : EntityType) (hf : entityTypes[f.index]? = some t) :
      Model.entityType ⟨entityTypes, s.modelProperties, s.modelKeys, s.modelForeignKeys,
        s.modelIndexes⟩ f = t := by
    simp [Model.entityType, List.getD_eq_getElem?_getD, hf]
  have hlt (b : EntityTypeId) (hb : (s.entities[e.index]).mapping.base? = some b) :
      b.index < e.index :=
    hbase _ _ b (List.getElem?_eq_getElem hd) hb
  have htb : t.base = (s.entities[e.index]).mapping.base? := (entityType_eq_ok hmade).1
  refine ⟨s.entities[e.index], places[e.index], List.getElem?_eq_getElem hd,
    List.getElem?_eq_getElem hp, ?_, ?_⟩
  · rw [hte e t ht, htb, ← hmade]
    congr 1
    cases hb : (s.entities[e.index]).mapping.base? with
    | none => rfl
    | some b =>
      have hbl : b.index < entityTypes.length := Nat.lt_trans (hlt b hb) he
      rw [Option.map_some, Option.bind_some, List.getElem?_take_of_lt (hlt b hb),
        hte b _ (List.getElem?_eq_getElem hbl), List.getElem?_eq_getElem hbl]
  · rw [hte e t ht, htb]
    exact hlt

theorem entityType_of_build {m : Model} (h : s.build = .ok m) :
    m.entityTypes.length = s.entities.length ∧
      ∀ e : EntityTypeId, e.index < m.entityTypes.length → ∃ d place,
        s.entityType e d place ((m.entityType e).base.map m.entityType) = .ok (m.entityType e) ∧
        ∀ b, (m.entityType e).base = some b → b.index < e.index := by
  obtain ⟨hlen, _, _, hall⟩ := made_of_build h
  refine ⟨hlen, fun e he => ?_⟩
  obtain ⟨d, place, _, _, hmade, hlt⟩ := hall e he
  exact ⟨d, place, hmade, hlt⟩

theorem members_of_build {m : Model} (h : s.build = .ok m) {e : EntityTypeId}
    (he : e.index < m.entityTypes.length) :
    (m.entityType e).foreignKeys =
        inherited ((m.entityType e).base.map m.entityType) (·.foreignKeys) ++
          (s.foreignKeysOn e).map (·.id) ∧
      (m.entityType e).referencing =
        inherited ((m.entityType e).base.map m.entityType) (·.referencing) ++
          (s.foreignKeysTo e).map (·.id) ∧
      (m.entityType e).uniqueIndexes =
        inherited ((m.entityType e).base.map m.entityType) (·.uniqueIndexes) ++
          (s.uniqueIndexesOn e).map (·.id) := by
  obtain ⟨_, htypes⟩ := entityType_of_build h
  obtain ⟨_, _, hmade, _⟩ := htypes e he
  exact (entityType_eq_ok hmade).2

theorem foreignKey_of_build {m : Model} (h : s.build = .ok m) (fk : ForeignKeyId) :
    m.foreignKeys.length = s.foreignKeys.length ∧
      m.foreignKey fk = s.modelForeignKeys.getD fk.index default ∧
      ∀ d, s.foreignKeys[fk.index]? = some d → (m.foreignKey fk).declaring = d.owner ∧
        (m.foreignKey fk).principal = s.principalOf d.principalKey := by
  obtain ⟨_, _, _, _, _, rfl⟩ := build_eq_ok h
  refine ⟨by simp [modelForeignKeys], rfl, fun d hd => ?_⟩
  simp [Model.foreignKey, modelForeignKeys, List.getD_eq_getElem?_getD, hd]

theorem index_of_build {m : Model} (h : s.build = .ok m) (ix : IndexId) :
    m.indexes.length = s.indexes.length ∧
      m.index ix = s.modelIndexes.getD ix.index default ∧
      ∀ d, s.indexes[ix.index]? = some d → (m.index ix).declaring = d.owner := by
  obtain ⟨_, _, _, _, _, rfl⟩ := build_eq_ok h
  refine ⟨by simp [modelIndexes], rfl, fun d hd => ?_⟩
  simp [Model.index, modelIndexes, List.getD_eq_getElem?_getD, hd]

theorem hierarchical_of_build {m : Model} (h : s.build = .ok m) : m.Hierarchical := by
  obtain ⟨hlen, htypes⟩ := entityType_of_build h
  obtain ⟨_, _, _, hcheck, _, _⟩ := build_eq_ok h
  obtain ⟨hkeys, hfks, hixs⟩ := checkMembers_eq_ok hcheck
  rw [← hlen] at hkeys hfks hixs
  have hfk {fk : ForeignKeyId} (hlt : fk.index < m.foreignKeys.length) :
      ∃ d ∈ s.foreignKeys, (m.foreignKey fk).declaring = d.owner ∧
        (m.foreignKey fk).principal = s.principalOf d.principalKey := by
    obtain ⟨hl, _, hd⟩ := foreignKey_of_build h fk
    have hi := List.getElem?_eq_getElem (hl ▸ hlt)
    exact ⟨_, List.mem_of_getElem? hi, hd _ hi⟩
  refine ⟨?_, ?_, ?_, ?_, ?_, ?_, ?_⟩
  · intro e b hb
    by_cases he : e.index < m.entityTypes.length
    · obtain ⟨_, _, _, hlt⟩ := htypes e he
      exact hlt b hb
    · rw [Model.entityType_of_length_le (Nat.le_of_not_lt he)] at hb
      cases hb
  · intro fk hlt
    obtain ⟨d, hd, hdecl, _⟩ := hfk hlt
    rw [hdecl]
    exact (hfks d hd).1
  · intro fk hlt
    obtain ⟨d, hd, _, hprincipal⟩ := hfk hlt
    have hk := List.getElem?_eq_getElem (hfks d hd).2
    rw [hprincipal, principalOf, hk]
    exact hkeys _ (List.mem_of_getElem? hk)
  · intro ix hlt
    obtain ⟨hl, _, hd⟩ := index_of_build h ix
    have hi := List.getElem?_eq_getElem (hl ▸ hlt)
    rw [hd _ hi]
    exact hixs _ (List.mem_of_getElem? hi)
  · intro e he fk
    obtain ⟨hl, hread, _⟩ := foreignKey_of_build h fk
    rw [(members_of_build h he).1, List.mem_append, mem_inherited, foreignKeysOn,
      mem_foreignKeyIds, ← hread, hl]
    simp [modelForeignKeys]
  · intro e he fk
    obtain ⟨hl, hread, _⟩ := foreignKey_of_build h fk
    rw [(members_of_build h he).2.1, List.mem_append, mem_inherited, foreignKeysTo,
      mem_foreignKeyIds, ← hread, hl]
    simp [modelForeignKeys]
  · intro e he ix
    obtain ⟨hl, hread, _⟩ := index_of_build h ix
    rw [(members_of_build h he).2.2, List.mem_append, mem_inherited, uniqueIndexesOn,
      mem_indexIds, ← hread, hl]
    simp [modelIndexes]

end Spec

end WritePlan

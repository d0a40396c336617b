import Mathlib.Order.Preorder.Chain
import WritePlan.Proofs.OwnReads
import WritePlan.Proofs.StrictBuild

namespace WritePlan

/-- The table that a type is declared with. -/
def Mapping.table? : Mapping → Option Table
  | root table => some table
  | derived _ table => table

/-- The placement that a declaration asks for, where `ps` are the placements of the types. -/
def Mapping.Places (ps : List Placement) (e : EntityTypeId) : Mapping → Placement → Prop
  | root table, p => p = ⟨e, table⟩
  | derived base table, p => ∃ q, ps[base.index]? = some q ∧ p = ⟨q.root, table.getD q.table⟩

def Spec.ownTable? (s : Spec) (e : EntityTypeId) : Option Table :=
  s.entities[e.index]?.bind (·.mapping.table?)

/-- The walk from a type over its bases in search of another one, in so many steps at most. It
comes to nothing if it is led to a number that is not of the model. -/
def Model.walk (m : Model) (ancestor : EntityTypeId) : Nat → EntityTypeId → Option Bool
  | 0, _ => none
  | n + 1, e =>
    if e = ancestor then some true
    else
      match m.entityType? e with
      | none => none
      | some t =>
        match t.base with
        | none => some false
        | some b => m.walk ancestor n b

namespace Model

variable {m : Model}

theorem SameOrBase.of_base {b e : EntityTypeId} (h : (m.entityType e).base = some b) :
    m.SameOrBase b e :=
  .single h

theorem SameOrBase.eq_of_base_none {a e : EntityTypeId} (h : m.SameOrBase a e)
    (he : (m.entityType e).base = none) : a = e := by
  rcases sameOrBase_iff.mp h with rfl | ⟨b, hb, _⟩
  · rfl
  · rw [he] at hb
    cases hb

/-- A type has one base at most, so the ways up from it do not part. -/
theorem SameOrBase.comparable {a b e : EntityTypeId} (ha : m.SameOrBase a e)
    (hb : m.SameOrBase b e) : m.SameOrBase a b ∨ m.SameOrBase b a := by
  have hunique : Relator.RightUnique fun d b => (m.entityType d).base = some b := by
    intro d b c hb hc
    exact Option.some.inj (hb.symm.trans hc)
  exact (Relation.ReflTransGen.total_of_right_unique hunique ha hb).symm

namespace Hierarchical

theorem sameOrBase_antisymm (hm : m.Hierarchical) {a e : EntityTypeId} (h : m.SameOrBase a e)
    (h' : m.SameOrBase e a) : a = e := by
  have hle := hm.index_le h
  have hle' := hm.index_le h'
  cases a
  cases e
  exact congrArg EntityTypeId.mk (Nat.le_antisymm hle hle')

theorem isPartialOrder (hm : m.Hierarchical) :
    IsPartialOrder EntityTypeId fun a e => m.isSameOrBase a e = true where
  refl e := hm.isSameOrBase_iff_sameOrBase.mpr .refl
  trans a b e := by
    simp only [hm.isSameOrBase_iff_sameOrBase]
    exact SameOrBase.trans
  antisymm a e := by
    simp only [hm.isSameOrBase_iff_sameOrBase]
    exact hm.sameOrBase_antisymm

theorem isChain (hm : m.Hierarchical) (e : EntityTypeId) :
    IsChain (fun a b => m.isSameOrBase a b = true) {a | m.isSameOrBase a e = true} := by
  intro a ha b hb _
  simp only [Set.mem_ofPred_eq, hm.isSameOrBase_iff_sameOrBase] at ha hb ⊢
  exact ha.comparable hb

/-- What is above a type of the model is in the model, too. -/
theorem lt_of_sameOrBase (hm : m.Hierarchical) {a e : EntityTypeId}
    (he : e.index < m.entityTypes.length) (h : m.SameOrBase a e) :
    a.index < m.entityTypes.length :=
  Nat.lt_of_le_of_lt (hm.index_le h) he

/-- From the roots downwards: what holds of every root, and of a type if it does of its base. -/
@[elab_as_elim]
theorem downwards (hm : m.Hierarchical) {motive : EntityTypeId → Prop}
    (root : ∀ e, e.index < m.entityTypes.length → (m.entityType e).base = none → motive e)
    (derived : ∀ e b, e.index < m.entityTypes.length → (m.entityType e).base = some b → motive b →
      motive e)
    {e : EntityTypeId} (he : e.index < m.entityTypes.length) : motive e := by
  induction hn : e.index using Nat.strongRecOn generalizing e with
  | ind n ih =>
    subst hn
    cases hb : (m.entityType e).base with
    | none => exact root e he hb
    | some b =>
      have hlt := hm.base_lt e b hb
      exact derived e b he hb (ih b.index hlt (Nat.lt_trans hlt he) rfl)

end Hierarchical

end Model

/-- Each type is placed as its declaration says. -/
theorem placeFrom_places {seen : List String} {placed ps : List Placement} {ds : List EntityDecl}
    (h : placeFrom seen placed ds = .ok ps) :
    placed <+: ps ∧ ∀ k d, ds[k]? = some d →
      ∃ p, ps[placed.length + k]? = some p ∧ d.mapping.Places ps ⟨placed.length + k⟩ p := by
  induction ds generalizing seen placed with
  | nil =>
    obtain rfl : placed = ps := Except.ok.inj h
    simp
  | cons d ds ih =>
    have hrest {p : Placement} (hp : placeFrom (d.name :: seen) (placed ++ [p]) ds = .ok ps)
        (hd : placed <+: ps → d.mapping.Places ps ⟨placed.length⟩ p) :
        placed <+: ps ∧ ∀ k c, (d :: ds)[k]? = some c →
          ∃ p, ps[placed.length + k]? = some p ∧ c.mapping.Places ps ⟨placed.length + k⟩ p := by
      obtain ⟨hpre, hall⟩ := ih hp
      have hplaced : placed <+: ps := (List.prefix_append placed [p]).trans hpre
      refine ⟨hplaced, fun k c hk => ?_⟩
      cases k with
      | zero =>
        obtain rfl : d = c := Option.some.inj hk
        obtain ⟨rest, rfl⟩ := hpre
        exact ⟨p, by simp, hd hplaced⟩
      | succ k =>
        have hc := hall k c hk
        rwa [List.length_append, List.length_singleton, Nat.add_assoc, Nat.add_comm 1] at hc
    unfold placeFrom at h
    split at h
    · cases h
    · split at h
      · rename_i table hm
        refine hrest h fun _ => ?_
        rw [hm]
        rfl
      · rename_i base table hm
        split at h
        · cases h
        · rename_i q hq
          refine hrest h fun hplaced => ?_
          rw [hm]
          obtain ⟨hlt, rfl⟩ := List.getElem?_eq_some_iff.mp hq
          exact ⟨_, List.prefix_iff_getElem?.mp hplaced _ hlt, rfl⟩

namespace Spec

variable {s : Spec} {m : Model}

theorem mem_primaryKeysOn_of_rootKey {e : EntityTypeId} {name : String} {id : KeyId}
    (h : s.rootKey e name = .ok id) : ∃ k ∈ s.primaryKeysOn e, k.id = id := by
  unfold rootKey at h
  split at h
  · cases h
  · rename_i k hk
    exact ⟨k, by simp [hk], Except.ok.inj h⟩
  · cases h

/-- What a type has from its place, and what from its base or, if it has none, from its own keys. -/
theorem entityType_key_and_table {id : EntityTypeId} {d : EntityDecl} {place : Placement}
    {base : Option EntityType} {e : EntityType} (h : s.entityType id d place base = .ok e) :
    e.table = place.table ∧ (∀ b, base = some b → e.primaryKey = b.primaryKey) ∧
      (base = none → ∃ k ∈ s.primaryKeysOn id, k.id = e.primaryKey) := by
  unfold entityType at h
  obtain ⟨_, _, h⟩ := bind_eq_ok.mp h
  cases base with
  | none =>
    obtain ⟨key, hkey, h⟩ := bind_eq_ok.mp h
    obtain rfl := Except.ok.inj h
    exact ⟨rfl, by simp, fun _ => mem_primaryKeysOn_of_rootKey hkey⟩
  | some b =>
    obtain rfl := Except.ok.inj h
    exact ⟨rfl, by simp, by simp⟩

/-- The types of the model are placed as their declarations say. -/
theorem places_of_build (h : s.build = .ok m) {e : EntityTypeId}
    (he : e.index < m.entityTypes.length) :
    ∃ places d, s.entities[e.index]? = some d ∧ (m.entityType e).base = d.mapping.base? ∧
      d.mapping.Places places e ⟨(m.entityType e).root, (m.entityType e).table⟩ ∧
      ∀ f : EntityTypeId, f.index < m.entityTypes.length →
        places[f.index]? = some ⟨(m.entityType f).root, (m.entityType f).table⟩ := by
  obtain ⟨_, places, hplaces, hall⟩ := made_of_build h
  have hplace (f : EntityTypeId) (hf : f.index < m.entityTypes.length) :
      places[f.index]? = some ⟨(m.entityType f).root, (m.entityType f).table⟩ := by
    obtain ⟨_, place, _, hp, hmade, _⟩ := hall f hf
    rw [hp, (entityType_placed hmade).1, (entityType_key_and_table hmade).1]
  obtain ⟨d, _, hd, _, hmade, _⟩ := hall e he
  obtain ⟨p, hp, hasked⟩ := (placeFrom_places hplaces).2 e.index d hd
  rw [List.length_nil, Nat.zero_add] at hp hasked
  obtain rfl := Option.some.inj ((hplace e he).symm.trans hp)
  exact ⟨places, d, hd, (entityType_eq_ok hmade).1, hasked, hplace⟩

/-- A type without a base is its own root, and it is declared with a table. -/
theorem placed_of_root (h : s.build = .ok m) {e : EntityTypeId}
    (he : e.index < m.entityTypes.length) (hb : (m.entityType e).base = none) :
    (m.entityType e).root = e ∧ s.ownTable? e = some (m.entityType e).table := by
  obtain ⟨_, d, hd, hbase, hasked, _⟩ := places_of_build h he
  rw [hb] at hbase
  rw [ownTable?, hd, Option.bind_some]
  cases hm : d.mapping with
  | root table =>
    rw [hm] at hasked
    obtain ⟨hroot, htable⟩ := Placement.mk.inj hasked
    exact ⟨hroot, congrArg some htable.symm⟩
  | derived b table =>
    rw [hm] at hbase
    cases hbase

/-- Any other type has the root of its base, and its table as well, unless it is declared with
another one. -/
theorem placed_of_base (h : s.build = .ok m) {e b : EntityTypeId}
    (he : e.index < m.entityTypes.length) (hb : (m.entityType e).base = some b) :
    (m.entityType e).root = (m.entityType b).root ∧
      (m.entityType e).table = (s.ownTable? e).getD (m.entityType b).table := by
  obtain ⟨_, d, hd, hbase, hasked, hplace⟩ := places_of_build h he
  rw [hb] at hbase
  rw [ownTable?, hd, Option.bind_some]
  cases hm : d.mapping with
  | root table =>
    rw [hm] at hbase
    cases hbase
  | derived c table =>
    rw [hm] at hasked hbase
    obtain rfl : b = c := Option.some.inj hbase
    obtain ⟨q, hq, heq⟩ := hasked
    have hlt := (hierarchical_of_build h).base_lt e b hb
    obtain rfl := Option.some.inj ((hplace b (Nat.lt_trans hlt he)).symm.trans hq)
    exact Placement.mk.inj heq

theorem primaryKey_of_root (h : s.build = .ok m) {e : EntityTypeId}
    (he : e.index < m.entityTypes.length) (hb : (m.entityType e).base = none) :
    m.primaryKey e ∈ s.primaryKeysOn e := by
  obtain ⟨_, htypes⟩ := entityType_of_build h
  obtain ⟨_, _, hmade, _⟩ := htypes e he
  obtain ⟨_, _, hown⟩ := entityType_key_and_table hmade
  obtain ⟨k, hk, hid⟩ := hown (by simp [hb])
  rw [Model.primaryKey, ← hid, key_of_mem_modelKeys h (List.mem_filter.mp hk).1]
  exact hk

theorem primaryKey_of_base (h : s.build = .ok m) {e b : EntityTypeId}
    (he : e.index < m.entityTypes.length) (hb : (m.entityType e).base = some b) :
    m.primaryKey e = m.primaryKey b := by
  obtain ⟨_, htypes⟩ := entityType_of_build h
  obtain ⟨_, _, hmade, _⟩ := htypes e he
  obtain ⟨_, htaken, _⟩ := entityType_key_and_table hmade
  rw [Model.primaryKey, htaken _ (by rw [hb, Option.map_some]), Model.primaryKey]

theorem root_above (h : s.build = .ok m) {e : EntityTypeId} (he : e.index < m.entityTypes.length) :
    m.SameOrBase (m.entityType e).root e ∧
      (m.entityType (m.entityType e).root).base = none := by
  refine (hierarchical_of_build h).downwards ?_ ?_ he
  · intro e he hb
    rw [(placed_of_root h he hb).1]
    exact ⟨.refl, hb⟩
  · intro e b he hb ih
    rw [(placed_of_base h he hb).1]
    exact ⟨ih.1.trans (.of_base hb), ih.2⟩

/-- The root is the only type on the way up that has no base. -/
theorem root_eq_iff (h : s.build = .ok m) {e : EntityTypeId} (he : e.index < m.entityTypes.length)
    (r : EntityTypeId) :
    (m.entityType e).root = r ↔ m.SameOrBase r e ∧ (m.entityType r).base = none := by
  obtain ⟨habove, hnone⟩ := root_above h he
  constructor
  · rintro rfl
    exact ⟨habove, hnone⟩
  · rintro ⟨hr, hrnone⟩
    rcases habove.comparable hr with hle | hle
    · exact hle.eq_of_base_none hrnone
    · exact (hle.eq_of_base_none hnone).symm

theorem root_eq_of_sameOrBase (h : s.build = .ok m) {a e : EntityTypeId}
    (he : e.index < m.entityTypes.length) (ha : m.SameOrBase a e) :
    (m.entityType e).root = (m.entityType a).root := by
  obtain ⟨habove, hnone⟩ := root_above h ((hierarchical_of_build h).lt_of_sameOrBase he ha)
  exact (root_eq_iff h he _).mpr ⟨habove.trans ha, hnone⟩

/-- Types have one root exactly if there is a type above both. -/
theorem roots_eq_iff (h : s.build = .ok m) {e f : EntityTypeId}
    (he : e.index < m.entityTypes.length) (hf : f.index < m.entityTypes.length) :
    (m.entityType e).root = (m.entityType f).root ↔ ∃ a, m.SameOrBase a e ∧ m.SameOrBase a f := by
  constructor
  · intro hroot
    refine ⟨(m.entityType e).root, (root_above h he).1, ?_⟩
    rw [hroot]
    exact (root_above h hf).1
  · rintro ⟨a, hae, haf⟩
    rw [root_eq_of_sameOrBase h he hae, root_eq_of_sameOrBase h hf haf]

theorem primaryKey_eq_root (h : s.build = .ok m) {e : EntityTypeId}
    (he : e.index < m.entityTypes.length) :
    m.primaryKey e = m.primaryKey (m.entityType e).root ∧
      m.primaryKey e ∈ s.primaryKeysOn (m.entityType e).root := by
  refine (hierarchical_of_build h).downwards ?_ ?_ he
  · intro e he hb
    have hroot : (m.entityType e).root = e := (root_eq_iff h he e).mpr ⟨.refl, hb⟩
    rw [hroot]
    exact ⟨rfl, primaryKey_of_root h he hb⟩
  · intro e b he hb ih
    rw [primaryKey_of_base h he hb, root_eq_of_sameOrBase h he (.of_base hb)]
    exact ih

/-- The table comes from the nearest type on the way up that is declared with one. -/
theorem table_from_nearest (h : s.build = .ok m) {e : EntityTypeId}
    (he : e.index < m.entityTypes.length) :
    ∃ a, m.SameOrBase a e ∧ s.ownTable? a = some (m.entityType e).table ∧
      ∀ b, m.SameOrBase a b → m.SameOrBase b e → b ≠ a → s.ownTable? b = none := by
  have hm := hierarchical_of_build h
  refine hm.downwards ?_ ?_ he
  · intro e he hb
    refine ⟨e, .refl, (placed_of_root h he hb).2, fun c _ hce hne => ?_⟩
    exact absurd (hce.eq_of_base_none hb) hne
  · intro e b he hb ih
    have htable := (placed_of_base h he hb).2
    cases hown : s.ownTable? e with
    | some own =>
      rw [hown, Option.getD_some] at htable
      refine ⟨e, .refl, by rw [hown, htable], fun c hec hce hne => ?_⟩
      exact absurd (hm.sameOrBase_antisymm hce hec) hne
    | none =>
      rw [hown, Option.getD_none] at htable
      obtain ⟨a, hab, ha, hbetween⟩ := ih
      refine ⟨a, hab.trans (.of_base hb), by rw [ha, htable], fun c hac hce hne => ?_⟩
      -- A type between them is the type itself, which has no table of its own, or above its base.
      rcases Model.sameOrBase_iff.mp hce with rfl | ⟨b', hb', hcb⟩
      · exact hown
      · obtain rfl := Option.some.inj (hb.symm.trans hb')
        exact hbetween c hac hcb hne

theorem inHierarchy_eq (h : s.build = .ok m) (a e : EntityTypeId) :
    s.inHierarchy a e = m.isSameOrBase a e := by
  have hbase : (fun d => (m.entityType d).base) = s.baseOf := funext (base_of_build h)
  rw [inHierarchy, Model.isSameOrBase, hbase]

/-- The walk in the model goes step by step like that over the declarations. -/
theorem walk_of_build (h : s.build = .ok m) {e : EntityTypeId}
    (he : e.index < m.entityTypes.length) (a : EntityTypeId) (n : Nat) :
    m.walk a n e = s.walk a n e := by
  induction n generalizing e with
  | zero => rfl
  | succ n ih =>
    rw [Model.walk, walk, Model.entityType?_eq he]
    split
    · rfl
    · simp only [← base_of_build h]
      cases hb : (m.entityType e).base with
      | none => rfl
      | some b =>
        have hlt := (hierarchical_of_build h).base_lt e b hb
        exact ih (Nat.lt_trans hlt he)

end Spec

/-- The types of a model stand in trees: the root of a type is the one above it that has no base. It
declares the primary key, and the table is that of the nearest type on the way up that has one. -/
theorem hierarchies_are_forests {s : Spec} {m : Model} (h : s.build = .ok m) :
    (∀ a e n, e.index < m.entityTypes.length → e.index < n →
      m.walk a n e = some (m.isSameOrBase a e)) ∧
    (∀ a e n, e.index < n → s.walk a n e = some (s.inHierarchy a e)) ∧
    (∀ a e, s.inHierarchy a e = m.isSameOrBase a e) ∧
    IsPartialOrder EntityTypeId (fun a e => m.isSameOrBase a e = true) ∧
    (∀ e, IsChain (fun a b => m.isSameOrBase a b = true) {a | m.isSameOrBase a e = true}) ∧
    (∀ e, e.index < m.entityTypes.length →
      (∀ r, (m.entityType e).root = r ↔
        m.isSameOrBase r e = true ∧ (m.entityType r).base = none) ∧
      m.primaryKey e = m.primaryKey (m.entityType e).root ∧
      (m.primaryKey e).declaring = (m.entityType e).root ∧ (m.primaryKey e).primary = true ∧
      ∃ a, m.isSameOrBase a e = true ∧ s.ownTable? a = some (m.entityType e).table ∧
        ∀ b, m.isSameOrBase a b = true → m.isSameOrBase b e = true → b ≠ a →
          s.ownTable? b = none) ∧
    ∀ e f, e.index < m.entityTypes.length → f.index < m.entityTypes.length →
      ((m.entityType e).root = (m.entityType f).root ↔
        ∃ a, m.isSameOrBase a e = true ∧ m.isSameOrBase a f = true) := by
  have hm := Spec.hierarchical_of_build h
  have hbase := (Spec.build_ok_iff.mp ⟨m, h⟩).base_lt
  refine ⟨fun a e n he hn => ?_, fun a e n hn => Spec.walk_eq hbase hn, Spec.inHierarchy_eq h,
    hm.isPartialOrder, hm.isChain, fun e he => ⟨fun r => ?_, ?_⟩, fun e f he hf => ?_⟩
  · rw [Spec.walk_of_build h he, Spec.walk_eq hbase hn, Spec.inHierarchy_eq h]
  · rw [Spec.root_eq_iff h he, hm.isSameOrBase_iff_sameOrBase]
  · obtain ⟨hkey, hmem⟩ := Spec.primaryKey_eq_root h he
    obtain ⟨_, hof⟩ := List.mem_filter.mp hmem
    rw [Bool.and_eq_true, decide_eq_true_eq] at hof
    simp only [hm.isSameOrBase_iff_sameOrBase]
    exact ⟨hkey, hof.2, hof.1, Spec.table_from_nearest h he⟩
  · simp only [hm.isSameOrBase_iff_sameOrBase]
    exact Spec.roots_eq_iff h he hf

namespace Registry

/-- Companies are stored apart from the other parties, and suppliers with them. -/
def spec : Spec where
  entities := [⟨"Party", .root ⟨none, "Parties"⟩⟩,
    ⟨"Company", .derived ⟨0⟩ (some ⟨none, "Companies"⟩)⟩, ⟨"Supplier", .derived ⟨1⟩ none⟩,
    ⟨"Person", .derived ⟨0⟩ none⟩, ⟨"Order", .root ⟨none, "Orders"⟩⟩]
  properties := [{ owner := ⟨0⟩, name := "Id" }, { owner := ⟨4⟩, name := "Id" }]
  keys := [{ owner := ⟨4⟩, properties := [⟨1⟩] }, { owner := ⟨0⟩, properties := [⟨0⟩] }]
  foreignKeys := []
  indexes := []

def model : Model :=
  spec.build.toOption.getD ⟨[], [], [], [], []⟩

theorem spec_build : spec.build = .ok model := by decide +kernel

/-- A supplier is stored as a company but has the key of a party, which persons are, too, and orders
are not. -/
theorem hierarchies_are_forests_supplier :
    spec.build = .ok model ∧ model.walk ⟨0⟩ 3 ⟨2⟩ = some true ∧
      model.walk ⟨3⟩ 3 ⟨2⟩ = some false ∧ (model.entityType ⟨2⟩).root = ⟨0⟩ ∧
      (model.primaryKey ⟨2⟩).declaring = ⟨0⟩ ∧
      (model.entityType ⟨2⟩).root = (model.entityType ⟨3⟩).root ∧
      (¬ ∃ a, model.isSameOrBase a ⟨2⟩ = true ∧ model.isSameOrBase a ⟨4⟩ = true) ∧
      ∃ a, model.isSameOrBase a ⟨2⟩ = true ∧ spec.ownTable? a = some ⟨none, "Companies"⟩ ∧
        ∀ b, model.isSameOrBase a b = true → model.isSameOrBase b ⟨2⟩ = true → b ≠ a →
          spec.ownTable? b = none := by
  obtain ⟨hwalk, _, _, _, _, htypes, hroots⟩ := hierarchies_are_forests spec_build
  have hlength : model.entityTypes.length = 5 := by decide +kernel
  have hparty : model.isSameOrBase ⟨0⟩ ⟨2⟩ = true := by decide +kernel
  have hperson : model.isSameOrBase ⟨3⟩ ⟨2⟩ = false := by decide +kernel
  have hthird : model.isSameOrBase ⟨0⟩ ⟨3⟩ = true := by decide +kernel
  have htop : (model.entityType ⟨0⟩).base = none := by decide +kernel
  have htable : (model.entityType ⟨2⟩).table = ⟨none, "Companies"⟩ := by decide +kernel
  obtain ⟨hroot, _, hdeclaring, _, hnearest⟩ := htypes ⟨2⟩ (by simp [hlength])
  have hsupplier : (model.entityType ⟨2⟩).root = ⟨0⟩ := (hroot ⟨0⟩).mpr ⟨hparty, htop⟩
  refine ⟨spec_build, ?_, ?_, hsupplier, ?_, ?_, ?_, ?_⟩
  · rw [hwalk ⟨0⟩ ⟨2⟩ 3 (by simp [hlength]) (by simp), hparty]
  · rw [hwalk ⟨3⟩ ⟨2⟩ 3 (by simp [hlength]) (by simp), hperson]
  · rw [hdeclaring, hsupplier]
  · apply (hroots ⟨2⟩ ⟨3⟩ (by simp [hlength]) (by simp [hlength])).mpr
    exact ⟨⟨0⟩, hparty, hthird⟩
  · rw [← hroots ⟨2⟩ ⟨4⟩ (by simp [hlength]) (by simp [hlength]), hsupplier]
    decide +kernel
  · rw [htable] at hnearest
    exact hnearest

end Registry

end WritePlan

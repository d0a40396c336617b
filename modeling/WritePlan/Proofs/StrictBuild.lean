import WritePlan.Error.Report
import WritePlan.Proofs.WellFormedSpecs

namespace WritePlan

/-- A run that may fail with a fault, or come to nothing at all. -/
abbrev Strict := ExceptT ModelError Option

namespace Strict

/-- A run that does come to a result, or to a fault. -/
def settled {α : Type} (x : Except ModelError α) : Strict α :=
  ExceptT.mk (some x)

/-- The element at a place that the list must have. -/
def read {α : Type} (l : List α) (i : Nat) : Strict α :=
  ExceptT.lift l[i]?

variable {α β : Type}

theorem read_of_some {l : List α} {i : Nat} {a : α} (h : l[i]? = some a) :
    read l i = settled (.ok a) := by
  rw [read, h]
  rfl

/-- Runs that come to something do so one after the other; the second may count on what the first
has found. -/
theorem bind_settled {x : Strict α} {y : Except ModelError α} {f : α → Strict β}
    {g : α → Except ModelError β} (hx : x = settled y) (hf : ∀ a, y = .ok a → f a = settled (g a)) :
    x >>= f = settled (y >>= g) := by
  subst hx
  cases y with
  | error e => rfl
  | ok a => exact hf a rfl

theorem forM_settled {l : List α} {f : α → Strict Unit} {g : α → Except ModelError Unit}
    (h : ∀ a ∈ l, f a = settled (g a)) : l.forM f = settled (l.forM g) := by
  induction l with
  | nil => rfl
  | cons a l ih =>
    obtain ⟨ha, hl⟩ := List.forall_mem_cons.mp h
    exact bind_settled ha fun _ _ => ih hl

theorem anyM_settled {l : List α} {f : α → Strict Bool} {p : α → Bool}
    (h : ∀ a ∈ l, f a = settled (.ok (p a))) : l.anyM f = settled (.ok (l.any p)) := by
  induction l with
  | nil => rfl
  | cons a l ih =>
    obtain ⟨ha, hl⟩ := List.forall_mem_cons.mp h
    rw [List.anyM, ha, List.any_cons]
    cases p a with
    | true => rfl
    | false => exact ih hl

end Strict

open Strict

/-- Places the types; a base must be there to be derived from. -/
def strictPlaceFrom (seen : List String) (placed : List Placement) :
    List EntityDecl → Strict (List Placement)
  | [] => pure placed
  | d :: ds =>
    if seen.contains d.name then throw (.duplicateEntity d.name)
    else
      match d.mapping with
      | .root table => strictPlaceFrom (d.name :: seen) (placed ++ [⟨⟨placed.length⟩, table⟩]) ds
      | .derived base table =>
        if base.index < placed.length then do
          let p ← read placed base.index
          strictPlaceFrom (d.name :: seen) (placed ++ [⟨p.root, table.getD p.table⟩]) ds
        else throw (.baseNotBefore d.name base)

namespace Spec

/-- The walk from a type over its bases in search of another one, in so many steps at most. -/
def walk (s : Spec) (ancestor : EntityTypeId) : Nat → EntityTypeId → Option Bool
  | 0, _ => none
  | n + 1, e =>
    if e = ancestor then some true
    else
      match s.baseOf e with
      | none => some false
      | some b => s.walk ancestor n b

def strictCheckProperty (s : Spec) (kind : MemberKind) (owner : EntityTypeId) (name : String)
    (p : PropertyId) : Strict Unit :=
  match s.properties[p.index]? with
  | none => throw (.unknownProperty kind name p)
  | some d => do
    if ← ExceptT.lift (s.walk d.owner s.entities.length owner) then pure ()
    else throw (.unrelatedProperty kind name (← read s.properties p.index).name)

def strictCheckProperties (s : Spec) (kind : MemberKind) (owner : EntityTypeId)
    (ps : List PropertyId) : Strict Unit := do
  let e ← read s.entities owner.index
  if ps.isEmpty then throw (.noProperties kind e.name)
  else ps.forM (s.strictCheckProperty kind owner e.name)

def strictCheckKey (s : Spec) (id : KeyId) (d : KeyDecl) : Strict Unit := do
  settled (s.checkOwner .key id.text d.owner)
  s.strictCheckProperties .key d.owner d.properties
  if d.primary then
    let e ← read s.entities d.owner.index
    if e.mapping.base?.isSome then throw (.derivedPrimaryKey e.name)

def strictCheckForeignKey (s : Spec) (id : ForeignKeyId) (d : ForeignKeyDecl) : Strict Unit := do
  settled (s.checkOwner .foreignKey id.text d.owner)
  s.strictCheckProperties .foreignKey d.owner d.properties
  match s.keys[d.principalKey.index]? with
  | none => throw (.unknownKey id d.principalKey)
  | some k =>
    if k.properties.length ≠ d.properties.length then
      let e ← read s.entities d.owner.index
      throw (.arityMismatch id e.name d.properties.length k.properties.length)

def strictCheckIndex (s : Spec) (d : IndexDecl) : Strict Unit := do
  settled (s.checkOwner .index d.name d.owner)
  s.strictCheckProperties .index d.owner d.properties

def strictCheckMembers (s : Spec) : Strict Unit := do
  s.properties.forM fun d => settled (s.checkPropertyDecl d)
  s.keys.zipIdx.forM fun (d, i) => s.strictCheckKey ⟨i⟩ d
  s.foreignKeys.zipIdx.forM fun (d, i) => s.strictCheckForeignKey ⟨i⟩ d
  s.indexes.forM s.strictCheckIndex

def strictNamed (s : Spec) (name : String) (q : PropertyId) : Strict Bool := do
  return (← read s.properties q.index).name = name

def strictAddProperties (s : Spec) (owner : String) (known : List PropertyId) :
    List Property → Strict (List PropertyId)
  | [] => pure known
  | p :: ps => do
    let d ← read s.properties p.id.index
    if ← known.anyM (s.strictNamed d.name) then throw (.duplicateProperty d.name owner)
    else strictAddProperties s owner (known ++ [p.id]) ps

/-- The reads of one type are those of its property names; the rest goes over whole lists. -/
def strictEntityType (s : Spec) (id : EntityTypeId) (d : EntityDecl) (place : Placement)
    (base : Option EntityType) : Strict EntityType := do
  let _ ← s.strictAddProperties d.name (inherited base (·.properties)) (s.propertiesOn id)
  settled (s.entityType id d place base)

def readBase (done : List EntityType) : Option EntityTypeId → Strict (Option EntityType)
  | none => pure none
  | some b => some <$> read done b.index

def strictEntityTypesFrom (s : Spec) (places : List Placement) (done : List EntityType) :
    List EntityDecl → Strict (List EntityType)
  | [] => pure done
  | d :: ds => do
    let base ← readBase done d.mapping.base?
    let place ← read places done.length
    let e ← s.strictEntityType ⟨done.length⟩ d place base
    strictEntityTypesFrom s places (done ++ [e]) ds

def strictBuild (s : Spec) : Strict Model := do
  let places ← strictPlaceFrom [] [] s.entities
  s.strictCheckMembers
  let entityTypes ← s.strictEntityTypesFrom places [] s.entities
  return {
    entityTypes
    properties := s.modelProperties
    keys := s.modelKeys
    foreignKeys := s.modelForeignKeys
    indexes := s.modelIndexes }

end Spec

theorem strictPlaceFrom_eq (seen : List String) (placed : List Placement)
    (ds : List EntityDecl) :
    strictPlaceFrom seen placed ds = settled (placeFrom seen placed ds) := by
  induction ds generalizing seen placed with
  | nil => rfl
  | cons d ds ih =>
    unfold strictPlaceFrom placeFrom
    split
    · rfl
    · cases d.mapping with
      | root table => exact ih _ _
      | derived base table =>
        by_cases hbase : base.index < placed.length
        · have hget := List.getElem?_eq_getElem hbase
          simp only [if_pos hbase, hget, read_of_some hget]
          exact ih _ _
        · simp only [if_neg hbase, List.getElem?_eq_none (Nat.le_of_not_lt hbase)]
          rfl

namespace Spec

variable {s : Spec}

section Checks

variable (hbase : ∀ e b, s.baseOf e = some b → b.index < e.index)
include hbase

/-- The walk ends within as many steps as there are types up to where it starts. -/
theorem walk_eq {ancestor e : EntityTypeId} {n : Nat} (h : e.index < n) :
    s.walk ancestor n e = some (s.inHierarchy ancestor e) := by
  induction n generalizing e with
  | zero => omega
  | succ n ih =>
    have hhere : s.inHierarchy ancestor e = (ancestor = e ||
        (s.baseOf e).any (s.inHierarchy ancestor)) := by
      rw [Bool.eq_iff_iff, inHierarchy_iff hbase, sameOrBase_iff]
      simp [inHierarchy_iff hbase, Option.any_eq_true]
    rw [walk, hhere]
    by_cases he : e = ancestor
    · simp [he]
    · rw [if_neg he, decide_eq_false (Ne.symm he), Bool.false_or]
      cases hb : s.baseOf e with
      | none => rfl
      | some b =>
        have hlt := hbase e b hb
        exact ih (by omega)

theorem strictCheckProperty_eq {kind : MemberKind} {owner : EntityTypeId} {p : PropertyId}
    (howner : owner.index < s.entities.length) :
    s.strictCheckProperty kind owner (s.entityName owner) p =
      settled (s.checkProperty kind owner p) := by
  unfold strictCheckProperty checkProperty
  cases hp : s.properties[p.index]? with
  | none => rfl
  | some d =>
    simp only [walk_eq hbase howner, read_of_some hp]
    cases s.inHierarchy d.owner owner <;> rfl

theorem strictCheckProperties_eq {kind : MemberKind} {owner : EntityTypeId}
    {ps : List PropertyId} (howner : owner.index < s.entities.length) :
    s.strictCheckProperties kind owner ps = settled (s.checkProperties kind owner ps) := by
  have hget := List.getElem?_eq_getElem howner
  have hname : s.entities[owner.index].name = s.entityName owner := by
    rw [entityName, hget]
    rfl
  unfold strictCheckProperties checkProperties
  rw [read_of_some hget]
  change (if ps.isEmpty = true then throw (.noProperties kind s.entities[owner.index].name)
    else ps.forM (s.strictCheckProperty kind owner s.entities[owner.index].name)) = _
  rw [hname]
  split
  · rfl
  · exact forM_settled fun p _ => strictCheckProperty_eq hbase howner

theorem strictCheckKey_eq (id : KeyId) (d : KeyDecl) :
    s.strictCheckKey id d = settled (s.checkKey id d) := by
  refine bind_settled rfl fun _ h => ?_
  have howner := checkOwner_eq_ok h
  refine bind_settled (strictCheckProperties_eq hbase howner) fun _ _ => ?_
  have hget := List.getElem?_eq_getElem howner
  have hdecl : s.baseOf d.owner = (s.entities[d.owner.index]).mapping.base? := by
    rw [baseOf, hget]
    rfl
  have hname : s.entityName d.owner = (s.entities[d.owner.index]).name := by
    rw [entityName, hget]
    rfl
  rw [read_of_some hget, hdecl, hname]
  cases d.primary with
  | false => rfl
  | true =>
    rw [if_pos rfl, Bool.true_and, apply_ite settled]
    rfl

theorem strictCheckForeignKey_eq (id : ForeignKeyId) (d : ForeignKeyDecl) :
    s.strictCheckForeignKey id d = settled (s.checkForeignKey id d) := by
  refine bind_settled rfl fun _ h => ?_
  have howner := checkOwner_eq_ok h
  refine bind_settled (strictCheckProperties_eq hbase howner) fun _ _ => ?_
  have hget := List.getElem?_eq_getElem howner
  rw [read_of_some hget, entityName, hget]
  cases s.keys[d.principalKey.index]? with
  | none => rfl
  | some k =>
    by_cases hk : k.properties.length = d.properties.length
    · simp only [hk, ne_eq, not_true_eq_false, if_false]
      rfl
    · simp only [hk, ne_eq, not_false_eq_true, if_true]
      rfl

theorem strictCheckIndex_eq (d : IndexDecl) :
    s.strictCheckIndex d = settled (s.checkIndex d) :=
  bind_settled rfl fun _ h => strictCheckProperties_eq hbase (checkOwner_eq_ok h)

theorem strictCheckMembers_eq : s.strictCheckMembers = settled s.checkMembers := by
  refine bind_settled (forM_settled fun _ _ => rfl) fun _ _ => ?_
  refine bind_settled (forM_settled fun (d, i) _ => strictCheckKey_eq hbase ⟨i⟩ d) fun _ _ => ?_
  refine bind_settled (forM_settled fun (d, i) _ => strictCheckForeignKey_eq hbase ⟨i⟩ d)
    fun _ _ => ?_
  exact forM_settled fun d _ => strictCheckIndex_eq hbase d

end Checks

theorem propertyName_eq {p : PropertyId} {d : PropertyDecl}
    (h : s.properties[p.index]? = some d) : s.propertyName p = d.name := by
  rw [propertyName, h]
  rfl

theorem strictAddProperties_eq {owner : String} {known : List PropertyId} {ps : List Property}
    (hknown : ∀ q ∈ known, q.index < s.properties.length)
    (hps : ∀ p ∈ ps, p ∈ s.modelProperties) :
    s.strictAddProperties owner known ps = settled (s.addProperties owner known ps) := by
  induction ps generalizing known with
  | nil => rfl
  | cons p ps ih =>
    obtain ⟨hp, hps⟩ := List.forall_mem_cons.mp hps
    obtain ⟨d, hd, _⟩ := mem_modelProperties.mp hp
    have hname : d.name = p.name := (propertyName_eq hd).symm.trans (propertyName_of_mem hp)
    have hany : known.anyM (s.strictNamed d.name) =
        settled (.ok (known.any fun q => s.propertyName q = p.name)) := by
      refine anyM_settled fun q hq => ?_
      have hget := List.getElem?_eq_getElem (hknown q hq)
      rw [strictNamed, read_of_some hget, propertyName_eq hget, hname]
      rfl
    have hlt := (List.getElem?_eq_some_iff.mp hd).1
    have hrest : s.strictAddProperties owner (known ++ [p.id]) ps =
        settled (s.addProperties owner (known ++ [p.id]) ps) := by
      refine ih (fun q hq => ?_) hps
      rcases List.mem_append.mp hq with hq | hq
      · exact hknown q hq
      · exact List.mem_singleton.mp hq ▸ hlt
    unfold strictAddProperties addProperties
    rw [read_of_some hd]
    change (known.anyM (s.strictNamed d.name) >>= fun b => if b = true then _ else _) = _
    rw [hany, hname, hrest]
    cases known.any fun q => s.propertyName q = p.name <;> rfl

theorem mem_modelProperties_of_on {e : EntityTypeId} {p : Property} (hp : p ∈ s.propertiesOn e) :
    p ∈ s.modelProperties ∧ p.id.index < s.properties.length := by
  have hp := List.mem_of_mem_filter hp
  obtain ⟨_, hd, _⟩ := mem_modelProperties.mp hp
  exact ⟨hp, (List.getElem?_eq_some_iff.mp hd).1⟩

theorem strictEntityType_eq {e : EntityTypeId} {d : EntityDecl} {place : Placement}
    {base : Option EntityType}
    (hknown : ∀ q ∈ inherited base (·.properties), q.index < s.properties.length) :
    s.strictEntityType e d place base = settled (s.entityType e d place base) := by
  unfold strictEntityType
  rw [strictAddProperties_eq hknown fun p hp => (mem_modelProperties_of_on hp).1]
  cases h : s.addProperties d.name (inherited base (·.properties)) (s.propertiesOn e) with
  | ok ids => rfl
  | error fault =>
    simp only [entityType, h]
    rfl

theorem readBase_eq {done : List EntityType} {base : Option EntityTypeId}
    (h : ∀ b, base = some b → b.index < done.length) :
    readBase done base = settled (.ok (base.bind fun b => done[b.index]?)) := by
  cases base with
  | none => rfl
  | some b =>
    have hget := List.getElem?_eq_getElem (h b rfl)
    rw [readBase, read_of_some hget, Option.bind_some, hget]
    rfl

/-- All properties of the type have a declaration. -/
def PropertiesWithin (s : Spec) (t : EntityType) : Prop :=
  ∀ q ∈ t.properties, q.index < s.properties.length

theorem PropertiesWithin.inherited {base : Option EntityType}
    (hbase : ∀ t, base = some t → s.PropertiesWithin t) :
    ∀ q ∈ WritePlan.Spec.inherited base (·.properties), q.index < s.properties.length := by
  cases base with
  | none => exact fun q hq => absurd hq List.not_mem_nil
  | some t => exact hbase t rfl

theorem PropertiesWithin.entityType {e : EntityTypeId} {d : EntityDecl} {place : Placement}
    {base : Option EntityType} {t : EntityType} (ht : s.entityType e d place base = .ok t)
    (hbase : ∀ t, base = some t → s.PropertiesWithin t) : s.PropertiesWithin t := by
  rw [PropertiesWithin, (entityType_made ht).2.1]
  refine forall_mem_inherited hbase fun q hq => ?_
  obtain ⟨p, hp, rfl⟩ := List.mem_map.mp hq
  exact (mem_modelProperties_of_on hp).2

theorem strictEntityTypesFrom_eq (hbase : ∀ e b, s.baseOf e = some b → b.index < e.index)
    {places : List Placement} {done : List EntityType} {ds : List EntityDecl}
    (hplaces : places.length = s.entities.length) (hds : s.entities.drop done.length = ds)
    (hdone : ∀ t ∈ done, s.PropertiesWithin t) :
    s.strictEntityTypesFrom places done ds =
      settled (s.entityTypesFrom done (ds.zip (places.drop done.length))) := by
  induction ds generalizing done with
  | nil => rfl
  | cons d ds ih =>
    have hlen : done.length < s.entities.length := by
      have := congrArg List.length hds
      rw [List.length_drop, List.length_cons] at this
      omega
    have hd : s.entities[done.length]? = some d := by
      rw [← List.head?_drop, hds]
      rfl
    have hlt (b : EntityTypeId) (hb : d.mapping.base? = some b) : b.index < done.length :=
      hbase ⟨done.length⟩ b (by simp [baseOf, hd, hb])
    have hwithin (t : EntityType)
        (ht : (d.mapping.base?.bind fun b => done[b.index]?) = some t) :
        s.PropertiesWithin t := by
      obtain ⟨b, _, ht⟩ := Option.bind_eq_some_iff.mp ht
      exact hdone t (List.mem_of_getElem? ht)
    have hplace := List.getElem?_eq_getElem (hplaces ▸ hlen)
    rw [List.drop_eq_getElem_cons (hplaces ▸ hlen), List.zip_cons_cons]
    unfold strictEntityTypesFrom entityTypesFrom
    rw [readBase_eq hlt, read_of_some hplace]
    refine bind_settled (strictEntityType_eq (PropertiesWithin.inherited hwithin)) fun t ht => ?_
    have hdrop : s.entities.drop (done ++ [t]).length = ds := by
      rw [List.length_append, List.length_singleton, ← List.drop_drop, hds]
      rfl
    have hnext := ih hdrop fun u hu => ?_
    · rw [hnext, List.length_append, List.length_singleton]
    · rcases List.mem_append.mp hu with hu | hu
      · exact hdone u hu
      · exact List.mem_singleton.mp hu ▸ PropertiesWithin.entityType ht hwithin

/-- Every read of the builder finds its element and every walk over bases ends. -/
theorem strictBuild_eq (s : Spec) : s.strictBuild = settled s.build := by
  refine bind_settled (strictPlaceFrom_eq [] [] s.entities) fun places hplaces => ?_
  have hbase := (placements_ok_iff.mp ⟨places, hplaces⟩).2
  have hlen : places.length = s.entities.length := by
    simpa using (placeFrom_eq_ok hplaces).1
  refine bind_settled (strictCheckMembers_eq hbase) fun _ _ => ?_
  refine bind_settled ?_ fun _ _ => rfl
  exact strictEntityTypesFrom_eq hbase hlen rfl fun _ ht => absurd ht List.not_mem_nil

/-- Exactly the well-formed declarations make a model. All others are refused with an error of the
model, and making it never reads past a list or walks on for ever. -/
theorem build_accepts_the_wellFormed (s : Spec) :
    ((∃ m, s.build = .ok m) ↔ s.WellFormed) ∧
      (∀ e, s.build = .error e → e.report.origin = .model ∧
        (e.report.category = .notFound ∨ e.report.category = .invariantViolation)) ∧
      s.strictBuild.run = some s.build := by
  refine ⟨build_ok_iff, fun e _ => ⟨rfl, ?_⟩, congrArg ExceptT.run (strictBuild_eq s)⟩
  cases h : e.isMissing with
  | true => exact .inl (by simp [ModelError.report, Report.plain, h])
  | false => exact .inr (by simp [ModelError.report, Report.plain, h])

end Spec

end WritePlan

import Mathlib.Data.List.Forall2
import WritePlan.Stream

namespace WritePlan

/-- The writes are of the same entries in the same table; their columns may be settled or not. -/
def RowWrite.SameRow (v w : RowWrite) : Prop :=
  v.table = w.table ∧ v.entries = w.entries

abbrev SameRows (vs ws : List RowWrite) : Prop :=
  List.Forall₂ RowWrite.SameRow vs ws

/-- The writes of some batches, in order. -/
def writesOf (bs : List Batch) : List RowWrite :=
  bs.flatMap (·.writes)

/-- The writes of a batch that may be open. -/
def heldBy (opened : Option Batch) : List RowWrite :=
  (opened.map (·.writes)).getD []

namespace RowWrite

theorem SameRow.refl (w : RowWrite) : w.SameRow w :=
  ⟨rfl, rfl⟩

theorem SameRow.trans {u v w : RowWrite} (huv : u.SameRow v) (hvw : v.SameRow w) : u.SameRow w :=
  ⟨huv.1.trans hvw.1, huv.2.trans hvw.2⟩

theorem settle_sameRow (m : Model) (t : Snapshot) (w : RowWrite) : (w.settle m t).SameRow w :=
  ⟨rfl, rfl⟩

theorem examine_eq_error {m : Model} {t : Snapshot} {w : RowWrite} {e : PlanError} :
    w.examine m t = .error e ↔ w.checkTemporary m t = .error e := by
  unfold examine
  cases w.checkTemporary m t with
  | error e' =>
    constructor
    · intro h
      exact congrArg Except.error (Except.error.inj h)
    · intro h
      exact congrArg Except.error (Except.error.inj h)
  | ok u =>
    constructor
    · intro h
      cases h
    · intro h
      cases h

theorem sameRow_of_examine {m : Model} {t : Snapshot} {w w' : RowWrite}
    (h : w.examine m t = .ok w') : w'.SameRow w := by
  unfold examine at h
  cases hc : w.checkTemporary m t with
  | error e => simp [hc, bind, Except.bind] at h
  | ok u =>
    rw [hc] at h
    obtain rfl := Except.ok.inj h
    split
    · exact settle_sameRow m t w
    · exact .refl w

end RowWrite

theorem SameRows.refl (ws : List RowWrite) : SameRows ws ws :=
  List.forall₂_same.mpr fun w _ => .refl w

theorem SameRows.append {us us' vs vs' : List RowWrite} (h : SameRows us vs)
    (h' : SameRows us' vs') : SameRows (us ++ us') (vs ++ vs') :=
  List.rel_append h h'

theorem SameRows.trans {us vs ws : List RowWrite} (h : SameRows us vs) (h' : SameRows vs ws) :
    SameRows us ws := by
  induction h generalizing ws with
  | nil => exact h'
  | cons huv _ ih =>
    cases h' with
    | cons hvw h' => exact .cons (huv.trans hvw) (ih h')

theorem SameRows.singleton {v w : RowWrite} (h : v.SameRow w) : SameRows [v] [w] :=
  .cons h .nil

theorem SameRows.exists_of_mem {vs ws : List RowWrite} (h : SameRows vs ws) {v : RowWrite}
    (hv : v ∈ vs) : ∃ w ∈ ws, v.SameRow w := by
  induction h with
  | nil => cases hv
  | cons huw _ ih =>
    rcases List.mem_cons.mp hv with rfl | hv
    · exact ⟨_, List.mem_cons_self, huw⟩
    · obtain ⟨w, hw, hvw⟩ := ih hv
      exact ⟨w, List.mem_cons_of_mem _ hw, hvw⟩

theorem SameRows.ne_nil {vs ws : List RowWrite} (h : SameRows vs ws) (hw : ws ≠ []) : vs ≠ [] := by
  cases h with
  | nil => exact hw
  | cons => exact List.cons_ne_nil _ _

namespace Packer

variable {p : Planner} {t : Snapshot} {k k' : Packer} {b b' : Batch} {w : RowWrite}

/-- Offering a write finishes no batch, and a batch that takes it has it last. -/
theorem offer_spec (p : Planner) (t : Snapshot) (k : Packer) (b : Batch) (w : RowWrite) :
    (k.offer p t b w).1.ready = k.ready ∧
      ∀ b', (k.offer p t b w).2 = some b' → SameRows b'.writes (b.writes ++ [w]) := by
  have htaken {w' : RowWrite} (hw : w'.SameRow w) (b' : Batch)
      (hb : some ({ b with writes := b.writes ++ [w'] } : Batch) = some b') :
      SameRows b'.writes (b.writes ++ [w]) := by
    obtain rfl := Option.some.inj hb
    exact (SameRows.refl _).append (.singleton hw)
  unfold offer
  cases p.rule.namesColumns with
  | true =>
    simp only [↓reduceIte]
    split
    · exact ⟨rfl, htaken (w.settle_sameRow p.model t)⟩
    · exact ⟨rfl, fun _ h => by cases h⟩
  | false =>
    simp only [Bool.false_eq_true, ↓reduceIte]
    split
    · exact ⟨rfl, htaken (.refl w)⟩
    · exact ⟨rfl, fun _ h => by cases h⟩

theorem offerFirst_eq_ok (h : k.offerFirst p t w = (k', .ok b)) :
    k'.ready = k.ready ∧ SameRows b.writes [w] := by
  obtain ⟨hready, htaken⟩ := offer_spec p t k.openBatch.1 k.openBatch.2 w
  simp only [offerFirst] at h
  split at h
  · rename_i k₁ b₁ ho
    obtain ⟨rfl, hb⟩ := Prod.mk.inj h
    obtain rfl := Except.ok.inj hb
    rw [ho] at hready htaken
    exact ⟨hready, htaken b₁ rfl⟩
  · cases (Prod.mk.inj h).2

theorem queueSingly_eq_ok {ws : List RowWrite} (h : k.queueSingly p t ws = (k', .ok ())) :
    ∃ bs, k'.ready = k.ready ++ bs ∧ SameRows (writesOf bs) ws ∧ ∀ b ∈ bs, b.writes ≠ [] := by
  induction ws generalizing k with
  | nil =>
    obtain ⟨rfl, _⟩ := Prod.mk.inj h
    exact ⟨[], by simp, .nil, fun _ hb => absurd hb List.not_mem_nil⟩
  | cons w ws ih =>
    simp only [queueSingly] at h
    split at h
    · cases (Prod.mk.inj h).2
    · rename_i k₁ b hb
      obtain ⟨hready, hrow⟩ := offerFirst_eq_ok hb
      obtain ⟨bs, hbs, hrows, hfilled⟩ := ih h
      refine ⟨b :: bs, ?_, hrow.append hrows, ?_⟩
      · rw [hbs, queue, hready]
        simp
      · exact List.forall_mem_cons.mpr ⟨hrow.ne_nil (List.cons_ne_nil _ _), hfilled⟩

/-- A batch is finished as a whole or taken apart, and either way nothing is lost of it. -/
theorem finish_eq_ok (h : k.finish p t b = (k', .ok ())) :
    ∃ bs, k'.ready = k.ready ++ bs ∧ SameRows (writesOf bs) b.writes ∧
      (b.writes ≠ [] → ∀ b' ∈ bs, b'.writes ≠ []) := by
  unfold finish at h
  split at h
  · obtain ⟨rfl, _⟩ := Prod.mk.inj h
    refine ⟨[b], rfl, ?_, fun hb => List.forall_mem_singleton.mpr hb⟩
    rw [writesOf, List.flatMap_singleton]
    exact .refl _
  · obtain ⟨bs, hbs, hrows, hfilled⟩ := queueSingly_eq_ok h
    exact ⟨bs, hbs, hrows, fun _ => hfilled⟩

/-- The write comes last in the batch that is open afterwards, behind what was held before. No
batch is finished empty. -/
theorem pack_eq_ok {opened : Option Batch} (h : k.pack p t opened w = (k', .ok b)) :
    ∃ bs, k'.ready = k.ready ++ bs ∧
      SameRows (writesOf bs ++ b.writes) (heldBy opened ++ [w]) ∧
      b.writes ≠ [] ∧ ∀ b' ∈ bs, b'.writes ≠ [] := by
  have hnone : ∀ b' ∈ ([] : List Batch), b'.writes ≠ [] := fun _ hb => absurd hb List.not_mem_nil
  unfold pack at h
  cases opened with
  | none =>
    obtain ⟨hready, hrow⟩ := offerFirst_eq_ok h
    exact ⟨[], by simpa using hready, hrow, hrow.ne_nil (List.cons_ne_nil _ _), hnone⟩
  | some o =>
    obtain ⟨hready, htaken⟩ := offer_spec p t k o w
    simp only at h
    split at h
    · rename_i k₁ b₁ ho
      obtain ⟨rfl, hb⟩ := Prod.mk.inj h
      obtain rfl := Except.ok.inj hb
      rw [ho] at hready htaken
      have hrows := htaken b₁ rfl
      exact ⟨[], by simpa using hready, hrows, hrows.ne_nil (by simp), hnone⟩
    · rename_i k₁ ho
      rw [ho] at hready
      split at h
      · cases (Prod.mk.inj h).2
      · rename_i ho
        split at h
        · cases (Prod.mk.inj h).2
        · rename_i k₂ hfinish
          obtain ⟨bs, hbs, hrows, hfilled⟩ := finish_eq_ok hfinish
          obtain ⟨hready', hrow⟩ := offerFirst_eq_ok h
          refine ⟨bs, ?_, hrows.append hrow, hrow.ne_nil (List.cons_ne_nil _ _), hfilled ?_⟩
          · rw [hready', hbs, hready]
          · simpa [List.isEmpty_iff] using ho

section Error

variable {e : PlanError}

theorem offerFirst_eq_error (h : k.offerFirst p t w = (k', .error e)) :
    e = .defect .firstWriteRejected := by
  simp only [offerFirst] at h
  split at h
  · cases (Prod.mk.inj h).2
  · exact (Except.error.inj (Prod.mk.inj h).2).symm

theorem queueSingly_eq_error {ws : List RowWrite} (h : k.queueSingly p t ws = (k', .error e)) :
    e = .defect .firstWriteRejected := by
  induction ws generalizing k with
  | nil => cases (Prod.mk.inj h).2
  | cons w ws ih =>
    simp only [queueSingly] at h
    split at h
    · rename_i hfirst
      obtain ⟨_, he⟩ := Prod.mk.inj h
      obtain rfl := Except.error.inj he
      exact offerFirst_eq_error hfirst
    · exact ih h

theorem finish_eq_error (h : k.finish p t b = (k', .error e)) :
    e = .defect .firstWriteRejected := by
  unfold finish at h
  split at h
  · cases (Prod.mk.inj h).2
  · exact queueSingly_eq_error h

theorem pack_eq_error {opened : Option Batch} (h : k.pack p t opened w = (k', .error e)) :
    e = .defect .firstWriteRejected := by
  unfold pack at h
  cases opened with
  | none => exact offerFirst_eq_error h
  | some o =>
    simp only at h
    split at h
    · cases (Prod.mk.inj h).2
    · split at h
      · exact (Except.error.inj (Prod.mk.inj h).2).symm
      · split at h
        · rename_i hfinish
          obtain ⟨_, he⟩ := Prod.mk.inj h
          obtain rfl := Except.error.inj he
          exact finish_eq_error hfinish
        · exact offerFirst_eq_error h

end Error

section Congruence

variable {p' : Planner} (hconfig : p'.config = p.config)
variable (hoffer : ∀ (k : Packer) b w, k.offer p' t b w = k.offer p t b w)

include hoffer in
theorem offerFirst_congr (k : Packer) (w : RowWrite) :
    k.offerFirst p' t w = k.offerFirst p t w := by
  simp only [offerFirst, hoffer]

include hoffer in
theorem queueSingly_congr (k : Packer) (ws : List RowWrite) :
    k.queueSingly p' t ws = k.queueSingly p t ws := by
  induction ws generalizing k with
  | nil => rfl
  | cons w ws ih => simp only [queueSingly, offerFirst_congr hoffer, ih]

include hconfig hoffer

theorem finish_congr (k : Packer) (b : Batch) : k.finish p' t b = k.finish p t b := by
  simp only [finish, hconfig, queueSingly_congr hoffer]

theorem pack_congr (k : Packer) (opened : Option Batch) (w : RowWrite) :
    k.pack p' t opened w = k.pack p t opened w := by
  cases opened with
  | none => exact offerFirst_congr hoffer k w
  | some b =>
    simp only [pack, hoffer, finish_congr hconfig hoffer, offerFirst_congr hoffer]

end Congruence

section Forall

variable {P : RowWrite → Prop} (hP : ∀ w, P w → P (w.settle p.model t))
include hP

theorem offer_forall (k : Packer) (hb : ∀ v ∈ b.writes, P v) (hw : P w) :
    ∀ b', (k.offer p t b w).2 = some b' → ∀ v ∈ b'.writes, P v := by
  have htaken {w' : RowWrite} (hw' : P w') (b' : Batch)
      (h : some ({ b with writes := b.writes ++ [w'] } : Batch) = some b') :
      ∀ v ∈ b'.writes, P v := by
    obtain rfl := Option.some.inj h
    exact List.forall_mem_append.mpr ⟨hb, List.forall_mem_singleton.mpr hw'⟩
  unfold offer
  cases p.rule.namesColumns with
  | true =>
    simp only [↓reduceIte]
    split
    · exact htaken (hP w hw)
    · exact fun _ h => by cases h
  | false =>
    simp only [Bool.false_eq_true, ↓reduceIte]
    split
    · exact htaken hw
    · exact fun _ h => by cases h

theorem offerFirst_forall (hw : P w) (h : k.offerFirst p t w = (k', .ok b)) :
    ∀ v ∈ b.writes, P v := by
  have hall := offer_forall hP k.openBatch.1 (b := k.openBatch.2)
    (fun _ hv => absurd hv List.not_mem_nil) hw
  simp only [offerFirst] at h
  split at h
  · rename_i ho
    obtain ⟨_, hb⟩ := Prod.mk.inj h
    obtain rfl := Except.ok.inj hb
    rw [ho] at hall
    exact hall _ rfl
  · cases (Prod.mk.inj h).2

theorem queueSingly_forall {ws : List RowWrite} (hws : ∀ w ∈ ws, P w)
    (hk : ∀ v ∈ writesOf k.ready, P v) (h : k.queueSingly p t ws = (k', .ok ())) :
    ∀ v ∈ writesOf k'.ready, P v := by
  induction ws generalizing k with
  | nil =>
    obtain ⟨rfl, _⟩ := Prod.mk.inj h
    exact hk
  | cons w ws ih =>
    obtain ⟨hw, hws⟩ := List.forall_mem_cons.mp hws
    simp only [queueSingly] at h
    split at h
    · cases (Prod.mk.inj h).2
    · rename_i k₁ b hb
      refine ih hws ?_ h
      rw [queue, (offerFirst_eq_ok hb).1, writesOf, List.flatMap_append, List.forall_mem_append,
        List.flatMap_singleton]
      exact ⟨hk, offerFirst_forall hP hw hb⟩

theorem finish_forall (hb : ∀ v ∈ b.writes, P v) (hk : ∀ v ∈ writesOf k.ready, P v)
    (h : k.finish p t b = (k', .ok ())) : ∀ v ∈ writesOf k'.ready, P v := by
  unfold finish at h
  split at h
  · obtain ⟨rfl, _⟩ := Prod.mk.inj h
    rw [queue, writesOf, List.flatMap_append, List.forall_mem_append, List.flatMap_singleton]
    exact ⟨hk, hb⟩
  · refine queueSingly_forall hP hb ?_ h
    exact hk

theorem pack_forall {opened : Option Batch} (ho : ∀ v ∈ heldBy opened, P v) (hw : P w)
    (hk : ∀ v ∈ writesOf k.ready, P v) (h : k.pack p t opened w = (k', .ok b)) :
    (∀ v ∈ writesOf k'.ready, P v) ∧ ∀ v ∈ b.writes, P v := by
  unfold pack at h
  cases opened with
  | none => exact ⟨(offerFirst_eq_ok h).1 ▸ hk, offerFirst_forall hP hw h⟩
  | some o =>
    have hready := (offer_spec p t k o w).1
    have htaken := offer_forall hP k (b := o) ho hw
    simp only at h
    split at h
    · rename_i k₁ b₁ hoffer
      obtain ⟨rfl, hb⟩ := Prod.mk.inj h
      obtain rfl := Except.ok.inj hb
      rw [hoffer] at hready htaken
      exact ⟨hready ▸ hk, htaken b₁ rfl⟩
    · rename_i k₁ hoffer
      rw [hoffer] at hready
      split at h
      · cases (Prod.mk.inj h).2
      · split at h
        · cases (Prod.mk.inj h).2
        · rename_i k₂ hfinish
          have hk₂ := finish_forall hP ho (hready ▸ hk) hfinish
          exact ⟨(offerFirst_eq_ok h).1 ▸ hk₂, offerFirst_forall hP hw h⟩

end Forall

end Packer

end WritePlan

import WritePlan.Batch

namespace WritePlan

variable {α : Type} {cmp : α → α → Ordering}

/-- The list `bs` has the elements of `as` in ascending order. Of elements that compare equal none
has passed another. -/
structure StablySorted (cmp : α → α → Ordering) (as bs : List α) : Prop where
  perm : bs.Perm as
  ascending : bs.Pairwise fun a b => (cmp a b).isLE = true
  stable : ∀ a, bs.filter (cmp a · = .eq) = as.filter (cmp a · = .eq)

theorem mem_insertBy {a b : α} {bs : List α} : b ∈ insertBy cmp a bs ↔ b = a ∨ b ∈ bs := by
  rw [(insertBy_perm cmp a bs).mem_iff, List.mem_cons]

/-- Sorting goes by nothing but how the elements compare with one another. -/
theorem sortBy_congr {cmp' : α → α → Ordering} {as : List α}
    (h : ∀ a ∈ as, ∀ b ∈ as, cmp a b = cmp' a b) : sortBy cmp as = sortBy cmp' as := by
  have hinsert {a : α} {bs : List α} (h : ∀ b ∈ bs, cmp a b = cmp' a b) :
      insertBy cmp a bs = insertBy cmp' a bs := by
    induction bs with
    | nil => rfl
    | cons b bs ih =>
      obtain ⟨hb, hbs⟩ := List.forall_mem_cons.mp h
      simp only [insertBy, hb, ih hbs]
  induction as with
  | nil => rfl
  | cons a as ih =>
    have has (b : α) (hb : b ∈ as) (c : α) (hc : c ∈ as) : cmp b c = cmp' b c :=
      h b (List.mem_cons_of_mem a hb) c (List.mem_cons_of_mem a hc)
    rw [sortBy, sortBy, ih has]
    refine hinsert fun b hb => h a List.mem_cons_self b ?_
    exact List.mem_cons_of_mem a (mem_sortBy.mp hb)

theorem insertBy_map {β : Type} (cmp : β → β → Ordering) (f : α → β) (a : α) (l : List α) :
    insertBy cmp (f a) (l.map f) = (insertBy (fun a b => cmp (f a) (f b)) a l).map f := by
  induction l with
  | nil => rfl
  | cons b l ih =>
    rw [List.map_cons, insertBy, insertBy, ih]
    split <;> rfl

/-- Sorting by what is read off the elements is sorting what is read off. -/
theorem sortBy_map {β : Type} (cmp : β → β → Ordering) (f : α → β) (l : List α) :
    sortBy cmp (l.map f) = (sortBy (fun a b => cmp (f a) (f b)) l).map f := by
  induction l with
  | nil => rfl
  | cons a l ih => rw [List.map_cons, sortBy, sortBy, ih, insertBy_map]

/-- What is not at most an element is above it. -/
theorem isLE_of_not_isLE [Std.OrientedCmp cmp] {a b : α} (h : ¬ (cmp a b).isLE = true) :
    (cmp b a).isLE = true := by
  rw [@Std.OrientedCmp.eq_swap _ cmp, Ordering.isLE_swap]
  cases hab : cmp a b with
  | gt => rfl
  | lt => simp [hab] at h
  | eq => simp [hab] at h

variable [Std.TransCmp cmp]

theorem insertBy_ascending {a : α} {bs : List α}
    (h : bs.Pairwise fun a b => (cmp a b).isLE = true) :
    (insertBy cmp a bs).Pairwise fun a b => (cmp a b).isLE = true := by
  induction bs with
  | nil => exact List.pairwise_singleton _ _
  | cons b bs ih =>
    obtain ⟨hb, hbs⟩ := List.pairwise_cons.mp h
    unfold insertBy
    split
    · rename_i hab
      refine List.pairwise_cons.mpr ⟨fun c hc => ?_, h⟩
      rcases List.mem_cons.mp hc with rfl | hc
      · exact hab
      · exact Std.TransCmp.isLE_trans hab (hb c hc)
    · rename_i hab
      refine List.pairwise_cons.mpr ⟨fun c hc => ?_, ih hbs⟩
      rcases mem_insertBy.mp hc with rfl | hc
      · exact isLE_of_not_isLE hab
      · exact hb c hc

/-- An element passes only what is below it, and so none that is equal to what it is equal to. -/
theorem filter_insertBy (c a : α) (bs : List α) :
    (insertBy cmp a bs).filter (cmp c · = .eq) = (a :: bs).filter (cmp c · = .eq) := by
  induction bs with
  | nil => rfl
  | cons b bs ih =>
    unfold insertBy
    split
    · rfl
    · rename_i hab
      have hne : ¬ (cmp c a = .eq ∧ cmp c b = .eq) := by
        intro h
        have hba : cmp a b = .eq := by
          rw [← @Std.TransCmp.congr_left _ cmp _ _ _ _ h.1, h.2]
        simp [hba] at hab
      rw [List.filter_cons, ih]
      by_cases ha : cmp c a = .eq <;> by_cases hb : cmp c b = .eq <;>
        simp_all

theorem stablySorted_sortBy (as : List α) : StablySorted cmp as (sortBy cmp as) := by
  induction as with
  | nil => exact ⟨.nil, .nil, fun _ => rfl⟩
  | cons a as ih =>
    refine ⟨sortBy_perm cmp (a :: as), insertBy_ascending ih.ascending, fun c => ?_⟩
    rw [sortBy, filter_insertBy, List.filter_cons, List.filter_cons, ih.stable]

/-- Where nothing ties but equals, the order of the elements before the sort is lost. -/
theorem sortBy_eq_of_perm [Std.LawfulEqCmp cmp] {as bs : List α} (h : as.Perm bs) :
    sortBy cmp as = sortBy cmp bs := by
  have hperm : (sortBy cmp as).Perm (sortBy cmp bs) :=
    (sortBy_perm cmp as).trans (h.trans (sortBy_perm cmp bs).symm)
  refine hperm.eq_of_pairwise (fun a b _ _ hab hba => ?_) (stablySorted_sortBy as).ascending
    (stablySorted_sortBy bs).ascending
  exact Std.LawfulEqCmp.eq_of_compare (Std.OrientedCmp.isLE_antisymm hab hba)

namespace Value

theorem order_of_rank_ne {v w : Value} (h : v.rank ≠ w.rank) :
    v.order w = compare v.rank w.rank := by
  cases v <;> cases w <;> first | rfl | exact absurd rfl h

theorem rank_le_of_isLE {v w : Value} (h : (v.order w).isLE = true) : v.rank ≤ w.rank := by
  by_cases he : v.rank = w.rank
  · exact Nat.le_of_eq he
  · rw [order_of_rank_ne he] at h
    exact Nat.isLE_compare.mp h

instance : Std.TransOrd Ulid :=
  inferInstanceAs (Std.TransCmp (compareOn Ulid.bits))

instance : Std.OrientedOrd Value where
  eq_swap := by
    intro v w
    change v.order w = (w.order v).swap
    by_cases he : v.rank = w.rank
    · cases v <;> cases w <;> simp [rank] at he <;>
        exact Std.OrientedOrd.eq_swap
    · rw [order_of_rank_ne he, order_of_rank_ne (Ne.symm he)]
      exact Std.OrientedOrd.eq_swap

instance : Std.TransOrd Value where
  isLE_trans := by
    intro u v w huv hvw
    change (u.order v).isLE = true at huv
    change (v.order w).isLE = true at hvw
    change (u.order w).isLE = true
    by_cases he : u.rank = w.rank
    · have hr : u.rank = v.rank :=
        Nat.le_antisymm (rank_le_of_isLE huv) (he ▸ rank_le_of_isLE hvw)
      cases u <;> cases v <;> simp [rank] at hr <;> cases w <;> simp [rank] at he <;>
        exact Std.TransOrd.isLE_trans huv hvw
    · rw [order_of_rank_ne he, Nat.isLE_compare]
      exact Nat.le_trans (rank_le_of_isLE huv) (rank_le_of_isLE hvw)

end Value

namespace Comparer

instance (m : Model) (t : Snapshot) : Std.TransCmp (standard m t) :=
  inferInstanceAs (Std.TransCmp
    (compareLex (compareOn fun w : RowWrite => w.table.schema)
      (compareLex (compareOn fun w => w.table.name)
        (compareLex (compareOn fun w => rank (w.state t)) (compareOn fun w => w.keyValues m t)))))

end Comparer

end WritePlan

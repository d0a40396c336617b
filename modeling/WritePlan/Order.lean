namespace WritePlan

/-- Puts `a` in front of the first element that it does not come after. -/
def insertBy (cmp : α → α → Ordering) (a : α) : List α → List α
  | [] => [a]
  | b :: bs => if (cmp a b).isLE then a :: b :: bs else b :: insertBy cmp a bs

/-- The elements in ascending order; of two equal ones the earlier stays in front. -/
def sortBy (cmp : α → α → Ordering) : List α → List α
  | [] => []
  | a :: as => insertBy cmp a (sortBy cmp as)

theorem insertBy_perm (cmp : α → α → Ordering) (a : α) (bs : List α) :
    (insertBy cmp a bs).Perm (a :: bs) := by
  induction bs with
  | nil => exact .refl _
  | cons b bs ih =>
    unfold insertBy
    split
    · exact .refl _
    · exact (ih.cons b).trans (.swap a b bs)

theorem sortBy_perm (cmp : α → α → Ordering) (as : List α) : (sortBy cmp as).Perm as := by
  induction as with
  | nil => exact .refl _
  | cons a as ih => exact (insertBy_perm cmp a _).trans (ih.cons a)

theorem length_sortBy (cmp : α → α → Ordering) (as : List α) :
    (sortBy cmp as).length = as.length :=
  (sortBy_perm cmp as).length_eq

theorem mem_sortBy {cmp : α → α → Ordering} {a : α} {as : List α} :
    a ∈ sortBy cmp as ↔ a ∈ as :=
  (sortBy_perm cmp as).mem_iff

end WritePlan

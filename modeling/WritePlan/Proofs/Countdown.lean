import WritePlan.Graph.Ready

namespace WritePlan

/-- Each of the places in turn still waits when its count is lowered. -/
def Lowerable (counts : List Nat) : List Nat → Prop
  | [] => True
  | i :: is => 0 < counts.getD i 0 ∧ Lowerable (counts.modify i (· - 1)) is

theorem getD_lowered (counts : List Nat) (i j : Nat) :
    (counts.modify i (· - 1)).getD j 0 = counts.getD j 0 - if i = j then 1 else 0 := by
  simp only [List.getD_eq_getElem?_getD, List.getElem?_modify]
  by_cases h : i = j
  · cases hj : counts[j]? <;> simp [h]
  · simp [h]

theorem getD_release (counts is : List Nat) (j : Nat) :
    (release counts is).1.getD j 0 = counts.getD j 0 - is.count j := by
  induction is generalizing counts with
  | nil => simp [release]
  | cons i is ih =>
    simp only [release, ih, getD_lowered, List.count_cons, beq_iff_eq]
    omega

theorem release_append (counts is js : List Nat) :
    release counts (is ++ js) =
      ((release (release counts is).1 js).1,
        (release counts is).2 ++ (release (release counts is).1 js).2) := by
  induction is generalizing counts with
  | nil => rfl
  | cons i is ih =>
    simp only [List.cons_append, release, ih]
    split <;> rfl

theorem getElem?_eq_one {counts : List Nat} {i : Nat} :
    counts[i]? = some 1 ↔ counts.getD i 0 = 1 := by
  rw [List.getD_eq_getElem?_getD]
  cases counts[i]? <;> simp

/-- What is released is what has as much taken from it as it waits for. -/
theorem mem_release {counts is : List Nat} {j : Nat} :
    j ∈ (release counts is).2 ↔ 0 < counts.getD j 0 ∧ counts.getD j 0 ≤ is.count j := by
  induction is generalizing counts with
  | nil => simp [release]; omega
  | cons i is ih =>
    have hrest := @ih (counts.modify i (· - 1))
    rw [getD_lowered] at hrest
    simp only [release, getElem?_eq_one, List.count_cons, beq_iff_eq]
    by_cases h : i = j
    · subst h
      split <;> simp only [List.mem_cons, true_or, true_iff, hrest, ↓reduceIte] <;> omega
    · split <;> simp only [List.mem_cons, Ne.symm h, false_or, hrest, h, ↓reduceIte] <;> omega

/-- A place that was released waits for nothing any more and is not released again. -/
theorem nodup_release (counts is : List Nat) : (release counts is).2.Nodup := by
  induction is generalizing counts with
  | nil => exact List.nodup_nil
  | cons i is ih =>
    simp only [release]
    split
    · rename_i h
      rw [getElem?_eq_one] at h
      refine List.nodup_cons.mpr ⟨?_, ih _⟩
      intro hm
      have := (mem_release.mp hm).1
      rw [getD_lowered] at this
      simp only [h, ↓reduceIte] at this
      omega
    · exact ih _

/-- Counts can be lowered at places that do not occur more often than they count. -/
theorem lowerable_iff {counts is : List Nat} :
    Lowerable counts is ↔ ∀ j, is.count j ≤ counts.getD j 0 := by
  induction is generalizing counts with
  | nil => simp [Lowerable]
  | cons i is ih =>
    simp only [Lowerable, ih, getD_lowered, List.count_cons, beq_iff_eq]
    constructor
    · rintro ⟨hi, h⟩ j
      have := h j
      split at this <;> rename_i hij
      · subst hij
        simp only [↓reduceIte]
        omega
      · simp only [hij, ↓reduceIte]
        omega
    · intro h
      refine ⟨?_, fun j => ?_⟩
      · have := h i
        simp only [↓reduceIte] at this
        omega
      · have := h j
        omega

theorem lowerable_append {counts is js : List Nat} :
    Lowerable counts (is ++ js) ↔ Lowerable counts is ∧ Lowerable (release counts is).1 js := by
  induction is generalizing counts with
  | nil => simp [Lowerable, release]
  | cons i is ih => simp only [List.cons_append, Lowerable, release, ih, and_assoc]

end WritePlan

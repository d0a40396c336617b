namespace WritePlan

/-- How many vertices still wait. -/
def waiting (counts : List Nat) : Nat :=
  counts.countP (· ≠ 0)

/-- Lowers the count at each of the places in turn. The second result lists the places whose
count came down to zero, in the order in which that happened. -/
def release (counts : List Nat) : List Nat → List Nat × List Nat
  | [] => (counts, [])
  | i :: is =>
    let rest := release (counts.modify i (· - 1)) is
    (rest.1, if counts[i]? = some 1 then i :: rest.2 else rest.2)

theorem waiting_modify (counts : List Nat) (i : Nat) :
    waiting (counts.modify i (· - 1)) + (if counts[i]? = some 1 then 1 else 0) =
      waiting counts := by
  unfold waiting
  induction counts generalizing i with
  | nil => simp
  | cons c counts ih =>
    cases i with
    | zero =>
      simp only [List.modify_zero_cons, List.countP_cons, List.getElem?_cons_zero,
        Option.some.injEq]
      by_cases h : c = 1
      · simp [h]
      · by_cases h0 : c = 0
        · simp [h0]
        · simp [h, h0, show c - 1 ≠ 0 by omega]
    | succ i =>
      simp only [List.modify_succ_cons, List.countP_cons, List.getElem?_cons_succ]
      have := ih i
      omega

/-- What is released no longer waits, and nothing else changes. -/
theorem waiting_release (counts is : List Nat) :
    waiting (release counts is).1 + (release counts is).2.length = waiting counts := by
  induction is generalizing counts with
  | nil => rfl
  | cons i is ih =>
    have := ih (counts.modify i (· - 1))
    have := waiting_modify counts i
    unfold release
    split at this <;> rename_i h <;> simp only [h, ↓reduceIte, List.length_cons] <;> omega

end WritePlan

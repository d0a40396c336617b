import WritePlan.Graph.Levels
import WritePlan.Proofs.Acyclic
import WritePlan.Proofs.Countdown
import WritePlan.Proofs.Multigraph

namespace WritePlan

variable {V E : Type}

/-- Everything that must come before an element of the list stands in front of it. -/
def Ordered (before : Nat → Nat → Prop) (l : List Nat) : Prop :=
  ∀ k j, l[k]? = some j → ∀ p, before p j → p ∈ l.take k

theorem Ordered.append {before : Nat → Nat → Prop} {l new : List Nat} (h : Ordered before l)
    (hnew : ∀ j ∈ new, ∀ p, before p j → p ∈ l) : Ordered before (l ++ new) := by
  intro k j hj p hp
  by_cases hk : k < l.length
  · rw [List.getElem?_append_left hk] at hj
    rw [List.take_append_of_le_length (Nat.le_of_lt hk)]
    exact h k j hj p hp
  · rw [List.getElem?_append_right (Nat.le_of_not_lt hk)] at hj
    rw [List.take_append, List.take_of_length_le (Nat.le_of_not_lt hk)]
    exact List.mem_append_left _ (hnew j (List.mem_of_getElem? hj) p hp)

theorem Ordered.mono {before before' : Nat → Nat → Prop} {l : List Nat} (h : Ordered before l)
    (hb : ∀ p j, before' p j → before p j) : Ordered before' l :=
  fun k j hj p hp => h k j hj p (hb p j hp)

theorem Ordered.idxOf_lt {before : Nat → Nat → Prop} {l : List Nat} (h : Ordered before l)
    {p j : Nat} (hj : j ∈ l) (hp : before p j) : l.idxOf p < l.idxOf j := by
  have hm : p ∈ l.take (l.idxOf j) := h _ j (List.getElem?_idxOf hj) p hp
  exact (List.mem_take_iff_idxOf_lt (List.mem_of_mem_take hm)).mp hm

/-- One element that is no longer counted makes the count smaller by one. -/
theorem countP_without {l : List Nat} (hl : l.Nodup) {p q : Nat → Bool} {a : Nat}
    (h : ∀ b, q b = (p b && b != a)) :
    l.countP p = l.countP q + if a ∈ l ∧ p a = true then 1 else 0 := by
  induction l with
  | nil => simp
  | cons b l ih =>
    obtain ⟨hb, hl⟩ := List.nodup_cons.mp hl
    simp only [List.countP_cons, ih hl, h b, List.mem_cons]
    by_cases hab : a = b
    · subst hab
      cases hp : p a <;> simp [hb]
    · have hba : (b != a) = true := by simpa using Ne.symm hab
      cases hp : p b
      · simp [hab]
      · simp [hab, hba]
        omega

namespace Multigraph

/-- How many edges to `j` hold it up: from places not followed yet, and not broken. -/
def unmet (g : Multigraph V E) (followed : List Nat) (broken : List (Nat × Nat)) (j : Nat) : Nat :=
  (g.predecessors j).countP fun p => !followed.contains p && !broken.contains (p, j)

/-- The targets of the edges from `i` that are not broken. -/
def openTargets (g : Multigraph V E) (broken : List (Nat × Nat)) (i : Nat) : List Nat :=
  (g.successors i).filter fun j => !broken.contains (i, j)

/-- The edge from `p` to `j` is there and is not broken. -/
def Unbroken (g : Multigraph V E) (broken : List (Nat × Nat)) (p j : Nat) : Prop :=
  p ∈ g.predecessors j ∧ (p, j) ∉ broken

variable {g : Multigraph V E}

theorem unmet_eq_zero {followed : List Nat} {broken : List (Nat × Nat)} {j : Nat} :
    g.unmet followed broken j = 0 ↔ ∀ p, g.Unbroken broken p j → p ∈ followed := by
  simp only [unmet, List.countP_eq_zero, Unbroken, and_imp]
  constructor
  · intro h p hp hb
    have := h p hp
    simpa [hb] using this
  · intro h p hp
    by_cases hb : (p, j) ∈ broken
    · simp [hb]
    · simp [h p hp hb]

theorem count_openTargets (hg : g.WellFormed) (broken : List (Nat × Nat)) (i j : Nat) :
    (g.openTargets broken i).count j =
      if i ∈ g.predecessors j ∧ (!broken.contains (i, j)) = true then 1 else 0 := by
  have hn : (g.openTargets broken i).Nodup := (hg.successors_nodup i).filter _
  have hm : j ∈ g.openTargets broken i ↔
      i ∈ g.predecessors j ∧ (!broken.contains (i, j)) = true := by
    rw [openTargets, List.mem_filter, hg.mirrored]
  split <;> rename_i h
  · exact List.count_eq_one_of_mem hn (hm.mpr h)
  · exact List.count_eq_zero_of_not_mem fun hj => h (hm.mp hj)

/-- Following a place takes from each target of its edges what is lowered there. -/
theorem unmet_follow (hg : g.WellFormed) {followed : List Nat} {i : Nat} (hi : i ∉ followed)
    (broken : List (Nat × Nat)) (j : Nat) :
    g.unmet followed broken j =
      g.unmet (followed ++ [i]) broken j + (g.openTargets broken i).count j := by
  rw [count_openTargets hg]
  have h := countP_without (hg.predecessors_nodup j)
    (p := fun p => !followed.contains p && !broken.contains (p, j))
    (q := fun p => !(followed ++ [i]).contains p && !broken.contains (p, j)) (a := i) (by
      intro b
      by_cases hb : b = i <;> simp [hb])
  simpa [unmet, hi] using h

/-- Breaking an edge takes one from what its target waits for. -/
theorem unmet_break (hg : g.WellFormed) {followed : List Nat} {broken : List (Nat × Nat)}
    {i j : Nat} (hi : i ∉ followed) (he : g.Unbroken broken i j) (k : Nat) :
    g.unmet followed broken k = g.unmet followed (broken ++ [(i, j)]) k + [j].count k := by
  by_cases hk : k = j
  · subst hk
    have h := countP_without (hg.predecessors_nodup k)
      (p := fun p => !followed.contains p && !broken.contains (p, k))
      (q := fun p => !followed.contains p && !(broken ++ [(i, k)]).contains (p, k)) (a := i) (by
        intro b
        by_cases hb : b = i <;> simp [hb])
    simpa [unmet, hi, he.1, he.2] using h
  · have hk' : (j == k) = false := by simpa using Ne.symm hk
    simp [unmet, hk, hk', List.count_cons]

/-- A relation of vertices goes round where the same relation of their places does. -/
theorem acyclic_iff_places (hg : g.WellFormed) {r : V → V → Prop} {s : Nat → Nat → Prop}
    (hr : ∀ u v, r u v ↔ ∃ i j, g.vertex? i = some u ∧ g.vertex? j = some v ∧ s i j)
    (hs : ∀ i j, s i j → i < g.size ∧ j < g.size) : Acyclic r ↔ Acyclic s := by
  have hdown (u v : V) (h : Relation.TransGen r u v) :
      ∃ i j, g.vertex? i = some u ∧ g.vertex? j = some v ∧ Relation.TransGen s i j := by
    induction h with
    | single h =>
      obtain ⟨i, j, hi, hj, hij⟩ := (hr _ _).mp h
      exact ⟨i, j, hi, hj, .single hij⟩
    | tail _ h ih =>
      obtain ⟨i, j, hi, hj, hij⟩ := ih
      obtain ⟨j', k, hj', hk, hjk⟩ := (hr _ _).mp h
      obtain rfl := hg.vertex?_inj hj hj'
      exact ⟨i, k, hi, hk, hij.tail hjk⟩
  have hup (i j : Nat) (h : Relation.TransGen s i j) :
      ∃ u v, g.vertex? i = some u ∧ g.vertex? j = some v ∧ Relation.TransGen r u v := by
    induction h with
    | single h =>
      obtain ⟨u, hu⟩ := Option.isSome_iff_exists.mp (vertex?_isSome.mpr (hs _ _ h).1)
      obtain ⟨v, hv⟩ := Option.isSome_iff_exists.mp (vertex?_isSome.mpr (hs _ _ h).2)
      exact ⟨u, v, hu, hv, .single ((hr u v).mpr ⟨_, _, hu, hv, h⟩)⟩
    | tail _ h ih =>
      obtain ⟨u, v, hu, hv, huv⟩ := ih
      obtain ⟨w, hw⟩ := Option.isSome_iff_exists.mp (vertex?_isSome.mpr (hs _ _ h).2)
      exact ⟨u, w, hu, hw, huv.tail ((hr v w).mpr ⟨_, _, hv, hw, h⟩)⟩
  constructor
  · intro ha i hi
    obtain ⟨u, v, hu, hv, huv⟩ := hup i i hi
    obtain rfl := Option.some.inj (hu.symm.trans hv)
    exact ha u huv
  · intro ha u hu
    obtain ⟨i, j, hi, hj, hij⟩ := hdown u u hu
    obtain rfl := hg.vertex?_inj hi hj
    exact ha i hij

end Multigraph

/-- A sort on its way: `followed` and then `queue` are sorted, and each count tells how many edges
still hold a place up. -/
structure Frontier (g : Multigraph V E) (broken : List (Nat × Nat)) (followed queue : List Nat)
    (counts : List Nat) : Prop where
  counted : ∀ j, counts.getD j 0 = g.unmet followed broken j
  nodup : (followed ++ queue).Nodup
  mem_iff : ∀ j, j ∈ followed ++ queue ↔ j < g.size ∧ g.unmet followed broken j = 0
  ordered : Ordered (g.Unbroken broken) (followed ++ queue)

namespace Frontier
open Multigraph

variable {g : Multigraph V E} {broken broken' : List (Nat × Nat)}
variable {followed followed' queue queue' counts : List Nat}

theorem unmet_of_size_le {j : Nat} (h : g.size ≤ j) : g.unmet followed broken j = 0 := by
  simp [unmet, predecessors_of_size_le h]

theorem getD_predecessorCounts (g : Multigraph V E) (j : Nat) :
    g.predecessorCounts.getD j 0 = (g.predecessors j).length := by
  simp only [predecessorCounts, predecessors, List.getD_eq_getElem?_getD, List.getElem?_map]
  cases g.nodes[j]? <;> rfl

theorem mem_free {counts : List Nat} {j : Nat} :
    j ∈ free counts ↔ j < counts.length ∧ counts.getD j 0 = 0 := by
  simp only [free, List.mem_filter, List.mem_range, decide_eq_true_eq]
  refine and_congr_right fun hj => ?_
  simp [List.getD_eq_getElem?_getD, List.getElem?_eq_getElem hj]

/-- At first nothing is followed, and sorted is what has no predecessors. -/
theorem start (g : Multigraph V E) :
    Frontier g [] [] (free g.predecessorCounts) g.predecessorCounts := by
  have hunmet (j : Nat) : g.unmet [] [] j = (g.predecessors j).length := by
    simp [unmet]
  have hmem (j : Nat) : j ∈ free g.predecessorCounts ↔ j < g.size ∧ g.unmet [] [] j = 0 := by
    rw [mem_free, getD_predecessorCounts, hunmet]
    simp [predecessorCounts, size]
  refine ⟨fun j => ?_, ?_, hmem, ?_⟩
  · rw [getD_predecessorCounts, hunmet]
  · exact List.nodup_range.filter _
  · intro k j hj p hp
    have hj := (hmem j).mp (List.mem_of_getElem? hj)
    exact absurd (unmet_eq_zero.mp hj.2 p hp) List.not_mem_nil

/-- What lowering the counts does to a sort: if every place waits for as much less as is taken
from its count, the counts stay exact, and what is released is sorted behind the rest. -/
theorem lower (h : Frontier g broken followed queue counts) {places : List Nat}
    (hunmet : ∀ j, g.unmet followed broken j = g.unmet followed' broken' j + places.count j)
    (hsorted : followed' ++ queue' = followed ++ queue) (hbroken : broken ⊆ broken') :
    Frontier g broken' followed' (queue' ++ (release counts places).2)
      (release counts places).1 := by
  have hnew (j : Nat) : j ∈ (release counts places).2 ↔
      0 < g.unmet followed broken j ∧ g.unmet followed' broken' j = 0 := by
    rw [mem_release, h.counted j]
    have := hunmet j
    omega
  have hsub (p j : Nat) (hp : g.Unbroken broken' p j) : g.Unbroken broken p j :=
    ⟨hp.1, fun hb => hp.2 (hbroken hb)⟩
  have hold := h.nodup
  have hmem := h.mem_iff
  have hord := h.ordered
  rw [← hsorted] at hold hmem hord
  refine ⟨fun j => ?_, ?_, fun j => ?_, ?_⟩
  · rw [getD_release, h.counted j]
    have := hunmet j
    omega
  · rw [← List.append_assoc]
    refine List.nodup_append.mpr ⟨hold, nodup_release counts places, ?_⟩
    intro a ha b hb he
    have := ((hmem a).mp ha).2
    have := ((hnew b).mp hb).1
    subst he
    omega
  · rw [← List.append_assoc, List.mem_append, hmem, hnew]
    have := hunmet j
    constructor
    · rintro (⟨hj, hz⟩ | ⟨hpos, hz⟩)
      · exact ⟨hj, by omega⟩
      · refine ⟨Nat.lt_of_not_le fun hle => ?_, hz⟩
        rw [unmet_of_size_le hle] at hpos
        omega
    · rintro ⟨hj, hz⟩
      by_cases hpos : g.unmet followed broken j = 0
      · exact .inl ⟨hj, hpos⟩
      · exact .inr ⟨Nat.pos_of_ne_zero hpos, hz⟩
  · rw [← List.append_assoc]
    refine (hord.mono hsub).append fun j hj p hp => ?_
    exact List.mem_append_left _ (unmet_eq_zero.mp ((hnew j).mp hj).2 p hp)

theorem lowerable (h : Frontier g broken followed queue counts) {places : List Nat}
    (hunmet : ∀ j, g.unmet followed broken j = g.unmet followed' broken' j + places.count j) :
    Lowerable counts places := by
  rw [lowerable_iff]
  intro j
  rw [h.counted j, hunmet j]
  exact Nat.le_add_left _ _

theorem not_mem_followed {i : Nat} (h : Frontier g broken followed (i :: queue) counts) :
    i ∉ followed := by
  intro hi
  exact (List.nodup_append.mp h.nodup).2.2 i hi i List.mem_cons_self rfl

theorem follow (hg : g.WellFormed) {i : Nat}
    (h : Frontier g broken followed (i :: queue) counts) :
    Frontier g broken (followed ++ [i])
      (queue ++ (release counts (g.openTargets broken i)).2)
      (release counts (g.openTargets broken i)).1 :=
  h.lower (unmet_follow hg h.not_mem_followed broken) (by simp) (List.Subset.refl broken)

theorem lowerable_follow (hg : g.WellFormed) {i : Nat}
    (h : Frontier g broken followed (i :: queue) counts) :
    Lowerable counts (g.openTargets broken i) :=
  h.lowerable (unmet_follow hg h.not_mem_followed broken)

theorem breakEdge (hg : g.WellFormed) {i j : Nat} (h : Frontier g broken followed [] counts)
    (hi : i ∉ followed) (he : g.Unbroken broken i j) :
    Frontier g (broken ++ [(i, j)]) followed (release counts [j]).2
      (release counts [j]).1 :=
  have h' : Frontier g (broken ++ [(i, j)]) followed ([] ++ (release counts [j]).2) _ :=
    h.lower (unmet_break hg hi he) rfl (List.subset_append_left broken _)
  h'

theorem lowerable_break (hg : g.WellFormed) {i j : Nat}
    (h : Frontier g broken followed [] counts) (hi : i ∉ followed)
    (he : g.Unbroken broken i j) : Lowerable counts [j] :=
  h.lowerable (unmet_break hg hi he)

theorem openTargets_nil (g : Multigraph V E) (i : Nat) : g.openTargets [] i = g.successors i := by
  simp [openTargets]

/-- Following a whole level is following its places one after the other. -/
theorem followLevel (hg : g.WellFormed) {level : List Nat}
    (h : Frontier g [] followed (level ++ queue) counts) :
    Frontier g [] (followed ++ level) (queue ++ (release counts (g.successorsOf level)).2)
        (release counts (g.successorsOf level)).1 ∧
      Lowerable counts (g.successorsOf level) := by
  induction level generalizing followed queue counts with
  | nil => exact ⟨by simpa [successorsOf, release] using h, trivial⟩
  | cons i level ih =>
    rw [List.cons_append] at h
    have hi := h.follow hg
    have hl := h.lowerable_follow hg
    rw [openTargets_nil] at hi hl
    rw [List.append_assoc] at hi
    obtain ⟨hrest, hlrest⟩ := ih hi
    have hall : g.successorsOf (i :: level) = g.successors i ++ g.successorsOf level :=
      List.flatMap_cons
    rw [hall, release_append]
    exact ⟨by simpa using hrest, lowerable_append.mpr ⟨hl, hlrest⟩⟩

theorem lt_size_of_mem {j : Nat} (h : Frontier g broken followed queue counts)
    (hj : j ∈ followed ++ queue) : j < g.size :=
  ((h.mem_iff j).mp hj).1

/-- As many sorted places as there are vertices are all of them. -/
theorem perm_range (h : Frontier g broken followed queue counts)
    (hle : g.size ≤ (followed ++ queue).length) : (followed ++ queue).Perm (List.range g.size) := by
  apply List.Subperm.perm_of_length_le
  · apply List.subperm_of_subset h.nodup
    intro j hj
    exact List.mem_range.mpr (h.lt_size_of_mem hj)
  · simpa using hle

/-- Where nothing is left to follow, an unsorted place is held up by another one. -/
theorem exists_unmet {j : Nat} (h : Frontier g broken followed [] counts) (hj : j < g.size)
    (hn : j ∉ followed) : ∃ p, g.Unbroken broken p j ∧ p ∉ followed := by
  have hz : g.unmet followed broken j ≠ 0 := by
    intro hz
    have := (h.mem_iff j).mpr ⟨hj, hz⟩
    simp [hn] at this
  rw [ne_eq, unmet_eq_zero] at hz
  push Not at hz
  exact hz

/-- So the unsorted places, if there are any, wait for one another. -/
theorem not_acyclic (hg : g.WellFormed) (h : Frontier g broken followed [] counts)
    (hlt : followed.length < g.size) :
    ¬ Acyclic fun p j => g.Unbroken broken p j ∧ p ∉ followed ∧ j ∉ followed := by
  refine @not_acyclic_of_predecessors _ _
    ((List.range g.size).filter fun j => !followed.contains j) ?_ ?_
  · intro he
    have hall : List.range g.size ⊆ followed := by
      intro j hj
      by_contra hn
      have hm : j ∈ (List.range g.size).filter fun j => !followed.contains j :=
        List.mem_filter.mpr ⟨hj, by simpa using hn⟩
      rw [he] at hm
      exact absurd hm List.not_mem_nil
    have := (List.subperm_of_subset List.nodup_range hall).length_le
    simp only [List.length_range] at this
    omega
  · intro j hj
    obtain ⟨hj, hn⟩ := List.mem_filter.mp hj
    have hn : j ∉ followed := by simpa using hn
    obtain ⟨p, hp, hpn⟩ := h.exists_unmet (List.mem_range.mp hj) hn
    refine ⟨p, List.mem_filter.mpr ⟨?_, by simpa using hpn⟩, hp, hpn, hn⟩
    exact List.mem_range.mpr (hg.lt_size_of_mem_predecessors hp.1).1

end Frontier

end WritePlan

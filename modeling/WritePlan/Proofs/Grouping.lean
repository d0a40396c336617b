import Mathlib.Data.List.Nodup
import Mathlib.Data.List.Perm.Basic

namespace WritePlan

/-- Positions before `n` in groups: each is in one group, and two of them are in one where they
belong together. Positions ascend within a group, and groups stand by their first positions. -/
structure Grouping (n : Nat) (same : Nat → Nat → Prop) (groups : List (List Nat)) : Prop where
  perm : groups.flatten.Perm (List.range n)
  ne_nil : ∀ g ∈ groups, g ≠ []
  ascending : ∀ g ∈ groups, g.Pairwise (· < ·)
  byFirst : groups.Pairwise fun g h => g.headD 0 < h.headD 0
  together : ∀ i j, i < j → j < n → ((∃ g ∈ groups, i ∈ g ∧ j ∈ g) ↔ same i j)

/-- Both positions have a key, and it is the same. -/
def KeysAgree {κ : Type} (key : Nat → Option κ) (i j : Nat) : Prop :=
  ∃ k, key i = some k ∧ key j = some k

namespace KeysAgree

variable {κ : Type} {key : Nat → Option κ} {i j k : Nat}

theorem symm (h : KeysAgree key i j) : KeysAgree key j i := by
  obtain ⟨k, hi, hj⟩ := h
  exact ⟨k, hj, hi⟩

theorem trans (h : KeysAgree key i j) (h' : KeysAgree key j k) : KeysAgree key i k := by
  obtain ⟨a, hi, hj⟩ := h
  obtain ⟨b, hj', hk⟩ := h'
  obtain rfl : a = b := Option.some.inj (hj.symm.trans hj')
  exact ⟨a, hi, hk⟩

end KeysAgree

theorem keysAgree_iff {κ : Type} {key : Nat → Option κ} {i j : Nat} :
    KeysAgree key i j ↔ key j ≠ none ∧ key i = key j := by
  unfold KeysAgree
  cases key j with
  | none => simp
  | some k => simp

theorem headD_mem {g : List Nat} (hg : g ≠ []) : g.headD 0 ∈ g := by
  cases g with
  | nil => exact absurd rfl hg
  | cons i g => exact List.mem_cons_self

theorem headD_concat {g : List Nat} (hg : g ≠ []) (n : Nat) :
    (g ++ [n]).headD 0 = g.headD 0 := by
  cases g with
  | nil => exact absurd rfl hg
  | cons i g => rfl

theorem mem_split_iff {groups : List (List Nat)} {before after : List (List Nat)}
    {g g' : List Nat} (hg : groups = before ++ g :: after) :
    g' ∈ groups ↔ g' = g ∨ g' ∈ before ++ after := by
  rw [hg, List.perm_middle.mem_iff, List.mem_cons]

namespace Grouping

variable {κ : Type} {key : Nat → Option κ} {n : Nat} {same : Nat → Nat → Prop}
  {groups before after : List (List Nat)} {g g' : List Nat} {i j : Nat}

theorem empty (same : Nat → Nat → Prop) : Grouping 0 same [] where
  perm := .nil
  ne_nil _ hg := absurd hg List.not_mem_nil
  ascending _ hg := absurd hg List.not_mem_nil
  byFirst := .nil
  together _ j _ hj := absurd hj (Nat.not_lt_zero j)

theorem lt_of_mem (h : Grouping n same groups) (hg : g ∈ groups) (hi : i ∈ g) : i < n :=
  List.mem_range.mp (h.perm.mem_iff.mp (List.mem_flatten_of_mem hg hi))

/-- A position is in no group but its own. -/
theorem not_mem_of_mem (h : Grouping n same (before ++ g :: after)) (hi : i ∈ g)
    (hg' : g' ∈ before ++ after) : i ∉ g' := by
  intro hi'
  have hn : (before ++ g :: after).flatten.Nodup := h.perm.nodup_iff.mpr List.nodup_range
  have hperm : (before ++ g :: after).flatten.Perm (g ++ (before ++ after).flatten) := by
    simp only [List.flatten_append, List.flatten_cons]
    exact List.perm_append_comm_assoc _ _ _
  exact (List.nodup_append.mp (hperm.nodup_iff.mp hn)).2.2 i hi i
    (List.mem_flatten_of_mem hg' hi') rfl

/-- A group holds all positions that have the key of one of its members. -/
theorem mem_of_keysAgree (h : Grouping n (KeysAgree key) (before ++ g :: after)) (hi : i ∈ g)
    (hj : j < n) (hij : KeysAgree key i j) : j ∈ g := by
  have hg : g ∈ before ++ g :: after := (mem_split_iff rfl).mpr (.inl rfl)
  have hex : i = j ∨ ∃ g' ∈ before ++ g :: after, i ∈ g' ∧ j ∈ g' := by
    rcases Nat.lt_trichotomy i j with hlt | heq | hlt
    · exact .inr ((h.together i j hlt hj).mpr hij)
    · exact .inl heq
    · obtain ⟨g', hg', hj', hi'⟩ := (h.together j i hlt (h.lt_of_mem hg hi)).mpr hij.symm
      exact .inr ⟨g', hg', hi', hj'⟩
  rcases hex with rfl | ⟨g', hg', hi', hj'⟩
  · exact hi
  · rcases (mem_split_iff rfl).mp hg' with rfl | hg'
    · exact hj'
    · exact absurd hi' (h.not_mem_of_mem hi hg')

/-- All members of a group have the key of its first one, if there are several. -/
theorem keysAgree_of_mem (h : Grouping n (KeysAgree key) groups) (hg : g ∈ groups) (hi : i ∈ g)
    (hj : j ∈ g) : i = j ∨ KeysAgree key i j := by
  rcases Nat.lt_trichotomy i j with hlt | heq | hlt
  · exact .inr ((h.together i j hlt (h.lt_of_mem hg hj)).mp ⟨g, hg, hi, hj⟩)
  · exact .inl heq
  · exact .inr ((h.together j i hlt (h.lt_of_mem hg hi)).mp ⟨g, hg, hj, hi⟩).symm

/-- The next position joins the group that has its key. -/
theorem join (h : Grouping n (KeysAgree key) (before ++ g :: after))
    (hn : KeysAgree key (g.headD 0) n) :
    Grouping (n + 1) (KeysAgree key) (before ++ (g ++ [n]) :: after) := by
  have hg : g ∈ before ++ g :: after := (mem_split_iff rfl).mpr (.inl rfl)
  have hrest {g' : List Nat} (hg' : g' ∈ before ++ after) : g' ∈ before ++ g :: after :=
    (mem_split_iff rfl).mpr (.inr hg')
  have hnil := h.ne_nil g hg
  have hfirst := headD_mem hnil
  constructor
  case perm =>
    have hp : (before ++ (g ++ [n]) :: after).flatten.Perm
        ((before ++ g :: after).flatten ++ [n]) := by
      simp only [List.flatten_append, List.flatten_cons, List.append_assoc]
      exact (List.perm_append_comm.append_left g).append_left _
    rw [List.range_succ]
    exact hp.trans (h.perm.append_right _)
  case ne_nil =>
    intro g' hg'
    rcases (mem_split_iff rfl).mp hg' with rfl | hg'
    · simp
    · exact h.ne_nil g' (hrest hg')
  case ascending =>
    intro g' hg'
    rcases (mem_split_iff rfl).mp hg' with rfl | hg'
    · refine List.pairwise_append.mpr ⟨h.ascending g hg, List.pairwise_singleton _ _, ?_⟩
      intro i hi j hj
      rw [List.mem_singleton.mp hj]
      exact h.lt_of_mem hg hi
    · exact h.ascending g' (hrest hg')
  case byFirst =>
    have hp := h.byFirst
    simp only [List.pairwise_append, List.pairwise_cons, List.forall_mem_cons,
      headD_concat hnil n] at hp ⊢
    exact hp
  case together =>
    intro i j hij hj
    rcases Nat.lt_succ_iff_lt_or_eq.mp hj with hj | rfl
    · -- Both positions are old ones, and those stay where they are.
      have hold {k : Nat} (hk : k < n) : k ∈ g ++ [n] ↔ k ∈ g := by
        simp [Nat.ne_of_lt hk]
      rw [← h.together i j hij hj]
      simp only [mem_split_iff (g := g ++ [n]) rfl, mem_split_iff (g := g) rfl, or_and_right,
        exists_or, exists_eq_left, hold hj, hold (Nat.lt_trans hij hj)]
    · constructor
      · intro hex
        obtain ⟨g', hg', hi, hj⟩ := hex
        rcases (mem_split_iff rfl).mp hg' with rfl | hg'
        · have hi : i ∈ g := by simpa [Nat.ne_of_lt hij] using hi
          rcases h.keysAgree_of_mem hg hi hfirst with rfl | hagree
          · exact hn
          · exact hagree.trans hn
        · exact absurd (h.lt_of_mem (hrest hg') hj) (Nat.lt_irrefl j)
      · intro hagree
        have hi : i ∈ g := h.mem_of_keysAgree hfirst hij (hn.trans hagree.symm)
        exact ⟨g ++ [j], (mem_split_iff rfl).mpr (.inl rfl), by simp [hi], by simp⟩

/-- The next position begins a group of its own. -/
theorem fresh (h : Grouping n (KeysAgree key) groups)
    (hn : ∀ g ∈ groups, ¬ KeysAgree key (g.headD 0) n) :
    Grouping (n + 1) (KeysAgree key) (groups ++ [[n]]) := by
  constructor
  case perm =>
    rw [List.flatten_append, List.flatten_singleton, List.range_succ]
    exact h.perm.append_right _
  case ne_nil =>
    intro g hg
    rcases List.mem_append.mp hg with hg | hg
    · exact h.ne_nil g hg
    · rw [List.mem_singleton.mp hg]
      exact List.cons_ne_nil _ _
  case ascending =>
    intro g hg
    rcases List.mem_append.mp hg with hg | hg
    · exact h.ascending g hg
    · rw [List.mem_singleton.mp hg]
      exact List.pairwise_singleton _ _
  case byFirst =>
    refine List.pairwise_append.mpr ⟨h.byFirst, List.pairwise_singleton _ _, ?_⟩
    intro g hg g' hg'
    rw [List.mem_singleton.mp hg']
    exact h.lt_of_mem hg (headD_mem (h.ne_nil g hg))
  case together =>
    intro i j hij hj
    rcases Nat.lt_succ_iff_lt_or_eq.mp hj with hj | rfl
    · rw [← h.together i j hij hj]
      simp only [List.mem_append, List.mem_singleton, or_and_right, exists_or, exists_eq_left,
        Nat.ne_of_lt hj, and_false, or_false]
    · constructor
      · intro hex
        obtain ⟨g, hg, hi, hj⟩ := hex
        rcases List.mem_append.mp hg with hg | hg
        · exact absurd (h.lt_of_mem hg hj) (Nat.lt_irrefl j)
        · rw [List.mem_singleton.mp hg, List.mem_singleton] at hi
          exact absurd hi (Nat.ne_of_lt hij)
      · intro hagree
        have hi : i ∈ groups.flatten := h.perm.mem_iff.mpr (List.mem_range.mpr hij)
        obtain ⟨g, hg, hi⟩ := List.mem_flatten.mp hi
        have hfirst := headD_mem (h.ne_nil g hg)
        rcases h.keysAgree_of_mem hg hfirst hi with heq | hi
        · exact absurd (heq ▸ hagree) (hn g hg)
        · exact absurd (hi.trans hagree) (hn g hg)

end Grouping

section Groups

variable {κ : Type} [DecidableEq κ]

/-- Puts a position into the first group of its key, or else into a new one. -/
def groupWith (key : Nat → Option κ) (n : Nat) : List (List Nat) → List (List Nat)
  | [] => [[n]]
  | g :: gs =>
    if key n ≠ none ∧ key (g.headD 0) = key n then (g ++ [n]) :: gs
    else g :: groupWith key n gs

theorem Grouping.groupWith {key : Nat → Option κ} {n : Nat} {before groups : List (List Nat)}
    (h : Grouping n (KeysAgree key) (before ++ groups))
    (hbefore : ∀ g ∈ before, ¬ KeysAgree key (g.headD 0) n) :
    Grouping (n + 1) (KeysAgree key) (before ++ groupWith key n groups) := by
  induction groups generalizing before with
  | nil =>
    rw [List.append_nil] at h
    exact h.fresh hbefore
  | cons g gs ih =>
    unfold WritePlan.groupWith
    split
    · rename_i hkey
      exact h.join (keysAgree_iff.mpr hkey)
    · rename_i hkey
      rw [List.append_cons] at h ⊢
      refine ih h ?_
      intro g' hg'
      rcases List.mem_append.mp hg' with hg' | hg'
      · exact hbefore g' hg'
      · rw [List.mem_singleton.mp hg', keysAgree_iff]
        exact hkey

/-- The positions before `n`, put into groups in turn. -/
def groupsBy (key : Nat → Option κ) : Nat → List (List Nat)
  | 0 => []
  | n + 1 => groupWith key n (groupsBy key n)

theorem grouping_groupsBy (key : Nat → Option κ) (n : Nat) :
    Grouping n (KeysAgree key) (groupsBy key n) := by
  induction n with
  | zero => exact .empty _
  | succ n ih =>
    have h : Grouping n (KeysAgree key) ([] ++ groupsBy key n) := ih
    exact h.groupWith (by simp)

end Groups

end WritePlan

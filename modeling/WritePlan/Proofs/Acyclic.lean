import Mathlib.Data.Fintype.Card
import Mathlib.Data.Set.Finite.Basic
import Mathlib.Logic.Relation
import Mathlib.Order.WellFounded

namespace WritePlan
open Relation

variable {α : Type} {r : α → α → Prop}

/-- Nothing leads back to itself, also not at once. -/
def Acyclic (r : α → α → Prop) : Prop :=
  ∀ a, ¬ TransGen r a a

/-- A path of `n` edges ends at `a`. -/
inductive PathTo (r : α → α → Prop) : Nat → α → Prop
  | start (a : α) : PathTo r 0 a
  | step {n : Nat} {a b : α} : PathTo r n a → r a b → PathTo r (n + 1) b

/-- The longest path that ends at `a` has `n` edges. -/
def LongestPathTo (r : α → α → Prop) (n : Nat) (a : α) : Prop :=
  PathTo r n a ∧ ∀ k, PathTo r k a → k ≤ n

theorem LongestPathTo.unique {m n : Nat} {a : α} (hm : LongestPathTo r m a)
    (hn : LongestPathTo r n a) : m = n :=
  Nat.le_antisymm (hn.2 m hm.1) (hm.2 n hn.1)

theorem Acyclic.mono {s : α → α → Prop} (h : Acyclic r) (hs : ∀ a b, s a b → r a b) :
    Acyclic s :=
  fun a ha => h a (TransGen.mono hs a a ha)

/-- What grows along a relation keeps it from going round. -/
theorem acyclic_of_lt {f : α → Nat} (h : ∀ a b, r a b → f a < f b) : Acyclic r := by
  have hf : ∀ a b, TransGen r a b → f a < f b := by
    intro a b hab
    induction hab with
    | single hab => exact h _ _ hab
    | tail _ hbc ih => exact Nat.lt_trans ih (h _ _ hbc)
  exact fun a ha => Nat.lt_irrefl _ (hf a a ha)

theorem PathTo.le_of_lt {f : α → Nat} (h : ∀ a b, r a b → f a < f b) {n : Nat} {a : α}
    (hp : PathTo r n a) : n ≤ f a := by
  induction hp with
  | start a => exact Nat.zero_le _
  | step _ hab ih => exact Nat.succ_le_of_lt (Nat.lt_of_le_of_lt ih (h _ _ hab))

/-- Only the path that begins there leads to what has nothing before it. -/
theorem PathTo.eq_zero {n : Nat} {a : α} (hp : PathTo r n a) (h : ∀ b, ¬ r b a) : n = 0 := by
  cases hp with
  | start => rfl
  | step _ hba => exact absurd hba (h _)

/-- Where all of finitely many have one before them, some go round. -/
theorem not_acyclic_of_predecessors {as : List α} (hne : as ≠ [])
    (h : ∀ a ∈ as, ∃ b ∈ as, r b a) : ¬ Acyclic r := by
  intro hr
  let s : {a // a ∈ as} → {a // a ∈ as} → Prop := fun a b => TransGen r a.1 b.1
  have : Finite {a // a ∈ as} := (List.finite_toSet as).to_subtype
  have : IsTrans _ s := ⟨fun _ _ _ hab hbc => hab.trans hbc⟩
  have : Std.Irrefl s := ⟨fun a ha => hr a.1 ha⟩
  have hwf : WellFounded s := Finite.wellFounded_of_trans_of_irrefl s
  obtain ⟨a, ha⟩ := List.exists_mem_of_ne_nil as hne
  obtain ⟨m, _, hm⟩ := hwf.has_min Set.univ ⟨⟨a, ha⟩, trivial⟩
  obtain ⟨b, hb, hbm⟩ := h m.1 m.2
  exact hm ⟨b, hb⟩ trivial (.single hbm)

end WritePlan

import WritePlan.Error.Report
import WritePlan.Proofs.Countdown
import WritePlan.Graph.Sort

namespace WritePlan

variable {V E : Type}

namespace Sorting

variable {g : Multigraph V E}

/-- Whatever is offered is declined. -/
theorem consult_never (offers : List (Offer V E)) (edges : List (Nat × Nat)) :
    (consult g .never offers edges).2 = none := by
  induction edges generalizing offers with
  | nil => rfl
  | cons d rest ih =>
    obtain ⟨i, j⟩ := d
    cases he : g.edge? i j with
    | none => simpa [consult, he] using ih offers
    | some e => simpa [consult, he, Breaker.never] using ih (offers ++ [⟨e, false⟩])

/-- With nothing to follow and nothing to break, a sort is at its end. -/
theorem run_of_queue_nil {s : Sorting V E} (hq : s.queue = []) :
    ∃ offers, s.run g .never = { s with offers } := by
  have hstep : ∃ offers, s.step g .never = ({ s with offers }, false) := by
    by_cases hlt : s.followed.length < g.size
    · have hnone := consult_never (g := g) s.offers (s.obstacles g)
      rcases hc : consult g .never s.offers (s.obstacles g) with ⟨offers, choice⟩
      rw [hc] at hnone
      obtain rfl : choice = none := hnone
      exact ⟨offers, by simp [step, hq, hlt, hc]⟩
    · obtain ⟨counts, followed, queue, broken, offers⟩ := s
      obtain rfl : queue = [] := hq
      exact ⟨offers, by simp [step, hlt]⟩
  obtain ⟨offers, hs⟩ := hstep
  refine ⟨offers, ?_⟩
  unfold run
  simp [hs]

theorem run_of_queue_cons {breaker : Breaker V E} {s : Sorting V E} {i : Nat} {rest : List Nat}
    (hq : s.queue = i :: rest) : s.run g breaker = (s.follow g i rest).run g breaker := by
  have hs : s.step g breaker = (s.follow g i rest, true) := by simp [step, hq]
  rw [run]
  simp [hs]

/-- Following the places of a level in turn lowers the counts as the level does at once, and puts
what is released behind what was in the queue. -/
theorem run_of_level {breaker : Breaker V E} (counts followed level queue : List Nat)
    (offers : List (Offer V E)) :
    run g breaker ⟨counts, followed, level ++ queue, [], offers⟩ =
      run g breaker ⟨(release counts (g.successorsOf level)).1, followed ++ level,
        queue ++ (release counts (g.successorsOf level)).2, [], offers⟩ := by
  induction level generalizing counts followed queue with
  | nil => simp [Multigraph.successorsOf, release]
  | cons i level ih =>
    have hall : g.successorsOf (i :: level) = g.successors i ++ g.successorsOf level :=
      List.flatMap_cons
    have hfollow (s : Sorting V E) (rest : List Nat) (hs : s.broken = []) :
        s.follow g i rest =
          { s with
            counts := (release s.counts (g.successors i)).1
            followed := s.followed ++ [i]
            queue := rest ++ (release s.counts (g.successors i)).2 } := by
      have hnone : (g.successors i).filter (fun j => !s.broken.contains (i, j)) =
          g.successors i := List.filter_eq_self.2 (by simp [hs])
      rw [follow, hnone]
    rw [run_of_queue_cons (List.cons_append ..), hfollow _ _ rfl]
    simp only [List.append_assoc]
    rw [ih, hall, release_append]
    simp

/-- Whatever may be broken, a sort first goes from level to level to where the levels end. -/
theorem run_through_levels {breaker : Breaker V E} (counts followed level : List Nat)
    (offers : List (Offer V E)) :
    run g breaker ⟨counts, followed, level, [], offers⟩ =
      run g breaker ⟨(g.levelsFrom counts level).2,
        followed ++ (g.levelsFrom counts level).1.flatten, [], [], offers⟩ := by
  fun_induction Multigraph.levelsFrom g counts level generalizing followed with
  | case1 counts level he =>
    obtain rfl : level = [] := List.isEmpty_iff.mp he
    simp
  | case2 counts level hne next rest =>
    rename_i ih
    have hlevel : run g breaker ⟨counts, followed, level ++ [], [], offers⟩ = _ :=
      run_of_level counts followed level [] offers
    rw [List.append_nil, List.nil_append] at hlevel
    rw [hlevel, ih (followed ++ level)]
    simp [next, rest]

/-- A sort without breaks ends there. -/
theorem run_of_levels (counts followed level : List Nat) (offers : List (Offer V E)) :
    ∃ offers', run g .never ⟨counts, followed, level, [], offers⟩ =
      ⟨(g.levelsFrom counts level).2, followed ++ (g.levelsFrom counts level).1.flatten, [], [],
        offers'⟩ := by
  obtain ⟨offers', hrun⟩ := run_of_queue_nil (g := g) (s := ⟨(g.levelsFrom counts level).2,
    followed ++ (g.levelsFrom counts level).1.flatten, [], [], offers⟩) rfl
  exact ⟨offers', (run_through_levels counts followed level offers).trans hrun⟩

end Sorting

namespace Multigraph
open Sorting

/-- Without breaks the flat order is that of the levels, one after the other; and where there are
no levels there is no order, for the same cycle, which is reported in the same words. -/
theorem sort_never_eq_levels (g : Multigraph V E) (text : V → String)
    (format : Option (List (Edge V E) → String)) :
    (g.sort .never).order = g.levels.map List.flatten ∧
      (g.sort .never).order.mapError (·.report text format) =
        (g.levels.mapError (·.report text format)).map List.flatten := by
  have horder : (g.sort .never).order = g.levels.map List.flatten := by
    obtain ⟨offers, hrun⟩ : ∃ offers, (start g).run g .never =
        ⟨g.levelPlaces.2, g.levelPlaces.1.flatten, [], [], offers⟩ := run_of_levels _ [] _ []
    simp only [sort, hrun, sorted, List.append_nil, levels]
    split
    · rfl
    · exact congrArg Except.ok (List.filterMap_flatten ..)
  refine ⟨horder, ?_⟩
  rw [horder]
  cases g.levels <;> rfl

end Multigraph

end WritePlan

import WritePlan.Graph.Levels

namespace WritePlan

/-- An edge that was offered for breaking, and the answer. -/
structure Offer (V E : Type) where
  edge : Edge V E
  approved : Bool
deriving DecidableEq

/-- Decides whether an edge may be broken. It may look at the offers made earlier in the sort. -/
abbrev Breaker (V E : Type) := List (Offer V E) → Edge V E → Bool

/-- The breaker that declines every edge. -/
def Breaker.never : Breaker V E := fun _ _ => false

/-- The breaker whose answer hangs on the edge alone. -/
def Breaker.ofEdge (approves : Edge V E → Bool) : Breaker V E := fun _ e => approves e

/-- A sort on its way: `followed` and then `queue` are the sorted places, of which the edges from
`queue` still count for their targets. -/
structure Sorting (V E : Type) where
  counts : List Nat
  followed : List Nat
  queue : List Nat
  broken : List (Nat × Nat)
  offers : List (Offer V E)

/-- A stricter filter that drops an element of the looser one keeps fewer. -/
theorem length_filter_lt_of_mem {p q : α → Bool} {as : List α} {a : α} (ha : a ∈ as)
    (hp : p a) (hq : q a = false) (h : ∀ b, q b → p b) :
    (as.filter q).length < (as.filter p).length := by
  have le (bs : List α) : (bs.filter q).length ≤ (bs.filter p).length := by
    induction bs with
    | nil => simp
    | cons b bs ih =>
      by_cases hqb : q b
      · simpa [hqb, h b hqb] using ih
      · by_cases hpb : p b <;> simp [hqb, hpb] <;> omega
  induction as with
  | nil => simp at ha
  | cons b bs ih =>
    rcases List.mem_cons.1 ha with rfl | hb
    · simpa [hp, hq, Nat.lt_succ_iff] using le bs
    · have := ih hb
      by_cases hqb : q b
      · simpa [hqb, h b hqb] using this
      · by_cases hpb : p b <;> simp [hqb, hpb] <;> omega

namespace Sorting

variable {V E : Type}

def start (g : Multigraph V E) : Sorting V E :=
  let counts := g.predecessorCounts
  ⟨counts, [], Multigraph.free counts, [], []⟩

def sorted (s : Sorting V E) : List Nat :=
  s.followed ++ s.queue

/-- Releases what waits for the place `i`, the first in the queue. -/
def follow (g : Multigraph V E) (s : Sorting V E) (i : Nat) (rest : List Nat) : Sorting V E :=
  let next := release s.counts ((g.successors i).filter fun j => !s.broken.contains (i, j))
  { s with counts := next.1, followed := s.followed ++ [i], queue := rest ++ next.2 }

def waits (s : Sorting V E) (i : Nat) : Bool :=
  s.counts.getD i 0 != 0

/-- The edges between places that wait, less those that are broken. -/
def obstacles (g : Multigraph V E) (s : Sorting V E) : List (Nat × Nat) :=
  (g.edgePlaces.filter fun e => !s.broken.contains e).filter fun e => s.waits e.2 && s.waits e.1

/-- Offers edges in turn until one is approved; gives all offers so far and that edge. -/
def consult (g : Multigraph V E) (breaker : Breaker V E) (offers : List (Offer V E)) :
    List (Nat × Nat) → List (Offer V E) × Option (Nat × Nat)
  | [] => (offers, none)
  | (i, j) :: rest =>
    match g.edge? i j with
    | none => consult g breaker offers rest
    | some e =>
      if breaker offers e then (offers ++ [⟨e, true⟩], some (i, j))
      else consult g breaker (offers ++ [⟨e, false⟩]) rest

/-- One step: follows the edges from the next place or, where the queue is empty and places are
left, breaks an edge. The flag tells whether there was anything to do. -/
def step (g : Multigraph V E) (breaker : Breaker V E) (s : Sorting V E) : Sorting V E × Bool :=
  match s.queue with
  | i :: rest => (s.follow g i rest, true)
  | [] =>
    if s.followed.length < g.size then
      match consult g breaker s.offers (s.obstacles g) with
      | (offers, none) => ({ s with offers }, false)
      | (offers, some (i, j)) =>
        let next := release s.counts [j]
        ({ s with counts := next.1, queue := next.2, broken := s.broken ++ [(i, j)], offers },
          true)
    else (s, false)

/-- How many edges are not broken. -/
def unbroken (g : Multigraph V E) (s : Sorting V E) : Nat :=
  (g.edgePlaces.filter fun e => !s.broken.contains e).length

/-- Every step follows a place or breaks an edge, and so there are no more steps than this. -/
def work (g : Multigraph V E) (s : Sorting V E) : Nat :=
  s.unbroken g + s.queue.length + waiting s.counts

theorem consult_mem {g : Multigraph V E} {breaker : Breaker V E} {offers : List (Offer V E)}
    {edges : List (Nat × Nat)} {e : Nat × Nat}
    (h : (consult g breaker offers edges).2 = some e) : e ∈ edges := by
  induction edges generalizing offers with
  | nil => simp [consult] at h
  | cons d rest ih =>
    obtain ⟨i, j⟩ := d
    unfold consult at h
    split at h
    · exact List.mem_cons_of_mem _ (ih h)
    · split at h
      · simp only [Option.some.injEq] at h
        exact h ▸ List.mem_cons_self
      · exact List.mem_cons_of_mem _ (ih h)

theorem work_step {g : Multigraph V E} {breaker : Breaker V E} {s : Sorting V E}
    (h : (s.step g breaker).2 = true) : (s.step g breaker).1.work g < s.work g := by
  unfold step at h ⊢
  split
  · rename_i i rest hq
    have := waiting_release s.counts
      ((g.successors i).filter fun j => !s.broken.contains (i, j))
    simp only [work, unbroken, follow, hq, List.length_append, List.length_cons]
    omega
  · rename_i hq
    simp only [hq] at h
    split
    · rename_i hlt
      simp only [hlt, ↓reduceIte] at h
      split
      · rename_i hc
        simp [hc] at h
      · rename_i offers i j hc
        have hm : (i, j) ∈ s.obstacles g := consult_mem (by rw [hc])
        simp only [obstacles, List.mem_filter] at hm
        have hb : (g.edgePlaces.filter fun e => !(s.broken ++ [(i, j)]).contains e).length <
            (g.edgePlaces.filter fun e => !s.broken.contains e).length :=
          length_filter_lt_of_mem hm.1.1 hm.1.2 (by simp) (fun b hb => by simp_all)
        have := waiting_release s.counts [j]
        simp only [work, unbroken, hq, List.length_nil]
        omega
    · rename_i hlt
      simp [hlt] at h

/-- Steps until there is nothing to do. -/
def run (g : Multigraph V E) (breaker : Breaker V E) (s : Sorting V E) : Sorting V E :=
  if (s.step g breaker).2 = true then run g breaker (s.step g breaker).1
  else (s.step g breaker).1
termination_by s.work g
decreasing_by exact work_step ‹_›

end Sorting

/-- The end of a sort: the vertices in order or a cycle, and all offers that were made. -/
structure SortResult (V E : Type) where
  order : Except (Unsortable V E) (List V)
  offers : List (Offer V E)

namespace Multigraph

variable {V E : Type}

/-- Sorts the vertices so that edges go forward. Where all that are left wait for one another, edges
that hold them up are offered for breaking until one is approved. -/
def sort (g : Multigraph V E) (breaker : Breaker V E) : SortResult V E :=
  let s := (Sorting.start g).run g breaker
  { order :=
      if s.sorted.length < g.size then .error (g.unsortable s.counts s.broken)
      else .ok (s.sorted.filterMap g.vertex?)
    offers := s.offers }

end Multigraph

end WritePlan

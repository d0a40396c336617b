import WritePlan.Graph.Sort
import WritePlan.Proofs.Frontier

namespace WritePlan

variable {V E : Type}

namespace Multigraph

variable {g : Multigraph V E}

theorem edge?_eq_some {i j : Nat} {e : Edge V E} :
    g.edge? i j = some e ↔ g.vertex? i = some e.source ∧ g.vertex? j = some e.target ∧
      g.labelsAt i j = e.labels := by
  obtain ⟨u, v, labels⟩ := e
  simp only [edge?, Option.bind_eq_some_iff, Option.map_eq_some_iff, Edge.mk.injEq]
  constructor
  · intro h
    obtain ⟨_, hu, _, hv, rfl, rfl, rfl⟩ := h
    exact ⟨hu, hv, rfl⟩
  · intro h
    obtain ⟨hu, hv, hl⟩ := h
    exact ⟨u, hu, v, hv, rfl, rfl, hl⟩

theorem mem_edgePlaces {i j : Nat} : (i, j) ∈ g.edgePlaces ↔ i ∈ g.predecessors j := by
  simp only [edgePlaces, List.mem_flatMap, List.mem_range, List.mem_map, Prod.mk.injEq]
  constructor
  · intro h
    obtain ⟨k, _, p, hp, rfl, rfl⟩ := h
    exact hp
  · intro h
    refine ⟨j, Nat.lt_of_not_le fun hle => ?_, i, h, rfl, rfl⟩
    rw [predecessors_of_size_le hle] at h
    exact absurd h List.not_mem_nil

theorem WellFormed.exists_edge (hg : g.WellFormed) {i j : Nat} (h : i ∈ g.predecessors j) :
    ∃ e, g.edge? i j = some e := by
  obtain ⟨hi, hj⟩ := hg.lt_size_of_mem_predecessors h
  obtain ⟨u, hu⟩ := Option.isSome_iff_exists.mp (vertex?_isSome.mpr hi)
  obtain ⟨v, hv⟩ := Option.isSome_iff_exists.mp (vertex?_isSome.mpr hj)
  exact ⟨⟨u, v, g.labelsAt i j⟩, edge?_eq_some.mpr ⟨hu, hv, rfl⟩⟩

/-- The edge between two places, by its vertices. -/
theorem Indexed.edge?_eq [DecidableEq V] (hg : g.Indexed) {i j : Nat} {u v : V}
    (hu : g.vertex? i = some u) (hv : g.vertex? j = some v) :
    g.edge? i j = some ⟨u, v, g.labels u v⟩ := by
  refine edge?_eq_some.mpr ⟨hu, hv, ?_⟩
  simp only [labels, hg.place?_eq_some.mpr hu, hg.place?_eq_some.mpr hv]

end Multigraph

namespace Sorting
open Multigraph

variable {g : Multigraph V E} {breaker : Breaker V E} {s : Sorting V E}

/-- The answer to an offer was the breaker's. -/
def Answered (breaker : Breaker V E) (o : Offer V E) : Prop :=
  ∃ earlier, breaker earlier o.edge = o.approved

theorem consult_answered {offers : List (Offer V E)} {edges : List (Nat × Nat)}
    (h : ∀ o ∈ offers, Answered breaker o) :
    ∀ o ∈ (consult g breaker offers edges).1, Answered breaker o := by
  have hadd {offers : List (Offer V E)} {e : Edge V E} {b : Bool}
      (h : ∀ o ∈ offers, Answered breaker o) (hb : breaker offers e = b) :
      ∀ o ∈ offers ++ [⟨e, b⟩], Answered breaker o := by
    intro o ho
    rcases List.mem_append.mp ho with ho | ho
    · exact h o ho
    · rw [List.mem_singleton.mp ho]
      exact ⟨offers, hb⟩
  induction edges generalizing offers with
  | nil => exact h
  | cons d rest ih =>
    obtain ⟨i, j⟩ := d
    unfold consult
    split
    · exact ih h
    · split
      · rename_i e _ hb
        exact hadd h hb
      · rename_i e _ hb
        exact ih (hadd h (Bool.eq_false_iff.mpr hb))

theorem subset_consult (g : Multigraph V E) (breaker : Breaker V E) (offers : List (Offer V E))
    (edges : List (Nat × Nat)) : offers ⊆ (consult g breaker offers edges).1 := by
  induction edges generalizing offers with
  | nil => exact List.Subset.refl _
  | cons d rest ih =>
    obtain ⟨i, j⟩ := d
    unfold consult
    split
    · exact ih offers
    · split
      · exact List.subset_append_left _ _
      · exact List.Subset.trans (List.subset_append_left _ _) (ih _)

/-- The edge that is chosen was approved. -/
theorem consult_approved {offers : List (Offer V E)} {edges : List (Nat × Nat)} {i j : Nat}
    (h : (consult g breaker offers edges).2 = some (i, j)) :
    ∃ e, g.edge? i j = some e ∧ ⟨e, true⟩ ∈ (consult g breaker offers edges).1 := by
  induction edges generalizing offers with
  | nil => simp [consult] at h
  | cons d rest ih =>
    obtain ⟨a, b⟩ := d
    cases he : g.edge? a b with
    | none =>
      simp only [consult, he] at h ⊢
      exact ih h
    | some e =>
      cases hb : breaker offers e with
      | true =>
        simp only [consult, he, hb, ↓reduceIte, Option.some.injEq, Prod.mk.injEq] at h ⊢
        obtain ⟨rfl, rfl⟩ := h
        exact ⟨e, he, List.mem_append_right _ List.mem_cons_self⟩
      | false =>
        simp only [consult, he, hb, Bool.false_eq_true, ↓reduceIte] at h ⊢
        exact ih h

/-- If none is chosen, each was declined. -/
theorem consult_declined {offers : List (Offer V E)} {edges : List (Nat × Nat)}
    (h : (consult g breaker offers edges).2 = none) {i j : Nat} (hm : (i, j) ∈ edges)
    {e : Edge V E} (he : g.edge? i j = some e) :
    ⟨e, false⟩ ∈ (consult g breaker offers edges).1 := by
  induction edges generalizing offers with
  | nil => exact absurd hm List.not_mem_nil
  | cons d rest ih =>
    obtain ⟨a, b⟩ := d
    cases hd : g.edge? a b with
    | none =>
      simp only [consult, hd] at h ⊢
      rcases List.mem_cons.mp hm with heq | hm
      · obtain ⟨rfl, rfl⟩ := Prod.mk.inj heq
        simp [hd] at he
      · exact ih h hm
    | some d =>
      cases hb : breaker offers d with
      | true => simp [consult, hd, hb] at h
      | false =>
        simp only [consult, hd, hb, Bool.false_eq_true, ↓reduceIte] at h ⊢
        rcases List.mem_cons.mp hm with heq | hm
        · obtain ⟨rfl, rfl⟩ := Prod.mk.inj heq
          obtain rfl : d = e := Option.some.inj (hd.symm.trans he)
          exact subset_consult g breaker _ rest (List.mem_append_right _ List.mem_cons_self)
        · exact ih h hm

/-- The places whose counts the next step lowers, each once for every time it occurs. -/
def lowered (g : Multigraph V E) (breaker : Breaker V E) (s : Sorting V E) : List Nat :=
  match s.queue with
  | i :: _ => g.openTargets s.broken i
  | [] =>
    if s.followed.length < g.size then
      ((consult g breaker s.offers (s.obstacles g)).2.map (·.2)).toList
    else []

theorem step_counts (g : Multigraph V E) (breaker : Breaker V E) (s : Sorting V E) :
    (s.step g breaker).1.counts = (release s.counts (s.lowered g breaker)).1 := by
  unfold step lowered
  cases s.queue with
  | cons i rest => rfl
  | nil =>
    by_cases hlt : s.followed.length < g.size
    · simp only [hlt, ↓reduceIte]
      rcases consult g breaker s.offers (s.obstacles g) with ⟨offers, _ | ⟨i, j⟩⟩ <;> rfl
    · simp only [hlt, ↓reduceIte]
      rfl

/-- What every sort keeps: its places and counts are those of a frontier, the breaker approved
every edge that is broken, and all answers are the breaker's. -/
structure Sound (g : Multigraph V E) (breaker : Breaker V E) (s : Sorting V E) : Prop where
  frontier : Frontier g s.broken s.followed s.queue s.counts
  approved : ∀ i j, (i, j) ∈ s.broken → ∃ e, g.edge? i j = some e ∧ ⟨e, true⟩ ∈ s.offers
  answered : ∀ o ∈ s.offers, Answered breaker o

theorem mem_obstacles {i j : Nat} :
    (i, j) ∈ s.obstacles g ↔
      g.Unbroken s.broken i j ∧ s.counts.getD i 0 ≠ 0 ∧ s.counts.getD j 0 ≠ 0 := by
  simp only [obstacles, waits, List.mem_filter, mem_edgePlaces, Unbroken, List.contains_eq_mem,
    Bool.and_eq_true, bne_iff_ne, Bool.not_eq_true', decide_eq_false_iff_not]
  constructor
  · intro h
    obtain ⟨⟨hp, hb⟩, hj, hi⟩ := h
    exact ⟨⟨hp, hb⟩, hi, hj⟩
  · intro h
    obtain ⟨⟨hp, hb⟩, hi, hj⟩ := h
    exact ⟨⟨hp, hb⟩, hj, hi⟩

namespace Sound

theorem start (g : Multigraph V E) (breaker : Breaker V E) :
    Sound g breaker (Sorting.start g) :=
  ⟨Frontier.start g, fun _ _ h => absurd h List.not_mem_nil, fun _ h => absurd h List.not_mem_nil⟩

/-- A place that waits is not followed. -/
theorem not_mem_followed (h : Sound g breaker s) {i : Nat} (hi : s.counts.getD i 0 ≠ 0) :
    i ∉ s.followed := by
  intro hm
  have hz := ((h.frontier.mem_iff i).mp (List.mem_append_left _ hm)).2
  rw [h.frontier.counted] at hi
  exact hi hz

theorem approved_mono (h : Sound g breaker s) (edges : List (Nat × Nat)) {i j : Nat}
    (hb : (i, j) ∈ s.broken) :
    ∃ e, g.edge? i j = some e ∧ ⟨e, true⟩ ∈ (consult g breaker s.offers edges).1 := by
  obtain ⟨e, he, ho⟩ := h.approved i j hb
  exact ⟨e, he, subset_consult g breaker s.offers edges ho⟩

/-- A step keeps all that, and lowers no count that is zero. -/
theorem step (hg : g.WellFormed) (h : Sound g breaker s) :
    Sound g breaker (s.step g breaker).1 ∧ Lowerable s.counts (s.lowered g breaker) := by
  have hf := h.frontier
  unfold Sorting.step lowered
  cases hq : s.queue with
  | cons i rest =>
    rw [hq] at hf
    exact ⟨⟨hf.follow hg, h.approved, h.answered⟩, hf.lowerable_follow hg⟩
  | nil =>
    rw [hq] at hf
    by_cases hlt : s.followed.length < g.size
    · simp only [hlt, ↓reduceIte]
      have ha : ∀ o ∈ (consult g breaker s.offers (s.obstacles g)).1, Answered breaker o :=
        consult_answered h.answered
      have hm := fun i j => h.approved_mono (s.obstacles g) (i := i) (j := j)
      rcases hc : consult g breaker s.offers (s.obstacles g) with ⟨offers, _ | ⟨i, j⟩⟩
      · rw [hc] at ha hm
        exact ⟨⟨hq ▸ hf, hm, ha⟩, trivial⟩
      · obtain ⟨he, hi, _⟩ := mem_obstacles.mp (consult_mem (congrArg Prod.snd hc))
        have hi := h.not_mem_followed hi
        have hnew := consult_approved (congrArg Prod.snd hc)
        rw [hc] at ha hm hnew
        refine ⟨⟨hf.breakEdge hg hi he, ?_, ha⟩, hf.lowerable_break hg hi he⟩
        intro a b hab
        rcases List.mem_append.mp hab with hab | hab
        · exact hm a b hab
        · obtain ⟨rfl, rfl⟩ := Prod.mk.inj (List.mem_singleton.mp hab)
          exact hnew
    · simp only [hlt, ↓reduceIte]
      exact ⟨⟨hq ▸ hf, h.approved, h.answered⟩, trivial⟩

end Sound

/-- Where there is nothing to do, nothing is in the queue, and if places are left, each edge that
holds one of them up was declined. -/
theorem step_stopped (h : (s.step g breaker).2 = false) :
    (s.step g breaker).1.queue = [] ∧
      (s.step g breaker).1.obstacles g = s.obstacles g ∧
      ((s.step g breaker).1.followed.length < g.size → ∀ i j, (i, j) ∈ s.obstacles g →
        ∀ e, g.edge? i j = some e → ⟨e, false⟩ ∈ (s.step g breaker).1.offers) := by
  cases hq : s.queue with
  | cons i rest => simp [step, hq] at h
  | nil =>
    by_cases hlt : s.followed.length < g.size
    · rcases hc : consult g breaker s.offers (s.obstacles g) with ⟨offers, _ | ⟨i, j⟩⟩
      · have hs : s.step g breaker = ({ s with offers }, false) := by simp [step, hq, hlt, hc]
        rw [hs]
        refine ⟨hq, rfl, fun _ i j hm e he => ?_⟩
        have := consult_declined (congrArg Prod.snd hc) hm he
        rwa [hc] at this
      · simp [step, hq, hlt, hc] at h
    · have hs : s.step g breaker = (s, false) := by simp [step, hq, hlt]
      rw [hs]
      exact ⟨hq, rfl, fun h => absurd h hlt⟩

/-- Where a sort stands after some number of steps. -/
inductive Reached (g : Multigraph V E) (breaker : Breaker V E) : Nat → Sorting V E → Prop
  | start : Reached g breaker 0 (start g)
  | step {n : Nat} {s : Sorting V E} : Reached g breaker n s → (s.step g breaker).2 = true →
    Reached g breaker (n + 1) (s.step g breaker).1

namespace Reached

theorem sound (hg : g.WellFormed) {n : Nat} (h : Reached g breaker n s) : Sound g breaker s := by
  induction h with
  | start => exact Sound.start g breaker
  | step _ _ ih => exact (ih.step hg).1

theorem work_le {n : Nat} (h : Reached g breaker n s) :
    n + s.work g ≤ (Sorting.start g).work g := by
  induction h with
  | start => omega
  | step _ hs ih =>
    have := work_step hs
    omega

/-- Every sort comes to a step with nothing to do, and its end is that step's. -/
theorem run {n : Nat} (h : Reached g breaker n s) :
    ∃ m t, Reached g breaker m t ∧ (t.step g breaker).2 = false ∧
      s.run g breaker = (t.step g breaker).1 := by
  fun_induction Sorting.run g breaker s generalizing n with
  | case1 s hs ih => exact ih (h.step hs)
  | case2 s hs => exact ⟨n, s, h, by simpa using hs, rfl⟩

end Reached

theorem length_free (counts : List Nat) :
    (free counts).length + waiting counts = counts.length := by
  have hfree : (free counts).length = (List.range counts.length).countP
      fun i => counts.getD i 0 == 0 := by
    rw [free, ← List.countP_eq_length_filter]
    apply List.countP_congr
    intro i hi
    have hi := List.mem_range.mp hi
    simp [List.getD_eq_getElem?_getD, List.getElem?_eq_getElem hi]
  have hall : (List.range counts.length).map (fun i => counts.getD i 0) = counts := by
    apply List.ext_getElem
    · simp
    · intro i hi _
      simp at hi
      simp [hi]
  have hcount : (List.range counts.length).countP (fun i => counts.getD i 0 == 0) =
      counts.countP (· == 0) := by
    conv_rhs => rw [← hall]
    rw [List.countP_map]
    rfl
  rw [hfree, hcount, waiting, List.length_eq_countP_add_countP (· == 0)]
  simp

theorem work_start (g : Multigraph V E) :
    (start g).work g = g.edgePlaces.length + g.size := by
  have h := length_free g.predecessorCounts
  simp only [work, unbroken, start]
  simp only [predecessorCounts, List.length_map] at h
  simp [predecessorCounts, size]
  omega

end Sorting

namespace Multigraph
open Sorting

variable {g : Multigraph V E} {breaker : Breaker V E}

/-- A sort ends with an empty queue, and if places are left then, each edge that holds one of them
up was declined. -/
theorem sort_ends (hg : g.WellFormed) (breaker : Breaker V E) :
    ∃ s, Sound g breaker s ∧ s.queue = [] ∧
      (s.followed.length < g.size → ∀ i j, (i, j) ∈ s.obstacles g →
        ∀ e, g.edge? i j = some e → ⟨e, false⟩ ∈ s.offers) ∧
      (g.sort breaker).offers = s.offers ∧
      (g.sort breaker).order =
        if s.followed.length < g.size then .error (g.unsortable s.counts s.broken)
        else .ok (s.followed.filterMap g.vertex?) := by
  have hstart : Reached g breaker 0 (start g) := .start
  obtain ⟨n, t, ht, hstop, hrun⟩ := hstart.run
  obtain ⟨hq, hobstacles, hdeclined⟩ := step_stopped hstop
  rw [← hobstacles] at hdeclined
  refine ⟨_, ((ht.sound hg).step hg).1, hq, hdeclined, ?_, ?_⟩
  · simp only [sort, hrun]
  · simp only [sort, hrun, sorted, hq, List.append_nil]

theorem offers_answered (hg : g.WellFormed) (breaker : Breaker V E) :
    ∀ o ∈ (g.sort breaker).offers, Answered breaker o := by
  obtain ⟨s, hs, _, _, hoffers, _⟩ := sort_ends hg breaker
  rw [hoffers]
  exact hs.answered

theorem sort_eq_ok (hg : g.WellFormed) {order : List V} (h : (g.sort breaker).order = .ok order) :
    ∃ s, Sound g breaker s ∧ s.followed.Perm (List.range g.size) ∧
      Ordered (g.Unbroken s.broken) s.followed ∧ (g.sort breaker).offers = s.offers ∧
      order = s.followed.filterMap g.vertex? := by
  obtain ⟨s, hs, hq, _, hoffers, horder⟩ := sort_ends hg breaker
  have hf := hs.frontier
  rw [hq] at hf
  rw [h] at horder
  split at horder
  · cases horder
  · rename_i hlt
    have hperm := hf.perm_range (by simpa using hlt)
    have hord := hf.ordered
    rw [List.append_nil] at hperm hord
    exact ⟨s, hs, hperm, hord, hoffers, Except.ok.inj horder⟩

theorem perm_of_sort (hg : g.WellFormed) {order : List V}
    (h : (g.sort breaker).order = .ok order) : order.Perm g.vertices := by
  obtain ⟨s, _, hperm, _, _, rfl⟩ := sort_eq_ok hg h
  rw [← filterMap_vertex?_range]
  exact hperm.filterMap _

theorem idxOf_filterMap [DecidableEq V] {f : Nat → Option V} {l : List Nat} {i : Nat} {v : V}
    (hl : ∀ j ∈ l, (f j).isSome) (hi : ∀ j, f j = some v ↔ j = i) :
    (l.filterMap f).idxOf v = l.idxOf i := by
  induction l with
  | nil => rfl
  | cons j l ih =>
    obtain ⟨w, hw⟩ := Option.isSome_iff_exists.mp (hl j List.mem_cons_self)
    have ih := ih fun k hk => hl k (List.mem_cons_of_mem j hk)
    have hj := hi j
    rw [hw, Option.some.injEq] at hj
    rw [List.filterMap_cons_some hw]
    by_cases h : w = v
    · rw [h, hj.mp h, List.idxOf_cons_self, List.idxOf_cons_self]
    · rw [List.idxOf_cons_ne _ h, List.idxOf_cons_ne _ (fun hji => h (hj.mpr hji)), ih]

variable [DecidableEq V]

/-- An edge that does not lead on in the order was offered, and approved. -/
theorem approved_of_not_forward (hg : g.Indexed) {order : List V}
    (h : (g.sort breaker).order = .ok order) {u v : V} (huv : g.HasEdge u v)
    (hnot : ¬ order.idxOf u < order.idxOf v) :
    ⟨⟨u, v, g.labels u v⟩, true⟩ ∈ (g.sort breaker).offers := by
  obtain ⟨s, hs, hperm, hord, hoffers, rfl⟩ := sort_eq_ok hg.toWellFormed h
  obtain ⟨i, j, hi, hj, hij⟩ := hg.hasEdge_iff.mp huv
  have hsome (k : Nat) (hk : k ∈ s.followed) : (g.vertex? k).isSome :=
    vertex?_isSome.mpr (List.mem_range.mp (hperm.mem_iff.mp hk))
  have hiff {k : Nat} {w : V} (hk : g.vertex? k = some w) (l : Nat) :
      g.vertex? l = some w ↔ l = k :=
    ⟨fun hl => hg.vertex?_inj hl hk, fun hl => hl ▸ hk⟩
  rw [idxOf_filterMap hsome (hiff hi), idxOf_filterMap hsome (hiff hj)] at hnot
  have hjm : j ∈ s.followed :=
    hperm.mem_iff.mpr (List.mem_range.mpr (hg.lt_size_of_mem_predecessors hij).2)
  have hbroken : (i, j) ∈ s.broken := by
    by_contra hb
    exact hnot (hord.idxOf_lt hjm ⟨hij, hb⟩)
  obtain ⟨e, he, ho⟩ := hs.approved i j hbroken
  rw [hg.edge?_eq hi hj] at he
  rw [hoffers, Option.some.inj he]
  exact ho

/-- A sort that does not end well has been declined a cycle of edges. -/
theorem not_acyclic_of_declined (hg : g.Indexed)
    (h : ∀ order, (g.sort breaker).order ≠ .ok order) :
    ¬ Acyclic fun u v =>
      g.HasEdge u v ∧ ⟨⟨u, v, g.labels u v⟩, false⟩ ∈ (g.sort breaker).offers := by
  obtain ⟨s, hs, hq, hdeclined, hoffers, horder⟩ := sort_ends hg.toWellFormed breaker
  have hlt : s.followed.length < g.size := by
    by_contra hlt
    rw [if_neg hlt] at horder
    exact h _ horder
  have hf := hs.frontier
  rw [hq] at hf
  rw [acyclic_iff_places hg.toWellFormed
    (s := fun i j => i ∈ g.predecessors j ∧ ∃ e, g.edge? i j = some e ∧ ⟨e, false⟩ ∈ s.offers)]
  · intro ha
    apply hf.not_acyclic hg.toWellFormed hlt
    refine ha.mono fun i j hij => ?_
    obtain ⟨he, hi, hj⟩ := hij
    have hwaits {k : Nat} (hk : k < g.size) (hn : k ∉ s.followed) : s.counts.getD k 0 ≠ 0 := by
      intro hz
      rw [hf.counted] at hz
      have hm := (hf.mem_iff k).mpr ⟨hk, hz⟩
      rw [List.append_nil] at hm
      exact hn hm
    obtain ⟨hisize, hjsize⟩ := hg.lt_size_of_mem_predecessors he.1
    obtain ⟨e, hedge⟩ := hg.exists_edge he.1
    have hm := mem_obstacles.mpr ⟨he, hwaits hisize hi, hwaits hjsize hj⟩
    exact ⟨he.1, e, hedge, hdeclined hlt i j hm e hedge⟩
  · intro u v
    rw [hg.hasEdge_iff, hoffers]
    constructor
    · intro huv
      obtain ⟨⟨i, j, hi, hj, hij⟩, ho⟩ := huv
      exact ⟨i, j, hi, hj, hij, _, hg.edge?_eq hi hj, ho⟩
    · intro huv
      obtain ⟨i, j, hi, hj, hij, e, he, ho⟩ := huv
      rw [hg.edge?_eq hi hj] at he
      exact ⟨⟨i, j, hi, hj, hij⟩, Option.some.inj he ▸ ho⟩
  · intro i j hij
    exact hg.lt_size_of_mem_predecessors hij.1

/-- A sort succeeds exactly if the edges that the breaker declines do not go round, and then only
edges that it approves do not lead on. It takes no more steps than there are edges and vertices. -/
theorem sort_breaks_approved_edges (g : Multigraph V E) (hg : g.Built) (breaker : Breaker V E)
    (approves : Edge V E → Bool) (hb : ∀ earlier e, breaker earlier e = approves e) :
    ((∃ order, (g.sort breaker).order = .ok order) ↔
      Acyclic fun u v => g.HasEdge u v ∧ approves ⟨u, v, g.labels u v⟩ = false) ∧
    (∀ order, (g.sort breaker).order = .ok order →
      g.vertices.Nodup ∧ order.Perm g.vertices ∧
      ∀ u v, g.HasEdge u v → ¬ order.idxOf u < order.idxOf v →
        approves ⟨u, v, g.labels u v⟩ = true) ∧
    (∃ n s, Reached g breaker n s ∧ (s.step g breaker).2 = false ∧
      (start g).run g breaker = (s.step g breaker).1) ∧
    ∀ n s, Reached g breaker n s →
      n ≤ g.edgePlaces.length + g.size ∧ Lowerable s.counts (s.lowered g breaker) ∧
      (s.step g breaker).1.counts = (release s.counts (s.lowered g breaker)).1 := by
  have hw := hg.indexed
  have hanswer {e : Edge V E} {b : Bool} (ho : ⟨e, b⟩ ∈ (g.sort breaker).offers) :
      approves e = b := by
    obtain ⟨earlier, h⟩ := offers_answered hg.wellFormed breaker _ ho
    rw [← hb earlier e]
    exact h
  have hforward {order : List V} (h : (g.sort breaker).order = .ok order) (u v : V)
      (huv : g.HasEdge u v) (hnot : ¬ order.idxOf u < order.idxOf v) :
      approves ⟨u, v, g.labels u v⟩ = true :=
    hanswer (approved_of_not_forward hw h huv hnot)
  refine ⟨⟨?_, ?_⟩, ?_, Reached.run .start, ?_⟩
  · intro h
    obtain ⟨order, h⟩ := h
    refine acyclic_of_lt (f := order.idxOf) fun u v huv => ?_
    by_contra hnot
    have := hforward h u v huv.1 hnot
    simp [huv.2] at this
  · intro ha
    by_contra hno
    push Not at hno
    exact not_acyclic_of_declined hw hno (ha.mono fun u v huv => ⟨huv.1, hanswer huv.2⟩)
  · intro order h
    exact ⟨hw.unique, perm_of_sort hg.wellFormed h, hforward h⟩
  · intro n s h
    refine ⟨?_, ((h.sound hg.wellFormed).step hg.wellFormed).2, step_counts g breaker s⟩
    have := h.work_le
    rw [work_start] at this
    omega

/-- Two vertices with an edge each way. -/
def bothWays : Multigraph Nat String :=
  (((empty.addVertex 1).addVertex 2).addEdgesAt 0 1 ["there"]).addEdgesAt 1 0 ["back"]

theorem bothWays_built : bothWays.Built := by
  have hv : ((empty.addVertex 1).addVertex 2 : Multigraph Nat String).Built :=
    .addVertex 2 (.addVertex 1 .empty)
  exact (hv.addEdges 1 2 ["there"]).addEdges 2 1 ["back"]

theorem sort_breaks_approved_edges_bothWays :
    bothWays.Built ∧ (bothWays.sort (.ofEdge fun e => e.labels = ["back"])).order = .ok [1, 2] ∧
      Acyclic (fun u v => bothWays.HasEdge u v ∧ decide (bothWays.labels u v = ["back"]) = false) ∧
      bothWays.HasEdge 2 1 ∧ ¬ [1, 2].idxOf 2 < [1, 2].idxOf 1 ∧
      decide (bothWays.labels 2 1 = ["back"]) = true := by
  obtain ⟨hok, horder, _⟩ := sort_breaks_approved_edges bothWays bothWays_built
    (.ofEdge fun e => e.labels = ["back"]) (fun e => e.labels = ["back"]) fun _ _ => rfl
  have hsort : (bothWays.sort (.ofEdge fun e => e.labels = ["back"])).order = .ok [1, 2] := by
    decide +kernel
  obtain ⟨_, _, happroved⟩ := horder _ hsort
  have hedge : bothWays.HasEdge 2 1 := by decide
  exact ⟨bothWays_built, hsort, hok.mp ⟨_, hsort⟩, hedge, by decide,
    happroved 2 1 hedge (by decide)⟩

end Multigraph

end WritePlan

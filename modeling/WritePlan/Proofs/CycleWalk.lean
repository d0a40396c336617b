import WritePlan.Proofs.Cycles

namespace WritePlan.Multigraph

variable {V E : Type} {g : Multigraph V E} {waits : Nat → Bool} {broken : List (Nat × Nat)}

/-- The first place that holds up `i`: it waits, and its edge to `i` is not broken. -/
def holder? (g : Multigraph V E) (waits : Nat → Bool) (broken : List (Nat × Nat)) (i : Nat) :
    Option Nat :=
  (g.predecessors i).find? fun p => waits p && !broken.contains (p, i)

/-- The walk against the edges, by its rounds. In each round, standing at a place, it looks for the
place to go on to. It ends where there is none, and with a place that it has passed or stands at. -/
inductive Retraces (g : Multigraph V E) (waits : Nat → Bool) (broken : List (Nat × Nat)) :
    (rounds : Nat) → (passed : List Nat) → (place : Nat) → (walk : List Nat) → Prop
  | dead {passed : List Nat} {i : Nat} : g.holder? waits broken i = none →
    Retraces g waits broken 1 passed i (i :: passed)
  | met {passed : List Nat} {i p : Nat} : g.holder? waits broken i = some p → p ∈ i :: passed →
    Retraces g waits broken 1 passed i (p :: i :: passed)
  | on {rounds : Nat} {passed walk : List Nat} {i p : Nat} : g.holder? waits broken i = some p →
    p ∉ i :: passed → Retraces g waits broken rounds (i :: passed) p walk →
    Retraces g waits broken (rounds + 1) passed i walk

theorem Retraces.ne_nil {rounds i : Nat} {passed walk : List Nat}
    (h : g.Retraces waits broken rounds passed i walk) : walk ≠ [] := by
  induction h with
  | dead => exact List.cons_ne_nil _ _
  | met => exact List.cons_ne_nil _ _
  | on _ _ _ ih => exact ih

/-- Each round but the last takes one place off those that are fresh. -/
theorem retraces_walkBack {fresh passed : List Nat} {i : Nat} (hn : (fresh ++ i :: passed).Nodup)
    (hall : ∀ p, waits p = true → p ∈ fresh ++ i :: passed) :
    ∃ rounds, rounds ≤ fresh.length + 1 ∧
      g.Retraces waits broken rounds passed i (g.walkBack waits broken fresh passed i) := by
  fun_induction walkBack g waits broken fresh passed i with
  | case1 fresh passed i hnone => exact ⟨1, by omega, .dead hnone⟩
  | case2 fresh passed i p hsome hp ih =>
    have hperm : (fresh.erase p ++ p :: i :: passed).Perm (fresh ++ i :: passed) :=
      List.perm_middle.trans ((List.perm_cons_erase hp).symm.append_right _)
    obtain ⟨rounds, hle, hwalk⟩ :=
      ih (hperm.nodup_iff.mpr hn) fun q hq => hperm.mem_iff.mpr (hall q hq)
    have hlength := List.length_erase_of_mem hp
    have hpos := List.length_pos_of_mem hp
    refine ⟨rounds + 1, by omega, .on hsome (fun hmem => ?_) hwalk⟩
    exact (List.nodup_append.mp hn).2.2 p hp p hmem rfl
  | case3 fresh passed i p hsome hp =>
    have hwaits := (find?_unbroken_eq_some hsome).2
    have hmem : p ∈ i :: passed := (List.mem_append.mp (hall p hwaits)).resolve_left hp
    exact ⟨1, by omega, .met hsome hmem⟩

/-- Where a place waits, the cycle is cut from a walk that starts at the first one and has no more
rounds than places wait. -/
theorem retraces_cyclePlaces (g : Multigraph V E) (broken : List (Nat × Nat))
    {remaining : List Nat} {start : Nat} (hs : remaining.findIdx? (· != 0) = some start) :
    ∃ rounds walk, rounds ≤ ((List.range remaining.length).filter (waitsIn remaining)).length ∧
      g.Retraces (waitsIn remaining) broken rounds [] start walk ∧
      g.cyclePlaces remaining broken = throughLast (walk.headD start) walk := by
  obtain ⟨hn, hall, _, hlength⟩ := fresh_of_findIdx? hs
  obtain ⟨rounds, hle, hwalk⟩ := @retraces_walkBack _ _ g _ broken _ _ _ hn hall
  refine ⟨rounds, _, hlength ▸ hle, hwalk, ?_⟩
  obtain ⟨i, rest, heq⟩ := List.exists_cons_of_ne_nil hwalk.ne_nil
  rw [heq]
  have hwaitsIn : waitsIn remaining = fun i => remaining.getD i 0 != 0 := rfl
  rw [hwaitsIn] at heq
  simp only [cyclePlaces, hs, heq, List.headD_cons]

/-- The vertices whose count is not zero. A count that is missing is zero. -/
def waitingVertices (g : Multigraph V E) (remaining : List Nat) : List V :=
  ((List.range g.size).filter (waitsIn remaining)).filterMap g.vertex?

theorem mem_waitingVertices {remaining : List Nat} {v : V} :
    v ∈ g.waitingVertices remaining ↔
      ∃ i, g.vertex? i = some v ∧ waitsIn remaining i = true := by
  simp only [waitingVertices, List.mem_filterMap, List.mem_filter, List.mem_range]
  constructor
  · rintro ⟨i, ⟨_, hi⟩, hv⟩
    exact ⟨i, hv, hi⟩
  · rintro ⟨i, hv, hi⟩
    exact ⟨i, ⟨vertex?_isSome.mp (Option.isSome_of_eq_some hv), hi⟩, hv⟩

theorem lt_length_of_waitsIn {remaining : List Nat} {i : Nat} (h : waitsIn remaining i = true) :
    i < remaining.length := by
  by_contra hle
  simp [waitsIn, List.getD_eq_getElem?_getD, List.getElem?_eq_none (Nat.le_of_not_lt hle)] at h

/-- There are as many of them as there are counts that are not zero. -/
theorem length_waitingVertices {remaining : List Nat} (hlen : remaining.length ≤ g.size) :
    (g.waitingVertices remaining).length =
      ((List.range remaining.length).filter (waitsIn remaining)).length := by
  have hsome : ∀ i ∈ (List.range g.size).filter (waitsIn remaining), (g.vertex? i).isSome := by
    intro i hi
    exact vertex?_isSome.mpr (List.mem_range.mp (List.mem_filter.mp hi).1)
  rw [waitingVertices, List.length_filterMap_eq_countP, List.countP_eq_length.mpr hsome]
  refine (((List.perm_ext_iff_of_nodup (List.nodup_range.filter _)
    (List.nodup_range.filter _)).mpr fun i => ?_)).length_eq
  simp only [List.mem_filter, List.mem_range]
  refine and_congr_left fun hi => ?_
  have := lt_length_of_waitsIn hi
  omega

theorem exists_vertex {remaining : List Nat} (hlen : remaining.length ≤ g.size) {i : Nat}
    (hi : waitsIn remaining i = true) : ∃ v, g.vertex? i = some v :=
  Option.isSome_iff_exists.mp
    (vertex?_isSome.mpr (Nat.lt_of_lt_of_le (lt_length_of_waitsIn hi) hlen))

variable [DecidableEq V]

/-- The list goes once round over edges of the graph: it begins and ends with the same vertex and
else has each of its vertices once, all of them from `among`. -/
def GoesRound (g : Multigraph V E) (among round : List V) : Prop :=
  ∃ v inner, round = v :: (inner ++ [v]) ∧ (v :: inner).Nodup ∧ (∀ u ∈ v :: inner, u ∈ among) ∧
    round.IsChain g.HasEdge

/-- The list is a single vertex from `among`, to which no edge leads from any of them. -/
def DiesOut (g : Multigraph V E) (among walk : List V) : Prop :=
  ∃ v ∈ among, walk = [v] ∧ ∀ u ∈ among, ¬ g.HasEdge u v

theorem isChain_vertices (hg : g.Indexed) {places : List Nat}
    (h : places.IsChain (· ∈ g.predecessors ·)) :
    (places.filterMap g.vertex?).IsChain g.HasEdge := by
  induction h with
  | nil => exact .nil
  | singleton i => cases hi : g.vertex? i <;> simp [hi]
  | @cons_cons i j rest hij _ ih =>
    obtain ⟨e, he⟩ := hg.exists_edge hij
    obtain ⟨hsource, htarget, _⟩ := edge?_eq_some.mp he
    rw [List.filterMap_cons_some htarget] at ih
    rw [List.filterMap_cons_some hsource, List.filterMap_cons_some htarget]
    exact .cons_cons (hg.hasEdge_iff.mpr ⟨i, j, hsource, htarget, hij⟩) ih

theorem diesOut_of_dead (hg : g.Indexed) {remaining : List Nat}
    (hlen : remaining.length ≤ g.size) {i : Nat} (hi : waitsIn remaining i = true)
    (hdead : ∀ p, g.Unbroken [] p i → waitsIn remaining p = false) :
    g.DiesOut (g.waitingVertices remaining) ([i].filterMap g.vertex?) := by
  obtain ⟨v, hv⟩ := exists_vertex hlen hi
  refine ⟨v, mem_waitingVertices.mpr ⟨i, hv, hi⟩, by simp [hv], fun u hu huv => ?_⟩
  obtain ⟨p, hp, hwaits⟩ := mem_waitingVertices.mp hu
  have hedge := (hg.hasEdge_iff_mem hp hv).mp huv
  rw [hdead p ⟨hedge, List.not_mem_nil⟩] at hwaits
  cases hwaits

theorem goesRound_of_chain (hg : g.Indexed) {remaining : List Nat}
    (hlen : remaining.length ≤ g.size) {i : Nat} {inner : List Nat} (hn : (i :: inner).Nodup)
    (hchain : (i :: (inner ++ [i])).IsChain (g.HoldsUp (waitsIn remaining) [])) :
    g.GoesRound (g.waitingVertices remaining) ((i :: (inner ++ [i])).filterMap g.vertex?) := by
  -- each place but the last holds up the one behind it
  have hwaits (j : Nat) (hj : j ∈ i :: inner) : waitsIn remaining j = true := by
    obtain ⟨before, after, heq⟩ := List.append_of_mem hj
    rw [← List.cons_append, heq, List.append_assoc] at hchain
    have hrest := hchain.right_of_append
    cases after with
    | nil => exact (List.isChain_cons_cons.mp hrest).1.2.1
    | cons k after => exact (List.isChain_cons_cons.mp hrest).1.2.1
  obtain ⟨v, hv⟩ := exists_vertex hlen (hwaits i List.mem_cons_self)
  have hvertices : (i :: inner).filterMap g.vertex? = v :: inner.filterMap g.vertex? :=
    List.filterMap_cons_some hv
  refine ⟨v, inner.filterMap g.vertex?, ?_, ?_, fun u hu => ?_, ?_⟩
  · rw [List.filterMap_cons_some hv, List.filterMap_append]
    simp [hv]
  · rw [← hvertices]
    exact hn.filterMap fun a b u ha hb => hg.vertex?_inj ha hb
  · rw [← hvertices] at hu
    obtain ⟨j, hj, hu⟩ := List.mem_filterMap.mp hu
    exact mem_waitingVertices.mpr ⟨j, hu, hwaits j hj⟩
  · exact isChain_vertices hg (hchain.imp fun _ _ h => h.1.1)

theorem DiesOut.ne_nil {among walk : List V} (h : g.DiesOut among walk) :
    among ≠ [] ∧ walk ≠ [] := by
  obtain ⟨v, hv, rfl, _⟩ := h
  exact ⟨List.ne_nil_of_mem hv, List.cons_ne_nil _ _⟩

theorem GoesRound.ne_nil {among round : List V} (h : g.GoesRound among round) :
    among ≠ [] ∧ round ≠ [] := by
  obtain ⟨v, inner, rfl, _, hamong, _⟩ := h
  exact ⟨List.ne_nil_of_mem (hamong v List.mem_cons_self), List.cons_ne_nil _ _⟩

theorem cycle_cases (hg : g.Indexed) {remaining : List Nat}
    (hlen : remaining.length ≤ g.size) :
    g.waitingVertices remaining = [] ∧ g.cycle remaining = [] ∨
      g.DiesOut (g.waitingVertices remaining) (g.cycle remaining) ∨
      g.GoesRound (g.waitingVertices remaining) (g.cycle remaining) := by
  rcases cyclePlaces_cases g remaining [] with ⟨hnone, hplaces⟩ | ⟨i, hi, hdead, hplaces⟩ |
    ⟨i, inner, hplaces, hn, hchain⟩
  · refine .inl ⟨List.eq_nil_iff_forall_not_mem.mpr fun v hv => ?_, by rw [cycle, hplaces]; rfl⟩
    obtain ⟨i, _, hi⟩ := mem_waitingVertices.mp hv
    rw [hnone] at hi
    cases hi
  · rw [cycle, hplaces]
    exact .inr (.inl (diesOut_of_dead hg hlen hi hdead))
  · rw [cycle, hplaces]
    exact .inr (.inr (goesRound_of_chain hg hlen hn hchain))

/-- On any counts the search for a cycle ends, with no more rounds than vertices wait. It finds a
way round through waiting vertices, or else one that waits for none of them, or nothing if none
waits. -/
theorem cycle_on_any_counts (g : Multigraph V E) (hg : g.Built) (remaining : List Nat)
    (hlen : remaining.length ≤ g.size) :
    let waiting := g.waitingVertices remaining
    (∀ v, v ∈ waiting ↔ ∃ i, g.vertex? i = some v ∧ remaining.getD i 0 ≠ 0) ∧ waiting.Nodup ∧
    (g.cycle remaining = [] ↔ waiting = []) ∧
    (waiting ≠ [] →
      (∃ start rounds walk, remaining.findIdx? (· != 0) = some start ∧ rounds ≤ waiting.length ∧
        g.Retraces (waitsIn remaining) [] rounds [] start walk ∧
        g.cycle remaining = (throughLast (walk.headD start) walk).filterMap g.vertex?) ∧
      (g.DiesOut waiting (g.cycle remaining) ∨ g.GoesRound waiting (g.cycle remaining)) ∧
      ((∀ v ∈ waiting, ∃ u ∈ waiting, g.HasEdge u v) → g.GoesRound waiting (g.cycle remaining))) := by
  intro waiting
  have hw := hg.indexed
  have hcases := cycle_cases hw hlen
  refine ⟨fun v => ?_, ?_, ?_, fun hne => ⟨?_, hcases.resolve_left fun h => hne h.1, fun hheld => ?_⟩⟩
  · simp only [waiting, mem_waitingVertices, waitsIn, bne_iff_ne]
  · exact (List.nodup_range.filter _).filterMap fun a b u ha hb => hw.vertex?_inj ha hb
  · rcases hcases with ⟨hnone, hnil⟩ | hdies | hround
    · exact iff_of_true hnil hnone
    · exact iff_of_false hdies.ne_nil.2 hdies.ne_nil.1
    · exact iff_of_false hround.ne_nil.2 hround.ne_nil.1
  · cases hs : remaining.findIdx? (· != 0) with
    | none =>
      have hnil : g.cycle remaining = [] := by simp [cycle, cyclePlaces, hs]
      rcases hcases with ⟨hnone, _⟩ | hdies | hround
      · exact absurd hnone hne
      · exact absurd hnil hdies.ne_nil.2
      · exact absurd hnil hround.ne_nil.2
    | some start =>
      obtain ⟨rounds, walk, hle, hwalk, hplaces⟩ := retraces_cyclePlaces g [] hs
      refine ⟨start, rounds, walk, rfl, ?_, hwalk, by rw [cycle, hplaces]⟩
      rwa [← length_waitingVertices hlen] at hle
  · rcases hcases with ⟨hnone, _⟩ | hdies | hround
    · exact absurd hnone hne
    · -- the one at which it died out has none before it that waits
      obtain ⟨v, hv, _, hfree⟩ := hdies
      obtain ⟨u, hu, huv⟩ := hheld v hv
      exact absurd huv (hfree u hu)
    · exact hround

/-- On counts of its own, the walk dies out at the first vertex, for which the fourth does not wait;
or it leads from there to the second pair. -/
theorem cycle_on_any_counts_knots :
    knots.Built ∧ [9, 0, 2, 0].length ≤ knots.size ∧ [1, 0, 0, 5, 2].length ≤ knots.size ∧
      knots.cycle [9, 0, 2, 0] = [1] ∧ knots.DiesOut [1, 3] [1] ∧
      knots.cycle [1, 0, 0, 5, 2] = [4, 5, 4] ∧ knots.GoesRound [1, 4, 5] [4, 5, 4] := by
  have hfirst : [9, 0, 2, 0].length ≤ knots.size := by decide
  have hsecond : [1, 0, 0, 5, 2].length ≤ knots.size := by decide
  obtain ⟨_, _, _, hdies⟩ := cycle_on_any_counts knots knots_built [9, 0, 2, 0] hfirst
  obtain ⟨_, _, _, hround⟩ := cycle_on_any_counts knots knots_built [1, 0, 0, 5, 2] hsecond
  have hwalk : knots.cycle [9, 0, 2, 0] = [1] := by decide +kernel
  have hcycle : knots.cycle [1, 0, 0, 5, 2] = [4, 5, 4] := by decide +kernel
  have hamong : knots.waitingVertices [9, 0, 2, 0] = [1, 3] := by decide +kernel
  have hamong' : knots.waitingVertices [1, 0, 0, 5, 2] = [1, 4, 5] := by decide +kernel
  rw [hamong, hwalk] at hdies
  rw [hamong', hcycle] at hround
  refine ⟨knots_built, hfirst, hsecond, hwalk, ?_, hcycle, ?_⟩
  · refine (hdies (by decide)).2.1.resolve_right ?_
    rintro ⟨v, inner, h, _⟩
    simp at h
  · exact (hround (by decide)).2.2 (by decide +kernel)

end WritePlan.Multigraph

import Mathlib.Data.List.Chain
import Mathlib.Data.List.Rotate
import WritePlan.Error.Report
import WritePlan.Proofs.EdgeBreaking
import WritePlan.Proofs.LevelOrder

namespace WritePlan

variable {V E : Type}

theorem throughLast_append {v : Nat} (before : List Nat) {after : List Nat} (h : v ∉ after) :
    throughLast v (before ++ v :: after) = before ++ [v] := by
  induction before with
  | nil => simp [throughLast, h]
  | cons i before ih => simp [throughLast, ih]

namespace Multigraph

/-- An edge that is not broken leads from one waiting place to another. -/
def HoldsUp (g : Multigraph V E) (waits : Nat → Bool) (broken : List (Nat × Nat)) (p i : Nat) :
    Prop :=
  g.Unbroken broken p i ∧ waits p = true ∧ waits i = true

variable {g : Multigraph V E} {waits : Nat → Bool} {broken : List (Nat × Nat)}

theorem find?_unbroken_eq_none {i : Nat}
    (h : ((g.predecessors i).find? fun p => waits p && !broken.contains (p, i)) = none) :
    ∀ p, g.Unbroken broken p i → waits p = false := by
  intro p hp
  have := List.find?_eq_none.mp h p hp.1
  simpa [hp.2] using this

theorem find?_unbroken_eq_some {i p : Nat}
    (h : ((g.predecessors i).find? fun p => waits p && !broken.contains (p, i)) = some p) :
    g.Unbroken broken p i ∧ waits p = true := by
  have hp := List.find?_some h
  simp only [List.contains_eq_mem, Bool.and_eq_true, Bool.not_eq_true',
    decide_eq_false_iff_not] at hp
  exact ⟨⟨List.mem_of_find?_eq_some h, hp.2⟩, hp.1⟩

/-- The walk never leaves the waiting places. It ends where none of them is in front, or at the
first place that it has passed already. -/
theorem walkBack_ends {fresh passed : List Nat} {i : Nat} (hn : (fresh ++ i :: passed).Nodup)
    (hall : ∀ p, waits p = true → p ∈ fresh ++ i :: passed) (hi : waits i = true)
    (hchain : (i :: passed).IsChain (g.HoldsUp waits broken)) :
    ∃ j rest, g.walkBack waits broken fresh passed i = j :: rest ∧ waits j = true ∧
      (j :: rest).IsChain (g.HoldsUp waits broken) ∧
      ((∀ p, g.Unbroken broken p j → waits p = false) ∧ j ∉ rest ∨ j ∈ rest ∧ rest.Nodup) := by
  fun_induction walkBack g waits broken fresh passed i with
  | case1 fresh passed i hnone =>
    have hpassed := (List.nodup_append.mp hn).2.1
    exact ⟨i, passed, rfl, hi, hchain,
      .inl ⟨find?_unbroken_eq_none hnone, (List.nodup_cons.mp hpassed).1⟩⟩
  | case2 fresh passed i p hsome hp ih =>
    obtain ⟨hedge, hwaits⟩ := find?_unbroken_eq_some hsome
    -- the place moves from those that are fresh to those that were passed
    have hperm : (fresh.erase p ++ p :: i :: passed).Perm (fresh ++ i :: passed) :=
      List.perm_middle.trans ((List.perm_cons_erase hp).symm.append_right _)
    refine ih (hperm.nodup_iff.mpr hn) (fun q hq => hperm.mem_iff.mpr (hall q hq)) hwaits ?_
    exact .cons_cons ⟨hedge, hwaits, hi⟩ hchain
  | case3 fresh passed i p hsome hp =>
    obtain ⟨hedge, hwaits⟩ := find?_unbroken_eq_some hsome
    have hmem : p ∈ i :: passed := (List.mem_append.mp (hall p hwaits)).resolve_left hp
    exact ⟨p, i :: passed, rfl, hwaits, .cons_cons ⟨hedge, hwaits, hi⟩ hchain,
      .inr ⟨hmem, (List.nodup_append.mp hn).2.1⟩⟩

/-- Whether a place counts as waiting. -/
def waitsIn (remaining : List Nat) (i : Nat) : Bool :=
  remaining.getD i 0 != 0

/-- The places that are fresh when the walk begins are those that wait, less the first of them. -/
theorem fresh_of_findIdx? {remaining : List Nat} {start : Nat}
    (h : remaining.findIdx? (· != 0) = some start) :
    let places := (List.range remaining.length).filter (waitsIn remaining)
    (places.erase start ++ [start]).Nodup ∧
      (∀ p, waitsIn remaining p = true → p ∈ places.erase start ++ [start]) ∧
      waitsIn remaining start = true ∧ (places.erase start).length + 1 = places.length := by
  intro places
  obtain ⟨hlt, hstart, _⟩ := List.findIdx?_eq_some_iff_getElem.mp h
  have hwaits : waitsIn remaining start = true := by
    simpa [waitsIn, List.getD_eq_getElem?_getD, hlt] using hstart
  have hmem (p : Nat) (hp : waitsIn remaining p = true) : p ∈ places := by
    refine List.mem_filter.mpr ⟨List.mem_range.mpr (Nat.lt_of_not_le fun hle => ?_), hp⟩
    simp [waitsIn, List.getD_eq_getElem?_getD, List.getElem?_eq_none hle] at hp
  have hperm : (places.erase start ++ [start]).Perm places :=
    (List.perm_append_singleton start _).trans (List.perm_cons_erase (hmem start hwaits)).symm
  refine ⟨hperm.nodup_iff.mpr (List.nodup_range.filter _),
    fun p hp => hperm.mem_iff.mpr (hmem p hp), hwaits, ?_⟩
  rw [← hperm.length_eq, List.length_append, List.length_singleton]

/-- What is found by walking, whatever the counts: nothing where no place waits, a single place
where the walk died out, and else a way once round, through waiting places alone. -/
theorem cyclePlaces_cases (g : Multigraph V E) (remaining : List Nat) (broken : List (Nat × Nat)) :
    ((∀ i, waitsIn remaining i = false) ∧ g.cyclePlaces remaining broken = []) ∨
    (∃ i, waitsIn remaining i = true ∧
      (∀ p, g.Unbroken broken p i → waitsIn remaining p = false) ∧
      g.cyclePlaces remaining broken = [i]) ∨
    ∃ i inner, g.cyclePlaces remaining broken = i :: (inner ++ [i]) ∧ (i :: inner).Nodup ∧
      (i :: (inner ++ [i])).IsChain (g.HoldsUp (waitsIn remaining) broken) := by
  cases hs : remaining.findIdx? (· != 0) with
  | none =>
    refine .inl ⟨fun i => ?_, by simp [cyclePlaces, hs]⟩
    have hzero := List.findIdx?_eq_none_iff.mp hs
    cases hi : remaining[i]? with
    | none => simp [waitsIn, List.getD_eq_getElem?_getD, hi]
    | some c =>
      simpa [waitsIn, List.getD_eq_getElem?_getD, hi] using hzero c (List.mem_of_getElem? hi)
  | some start =>
    obtain ⟨hn, hall, hwaits, _⟩ := fresh_of_findIdx? hs
    obtain ⟨j, rest, hwalk, hj, hchain, hend⟩ :=
      @walkBack_ends _ _ g _ broken _ _ _ hn hall hwaits (.singleton start)
    have hplaces : g.cyclePlaces remaining broken = throughLast j (j :: rest) := by
      have hwaitsIn : waitsIn remaining = fun i => remaining.getD i 0 != 0 := rfl
      rw [hwaitsIn] at hwalk
      simp only [cyclePlaces, hs, hwalk]
    rcases hend with ⟨hdead, hj'⟩ | ⟨hj', hn⟩
    · refine .inr (.inl ⟨j, hj, hdead, ?_⟩)
      rw [hplaces]
      exact throughLast_append [] hj'
    · obtain ⟨inner, after, rfl⟩ := List.append_of_mem hj'
      obtain ⟨hinner, hafter, hdis⟩ := List.nodup_append.mp hn
      refine .inr (.inr ⟨j, inner, ?_, ?_, ?_⟩)
      · rw [hplaces]
        exact throughLast_append (j :: inner) (List.nodup_cons.mp hafter).1
      · exact List.nodup_cons.mpr ⟨fun hm => hdis j hm j List.mem_cons_self rfl, hinner⟩
      · refine hchain.prefix ⟨after, ?_⟩
        simp

theorem edgesAlong_cons {i j : Nat} {rest : List Nat} {e : Edge V E} (h : g.edge? i j = some e) :
    g.edgesAlong (i :: j :: rest) = e :: g.edgesAlong (j :: rest) := by
  simp [edgesAlong, h]

theorem edgesAlong_ends (hg : g.WellFormed) {i : Nat} {rest : List Nat}
    (h : (i :: rest).IsChain (· ∈ g.predecessors ·)) :
    (g.edgesAlong (i :: rest)).map (·.source) = (i :: rest).dropLast.filterMap g.vertex? ∧
      (g.edgesAlong (i :: rest)).map (·.target) = rest.filterMap g.vertex? := by
  induction rest generalizing i with
  | nil => exact ⟨rfl, rfl⟩
  | cons j rest ih =>
    obtain ⟨hij, hrest⟩ := List.isChain_cons_cons.mp h
    obtain ⟨e, he⟩ := hg.exists_edge hij
    obtain ⟨hsource, htarget, _⟩ := edge?_eq_some.mp he
    obtain ⟨hsources, htargets⟩ := ih hrest
    rw [edgesAlong_cons he, List.map_cons, List.map_cons, hsources, htargets,
      List.dropLast_cons_cons, List.filterMap_cons_some hsource, List.filterMap_cons_some htarget]
    exact ⟨rfl, rfl⟩

theorem edge_of_mem_edgesAlong {r : Nat → Nat → Prop} {places : List Nat} (h : places.IsChain r)
    {e : Edge V E} (he : e ∈ g.edgesAlong places) : ∃ i j, r i j ∧ g.edge? i j = some e := by
  induction h with
  | nil => exact absurd he List.not_mem_nil
  | singleton i => exact absurd he List.not_mem_nil
  | @cons_cons i j rest hij _ ih =>
    cases hedge : g.edge? i j with
    | none => exact ih (by simpa [edgesAlong, hedge] using he)
    | some d =>
      rw [edgesAlong_cons hedge] at he
      rcases List.mem_cons.mp he with rfl | he
      · exact ⟨i, j, hij, hedge⟩
      · exact ih he

/-- Where the levels end, nothing is left to follow. -/
theorem levelsFrom_end (hg : g.WellFormed) {done counts level : List Nat}
    (h : Frontier g [] done level counts) :
    Frontier g [] (done ++ (g.levelsFrom counts level).1.flatten) []
      (g.levelsFrom counts level).2 := by
  fun_induction levelsFrom g counts level generalizing done with
  | case1 counts level he =>
    obtain rfl : level = [] := List.isEmpty_iff.mp he
    simpa using h
  | case2 counts level hne next rest =>
    rename_i ih
    rw [← List.append_nil level] at h
    simpa using ih (h.followLevel hg).1

variable [DecidableEq V]

/-- Edges of the graph, with all their labels, that lead once round: the target of each is the
source of the next, that of the last the source of the first, and no vertex is met twice. -/
structure ClosedWalk (g : Multigraph V E) (edges : List (Edge V E)) : Prop where
  nonempty : edges ≠ []
  linked : edges.map (·.target) = (edges.map (·.source)).rotate 1
  distinct : (edges.map (·.source)).Nodup
  edge : ∀ e ∈ edges, g.HasEdge e.source e.target ∧ e.labels = g.labels e.source e.target

theorem Indexed.hasEdge_of_edge? (hg : g.Indexed) {i j : Nat} {e : Edge V E}
    (he : g.edge? i j = some e) (hij : i ∈ g.predecessors j) :
    g.HasEdge e.source e.target ∧ e.labels = g.labels e.source e.target := by
  obtain ⟨hsource, htarget, _⟩ := edge?_eq_some.mp he
  rw [hg.edge?_eq hsource htarget] at he
  exact ⟨hg.hasEdge_iff.mpr ⟨i, j, hsource, htarget, hij⟩,
    congrArg Edge.labels (Option.some.inj he).symm⟩

theorem closedWalk_edgesAlong (hg : g.Indexed) {i : Nat} {inner : List Nat}
    (hn : (i :: inner).Nodup) (h : (i :: (inner ++ [i])).IsChain (· ∈ g.predecessors ·)) :
    g.ClosedWalk (g.edgesAlong (i :: (inner ++ [i]))) := by
  obtain ⟨hsources, htargets⟩ := edgesAlong_ends hg.toWellFormed h
  have hi : i < g.size := by
    cases inner with
    | nil => exact (hg.lt_size_of_mem_predecessors (List.isChain_cons_cons.mp h).1).1
    | cons j inner => exact (hg.lt_size_of_mem_predecessors (List.isChain_cons_cons.mp h).1).1
  obtain ⟨v, hv⟩ := Option.isSome_iff_exists.mp (vertex?_isSome.mpr hi)
  have hdrop : (i :: (inner ++ [i])).dropLast = i :: inner :=
    @List.dropLast_concat _ (i :: inner) i
  rw [hdrop] at hsources
  refine ⟨fun he => ?_, ?_, ?_, fun e he => ?_⟩
  · rw [he, List.filterMap_cons_some hv] at hsources
    cases hsources
  · rw [htargets, hsources, List.filterMap_cons_some hv, List.filterMap_append]
    simp [hv]
  · rw [hsources]
    exact hn.filterMap fun a b v ha hb => hg.vertex?_inj ha hb
  · obtain ⟨a, b, hab, hedge⟩ := edge_of_mem_edgesAlong h he
    exact hg.hasEdge_of_edge? hedge hab

/-- With arrows, such edges read as the vertices on the way, the first of them also last. -/
theorem ClosedWalk.arrows_eq {edges : List (Edge V E)} (h : g.ClosedWalk edges)
    (text : V → String) :
    arrows text edges =
      " -> ".intercalate ((edges ++ edges.take 1).map fun e => text e.source) := by
  cases edges with
  | nil => exact absurd rfl h.nonempty
  | cons e es =>
    have htargets := congrArg (List.map text) h.linked
    simp only [List.map_cons, List.rotate_cons_succ, List.rotate_zero, List.map_append,
      List.map_map, List.map_nil] at htargets
    simp only [arrows, List.map_cons, List.cons_append, List.map_append, List.take_succ_cons,
      List.take_zero, List.map_nil]
    exact congrArg (fun texts => " -> ".intercalate (text e.source :: texts)) htargets

/-- Where nothing is left to follow and some places are not sorted, there is a cycle to report: each
of its edges leads from one waiting place to another and is not broken. -/
theorem unsortable_eq_circular (hg : g.Indexed) {followed counts : List Nat}
    (hf : Frontier g broken followed [] counts) (hlt : followed.length < g.size) :
    ∃ edges, g.unsortable counts broken = .circular edges ∧ g.ClosedWalk edges ∧
      ∀ e ∈ edges, ∃ i j, g.edge? i j = some e ∧
        g.HoldsUp (waitsIn counts) broken i j := by
  have hwaits (i : Nat) : waitsIn counts i = true ↔ i < g.size ∧ i ∉ followed := by
    have hm := hf.mem_iff i
    rw [List.append_nil] at hm
    rw [waitsIn, bne_iff_ne, ne_eq, hf.counted, hm, not_and]
    constructor
    · intro h
      refine ⟨Nat.lt_of_not_le fun hle => h (Frontier.unmet_of_size_le hle), fun _ => h⟩
    · intro h
      exact h.2 h.1
  obtain ⟨start, hstart, hstart'⟩ : ∃ i ∈ List.range g.size, i ∉ followed := by
    by_contra hall
    push Not at hall
    have := (List.subperm_of_subset List.nodup_range hall).length_le
    rw [List.length_range] at this
    omega
  rcases cyclePlaces_cases g counts broken with ⟨hnone, _⟩ | ⟨i, hi, hdead, _⟩ |
    ⟨i, inner, hplaces, hn, hchain⟩
  · have := (hwaits start).mpr ⟨List.mem_range.mp hstart, hstart'⟩
    rw [hnone] at this
    cases this
  · -- something unsorted holds up every place that waits, so the walk cannot die out
    obtain ⟨hi, hi'⟩ := (hwaits i).mp hi
    obtain ⟨p, hp, hp'⟩ := hf.exists_unmet hi hi'
    have := (hwaits p).mpr ⟨(hg.lt_size_of_mem_predecessors hp.1).1, hp'⟩
    rw [hdead p hp] at this
    cases this
  · refine ⟨g.edgesAlong (i :: (inner ++ [i])), ?_, closedWalk_edgesAlong hg hn ?_, fun e he => ?_⟩
    · have hlength : ¬ (i :: (inner ++ [i])).length < 2 := by simp
      simp only [unsortable, hplaces, hlength, ↓reduceIte]
    · exact hchain.imp fun _ _ h => h.1.1
    · obtain ⟨a, b, hab, hedge⟩ := edge_of_mem_edgesAlong hchain he
      exact ⟨a, b, hedge, hab⟩

theorem levels_eq_error (hg : g.Indexed) {u : Unsortable V E} (h : g.levels = .error u) :
    ∃ edges, u = .circular edges ∧ g.ClosedWalk edges := by
  have hend : Frontier g [] ([] ++ g.levelPlaces.1.flatten) [] g.levelPlaces.2 :=
    levelsFrom_end hg.toWellFormed (Frontier.start g)
  by_cases hlt : g.levelPlaces.1.flatten.length < g.size
  · obtain ⟨edges, hcircular, hwalk, _⟩ := unsortable_eq_circular hg hend hlt
    simp only [levels, hlt, ↓reduceIte, hcircular] at h
    exact ⟨edges, (Except.error.inj h).symm, hwalk⟩
  · simp only [levels, hlt, ↓reduceIte] at h
    cases h

theorem sort_eq_error (hg : g.Indexed) {breaker : Breaker V E} {u : Unsortable V E}
    (h : (g.sort breaker).order = .error u) :
    ∃ edges, u = .circular edges ∧ g.ClosedWalk edges ∧
      ∀ e ∈ edges, ⟨e, false⟩ ∈ (g.sort breaker).offers := by
  obtain ⟨s, hs, hq, hdeclined, hoffers, horder⟩ := sort_ends hg.toWellFormed breaker
  rw [h] at horder
  split at horder
  · rename_i hlt
    have hf := hs.frontier
    rw [hq] at hf
    obtain ⟨edges, hcircular, hwalk, hedges⟩ := unsortable_eq_circular hg hf hlt
    refine ⟨edges, (Except.error.inj horder).trans hcircular, hwalk, fun e he => ?_⟩
    obtain ⟨i, j, hedge, hunbroken, hi, hj⟩ := hedges e he
    rw [hoffers]
    refine hdeclined hlt i j (Sorting.mem_obstacles.mpr ⟨hunbroken, ?_, ?_⟩) e hedge
    · simpa [waitsIn] using hi
    · simpa [waitsIn] using hj
  · cases horder

/-- The failure is reported as a circular dependency: in the words of a format that is given these
edges, or as the vertices on the way. -/
structure ReportsCycle (g : Multigraph V E) (text : V → String) (u : Unsortable V E)
    (edges : List (Edge V E)) : Prop where
  walk : g.ClosedWalk edges
  formatted : ∀ format, u.report text (some format) =
    .ofFault .conflict .graph (.circularDependency (format edges))
  plain : u.report text none = .ofFault .conflict .graph (.circularDependency
    (" -> ".intercalate ((edges ++ edges.take 1).map fun e => text e.source)))

theorem ClosedWalk.reportsCycle {edges : List (Edge V E)} (h : g.ClosedWalk edges)
    (text : V → String) : g.ReportsCycle text (.circular edges) edges where
  walk := h
  formatted _ := rfl
  plain := by
    rw [← h.arrows_eq text]
    rfl

/-- A sort that fails reports a cycle of the graph. Where edges may be broken, each edge of the
cycle was offered and declined. -/
theorem failures_report_cycles (g : Multigraph V E) (hg : g.Built) (text : V → String)
    (breaker : Breaker V E) (approves : Edge V E → Bool)
    (hb : ∀ earlier e, breaker earlier e = approves e) :
    (∀ u, (g.sort breaker).order = .error u → ∃ edges, g.ReportsCycle text u edges ∧
      ∀ e ∈ edges, approves e = false ∧ ⟨e, false⟩ ∈ (g.sort breaker).offers ∧
        ⟨e, true⟩ ∉ (g.sort breaker).offers) ∧
    ∀ u, g.levels = .error u → ∃ edges, g.ReportsCycle text u edges := by
  have hw := hg.indexed
  have hanswer {e : Edge V E} {b : Bool} (ho : ⟨e, b⟩ ∈ (g.sort breaker).offers) :
      approves e = b := by
    obtain ⟨earlier, h⟩ := offers_answered hg.wellFormed breaker _ ho
    rw [← hb earlier e]
    exact h
  constructor
  · intro u hu
    obtain ⟨edges, rfl, hwalk, hdeclined⟩ := sort_eq_error hw hu
    refine ⟨edges, hwalk.reportsCycle text, fun e he => ?_⟩
    have hno := hanswer (hdeclined e he)
    refine ⟨hno, hdeclined e he, fun hyes => ?_⟩
    exact Bool.false_ne_true (hno.symm.trans (hanswer hyes))
  · intro u hu
    obtain ⟨edges, rfl, hwalk⟩ := levels_eq_error hw hu
    exact ⟨edges, hwalk.reportsCycle text⟩

/-- Two pairs of vertices with an edge each way, and a vertex that waits for one of the second. -/
def knots : Multigraph Nat String :=
  let g := empty.addVertices [1, 2, 3, 4, 5]
  let g := (g.addEdgesAt 3 0 ["out"]).addEdgesAt 1 2 ["there"]
  ((g.addEdgesAt 2 1 ["back"]).addEdgesAt 3 4 ["on"]).addEdgesAt 4 3 ["round"]

theorem knots_built : knots.Built := by
  have hv : (empty.addVertices [1, 2, 3, 4, 5] : Multigraph Nat String).Built :=
    .addVertex 5 (.addVertex 4 (.addVertex 3 (.addVertex 2 (.addVertex 1 .empty))))
  have hpair := ((hv.addEdges 4 1 ["out"]).addEdges 2 3 ["there"]).addEdges 3 2 ["back"]
  exact (hpair.addEdges 4 5 ["on"]).addEdges 5 4 ["round"]

/-- The first pair is parted, and the second one is reported without the way to it. -/
theorem failures_report_cycles_knots :
    knots.Built ∧ ∃ u, (knots.sort (.ofEdge fun e => e.labels = ["back"])).order = .error u ∧
      u.report toString none = .ofFault .conflict .graph (.circularDependency "4 -> 5 -> 4") ∧
      ∃ edges, knots.ReportsCycle toString u edges ∧
        ∀ e ∈ edges, decide (e.labels = ["back"]) = false := by
  obtain ⟨hsort, _⟩ := failures_report_cycles knots knots_built toString
    (.ofEdge fun e => e.labels = ["back"]) (fun e => e.labels = ["back"]) fun _ _ => rfl
  have hfails : (knots.sort (.ofEdge fun e => e.labels = ["back"])).order =
      .error (.circular [⟨4, 5, ["on"]⟩, ⟨5, 4, ["round"]⟩]) := by
    decide +kernel
  obtain ⟨edges, hreports, hedges⟩ := hsort _ hfails
  exact ⟨knots_built, _, hfails, by decide +kernel, edges, hreports, fun e he => (hedges e he).1⟩

end Multigraph

end WritePlan

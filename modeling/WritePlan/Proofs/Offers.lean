import Mathlib.Data.List.ProdSigma
import WritePlan.Proofs.Cycles
import WritePlan.Proofs.SortAgreement

namespace WritePlan

variable {V E : Type}

/-- A cut through one of two lists that follow one another. -/
theorem append_eq_append_cons {α : Type} {l l' before after : List α} {a : α}
    (h : l ++ l' = before ++ a :: after) :
    (∃ rest, l = before ++ a :: rest ∧ after = rest ++ l') ∨
      ∃ front, before = l ++ front ∧ l' = front ++ a :: after := by
  rcases List.append_eq_append_iff.mp h with ⟨front, hbefore, hl'⟩ | ⟨rest, hl, hafter⟩
  · exact .inr ⟨front, hbefore, hl'⟩
  · cases rest with
    | nil => exact .inr ⟨[], by simpa using hl.symm, by simpa using hafter.symm⟩
    | cons b rest =>
      obtain ⟨rfl, rfl⟩ := List.cons.inj hafter
      exact .inl ⟨rest, hl, rfl⟩

/-- What holds between each element and those in front of it. -/
theorem pairwise_of_cuts {α : Type} {r : α → α → Prop} {l : List α}
    (h : ∀ before a after, l = before ++ a :: after → ∀ b ∈ before, r b a) : l.Pairwise r := by
  induction l with
  | nil => exact .nil
  | cons b l ih =>
    refine List.pairwise_cons.mpr ⟨fun a ha => ?_, ih fun before a after heq c hc => ?_⟩
    · obtain ⟨before, after, rfl⟩ := List.append_of_mem ha
      exact h (b :: before) a after rfl b List.mem_cons_self
    · exact h (b :: before) a after (congrArg (b :: ·) heq) c (List.mem_cons_of_mem b hc)

namespace Multigraph

variable {g : Multigraph V E}

theorem WellFormed.edgePlaces_nodup (hg : g.WellFormed) : g.edgePlaces.Nodup := by
  rw [edgePlaces, List.nodup_flatMap]
  constructor
  · intro j _
    exact (hg.predecessors_nodup j).map fun a b h => (Prod.mk.inj h).1
  · refine List.nodup_range.imp fun {j k} hjk e hj hk => ?_
    obtain ⟨_, _, rfl⟩ := List.mem_map.mp hj
    obtain ⟨_, _, heq⟩ := List.mem_map.mp hk
    exact hjk (Prod.mk.inj heq).2.symm

theorem WellFormed.edge?_inj (hg : g.WellFormed) {i j k l : Nat} {e : Edge V E}
    (he : g.edge? i j = some e) (he' : g.edge? k l = some e) : i = k ∧ j = l := by
  obtain ⟨hi, hj, _⟩ := edge?_eq_some.mp he
  obtain ⟨hk, hl, _⟩ := edge?_eq_some.mp he'
  exact ⟨hg.vertex?_inj hi hk, hg.vertex?_inj hj hl⟩

/-- The edges between some pairs of places. -/
def edgesAt (g : Multigraph V E) (places : List (Nat × Nat)) : List (Edge V E) :=
  places.filterMap fun e => g.edge? e.1 e.2

theorem edgesAt_cons_some {i j : Nat} {e : Edge V E} (he : g.edge? i j = some e)
    (places : List (Nat × Nat)) : g.edgesAt ((i, j) :: places) = e :: g.edgesAt places := by
  simp [edgesAt, he]

theorem edgesAt_cons_none {i j : Nat} (he : g.edge? i j = none) (places : List (Nat × Nat)) :
    g.edgesAt ((i, j) :: places) = g.edgesAt places := by
  simp [edgesAt, he]

theorem mem_edgesAt {places : List (Nat × Nat)} {e : Edge V E} :
    e ∈ g.edgesAt places ↔ ∃ i j, (i, j) ∈ places ∧ g.edge? i j = some e := by
  simp [edgesAt]

theorem WellFormed.edgesAt_nodup (hg : g.WellFormed) {places : List (Nat × Nat)}
    (hn : places.Nodup) : (g.edgesAt places).Nodup :=
  hn.filterMap fun _ _ _ ha hb =>
    let ⟨hi, hj⟩ := hg.edge?_inj ha hb
    Prod.ext hi hj

end Multigraph

namespace Sorting
open Multigraph

variable {g : Multigraph V E} {breaker : Breaker V E} {s : Sorting V E}

/-- The offers `asked` are made along some edges after `offers`, in their order and with the answers
of the breaker. Only the last of them may be approved, and it is the edge that is chosen. -/
structure Consulted (g : Multigraph V E) (breaker : Breaker V E) (offers : List (Offer V E))
    (edges : List (Nat × Nat)) (asked : List (Offer V E)) (choice : Option (Nat × Nat)) :
    Prop where
  edges : asked.map (·.edge) <+: g.edgesAt edges
  answered : ∀ before o after, asked = before ++ o :: after →
    breaker (offers ++ before) o.edge = o.approved
  declined : ∀ before o after, asked = before ++ o :: after → ∀ x ∈ before, x.approved = false
  chosen : ∀ o ∈ asked, o.approved = true → ∃ i j, choice = some (i, j) ∧ g.edge? i j = some o.edge
  last : choice ≠ none → ∃ o, asked.getLast? = some o ∧ o.approved = true

namespace Consulted

variable {offers asked : List (Offer V E)} {edges : List (Nat × Nat)} {choice : Option (Nat × Nat)}

theorem nil : Consulted g breaker offers [] [] none :=
  ⟨List.prefix_rfl, by simp, by simp, by simp, by simp⟩

theorem skip {i j : Nat} (he : g.edge? i j = none)
    (h : Consulted g breaker offers edges asked choice) :
    Consulted g breaker offers ((i, j) :: edges) asked choice where
  edges := by
    rw [edgesAt_cons_none he]
    exact h.edges
  answered := h.answered
  declined := h.declined
  chosen := h.chosen
  last := h.last

theorem approve {i j : Nat} {e : Edge V E} (he : g.edge? i j = some e)
    (hb : breaker offers e = true) :
    Consulted g breaker offers ((i, j) :: edges) [⟨e, true⟩] (some (i, j)) where
  edges := by
    rw [edgesAt_cons_some he]
    exact List.prefix_append [e] _
  answered before o after heq := by
    cases before with
    | nil =>
      obtain ⟨rfl, _⟩ := List.cons.inj heq
      rwa [List.append_nil]
    | cons x before => simp at heq
  declined before o after heq := by
    cases before with
    | nil => simp
    | cons x before => simp at heq
  chosen o ho _ := by
    obtain rfl := List.mem_singleton.mp ho
    exact ⟨i, j, rfl, he⟩
  last _ := ⟨_, rfl, rfl⟩

theorem decline {i j : Nat} {e : Edge V E} (he : g.edge? i j = some e)
    (hb : breaker offers e = false)
    (h : Consulted g breaker (offers ++ [⟨e, false⟩]) edges asked choice) :
    Consulted g breaker offers ((i, j) :: edges) (⟨e, false⟩ :: asked) choice where
  edges := by
    rw [edgesAt_cons_some he, List.map_cons]
    exact List.cons_prefix_cons.mpr ⟨rfl, h.edges⟩
  answered before o after heq := by
    cases before with
    | nil =>
      obtain ⟨rfl, _⟩ := List.cons.inj heq
      rwa [List.append_nil]
    | cons x before =>
      obtain ⟨rfl, hrest⟩ := List.cons.inj heq
      simpa using h.answered before o after hrest
  declined before o after heq x hx := by
    cases before with
    | nil => simp at hx
    | cons y before =>
      obtain ⟨rfl, hrest⟩ := List.cons.inj heq
      rcases List.mem_cons.mp hx with rfl | hx
      · rfl
      · exact h.declined before o after hrest x hx
  chosen o ho happroved := by
    rcases List.mem_cons.mp ho with rfl | ho
    · cases happroved
    · exact h.chosen o ho happroved
  last hchoice := by
    obtain ⟨o, ho, happroved⟩ := h.last hchoice
    exact ⟨o, by simp [List.getLast?_cons, ho], happroved⟩

end Consulted

theorem consulted (g : Multigraph V E) (breaker : Breaker V E) (offers : List (Offer V E))
    (edges : List (Nat × Nat)) :
    ∃ asked, (consult g breaker offers edges).1 = offers ++ asked ∧
      Consulted g breaker offers edges asked (consult g breaker offers edges).2 := by
  induction edges generalizing offers with
  | nil => exact ⟨[], (List.append_nil _).symm, .nil⟩
  | cons d rest ih =>
    obtain ⟨i, j⟩ := d
    cases he : g.edge? i j with
    | none =>
      obtain ⟨asked, heq, h⟩ := ih offers
      simp only [consult, he]
      exact ⟨asked, heq, h.skip he⟩
    | some e =>
      cases hb : breaker offers e with
      | true =>
        simp only [consult, he, hb, ↓reduceIte]
        exact ⟨_, rfl, .approve he hb⟩
      | false =>
        obtain ⟨asked, heq, h⟩ := ih (offers ++ [⟨e, false⟩])
        simp only [consult, he, hb, Bool.false_eq_true, ↓reduceIte]
        exact ⟨⟨e, false⟩ :: asked, by rw [heq, List.append_assoc]; rfl, h.decline he hb⟩

/-- Either a step makes no offers and breaks nothing, or the sort has come to a halt and the edges
that hold it up are offered. -/
theorem step_offers (g : Multigraph V E) (breaker : Breaker V E) (s : Sorting V E) :
    (s.step g breaker).1.offers = s.offers ∧ (s.step g breaker).1.broken = s.broken ∨
      ∃ asked choice, Consulted g breaker s.offers (s.obstacles g) asked choice ∧
        (s.step g breaker).1.offers = s.offers ++ asked ∧
        ((s.step g breaker).2 = true →
          choice ≠ none ∧ (s.step g breaker).1.broken = s.broken ++ choice.toList) := by
  unfold step
  cases hq : s.queue with
  | cons i rest => exact .inl ⟨rfl, rfl⟩
  | nil =>
    by_cases hlt : s.followed.length < g.size
    · obtain ⟨asked, heq, h⟩ := consulted g breaker s.offers (s.obstacles g)
      simp only [hlt, ↓reduceIte]
      rcases hc : consult g breaker s.offers (s.obstacles g) with ⟨offers, _ | ⟨i, j⟩⟩
      · rw [hc] at heq h
        exact .inr ⟨asked, none, h, heq, fun hfalse => absurd hfalse Bool.false_ne_true⟩
      · rw [hc] at heq h
        exact .inr ⟨asked, some (i, j), h, heq, fun _ => ⟨Option.some_ne_none _, rfl⟩⟩
    · rw [if_neg hlt]
      exact .inl ⟨rfl, rfl⟩

/-- The vertices that are sorted. -/
def sortedVertices (g : Multigraph V E) (s : Sorting V E) : List V :=
  s.sorted.filterMap g.vertex?

/-- A place that waits is not sorted. -/
theorem Sound.not_mem_sortedVertices (hg : g.WellFormed) (h : Sound g breaker s) {i : Nat} {v : V}
    (hv : g.vertex? i = some v) (hi : s.counts.getD i 0 ≠ 0) : v ∉ s.sortedVertices g := by
  intro hmem
  obtain ⟨k, hk, hkv⟩ := List.mem_filterMap.mp hmem
  obtain rfl := hg.vertex?_inj hkv hv
  rw [h.frontier.counted] at hi
  exact hi ((h.frontier.mem_iff k).mp hk).2

/-- With nothing to follow and everything sorted, a sort is at its end. -/
theorem run_of_sorted (hq : s.queue = []) (hall : ¬ s.followed.length < g.size) :
    s.run g breaker = s := by
  unfold run
  simp [Sorting.step, hq, hall]

variable [DecidableEq V]

/-- What calls for the offer `o` after the offers `earlier`: its edge was not approved before, joins
vertices that are not sorted yet, and was last offered before an approval if at all. -/
structure CalledFor (g : Multigraph V E) (breaker : Breaker V E) (earlier : List (Offer V E))
    (o : Offer V E) : Prop where
  edge : g.HasEdge o.edge.source o.edge.target
  labels : o.edge.labels = g.labels o.edge.source o.edge.target
  answered : breaker earlier o.edge = o.approved
  unapproved : ⟨o.edge, true⟩ ∉ earlier
  unsorted : ∃ n s, Reached g breaker n s ∧ s.offers <+: earlier ∧
    earlier ++ [o] <+: (s.step g breaker).1.offers ∧
    o.edge.source ∉ s.sortedVertices g ∧ o.edge.target ∉ s.sortedVertices g
  renewed : ∀ before x between, earlier = before ++ x :: between → x.edge = o.edge →
    ∃ y ∈ between, y.approved = true

/-- What the offers so far keep. While the sort goes on, the last of them was approved. -/
structure Recorded (g : Multigraph V E) (breaker : Breaker V E) (s : Sorting V E) : Prop where
  calledFor : ∀ earlier o later, s.offers = earlier ++ o :: later → CalledFor g breaker earlier o
  broken : ∀ o ∈ s.offers, o.approved = true →
    ∃ i j, (i, j) ∈ s.broken ∧ g.edge? i j = some o.edge
  last : ∀ o, s.offers.getLast? = some o → o.approved = true

namespace Recorded

theorem start (g : Multigraph V E) (breaker : Breaker V E) :
    Recorded g breaker (Sorting.start g) where
  calledFor earlier o later heq := by simp [Sorting.start] at heq
  broken o ho := by simp [Sorting.start] at ho
  last o ho := by simp [Sorting.start] at ho

/-- An offer that is made at a halt is called for. -/
theorem calledFor_of_consulted (hg : g.Indexed) {n : Nat} (hr : Reached g breaker n s)
    (h : Recorded g breaker s) {asked : List (Offer V E)} {choice : Option (Nat × Nat)}
    (hasked : Consulted g breaker s.offers (s.obstacles g) asked choice)
    (hoffers : (s.step g breaker).1.offers = s.offers ++ asked) {front later : List (Offer V E)}
    {o : Offer V E} (hcut : asked = front ++ o :: later) :
    CalledFor g breaker (s.offers ++ front) o := by
  have hsound := hr.sound hg.toWellFormed
  have hn : (asked.map (·.edge)).Nodup :=
    (hg.edgesAt_nodup ((hg.edgePlaces_nodup.filter _).filter _)).sublist hasked.edges.sublist
  have hmem : o.edge ∈ asked.map (·.edge) := by
    rw [hcut]
    exact List.mem_map_of_mem (List.mem_append_right _ List.mem_cons_self)
  obtain ⟨i, j, hij, hedge⟩ := mem_edgesAt.mp (hasked.edges.subset hmem)
  obtain ⟨hunbroken, hi, hj⟩ := mem_obstacles.mp hij
  obtain ⟨hsource, htarget, _⟩ := edge?_eq_some.mp hedge
  have hunapproved : ⟨o.edge, true⟩ ∉ s.offers ++ front := by
    intro ho
    rcases List.mem_append.mp ho with ho | ho
    · obtain ⟨k, l, hkl, hedge'⟩ := h.broken _ ho rfl
      obtain ⟨rfl, rfl⟩ := hg.edge?_inj hedge hedge'
      exact hunbroken.2 hkl
    · exact Bool.false_ne_true (hasked.declined front o later hcut _ ho).symm
  refine ⟨hg.hasEdge_iff.mpr ⟨i, j, hsource, htarget, hunbroken.1⟩, ?_,
    hasked.answered front o later hcut, hunapproved,
    ⟨n, s, hr, List.prefix_append _ _, ?_, hsound.not_mem_sortedVertices hg.toWellFormed hsource hi,
      hsound.not_mem_sortedVertices hg.toWellFormed htarget hj⟩, fun before x between heq hx => ?_⟩
  · rw [hg.edge?_eq hsource htarget] at hedge
    exact congrArg Edge.labels (Option.some.inj hedge).symm
  · rw [hoffers, hcut]
    exact ⟨later, by simp⟩
  · rcases append_eq_append_cons heq with ⟨rest, hs, rfl⟩ | ⟨between', rfl, hfront⟩
    · -- it was offered at an earlier halt, which ended with an approval
      cases hlast : rest.getLast? with
      | none =>
        obtain rfl := List.getLast?_eq_none_iff.mp hlast
        have happroved : x.approved = true := h.last x (by simp [hs])
        refine absurd ?_ hunapproved
        rw [hs, ← hx, ← happroved]
        simp
      | some y =>
        have hy : s.offers.getLast? = some y := by simp [hs, List.getLast?_cons, hlast]
        exact ⟨y, List.mem_append_left _ (List.mem_of_getLast? hlast), h.last y hy⟩
    · -- nothing is offered twice at one halt
      rw [hcut, hfront, List.append_assoc, List.map_append, List.cons_append, List.map_cons,
        hx] at hn
      have htwice := (List.nodup_cons.mp (List.nodup_append.mp hn).2.1).1
      exact absurd (List.mem_map_of_mem (by simp)) htwice

theorem step (hg : g.Indexed) {n : Nat} (hr : Reached g breaker n s)
    (h : Recorded g breaker s) :
    (∀ earlier o later, (s.step g breaker).1.offers = earlier ++ o :: later →
      CalledFor g breaker earlier o) ∧
    ((s.step g breaker).2 = true → Recorded g breaker (s.step g breaker).1) := by
  rcases step_offers g breaker s with ⟨hoffers, hbroken⟩ | ⟨asked, choice, hasked, hoffers, hgoes⟩
  · refine ⟨fun earlier o later heq => h.calledFor earlier o later (hoffers.symm.trans heq),
      fun _ => ⟨fun earlier o later heq => h.calledFor earlier o later (hoffers.symm.trans heq),
        fun o ho => ?_, fun o ho => h.last o (hoffers ▸ ho)⟩⟩
    rw [hbroken]
    exact h.broken o (hoffers ▸ ho)
  · have hcalled (earlier : List (Offer V E)) (o : Offer V E) (later : List (Offer V E))
        (heq : (s.step g breaker).1.offers = earlier ++ o :: later) :
        CalledFor g breaker earlier o := by
      rcases append_eq_append_cons (hoffers.symm.trans heq) with ⟨rest, hs, _⟩ | ⟨front, rfl, hcut⟩
      · exact h.calledFor earlier o rest hs
      · exact h.calledFor_of_consulted hg hr hasked hoffers hcut
    refine ⟨hcalled, fun hstep => ⟨hcalled, fun o ho happroved => ?_, fun o ho => ?_⟩⟩
    · obtain ⟨_, hbroken⟩ := hgoes hstep
      rw [hbroken]
      rw [hoffers] at ho
      rcases List.mem_append.mp ho with ho | ho
      · obtain ⟨i, j, hij, hedge⟩ := h.broken o ho happroved
        exact ⟨i, j, List.mem_append_left _ hij, hedge⟩
      · obtain ⟨i, j, rfl, hedge⟩ := hasked.chosen o ho happroved
        exact ⟨i, j, List.mem_append_right _ List.mem_cons_self, hedge⟩
    · obtain ⟨y, hy, happroved⟩ := hasked.last (hgoes hstep).1
      rw [hoffers, List.getLast?_append, hy] at ho
      obtain rfl := Option.some.inj ho
      exact happroved

end Recorded

theorem Reached.recorded (hg : g.Indexed) {n : Nat} (h : Reached g breaker n s) :
    Recorded g breaker s := by
  induction h with
  | start => exact .start g breaker
  | step hr hs ih => exact (ih.step hg hr).2 hs

end Sorting

namespace Multigraph
open Sorting

variable [DecidableEq V] {g : Multigraph V E} {breaker : Breaker V E}

theorem calledFor_of_sort (hg : g.Indexed) {earlier later : List (Offer V E)} {o : Offer V E}
    (h : (g.sort breaker).offers = earlier ++ o :: later) : CalledFor g breaker earlier o := by
  have hstart : Reached g breaker 0 (start g) := .start
  obtain ⟨n, t, ht, _, hrun⟩ := hstart.run
  refine (ht.recorded hg).step hg ht |>.1 earlier o later ?_
  rw [← hrun]
  exact h

/-- The pairs of vertices that an edge joins. -/
def joinedPairs (g : Multigraph V E) : List (V × V) :=
  (g.vertices ×ˢ g.vertices).filter fun p => g.HasEdge p.1 p.2

theorem mem_joinedPairs (hg : g.Indexed) {u v : V} :
    (u, v) ∈ g.joinedPairs ↔ g.HasEdge u v := by
  simp only [joinedPairs, List.mem_filter, List.mem_product, decide_eq_true_eq,
    and_iff_right_iff_imp]
  exact fun h => hg.mem_vertices_of_hasEdge h

/-- An edge by its ends. -/
def ends (e : Edge V E) : V × V := (e.source, e.target)

theorem edge_eq_of_ends {d e : Edge V E} (hd : d.labels = g.labels d.source d.target)
    (he : e.labels = g.labels e.source e.target) (h : ends d = ends e) : d = e := by
  obtain ⟨u, v, labels⟩ := d
  obtain ⟨u', v', labels'⟩ := e
  obtain ⟨rfl, rfl⟩ := Prod.mk.inj h
  obtain rfl : labels = labels' := hd.trans he.symm
  rfl

/-- Edges with different ends are no more than there are pairs that an edge joins. -/
theorem length_le_joinedPairs (hg : g.Indexed) {edges : List (Edge V E)}
    (hn : (edges.map ends).Nodup) (h : ∀ e ∈ edges, g.HasEdge e.source e.target) :
    edges.length ≤ g.joinedPairs.length := by
  rw [← List.length_map ends]
  refine (List.subperm_of_subset hn fun p hp => ?_).length_le
  obtain ⟨e, he, rfl⟩ := List.mem_map.mp hp
  exact (mem_joinedPairs hg).mpr (h e he)

theorem length_edgePlaces_le (hg : g.Indexed) :
    g.edgePlaces.length ≤ g.joinedPairs.length := by
  have hlength : (g.edgesAt g.edgePlaces).length = g.edgePlaces.length := by
    rw [edgesAt, List.length_filterMap_eq_countP, List.countP_eq_length]
    rintro ⟨i, j⟩ hij
    obtain ⟨e, he⟩ := hg.exists_edge (mem_edgePlaces.mp hij)
    exact Option.isSome_of_eq_some he
  have hedge (e : Edge V E) (he : e ∈ g.edgesAt g.edgePlaces) :
      g.HasEdge e.source e.target ∧ e.labels = g.labels e.source e.target := by
    obtain ⟨i, j, hij, hedge⟩ := mem_edgesAt.mp he
    exact hg.hasEdge_of_edge? hedge (mem_edgePlaces.mp hij)
  rw [← hlength]
  refine length_le_joinedPairs hg ?_ fun e he => (hedge e he).1
  refine List.Nodup.map_on (fun d hd e he h => ?_) (hg.edgesAt_nodup hg.edgePlaces_nodup)
  exact edge_eq_of_ends (hedge d hd).2 (hedge e he).2 h

/-- No pair is approved twice. -/
theorem approved_le (hg : g.Indexed) (breaker : Breaker V E) :
    (g.sort breaker).offers.countP (·.approved) ≤ g.joinedPairs.length := by
  have hcalled (o : Offer V E) (ho : o ∈ (g.sort breaker).offers) :
      ∃ earlier, CalledFor g breaker earlier o := by
    obtain ⟨earlier, later, heq⟩ := List.append_of_mem ho
    exact ⟨earlier, calledFor_of_sort hg heq⟩
  have hdistinct : (g.sort breaker).offers.Pairwise fun x o =>
      x.approved = true → ends x.edge ≠ ends o.edge := by
    refine pairwise_of_cuts fun earlier o later heq x hx happroved hends => ?_
    have ho := calledFor_of_sort hg heq
    obtain ⟨_, hx'⟩ := hcalled x (heq ▸ List.mem_append_left _ hx)
    refine ho.unapproved ?_
    rw [← edge_eq_of_ends hx'.labels ho.labels hends, ← happroved]
    exact hx
  let approved := (g.sort breaker).offers.filter (·.approved)
  have happroved {o : Offer V E} (ho : o ∈ approved) :
      o ∈ (g.sort breaker).offers ∧ o.approved = true := List.mem_filter.mp ho
  have hn : ((approved.map (·.edge)).map ends).Nodup := by
    rw [List.map_map, List.Nodup, List.pairwise_map]
    refine (hdistinct.filter _).imp_of_mem ?_
    intro x o hx _ hxo
    exact hxo (happroved hx).2
  have hle := length_le_joinedPairs hg hn fun e he => by
    obtain ⟨o, ho, rfl⟩ := List.mem_map.mp he
    obtain ⟨_, ho⟩ := hcalled o (happroved ho).1
    exact ho.edge
  rwa [List.length_map, ← List.countP_eq_length_filter] at hle

theorem sort_of_acyclic (hg : g.Indexed) (ha : Acyclic g.HasEdge) (breaker : Breaker V E) :
    g.sort breaker = g.sort .never ∧ (g.sort breaker).offers = [] := by
  have hall : ¬ g.levelPlaces.1.flatten.length < g.size := by
    intro hlt
    obtain ⟨sets, hs⟩ := (levels_isOk_iff hg).mpr ha
    simp only [levels, hlt, ↓reduceIte] at hs
    cases hs
  have hrun (breaker : Breaker V E) : (start g).run g breaker =
      ⟨g.levelPlaces.2, g.levelPlaces.1.flatten, [], [], []⟩ :=
    (run_through_levels _ [] _ []).trans (run_of_sorted rfl hall)
  simp only [sort, hrun, and_self]

/-- A sort that makes no offers has no need of any. -/
theorem acyclic_of_no_offers (hg : g.Indexed) (h : (g.sort breaker).offers = []) :
    Acyclic g.HasEdge := by
  by_cases hok : ∃ order, (g.sort breaker).order = .ok order
  · obtain ⟨order, horder⟩ := hok
    refine acyclic_of_lt (f := order.idxOf) fun u v huv => ?_
    by_contra hnot
    have ho := approved_of_not_forward hg horder huv hnot
    rw [h] at ho
    exact List.not_mem_nil ho
  · push Not at hok
    refine absurd ?_ (not_acyclic_of_declined hg hok)
    rw [h]
    exact acyclic_of_lt (f := fun _ => 0) fun u v huv => absurd huv.2 List.not_mem_nil

/-- Whatever the breaker answers, it is asked for an edge only at a halt that has reached neither
end, and never after it has approved the edge. It is not asked at all just if there is no cycle. -/
theorem breaker_asked_at_need (g : Multigraph V E) (hg : g.Built) (breaker : Breaker V E) :
    (∀ earlier o later, (g.sort breaker).offers = earlier ++ o :: later →
      CalledFor g breaker earlier o) ∧
    (g.sort breaker).offers.countP (·.approved) ≤ g.joinedPairs.length ∧
    (∃ n s, Reached g breaker n s ∧ (s.step g breaker).2 = false ∧
      (start g).run g breaker = (s.step g breaker).1) ∧
    (∀ n s, Reached g breaker n s → n ≤ g.joinedPairs.length + g.vertices.length) ∧
    ((g.sort breaker).offers = [] ↔ Acyclic g.HasEdge) ∧
    (Acyclic g.HasEdge → g.sort breaker = g.sort .never) := by
  have hw := hg.indexed
  refine ⟨fun _ _ _ => calledFor_of_sort hw, approved_le hw breaker, Reached.run .start,
    fun n s h => ?_, ⟨acyclic_of_no_offers hw, fun ha => (sort_of_acyclic hw ha breaker).2⟩,
    fun ha => (sort_of_acyclic hw ha breaker).1⟩
  have hwork := h.work_le
  have hedges := length_edgePlaces_le hw
  rw [work_start] at hwork
  rw [length_vertices]
  omega

/-- A breaker that declines three offers and approves what follows. The edge back, which is declined
at first, comes again after the approval of another one. -/
theorem breaker_asked_at_need_knots :
    let breaker : Breaker Nat String := fun earlier _ => 3 ≤ earlier.length
    let offered := (knots.sort breaker).offers
    knots.Built ∧ offered.map (fun o => (o.edge.labels, o.approved)) =
      [(["out"], false), (["back"], false), (["there"], false), (["round"], true),
        (["back"], true)] ∧
    CalledFor knots breaker (offered.take 4) ⟨⟨3, 2, ["back"]⟩, true⟩ ∧
    offered.countP (·.approved) = 2 ∧ knots.joinedPairs.length = 5 ∧ ¬ Acyclic knots.HasEdge := by
  intro breaker offered
  obtain ⟨hcalled, _, _, _, hacyclic, _⟩ := breaker_asked_at_need knots knots_built breaker
  have hcut : offered = offered.take 4 ++ [⟨⟨3, 2, ["back"]⟩, true⟩] := by decide +kernel
  have hoffered : offered ≠ [] := by decide +kernel
  exact ⟨knots_built, by decide +kernel, hcalled _ _ [] hcut, by decide +kernel,
    by decide +kernel, fun ha => hoffered (hacyclic.mpr ha)⟩

end Multigraph

end WritePlan

import WritePlan.Proofs.ExtendedPlanner
import WritePlan.Proofs.Replacement

namespace WritePlan

/-- The error is reported as a fault: a circular dependency, conflicting writes of a row, a
temporary value or a state in which there is nothing to write. -/
def PlanError.IsFault (e : PlanError) : Prop :=
  ∃ fault, e.report.fault = some fault

theorem PlanError.not_isFault_defect (d : Defect) : ¬ (defect d).IsFault := by
  rintro ⟨fault, hfault⟩
  cases hfault

theorem bind_eq_error {ε α β : Type} {x : Except ε α} {f : α → Except ε β} {e : ε} :
    (x >>= f) = .error e ↔ x = .error e ∨ ∃ a, x = .ok a ∧ f a = .error e := by
  cases x <;> simp [bind, Except.bind]

/-- A check of all elements fails with the first of them that fails. -/
theorem forM_eq_error_iff {ε α : Type} {l : List α} {f : α → Except ε Unit} {e : ε} :
    l.forM f = .error e ↔ ∃ before a after, l = before ++ a :: after ∧
      (∀ b ∈ before, f b = .ok ()) ∧ f a = .error e := by
  constructor
  · intro h
    induction l with
    | nil => cases h
    | cons a l ih =>
      rcases bind_eq_error.mp h with ha | ⟨_, ha, hl⟩
      · exact ⟨[], a, l, rfl, fun _ hb => absurd hb List.not_mem_nil, ha⟩
      · obtain ⟨before, b, after, rfl, hbefore, hb⟩ := ih hl
        exact ⟨a :: before, b, after, rfl, List.forall_mem_cons.mpr ⟨ha, hbefore⟩, hb⟩
  · intro h
    obtain ⟨before, a, after, rfl, hbefore, ha⟩ := h
    induction before with
    | nil => exact bind_eq_error.mpr (.inl ha)
    | cons b before ih =>
      obtain ⟨hb, hbefore⟩ := List.forall_mem_cons.mp hbefore
      exact bind_eq_error.mpr (.inr ⟨(), hb, ih hbefore⟩)

theorem forM_eq_error {ε α : Type} {l : List α} {f : α → Except ε Unit} {e : ε}
    (h : l.forM f = .error e) : ∃ a ∈ l, f a = .error e := by
  obtain ⟨_, a, _, rfl, _, ha⟩ := forM_eq_error_iff.mp h
  exact ⟨a, List.mem_append_right _ List.mem_cons_self, ha⟩

section Planning

variable {m : Model} {t : Snapshot} {e : PlanError}

/-- Entries are routed in turn up to the first that is unchanged. -/
theorem Routed.addAll_eq_error_iff {tableOf : EntityTypeId → Table} {shared : List SharedTable}
    {r : Routed} {is : List Nat} :
    r.addAll m tableOf shared t is = .error e ↔ ∃ before i after, is = before ++ i :: after ∧
      (∀ j ∈ before, (t j).state ≠ .unchanged) ∧ (t i).state = .unchanged ∧
      e = .invalidState (RowWrite.typeName m t i) .unchanged := by
  induction is generalizing r with
  | nil => simp [addAll]
  | cons i is ih =>
    unfold addAll
    simp only
    by_cases hi : (t i).state = .unchanged
    · rw [if_pos hi, hi, Except.error.injEq]
      constructor
      · intro h
        exact ⟨[], i, is, rfl, fun _ hj => absurd hj List.not_mem_nil, hi, h.symm⟩
      · intro h
        obtain ⟨before, j, after, hsplit, hbefore, _, rfl⟩ := h
        -- the first entry is unchanged, so none comes before it
        cases before with
        | nil => rw [(List.cons.inj hsplit).1]; rfl
        | cons j' before =>
          obtain ⟨rfl, _⟩ := List.cons.inj hsplit
          exact absurd hi (hbefore i List.mem_cons_self)
    · rw [if_neg hi, ih]
      constructor
      · intro h
        obtain ⟨before, j, after, rfl, hbefore, hj⟩ := h
        exact ⟨i :: before, j, after, rfl, List.forall_mem_cons.mpr ⟨hi, hbefore⟩, hj⟩
      · intro h
        obtain ⟨before, j, after, hsplit, hbefore, hj, he⟩ := h
        cases before with
        | nil =>
          obtain ⟨rfl, _⟩ := List.cons.inj hsplit
          exact absurd hj hi
        | cons j' before =>
          obtain ⟨_, rfl⟩ := List.cons.inj hsplit
          exact ⟨before, j, after, rfl, (List.forall_mem_cons.mp hbefore).2, hj, he⟩

theorem Routed.addAll_eq_error {tableOf : EntityTypeId → Table} {shared : List SharedTable}
    {r : Routed} {is : List Nat} (h : r.addAll m tableOf shared t is = .error e) :
    ∃ type state, e = .invalidState type state := by
  obtain ⟨_, _, _, _, _, _, he⟩ := addAll_eq_error_iff.mp h
  exact ⟨_, _, he⟩

theorem RowWrite.checkIdentity_eq_error {w : RowWrite} {sensitive : Bool}
    (h : w.checkIdentity m sensitive t = .error e) :
    ∃ table types reason key, e = .sharedIdentity table types reason key := by
  unfold checkIdentity at h
  split at h
  · cases h
  · exact ⟨_, _, _, _, (Except.error.inj h).symm⟩

theorem RowWrite.temporaryValue_of_examine {w : RowWrite} (h : w.examine m t = .error e) :
    ∃ type property, e = .temporaryValue type property := by
  have hcheck := examine_eq_error.mp h
  unfold checkTemporary at hcheck
  split at hcheck
  · split at hcheck
    · cases hcheck
    · exact ⟨_, _, (Except.error.inj hcheck).symm⟩
  · cases hcheck

/-- Writes are not built only where an entry has nothing to write or a row is in conflict. -/
theorem Planner.buildWrites_eq_error {p : Planner} {entries : List Nat}
    (h : p.buildWrites t entries = .error e) :
    (∃ type state, e = .invalidState type state) ∨
      ∃ table types reason key, e = .sharedIdentity table types reason key := by
  rcases bind_eq_error.mp h with hadd | ⟨routed, _, h⟩
  · exact .inl (Routed.addAll_eq_error hadd)
  · rcases bind_eq_error.mp h with hcheck | ⟨_, _, h⟩
    · obtain ⟨w, _, hw⟩ := forM_eq_error hcheck
      exact .inr (RowWrite.checkIdentity_eq_error hw)
    · cases h

/-- Writes that are built are arranged, or they wait for one another in a circle. -/
theorem Planner.circular_of_prepare {p : Planner} {entries : List Nat} {built : BuiltWrites}
    (hb : p.buildWrites t entries = .ok built) (h : (p.prepare t entries).sets = .error e) :
    ∃ cycle, e = .circular cycle := by
  obtain ⟨g, hg, hbuilt, hv, _⟩ := dependencyGraph_eq_ok p.model p.collate t built.writes
  have hw := hbuilt.indexed
  rw [p.prepare_sets hb hg, p.arrange_eq _ hw hv] at h
  cases hl : g.levels with
  | ok levels =>
    rw [hl] at h
    cases h
  | error u =>
    obtain ⟨edges, rfl, _⟩ := Multigraph.levels_eq_error hw hl
    rw [hl] at h
    exact ⟨_, (Except.error.inj h).symm⟩

theorem Planner.isFault_of_prepare {p : Planner} {entries : List Nat}
    (h : (p.prepare t entries).sets = .error e) : e.IsFault := by
  cases hb : p.buildWrites t entries with
  | error e' =>
    obtain rfl := Except.error.inj ((prepare_error hb).symm.trans h)
    rcases buildWrites_eq_error hb with ⟨_, _, rfl⟩ | ⟨_, _, _, _, rfl⟩
    · exact ⟨_, rfl⟩
    · exact ⟨_, rfl⟩
  | ok built =>
    obtain ⟨cycle, rfl⟩ := circular_of_prepare hb h
    exact ⟨_, rfl⟩

end Planning

/-- A batch takes whatever it is offered first. -/
def BatchRule.TakesFirst (r : BatchRule) : Prop :=
  ∀ t number w, r.accepts t number [] w = true

theorem BatchRule.bounded_takesFirst {capacity : Nat} (h : 0 < capacity) :
    (bounded capacity).TakesFirst :=
  fun _ _ _ => decide_eq_true h

namespace Packer

variable {p : Planner} (hr : p.rule.TakesFirst) (t : Snapshot)
include hr

theorem offer_of_empty (k : Packer) {b : Batch} (hb : b.writes = []) (w : RowWrite) :
    ∃ k' b', k.offer p t b w = (k', some b') := by
  unfold offer
  simp only [hb, hr t b.number _, ↓reduceIte]
  split <;> exact ⟨_, _, rfl⟩

theorem offerFirst_ok (k : Packer) (w : RowWrite) :
    ∃ k' b, k.offerFirst p t w = (k', .ok b) := by
  obtain ⟨k', b, hoffer⟩ := offer_of_empty hr t k.openBatch.1 (b := k.openBatch.2) rfl w
  exact ⟨k', b, by simp only [offerFirst, hoffer]⟩

theorem queueSingly_ok (k : Packer) (ws : List RowWrite) :
    ∃ k', k.queueSingly p t ws = (k', .ok ()) := by
  induction ws generalizing k with
  | nil => exact ⟨k, rfl⟩
  | cons w ws ih =>
    obtain ⟨k', b, hfirst⟩ := offerFirst_ok hr t k w
    simp only [queueSingly, hfirst]
    exact ih (k'.queue b)

theorem finish_ok (k : Packer) (b : Batch) : ∃ k', k.finish p t b = (k', .ok ()) := by
  unfold finish
  split
  · exact ⟨_, rfl⟩
  · exact queueSingly_ok hr t _ _

/-- A batch that turns a write down holds some, so it can be finished. -/
theorem pack_ok (k : Packer) (opened : Option Batch) (w : RowWrite) :
    ∃ k' b, k.pack p t opened w = (k', .ok b) := by
  cases opened with
  | none => exact offerFirst_ok hr t k w
  | some b =>
    rcases hoffer : k.offer p t b w with ⟨k₁, _ | b₁⟩
    · have hb : b.writes.isEmpty = false := by
        rw [List.isEmpty_eq_false_iff]
        intro hb
        obtain ⟨_, _, htaken⟩ := offer_of_empty hr t k hb w
        rw [hoffer] at htaken
        cases htaken
      obtain ⟨k₂, hfinish⟩ := finish_ok hr t k₁ b
      obtain ⟨k₃, b', hfirst⟩ := offerFirst_ok hr t k₂ w
      exact ⟨k₃, b', by
        simp only [pack, hoffer, hb, hfinish, hfirst, Bool.false_eq_true, ↓reduceIte]⟩
    · exact ⟨k₁, b₁, by simp only [pack, hoffer]⟩

end Packer

namespace Stream

variable {p : Planner} {e : PlanError}

theorem isFault_of_turn (hr : p.rule.TakesFirst) {t : Snapshot} {s s' : Stream}
    (h : s.turn p t = .answer (.failed e) s') : e.IsFault := by
  cases answered_of_turn h with
  | unfit _ _ hexamine =>
    obtain ⟨_, _, rfl⟩ := RowWrite.temporaryValue_of_examine hexamine
    exact ⟨_, rfl⟩
  | @unpacked w w' _ _ _ _ _ _ hpack =>
    obtain ⟨k', b, htaken⟩ := Packer.pack_ok hr t s.packer s.opened w'
    cases hpack.symm.trans htaken
  | @unfinished b _ _ _ _ _ hfinish =>
    obtain ⟨k', hfinished⟩ := Packer.finish_ok hr t s.packer b
    cases hfinish.symm.trans hfinished

theorem isFault_of_requests (hr : p.rule.TakesFirst) {entries : List Nat} {begun : Nat}
    {ts : List Snapshot} (h : .failed e ∈ ((ofEntries entries begun).requests p ts).1) :
    e.IsFault := by
  cases ts with
  | nil => cases h
  | cons t later =>
    refine (History.of_failures fun _ _ _ _ => isFault_of_turn hr).of_plan
      (fun _ _ _ he => absurd he List.not_mem_nil) (fun e' hsets e he => ?_) later e h
    obtain rfl := Item.failed.inj (List.mem_singleton.mp he)
    exact Planner.isFault_of_prepare hsets

end Stream

/-- The planner for settings that make sense. -/
def Planner.ofValid (m : Model) (c : Config) : Planner where
  model := m
  config := c
  tableOf := m.tableIn c.defaultSchema
  collate := id
  names := .ofStem c.parameterStem
  rule := .bounded c.maxBatchSize
  comparer := .standard

theorem Planner.ofConfig_eq_ok_iff {m : Model} {c : Config} {p : Planner} :
    Planner.ofConfig m c = .ok p ↔ c.validate = .ok () ∧ p = ofValid m c := by
  unfold Planner.ofConfig
  rw [bind_eq_ok]
  constructor
  · intro h
    obtain ⟨_, hvalid, h⟩ := h
    exact ⟨hvalid, (Except.ok.inj h).symm⟩
  · intro h
    obtain ⟨hvalid, rfl⟩ := h
    exact ⟨(), hvalid, rfl⟩

theorem Config.maxBatchSize_pos {c : Config} (h : c.validate = .ok ()) : 0 < c.maxBatchSize := by
  unfold validate at h
  split at h
  · cases h
  · split at h
    · cases h
    · omega

theorem Config.minBatchSize_le {c : Config} (h : c.validate = .ok ()) :
    c.minBatchSize ≤ c.maxBatchSize := by
  unfold validate at h
  split at h
  · cases h
  · split at h
    · cases h
    · split at h
      · cases h
      · omega

/-- With settings that make sense, a pass over entries of a model that was made from declarations
fails only for faults in what is to be saved, and it looks for no part that the model lacks. -/
theorem failures_are_faults (s : Spec) (m : Model) (hm : s.build = .ok m) (c : Config)
    (p : Planner) (hp : Planner.ofConfig m c = .ok p) (comparer : Comparer) (entries : List Nat)
    (begun : Nat) (ts : List Snapshot) (hts : ∀ t ∈ ts, ∀ i ∈ entries, (t i).IsOf m) :
    (∀ e, .failed e ∈ ({ p with comparer } : Planner).answers entries begun ts → e.IsFault) ∧
      (∀ d, .failed (.defect d) ∉ ({ p with comparer } : Planner).answers entries begun ts) ∧
      m.Closed ∧ Comparer.standard.KeepsTo m ∧
      (comparer.KeepsTo m → ∀ m', m'.Extends m → ∃ p', Planner.ofConfig m' c = .ok p' ∧
        ({ p' with comparer } : Planner).answers entries begun ts =
          ({ p with comparer } : Planner).answers entries begun ts) := by
  obtain ⟨hvalid, rfl⟩ := Planner.ofConfig_eq_ok_iff.mp hp
  have hclosed := Spec.closed_of_build hm
  have hfirst : (BatchRule.bounded c.maxBatchSize).TakesFirst :=
    BatchRule.bounded_takesFirst (Config.maxBatchSize_pos hvalid)
  refine ⟨fun e he => Stream.isFault_of_requests hfirst he, fun d hd => ?_, hclosed,
    Comparer.standard_keepsTo hclosed, fun hkeeps m' hm' => ?_⟩
  · exact PlanError.not_isFault_defect d (Stream.isFault_of_requests hfirst hd)
  · have hextends : Planner.Extends { Planner.ofValid m' c with comparer }
        { Planner.ofValid m c with comparer } :=
      ⟨hm', rfl, fun _ he => hm'.tableIn _ he, rfl, rfl, rfl, rfl, rfl, hkeeps⟩
    exact ⟨_, Planner.ofConfig_eq_ok_iff.mpr ⟨hvalid, rfl⟩, hextends.answers hclosed begun hts⟩

namespace Family

/-- A model with one more index that nobody lists. -/
def larger : Model :=
  { model with indexes := model.indexes ++ [default] }

theorem larger_extends : larger.Extends model :=
  ⟨List.prefix_rfl, List.prefix_rfl, List.prefix_rfl, List.prefix_rfl, List.prefix_append _ _, rfl⟩

theorem failures_are_faults_replaced :
    spec.build = .ok model ∧ Planner.ofConfig model {} = .ok planner ∧
      (∀ t ∈ [replaced], ∀ i ∈ [0, 1], (t i).IsOf model) ∧
      (∃ cycle, .failed (.circular cycle) ∈ planner.answers [0, 1] 0 [replaced] ∧
        (PlanError.circular cycle).IsFault) ∧
      ∃ p, Planner.ofConfig larger {} = .ok p ∧
        ({ p with comparer := .standard } : Planner).answers [0, 1] 0 [replaced] =
          planner.answers [0, 1] 0 [replaced] := by
  have hts : ∀ t ∈ [replaced], ∀ i ∈ [0, 1], (t i).IsOf model := by
    simp only [List.forall_mem_singleton, List.forall_mem_cons, Entry.IsOf]
    decide +kernel
  obtain ⟨hfaults, _, _, hstandard, hsame⟩ := failures_are_faults spec model spec_build {} planner
    ofConfig_default .standard [0, 1] 0 [replaced] hts
  have hfails : .failed (.circular
      ("UNIQUE Parent(Code), " ++ "Child \x7bParentId\x7d -> Parent \x7bId\x7d")) ∈
      planner.answers [0, 1] 0 [replaced] := by
    decide +kernel
  exact ⟨spec_build, ofConfig_default, hts, ⟨_, hfails, hfaults _ hfails⟩,
    hsame hstandard larger larger_extends⟩

end Family

end WritePlan

import Mathlib.Data.List.Nodup
import WritePlan.Proofs.Arrangement
import WritePlan.Proofs.Turns

namespace WritePlan

/-- The first names of a numbering. -/
def numbered (stem : String) (n : Nat) : List String :=
  (List.range n).map fun i => stem ++ toString i

theorem numbered_nodup (stem : String) (n : Nat) : (numbered stem n).Nodup := by
  refine List.nodup_range.map fun i j h => ?_
  have hdigits : Nat.toDigits 10 i = Nat.toDigits 10 j := by
    rw [← Nat.toList_repr, ← Nat.toList_repr]
    exact congrArg String.toList ((String.append_right_inj stem).mp h)
  rw [← Nat.ofDigitChars_ten_toDigits (n := i), hdigits, Nat.ofDigitChars_ten_toDigits]

namespace Names

/-- Names that are taken are those that come next, and no other column gets one. -/
theorem takeFor_eq {α : Type} (n : Names) (as : List α) :
    (n.takeFor as).1.map (·.1) = as ∧
      numbered n.stem n.next ++ (n.takeFor as).1.map (·.2) =
        numbered n.stem (n.next + as.length) ∧
      (n.takeFor as).2 = { n with next := n.next + as.length } := by
  induction as generalizing n with
  | nil => simp [takeFor]
  | cons a as ih =>
    obtain ⟨hcolumns, hnames, hafter⟩ := ih n.take.2
    refine ⟨?_, ?_, ?_⟩
    · rw [takeFor, List.map_cons, hcolumns]
    · have hfirst : numbered n.stem n.next ++ [n.take.1] = numbered n.stem (n.next + 1) := by
        rw [numbered, numbered, List.range_succ, List.map_append]
        rfl
      rw [takeFor, List.map_cons, List.append_cons, hfirst]
      refine hnames.trans ?_
      rw [List.length_cons, Nat.add_comm as.length, ← Nat.add_assoc]
      rfl
    · rw [takeFor, hafter, List.length_cons, Nat.add_comm as.length, ← Nat.add_assoc]
      rfl

end Names

/-- The columns that a batch writes, write by write. -/
def Batch.writtenColumns (m : Model) (t : Snapshot) (b : Batch) : List String :=
  b.writes.flatMap fun w => (w.writtenColumns m t).map (·.column)

namespace Packer

/-- The names that were taken for the batch of a number, in the order in which they were. -/
def claimsOf (k : Packer) (n : Nat) : List Claim :=
  k.claims.filter (·.batch = n)

/-- The names of each batch count up from zero, also if it was taken apart or never finished. Those
of the batches in `closed` are for the columns that the batch writes. -/
structure Named (m : Model) (stem : String) (k : Packer) (closed : List Batch) : Prop where
  stem_eq : k.names.stem = stem
  restarts : k.names.restarts = true
  claim_lt : ∀ c ∈ k.claims, c.batch < k.begun
  names : ∀ n, (k.claimsOf n).map (·.name) = numbered stem (k.claimsOf n).length
  closed_lt : ∀ b ∈ closed, b.number < k.begun
  columns : ∀ b ∈ closed, ∀ t, (k.claimsOf b.number).map (·.column) = b.writtenColumns m t

/-- The batch was begun last and may take more writes. -/
structure Filling (m : Model) (k : Packer) (closed : List Batch) (b : Batch) : Prop where
  last : b.number + 1 = k.begun
  next : k.names.next = (k.claimsOf b.number).length
  columns : ∀ t, (k.claimsOf b.number).map (·.column) = b.writtenColumns m t
  apart : ∀ c ∈ closed, c.number ≠ b.number

variable {p : Planner} {t : Snapshot} {stem : String} {k k' : Packer} {closed : List Batch}
variable {b b' : Batch} {w : RowWrite}

theorem claimsOf_append {claims : List Claim} {n : Nat}
    (h : k'.claims = k.claims ++ claims) :
    k'.claimsOf n = k.claimsOf n ++ claims.filter (·.batch = n) := by
  rw [claimsOf, h, List.filter_append, claimsOf]

/-- Only the record of what was taken and the numbering matter. -/
theorem Named.congr (h : k.Named m stem closed) (hnames : k'.names = k.names)
    (hbegun : k'.begun = k.begun) (hclaims : k'.claims = k.claims) : k'.Named m stem closed := by
  have hof (n : Nat) : k'.claimsOf n = k.claimsOf n := by rw [claimsOf, hclaims, claimsOf]
  exact {
    stem_eq := hnames ▸ h.stem_eq
    restarts := hnames ▸ h.restarts
    claim_lt := hclaims ▸ hbegun ▸ h.claim_lt
    names := fun n => hof n ▸ h.names n
    closed_lt := hbegun ▸ h.closed_lt
    columns := fun b hb t => hof b.number ▸ h.columns b hb t }

/-- A batch that is begun has no names yet, and its numbering starts at zero. -/
theorem Named.openBatch (h : k.Named m stem closed) :
    k.openBatch.1.Named m stem closed ∧ k.openBatch.1.Filling m closed k.openBatch.2 := by
  have hrestart : k.names.restart = { k.names with next := 0 } := by
    rw [Names.restart, if_pos h.restarts]
  have hnone : k.openBatch.1.claimsOf k.begun = [] := by
    refine List.filter_eq_nil_iff.mpr fun c hc hn => ?_
    exact absurd (of_decide_eq_true hn) (Nat.ne_of_lt (h.claim_lt c hc))
  refine ⟨⟨?_, ?_, ?_, h.names, ?_, h.columns⟩, ⟨rfl, ?_, fun t => ?_, ?_⟩⟩
  · simp [Packer.openBatch, hrestart, h.stem_eq]
  · simp [Packer.openBatch, hrestart, h.restarts]
  · exact fun c hc => Nat.lt_succ_of_lt (h.claim_lt c hc)
  · exact fun b hb => Nat.lt_succ_of_lt (h.closed_lt b hb)
  · rw [show k.openBatch.2.number = k.begun from rfl, hnone]
    simp [Packer.openBatch, hrestart]
  · rw [show k.openBatch.2.number = k.begun from rfl, hnone]
    rfl
  · exact fun b hb => Nat.ne_of_lt (h.closed_lt b hb)

/-- The packer after a batch has taken names for some columns. -/
def claimFor (k : Packer) (b : Batch) (cs : List ColumnUse) : Packer :=
  { k with
    names := (k.names.takeFor cs).2
    claims := k.claims ++ (k.names.takeFor cs).1.map fun (c, name) => ⟨b.number, c.column, name⟩ }

theorem claimsOf_claimFor (k : Packer) (b : Batch) (cs : List ColumnUse) (n : Nat) :
    (k.claimFor b cs).claimsOf n = k.claimsOf n ++
      if n = b.number then
        (k.names.takeFor cs).1.map fun (c, name) => (⟨b.number, c.column, name⟩ : Claim)
      else [] := by
  rw [claimsOf_append (k := k) rfl]
  congr 1
  split
  · rename_i hn
    subst hn
    exact List.filter_eq_self.mpr fun c hc => by
      obtain ⟨x, _, rfl⟩ := List.mem_map.mp hc
      exact decide_eq_true rfl
  · rename_i hn
    exact List.filter_eq_nil_iff.mpr fun c hc => by
      obtain ⟨x, _, rfl⟩ := List.mem_map.mp hc
      simpa using Ne.symm hn

/-- Names for the written columns of one more write, whose columns do not change any more. -/
theorem Named.claimFor {m : Model} (h : k.Named m stem closed) (hb : k.Filling m closed b)
    {cs : List ColumnUse} (hw : ∀ t, w.writtenColumns m t = cs) :
    (k.claimFor b cs).Named m stem closed ∧
      (k.claimFor b cs).Filling m closed { b with writes := b.writes ++ [w] } := by
  obtain ⟨hcolumns, hnames, hafter⟩ := k.names.takeFor_eq cs
  have hlength : (k.names.takeFor cs).1.length = cs.length := by
    rw [← List.length_map (f := Prod.fst), hcolumns]
  rw [h.stem_eq, hb.next] at hnames
  have hother {n : Nat} (hn : n ≠ b.number) : (k.claimFor b cs).claimsOf n = k.claimsOf n := by
    rw [claimsOf_claimFor, if_neg hn, List.append_nil]
  have hown : (k.claimFor b cs).claimsOf b.number = k.claimsOf b.number ++
      (k.names.takeFor cs).1.map fun (c, name) => (⟨b.number, c.column, name⟩ : Claim) := by
    rw [claimsOf_claimFor, if_pos rfl]
  refine ⟨⟨?_, ?_, ?_, fun n => ?_, h.closed_lt, fun c hc t => ?_⟩, ⟨hb.last, ?_, fun t => ?_,
    hb.apart⟩⟩
  · simp [Packer.claimFor, hafter, h.stem_eq]
  · simp [Packer.claimFor, hafter, h.restarts]
  · intro c hc
    rcases List.mem_append.mp hc with hc | hc
    · exact h.claim_lt c hc
    · obtain ⟨x, _, rfl⟩ := List.mem_map.mp hc
      have := hb.last
      simp only [Packer.claimFor]
      omega
  · by_cases hn : n = b.number
    · subst hn
      rw [hown, List.map_append, h.names, List.length_append, List.length_map, hlength, ← hnames,
        List.map_map]
      rfl
    · rw [hother hn]
      exact h.names n
  · rw [hother (hb.apart c hc)]
    exact h.columns c hc t
  · rw [hown, List.length_append, List.length_map, hlength, ← hb.next]
    simp [Packer.claimFor, hafter]
  · rw [hown, List.map_append, hb.columns t, List.map_map]
    have htaken := congrArg (List.map (·.column)) hcolumns
    rw [List.map_map] at htaken
    simp only [Batch.writtenColumns, List.flatMap_append, List.flatMap_singleton, hw t]
    exact congrArg _ htaken

section Packing

variable (hrule : p.rule.namesColumns = true)
include hrule

/-- The batch that was begun last may be offered one more write; it may still take more then. -/
theorem Named.offer (h : k.Named p.model stem closed) (hb : k.Filling p.model closed b)
    {r : Option Batch} (ho : k.offer p t b w = (k', r)) :
    k'.Named p.model stem closed ∧ k'.ready = k.ready ∧
      k'.Filling p.model closed (r.getD b) ∧ (r.getD b).number = b.number := by
  have hsettled (u : Snapshot) : (w.settle p.model t).writtenColumns p.model u =
      (w.settle p.model t).writtenColumns p.model t := rfl
  simp only [Packer.offer, hrule, if_true] at ho
  split at ho
  · obtain ⟨rfl, rfl⟩ := Prod.mk.inj ho
    obtain ⟨hnamed, hfilling⟩ := h.claimFor hb hsettled
    exact ⟨hnamed, rfl, hfilling, rfl⟩
  · obtain ⟨rfl, rfl⟩ := Prod.mk.inj ho
    exact ⟨h, rfl, hb, rfl⟩

theorem Named.offerFirst (h : k.Named p.model stem closed) {r : Except PlanError Batch}
    (ho : k.offerFirst p t w = (k', r)) :
    k'.Named p.model stem closed ∧ k'.ready = k.ready ∧
      ∀ b, r = .ok b → k'.Filling p.model closed b := by
  obtain ⟨hopen, hfilling⟩ := h.openBatch
  simp only [Packer.offerFirst] at ho
  split at ho
  · rename_i k₁ b₁ hoffer
    obtain ⟨rfl, rfl⟩ := Prod.mk.inj ho
    obtain ⟨hnamed, hready, hfilling', _⟩ := hopen.offer hrule hfilling hoffer
    exact ⟨hnamed, hready, fun b hb => Except.ok.inj hb ▸ hfilling'⟩
  · rename_i k₁ hoffer
    obtain ⟨rfl, rfl⟩ := Prod.mk.inj ho
    obtain ⟨hnamed, hready, _⟩ := hopen.offer hrule hfilling hoffer
    exact ⟨hnamed, hready, fun b hb => by cases hb⟩

omit hrule in
/-- A batch that is finished takes no more writes. -/
theorem Named.queue {m : Model} (h : k.Named m stem closed) (hb : k.Filling m closed b) :
    (k.queue b).Named m stem (closed ++ [b]) where
  stem_eq := h.stem_eq
  restarts := h.restarts
  claim_lt := h.claim_lt
  names := h.names
  closed_lt := by
    refine List.forall_mem_append.mpr ⟨h.closed_lt, List.forall_mem_singleton.mpr ?_⟩
    exact hb.last ▸ Nat.lt_succ_self _
  columns := List.forall_mem_append.mpr ⟨h.columns, List.forall_mem_singleton.mpr hb.columns⟩

theorem Named.queueSingly (h : k.Named p.model stem closed) {ws : List RowWrite}
    {r : Except PlanError Unit} (hq : k.queueSingly p t ws = (k', r)) :
    ∃ bs, k'.ready = k.ready ++ bs ∧ k'.Named p.model stem (closed ++ bs) := by
  induction ws generalizing k closed with
  | nil =>
    obtain ⟨rfl, _⟩ := Prod.mk.inj hq
    exact ⟨[], by simp, by simpa using h⟩
  | cons w ws ih =>
    simp only [Packer.queueSingly] at hq
    split at hq
    · rename_i k₁ e hfirst
      obtain ⟨rfl, _⟩ := Prod.mk.inj hq
      obtain ⟨hnamed, hready, _⟩ := h.offerFirst hrule hfirst
      exact ⟨[], by simpa using hready, by simpa using hnamed⟩
    · rename_i k₁ b hfirst
      obtain ⟨hnamed, hready, hfilling⟩ := h.offerFirst hrule hfirst
      obtain ⟨bs, hbs, hall⟩ := ih (hnamed.queue (hfilling b rfl)) hq
      refine ⟨b :: bs, ?_, by simpa using hall⟩
      rw [hbs, Packer.queue, hready]
      simp

theorem Named.finish (h : k.Named p.model stem closed) (hb : k.Filling p.model closed b)
    {r : Except PlanError Unit} (hf : k.finish p t b = (k', r)) :
    ∃ bs, k'.ready = k.ready ++ bs ∧ k'.Named p.model stem (closed ++ bs) := by
  unfold Packer.finish at hf
  split at hf
  · obtain ⟨rfl, _⟩ := Prod.mk.inj hf
    exact ⟨[b], rfl, h.queue hb⟩
  · have hlog : (k.log (.batchSplit b.writes.length)).Named p.model stem closed :=
      h.congr rfl rfl rfl
    obtain ⟨bs, hbs, hnamed⟩ := hlog.queueSingly hrule hf
    exact ⟨bs, hbs, hnamed⟩

theorem Named.pack (h : k.Named p.model stem closed) {opened : Option Batch}
    (hopened : ∀ b, opened = some b → k.Filling p.model closed b) {r : Except PlanError Batch}
    (hp : k.pack p t opened w = (k', r)) :
    ∃ bs, k'.ready = k.ready ++ bs ∧ k'.Named p.model stem (closed ++ bs) ∧
      ∀ b, r = .ok b → k'.Filling p.model (closed ++ bs) b := by
  unfold Packer.pack at hp
  cases opened with
  | none =>
    obtain ⟨hnamed, hready, hfilling⟩ := h.offerFirst hrule hp
    exact ⟨[], by simpa using hready, by simpa using hnamed, by simpa using hfilling⟩
  | some o =>
    have ho := hopened o rfl
    simp only at hp
    split at hp
    · rename_i k₁ b hoffer
      obtain ⟨rfl, rfl⟩ := Prod.mk.inj hp
      obtain ⟨hnamed, hready, hfilling, _⟩ := h.offer hrule ho hoffer
      refine ⟨[], by simpa using hready, by simpa using hnamed, fun b' hb' => ?_⟩
      rw [List.append_nil]
      exact Except.ok.inj hb' ▸ hfilling
    · rename_i k₁ hoffer
      obtain ⟨hnamed, hready, hfilling, _⟩ := h.offer hrule ho hoffer
      split at hp
      · obtain ⟨rfl, rfl⟩ := Prod.mk.inj hp
        exact ⟨[], by simpa using hready, by simpa using hnamed, fun b hb => by cases hb⟩
      · split at hp
        · rename_i k₂ e hfinish
          obtain ⟨rfl, rfl⟩ := Prod.mk.inj hp
          obtain ⟨bs, hbs, hall⟩ := hnamed.finish hrule hfilling hfinish
          exact ⟨bs, hready ▸ hbs, hall, fun b hb => by cases hb⟩
        · rename_i k₂ hfinish
          obtain ⟨bs, hbs, hall⟩ := hnamed.finish hrule hfilling hfinish
          obtain ⟨hnamed', hready', hfilling'⟩ := hall.offerFirst hrule hp
          exact ⟨bs, by rw [hready', hbs, hready], hnamed', hfilling'⟩

end Packing

end Packer

namespace Stream

variable {p : Planner} {t : Snapshot} {stem : String} {s s' : Stream} {sent : List Batch}

/-- Of all batches that were begun only the open one takes writes; the others are sent, at hand or
given up. -/
structure Naming (m : Model) (stem : String) (sent : List Batch) (s : Stream) : Prop where
  packer : s.packer.Named m stem (sent ++ s.packer.ready)
  opened : ∀ b, s.opened = some b → s.packer.Filling m (sent ++ s.packer.ready) b

theorem Naming.of_silent {m : Model} (h : s.Naming m stem sent) {item : Item}
    (hitem : sentBatches [item] = []) : s.Naming m stem (sent ++ sentBatches [item]) := by
  rwa [hitem, List.append_nil]

section Turns

variable (hrule : p.rule.namesColumns = true)
include hrule

theorem Naming.move (h : s.Naming p.model stem sent) (hturn : s.turn p t = .move s') :
    s'.Naming p.model stem sent := by
  obtain ⟨hpacker, hopened⟩ := h
  cases moved_of_turn hturn with
  | pack hr hc hw hpack =>
    rw [hr, List.append_nil] at hpacker hopened
    obtain ⟨bs, hbs, hnamed, hfilling⟩ := hpacker.pack hrule hopened hpack
    rw [hr, List.nil_append] at hbs
    exact ⟨hbs ▸ hnamed, fun b hb => hbs ▸ hfilling b (congrArg _ (Option.some.inj hb))⟩
  | finish hr hc ho hfinish =>
    rw [hr, List.append_nil] at hpacker hopened
    obtain ⟨bs, hbs, hnamed⟩ := hpacker.finish hrule (hopened _ ho) hfinish
    rw [hr, List.nil_append] at hbs
    exact ⟨hbs ▸ hnamed, fun b hb => by cases hb⟩
  | openNext => exact ⟨hpacker, hopened⟩

theorem Naming.answer (h : s.Naming p.model stem sent) {item : Item}
    (hturn : s.turn p t = .answer item s') :
    s'.Naming p.model stem (sent ++ sentBatches [item]) := by
  obtain ⟨hpacker, hopened⟩ := h
  cases answered_of_turn hturn with
  | @send b ready hr =>
    rw [hr, List.append_cons] at hpacker hopened
    exact ⟨hpacker.congr rfl rfl rfl, fun o ho =>
      ⟨(hopened o ho).last, (hopened o ho).next, (hopened o ho).columns, (hopened o ho).apart⟩⟩
  | unfit =>
    refine .of_silent ?_ rfl
    exact ⟨hpacker, hopened⟩
  | unpacked hr hc hw hpack =>
    rw [hr, List.append_nil] at hpacker hopened
    obtain ⟨bs, hbs, hnamed, _⟩ := hpacker.pack hrule hopened hpack
    rw [hr, List.nil_append] at hbs
    exact .of_silent ⟨hbs ▸ hnamed, fun b hb => by cases hb⟩ rfl
  | unfinished hr hc ho hfinish =>
    rw [hr, List.append_nil] at hpacker hopened
    obtain ⟨bs, hbs, hnamed⟩ := hpacker.finish hrule (hopened _ ho) hfinish
    rw [hr, List.nil_append] at hbs
    exact .of_silent ⟨hbs ▸ hnamed, fun b hb => by cases hb⟩ rfl
  | ended =>
    refine .of_silent ?_ rfl
    exact ⟨hpacker, hopened⟩

theorem Naming.history :
    History p fun items s => s.Naming p.model stem (sentBatches items) where
  move _ _ _ _ _ h hturn := h.move hrule hturn
  answer _ items _ item _ _ h hturn := by
    rw [sentBatches_append]
    exact h.answer hrule hturn
  ended items s _ h := by
    rw [sentBatches_append]
    exact h.of_silent rfl

end Turns

/-- Nothing has been named when a pass begins. -/
theorem naming_of_prepare (hnames : p.names = .ofStem stem) (entries : List Nat) (begun : Nat) :
    ((ofEntries entries begun).prepare p t entries).2.Naming p.model stem [] := by
  have hstart (events : List Event) :
      (⟨p.names, begun, [], events, []⟩ : Packer).Named p.model stem [] := by
    refine ⟨by simp [hnames, Names.ofStem], by simp [hnames, Names.ofStem], ?_, fun _ => rfl,
      ?_, ?_⟩
    · exact fun _ hc => absurd hc List.not_mem_nil
    · exact fun _ hb => absurd hb List.not_mem_nil
    · exact fun _ hb => absurd hb List.not_mem_nil
  simp only [Stream.prepare]
  split
  · exact ⟨hstart _, fun _ hb => by cases hb⟩
  · exact ⟨hstart _, fun _ hb => by cases hb⟩

end Stream

/-- The names that are taken for a batch are those of a numbering from zero on, in the order in
which it takes its writes. A batch that is sent has one for each column that its writes write. -/
theorem names_restart_in_each_batch (p : Planner) (stem : String)
    (hnames : p.names = .ofStem stem) (hrule : p.rule.namesColumns = true) (entries : List Nat)
    (begun : Nat) (ts : List Snapshot) :
    let pass := (Stream.ofEntries entries begun).requests p ts
    (∀ n, (pass.2.packer.claimsOf n).map (·.name) =
        numbered stem (pass.2.packer.claimsOf n).length ∧
      ((pass.2.packer.claimsOf n).map (·.name)).Nodup) ∧
      ∀ b, .batch b ∈ pass.1 → ∀ t,
        (pass.2.packer.claimsOf b.number).map (·.column) = b.writtenColumns p.model t := by
  intro pass
  cases ts with
  | nil => exact ⟨fun _ => ⟨rfl, List.nodup_nil⟩, fun _ hb => absurd hb List.not_mem_nil⟩
  | cons t later =>
    have hnaming : pass.2.Naming p.model stem (sentBatches pass.1) :=
      (Stream.Naming.history hrule).of_plan
        (fun _ _ => Stream.naming_of_prepare hnames entries begun)
        (fun _ _ => Stream.naming_of_prepare hnames entries begun) later
    refine ⟨fun n => ⟨hnaming.packer.names n, ?_⟩, fun b hb => ?_⟩
    · rw [hnaming.packer.names n]
      exact numbered_nodup stem _
    · refine hnaming.packer.columns b (List.mem_append_left _ ?_)
      exact List.mem_filterMap.mpr ⟨_, hb, rfl⟩

namespace Family

/-- Batches of four columns at most, and of three writes if they are not to be taken apart. -/
def rationed : Planner :=
  { planner with config := { minBatchSize := 3 }, rule := .columnLimits model [4] }

/-- Parents are added. -/
def cohort : Snapshot := fun i => row 0 .added [Int64.ofNat i, Int64.ofNat i]

def cohortPass : List Item × Stream :=
  (Stream.ofEntries [0, 1, 2] 0).requests rationed (List.replicate 4 cohort)

/-- The first two parents fill a batch that is taken apart when the third one does not fit in. -/
theorem names_restart_in_each_batch_cohort :
    spec.build = .ok rationed.model ∧
      rationed.names = .ofStem "p" ∧ rationed.rule.namesColumns = true ∧
      (sentBatches cohortPass.1).map (·.number) = [1, 2, 3] ∧
      (cohortPass.2.packer.claimsOf 0).map (·.name) = ["p0", "p1", "p2", "p3"] ∧
      ∀ n ∈ [1, 2, 3], (cohortPass.2.packer.claimsOf n).map (·.name) = ["p0", "p1"] := by
  obtain ⟨hnames, _⟩ := names_restart_in_each_batch rationed "p" rfl rfl [0, 1, 2] 0
    (List.replicate 4 cohort)
  have hcount (n : Nat) (names : List String)
      (hlength : (cohortPass.2.packer.claimsOf n).length = names.length)
      (hnumbered : numbered "p" names.length = names) :
      (cohortPass.2.packer.claimsOf n).map (·.name) = names :=
    (hnames n).1.trans ((congrArg (numbered "p") hlength).trans hnumbered)
  refine ⟨spec_build, rfl, rfl, by decide +kernel, ?_, ?_⟩
  · exact hcount 0 _ (by decide +kernel) (by decide +kernel)
  · simp only [List.forall_mem_cons]
    exact ⟨hcount 1 _ (by decide +kernel) (by decide +kernel),
      hcount 2 _ (by decide +kernel) (by decide +kernel),
      hcount 3 _ (by decide +kernel) (by decide +kernel), List.forall_mem_nil _⟩

end Family

end WritePlan

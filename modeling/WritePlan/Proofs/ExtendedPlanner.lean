import WritePlan.Proofs.BuiltWrites
import WritePlan.Proofs.Extension

namespace WritePlan

/-- The comparer reads nothing of a larger model but what the model has. -/
def Comparer.KeepsTo (c : Comparer) (m : Model) : Prop :=
  ∀ m', m'.Extends m → ∀ t v w, (∀ i ∈ v.entries, (t i).IsOf m) →
    (∀ i ∈ w.entries, (t i).IsOf m) → c m' t v w = c m t v w

theorem Comparer.standard_keepsTo {m : Model} (hm : m.Closed) : Comparer.standard.KeepsTo m := by
  intro m' h t v w hv hw
  rw [standard, h.keyValues hm hv, h.keyValues hm hw, standard]

/-- The planner `p'` does with an extended model what `p` does. -/
structure Planner.Extends (p' p : Planner) : Prop where
  model : p'.model.Extends p.model
  config : p'.config = p.config
  tableOf : ∀ e, e.index < p.model.entityTypes.length → p'.tableOf e = p.tableOf e
  collate : p'.collate = p.collate
  names : p'.names = p.names
  rule : p'.rule = p.rule
  unnamed : p.rule.namesColumns = false
  comparer : p'.comparer = p.comparer
  keepsTo : p.comparer.KeepsTo p.model

namespace Planner.Extends

variable {p p' : Planner} (hm : p.model.Closed) (h : p'.Extends p)
variable {t : Snapshot} {entries : List Nat} (ht : ∀ i ∈ entries, (t i).IsOf p.model)

section Planning
include hm h ht

theorem addAll (shared : List SharedTable) (r : Routed) {is : List Nat}
    (his : ∀ i ∈ is, i ∈ entries) :
    r.addAll p'.model p'.tableOf shared t is = r.addAll p.model p.tableOf shared t is := by
  induction is generalizing r with
  | nil => rfl
  | cons i is ih =>
    obtain ⟨hi, his⟩ := List.forall_mem_cons.mp his
    have hi := ht i hi
    unfold Routed.addAll
    simp only [h.model.entityType hi, h.tableOf _ hi,
      h.model.route? hm shared hi (h.tableOf _ hi), ih _ his]

theorem buildWrites : p'.buildWrites t entries = p.buildWrites t entries := by
  have hshared : p'.sharedTables = p.sharedTables := h.model.sharedTables hm h.tableOf
  unfold Planner.buildWrites WritePlan.buildWrites
  rw [hshared, h.config, h.addAll hm ht p.sharedTables _ fun _ hi => hi]
  cases hrouted : Routed.empty.addAll p.model p.tableOf p.sharedTables t entries with
  | error e => rfl
  | ok routed =>
    have hwithin := Routed.addAll_within hrouted
    have hw (w : RowWrite) (hw : w ∈ routed.writes) : ∀ i ∈ w.entries, (t i).IsOf p.model :=
      fun i hi => ht i ((hwithin w hw).2.mem i hi)
    simp only [bind, Except.bind]
    rw [forM_congr_of_mem fun w hw' => h.model.checkIdentity hm (hw w hw') _,
      List.filterMap_congr fun w hw' => h.model.kept? hm (hw w hw')]

/-- What waits in a circle does so for the sake of constraints of the model. -/
theorem arrange {ws : List RowWrite} (hws : ∀ w ∈ ws, w.Within entries) {g : DependencyGraph}
    (hg : dependencyGraph p.model p.collate t ws = .ok g) : p'.arrange ws g = p.arrange ws g := by
  have hws (w : RowWrite) (hw : w ∈ ws) : ∀ i ∈ w.entries, (t i).IsOf p.model :=
    fun i hi => ht i ((hws w hw).mem i hi)
  unfold Planner.arrange
  cases hl : g.levels with
  | ok levels => simp only [Except.mapError]
  | error u =>
    obtain ⟨g', hg', hbuilt, _, hlabels, _⟩ := dependencyGraph_eq_ok p.model p.collate t ws
    obtain rfl := Except.ok.inj (hg.symm.trans hg')
    obtain ⟨edges, rfl, hwalk⟩ := Multigraph.levels_eq_error hbuilt.indexed hl
    have hdescribe (e : Edge Nat Dependency) (he : e ∈ edges) :
        e.labels.head?.map (·.describe p'.model) = e.labels.head?.map (·.describe p.model) := by
      refine Option.map_congr fun d hd => h.model.describe hm ?_
      have hd := List.mem_of_head? hd
      rw [(hwalk.edge e he).2, hlabels] at hd
      exact hm.isOf_of_mem_dependencies hws hd
    have hsame : p'.planErrorOf (.circular edges) = p.planErrorOf (.circular edges) := by
      rw [planErrorOf, describeCycle, List.filterMap_congr hdescribe, planErrorOf, describeCycle]
    simp only [Except.mapError, hsame]

theorem prepare : p'.prepare t entries = p.prepare t entries := by
  unfold Planner.prepare
  rw [h.buildWrites hm ht]
  cases hb : p.buildWrites t entries with
  | error e => rfl
  | ok built =>
    have hwithin (w : RowWrite) (hw : w ∈ built.writes) : w.Within entries :=
      (buildWrites_within hb w hw).1
    have hws (w : RowWrite) (hw : w ∈ built.writes) : ∀ i ∈ w.entries, (t i).IsOf p.model :=
      fun i hi => ht i ((hwithin w hw).mem i hi)
    obtain ⟨g, hg, _⟩ := dependencyGraph_eq_ok p.model p.collate t built.writes
    simp only [h.collate, h.model.dependencyGraph hm p.collate hws, hg,
      h.arrange hm ht hwithin hg]

theorem examine {w : RowWrite} (hw : w.Within entries) :
    w.examine p'.model t = w.examine p.model t := by
  have hcolumns := h.model.columns hm fun i hi => ht i (hw.mem i hi)
  have hsettle := h.model.settle hm fun i hi => ht i (hw.mem i hi)
  have hcheck : w.checkTemporary p'.model t = w.checkTemporary p.model t := by
    unfold RowWrite.checkTemporary
    rw [hcolumns]
    split
    · cases hc : (w.columns p.model t).find? fun c => !c.roles.read && c.isTemporary t with
      | none => rfl
      | some c =>
        have hentry := hw.columns p.model t c (List.mem_of_find?_eq_some hc)
        simp only [h.model.typeName (ht c.entry hentry)]
    · rfl
  rw [RowWrite.examine, hcheck, hsettle, RowWrite.examine]

end Planning

section Packing
include h

theorem offer (k : Packer) (b : Batch) (w : RowWrite) : k.offer p' t b w = k.offer p t b w := by
  simp only [Packer.offer, h.rule, h.unnamed, Bool.false_eq_true, ↓reduceIte]

end Packing

end Planner.Extends

/-- What is left to do is about some of the entries. -/
structure Stream.Within (entries : List Nat) (s : Stream) : Prop where
  pending : ∀ is, s.pending = some is → is = entries
  sets : ∀ w ∈ s.sets.flatten, w.Within entries
  current : ∀ w ∈ s.current, w.Within entries

namespace Stream

variable {p : Planner} {t : Snapshot} {entries : List Nat} {s s' : Stream}

theorem Within.tail {w : RowWrite} {current : List RowWrite} (hs : s.Within entries)
    (hc : s.current = w :: current) : ∀ v ∈ current, v.Within entries :=
  fun v hv => hs.current v (hc ▸ List.mem_cons_of_mem w hv)

/-- A stream that moves on drops what it has packed, or it sorts the next set. -/
theorem Within.of_moved (hs : s.Within entries) (h : Moved p t s s') : s'.Within entries := by
  cases h with
  | pack _ hc _ _ => exact ⟨hs.pending, hs.sets, hs.tail hc⟩
  | finish _ _ _ _ => exact ⟨hs.pending, hs.sets, hs.current⟩
  | @openNext set sets _ _ _ hsets =>
    have hall := hs.sets
    rw [hsets, List.flatten_cons] at hall
    refine ⟨hs.pending, fun w hw => hall w (List.mem_append_right set hw), fun w hw => ?_⟩
    exact hall w (List.mem_append_left _ (mem_sortBy.mp hw))

theorem Within.of_answered (hs : s.Within entries) {item : Item} (h : Answered p t s item s') :
    s'.Within entries := by
  cases h with
  | send _ => exact ⟨hs.pending, hs.sets, hs.current⟩
  | unfit _ hc _ => exact ⟨hs.pending, hs.sets, hs.tail hc⟩
  | unpacked _ hc _ _ => exact ⟨hs.pending, hs.sets, hs.tail hc⟩
  | unfinished _ _ _ _ => exact ⟨hs.pending, hs.sets, hs.current⟩
  | ended _ _ _ _ => exact ⟨hs.pending, hs.sets, hs.current⟩

theorem Within.of_advance (hs : s.Within entries) : (s.advance p t).2.Within entries := by
  fun_induction advance p t s with
  | case1 s item s' hturn => exact hs.of_answered (answered_of_turn hturn)
  | case2 s s' hturn ih => exact ih (hs.of_moved (moved_of_turn hturn))

theorem Within.of_prepare (hs : s.Within entries) :
    (s.prepare p t entries).2.Within entries := by
  cases hsets : (p.prepare t entries).sets with
  | error e =>
    simp only [Stream.prepare, hsets]
    exact ⟨fun _ hp => absurd hp.symm (Option.some_ne_none _), hs.sets, hs.current⟩
  | ok sets =>
    simp only [Stream.prepare, hsets]
    exact ⟨fun _ hp => absurd hp.symm (Option.some_ne_none _),
      fun w hw => (Planner.sets_within hsets w hw).1, hs.current⟩

end Stream

namespace Planner.Extends

variable {p p' : Planner} (hm : p.model.Closed) (h : p'.Extends p)
variable {t : Snapshot} {entries : List Nat} {s : Stream}
include hm h

theorem turn (ht : ∀ i ∈ entries, (t i).IsOf p.model) (hs : s.Within entries) :
    s.turn p' t = s.turn p t := by
  have hcompared (w : RowWrite) (hw : w ∈ s.compared) : ∀ i ∈ w.entries, (t i).IsOf p.model :=
    fun i hi => ht i ((hs.sets w (Stream.mem_sets_of_compared hw)).mem i hi)
  refine Stream.turn_congr h.config h.offer (fun w hw => ?_) ?_
  · exact h.examine hm ht (hs.current w (Stream.mem_current_of_examined hw))
  · rw [h.comparer]
    exact sortBy_congr fun v hv w hw => h.keepsTo _ h.model t v w (hcompared v hv) (hcompared w hw)

theorem advance (ht : ∀ i ∈ entries, (t i).IsOf p.model) (hs : s.Within entries) :
    s.advance p' t = s.advance p t := by
  fun_induction Stream.advance p t s with
  | case1 s item s' hturn => exact Stream.advance_of_answer ((h.turn hm ht hs).trans hturn)
  | case2 s s' hturn ih =>
    rw [Stream.advance_of_move ((h.turn hm ht hs).trans hturn)]
    exact ih (hs.of_moved (Stream.moved_of_turn hturn))

theorem next (ht : ∀ i ∈ entries, (t i).IsOf p.model) (hs : s.Within entries) :
    s.next p' t = s.next p t ∧ (s.next p t).2.Within entries := by
  unfold Stream.next
  split
  · exact ⟨rfl, hs⟩
  · split
    · exact ⟨h.advance hm ht hs, hs.of_advance⟩
    · rename_i is hpending
      obtain rfl := hs.pending is hpending
      have hprepare : s.prepare p' t is = s.prepare p t is := by
        rw [Stream.prepare, h.prepare hm ht, h.names, Stream.prepare]
      have hwithin := hs.of_prepare (p := p) (t := t)
      rw [hprepare]
      split
      · rename_i hs'
        rw [hs'] at hwithin
        exact ⟨rfl, hwithin⟩
      · rename_i hs'
        rw [hs'] at hwithin
        exact ⟨h.advance hm ht hwithin, hwithin.of_advance⟩

theorem requests {ts : List Snapshot} (hts : ∀ t ∈ ts, ∀ i ∈ entries, (t i).IsOf p.model)
    (hs : s.Within entries) : (s.requests p' ts).1 = (s.requests p ts).1 := by
  induction ts generalizing s with
  | nil => rfl
  | cons t ts ih =>
    obtain ⟨ht, hts⟩ := List.forall_mem_cons.mp hts
    obtain ⟨hnext, hwithin⟩ := h.next hm ht hs
    simp only [Stream.requests, hnext, ih hts hwithin]

theorem answers (begun : Nat) {ts : List Snapshot}
    (hts : ∀ t ∈ ts, ∀ i ∈ entries, (t i).IsOf p.model) :
    p'.answers entries begun ts = p.answers entries begun ts := by
  refine h.requests hm hts ⟨fun _ hp => (Option.some.inj hp).symm, ?_, ?_⟩
  · exact fun _ hw => absurd hw List.not_mem_nil
  · exact fun _ hw => absurd hw List.not_mem_nil

end Planner.Extends

end WritePlan

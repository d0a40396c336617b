import WritePlan.Proofs.Arrangement
import WritePlan.Proofs.Sorting
import WritePlan.Proofs.Turns

namespace WritePlan

/-- A set that was opened: its writes in the order in which they are to be sent, and those batches
of them that were. -/
structure OpenedSet where
  order : List RowWrite
  sent : List Batch

namespace OpenedSet

/-- The batches of some sets, in turn. -/
def batches (opened : List OpenedSet) : List Batch :=
  opened.flatMap (·.sent)

/-- The writes of some sets, in turn. -/
def schedule (opened : List OpenedSet) : List RowWrite :=
  opened.flatMap (·.order)

/-- All writes of the set were sent. -/
def Complete (o : OpenedSet) : Prop :=
  SameRows (writesOf o.sent) o.order

theorem batches_concat (opened : List OpenedSet) (o : OpenedSet) :
    batches (opened ++ [o]) = batches opened ++ o.sent := by
  simp [batches]

theorem schedule_concat (opened : List OpenedSet) (o : OpenedSet) :
    schedule (opened ++ [o]) = schedule opened ++ o.order := by
  simp [schedule]

theorem sameRows_schedule {opened : List OpenedSet} (h : ∀ o ∈ opened, o.Complete) :
    SameRows (writesOf (batches opened)) (schedule opened) := by
  induction opened with
  | nil => exact .nil
  | cons o opened ih =>
    obtain ⟨ho, hopened⟩ := List.forall_mem_cons.mp h
    have hall := SameRows.append ho (ih hopened)
    simpa [writesOf, batches, schedule, List.flatMap_append] using hall

end OpenedSet

open OpenedSet

/-- The opened sets are the first of the plan. Each is stably sorted as of the request in which it
was opened: the requests before that one were answered by the batches of the sets before. -/
def OpenedInTurn (p : Planner) (sets : List (List RowWrite)) (ts : List Snapshot)
    (opened : List OpenedSet) : Prop :=
  ∀ k o, opened[k]? = some o → ∃ set t, sets[k]? = some set ∧
    ts[(batches (opened.take k)).length]? = some t ∧
    StablySorted (p.comparer p.model t) set o.order

/-- What follows the batches: nothing as yet, or a failure that keeps some of the last opened set
back, or the end, when all writes of all sets were sent. -/
inductive Closing (sets : List (List RowWrite)) (opened : List OpenedSet) : List Item → Prop
  | underway : Closing sets opened []
  | failed (e : PlanError) (n : Nat) {before : List OpenedSet} {o : OpenedSet} :
    opened = before ++ [o] → ¬ o.Complete →
    Closing sets opened (.failed e :: List.replicate n .ended)
  | ended (n : Nat) : opened.length = sets.length → (∀ o ∈ opened, o.Complete) →
    Closing sets opened (.ended :: List.replicate n .ended)

/-- The answers to some requests are the batches of opened sets and what follows them. -/
structure Delivery (p : Planner) (sets : List (List RowWrite)) (ts : List Snapshot)
    (answers : List Item) (opened : List OpenedSet) : Prop where
  answers_eq : ∃ last, answers = (batches opened).map .batch ++ last ∧ Closing sets opened last
  inTurn : OpenedInTurn p sets ts opened
  filled : ∀ b ∈ batches opened, b.writes ≠ []
  begun : ∀ o ∈ opened, ∃ rest, SameRows (writesOf o.sent ++ rest) o.order
  complete : ∀ o ∈ opened.dropLast, o.Complete

section InTurn

variable {p : Planner} {sets : List (List RowWrite)} {ts : List Snapshot}
variable {opened : List OpenedSet} {o : OpenedSet}

theorem openedInTurn_concat : OpenedInTurn p sets ts (opened ++ [o]) ↔
    OpenedInTurn p sets ts opened ∧ ∃ set t, sets[opened.length]? = some set ∧
      ts[(batches opened).length]? = some t ∧
      StablySorted (p.comparer p.model t) set o.order := by
  constructor
  · intro h
    refine ⟨fun k o' hk => ?_, ?_⟩
    · have hlt : k < opened.length := (List.getElem?_eq_some_iff.mp hk).1
      have := h k o' (getElem?_concat_eq_some.mpr (.inl hk))
      rwa [List.take_append_of_le_length (Nat.le_of_lt hlt)] at this
    · simpa using h opened.length o (by simp)
  · intro ⟨h, hlast⟩ k o' hk
    rcases getElem?_concat_eq_some.mp hk with hk | ⟨rfl, rfl⟩
    · have hlt : k < opened.length := (List.getElem?_eq_some_iff.mp hk).1
      rw [List.take_append_of_le_length (Nat.le_of_lt hlt)]
      exact h k o' hk
    · simpa using hlast

/-- Opening a set neither adds writes to it nor takes any away. -/
theorem OpenedInTurn.perm (h : OpenedInTurn p sets ts opened) :
    (schedule opened).Perm (sets.take opened.length).flatten := by
  induction opened using List.reverseRecOn with
  | nil => exact .nil
  | append_singleton opened o ih =>
    obtain ⟨h, set, t, hset, _, hsorted⟩ := openedInTurn_concat.mp h
    obtain ⟨hlt, rfl⟩ := List.getElem?_eq_some_iff.mp hset
    rw [schedule_concat, List.length_append, List.length_singleton,
      ← List.take_append_getElem hlt, List.flatten_append, List.flatten_singleton]
    exact (ih h).append hsorted.perm

end InTurn

/-- A stream that is packing the set `o`, the last that was opened. -/
structure Delivering (p : Planner) (sets : List (List RowWrite)) (ts : List Snapshot)
    (before : List OpenedSet) (o : OpenedSet) (s : Stream) : Prop where
  running : s.Running
  atHand : s.Filled
  later : s.sets = sets.drop (before.length + 1)
  inTurn : OpenedInTurn p sets ts (before ++ [o])
  filled : ∀ b ∈ batches (before ++ [o]), b.writes ≠ []
  complete : ∀ o' ∈ before, o'.Complete
  rest : SameRows (writesOf o.sent ++ (writesOf s.packer.ready ++ s.unsent)) o.order

namespace Delivering

variable {p : Planner} {t : Snapshot} {sets : List (List RowWrite)} {ts : List Snapshot}
variable {before : List OpenedSet} {o : OpenedSet} {s s' : Stream}

theorem delivery (h : Delivering p sets ts before o s) {last : List Item}
    (hlast : Closing sets (before ++ [o]) last) :
    Delivery p sets ts ((batches (before ++ [o])).map .batch ++ last) (before ++ [o]) := by
  refine ⟨⟨last, rfl, hlast⟩, h.inTurn, h.filled, fun o' ho' => ?_, ?_⟩
  · rcases List.mem_append.mp ho' with ho' | ho'
    · exact ⟨[], by simpa [Complete] using h.complete o' ho'⟩
    · obtain rfl := List.mem_singleton.mp ho'
      exact ⟨_, h.rest⟩
  · simpa using h.complete

/-- What is finished out of the open set stays in it. -/
theorem pack (h : Delivering p sets ts before o s) (hready : s.packer.ready = [])
    (hrunning : s'.Running) (hfilled : s'.Filled) (hsets : s'.sets = s.sets)
    (hrows : SameRows (writesOf s'.packer.ready ++ s'.unsent) s.unsent) :
    Delivering p sets ts before o s' := by
  have hrest := h.rest
  rw [hready] at hrest
  exact ⟨hrunning, hfilled, hsets.trans h.later, h.inTurn, h.filled, h.complete,
    ((SameRows.refl _).append hrows).trans (by simpa [writesOf] using hrest)⟩

/-- The next set is opened when this one was sent. -/
theorem openNext (hc : ∀ t, Std.TransCmp (p.comparer p.model t))
    (h : Delivering p sets ts before o s)
    (ht : ts[(batches (before ++ [o])).length]? = some t) {set : List RowWrite}
    (hready : s.packer.ready = []) (hempty : s.unsent = []) (hready' : s'.packer.ready = [])
    (hrunning : s'.Running) (hfilled : s'.Filled) (hsets : s.sets = set :: s'.sets)
    (hsorted : s'.unsent = sortBy (p.comparer p.model t) set) :
    Delivering p sets ts (before ++ [o]) ⟨s'.unsent, []⟩ s' := by
  have hdrop : sets.drop (before.length + 1) = set :: s'.sets := h.later.symm.trans hsets
  have hset : sets[before.length + 1]? = some set := by
    have := @List.getElem?_drop _ sets (before.length + 1) 0
    rw [hdrop] at this
    simpa using this.symm
  have ho : o.Complete := by
    have hrest := h.rest
    rw [hready, hempty] at hrest
    simpa [Complete, writesOf] using hrest
  refine ⟨hrunning, hfilled, ?_, ?_, ?_, ?_, ?_⟩
  · have := congrArg List.tail hdrop
    simpa using this.symm
  · have := hc t
    refine openedInTurn_concat.mpr ⟨h.inTurn, set, t, by simpa using hset, ht, ?_⟩
    rw [hsorted]
    exact stablySorted_sortBy set
  · simpa [batches] using h.filled
  · intro o' ho'
    rcases List.mem_append.mp ho' with ho' | ho'
    · exact h.complete o' ho'
    · exact List.mem_singleton.mp ho' ▸ ho
  · rw [hready']
    exact .refl _

theorem move (hc : ∀ t, Std.TransCmp (p.comparer p.model t))
    (h : Delivering p sets ts before o s)
    (ht : ts[(batches (before ++ [o])).length]? = some t) (hturn : s.turn p t = .move s') :
    ∃ before' o', batches (before' ++ [o']) = batches (before ++ [o]) ∧
      Delivering p sets ts before' o' s' := by
  obtain ⟨hready, hrunning, hfilled, ⟨hsets, hrows⟩ | ⟨hempty, hready', set, hsets, hsorted⟩⟩ :=
    Stream.turn_eq_move hturn
  · exact ⟨before, o, rfl,
      h.pack hready (hrunning h.running) (hfilled h.atHand) hsets hrows⟩
  · exact ⟨before ++ [o], ⟨s'.unsent, []⟩, by simp [batches], h.openNext hc ht hready hempty
      hready' (hrunning h.running) (hfilled h.atHand) hsets hsorted⟩

/-- A finished batch is sent. -/
theorem send (h : Delivering p sets ts before o s) {b : Batch}
    (hready : s.packer.ready = b :: s'.packer.ready) (hsets : s'.sets = s.sets)
    (hunsent : s'.unsent = s.unsent) (hrunning : s'.Running) (hfilled : s'.Filled) :
    Delivering p sets ts before { o with sent := o.sent ++ [b] } s' := by
  refine ⟨hrunning, hfilled, hsets.trans h.later, ?_, ?_, h.complete, ?_⟩
  · have hturn := openedInTurn_concat.mp h.inTurn
    exact openedInTurn_concat.mpr hturn
  · intro b' hb'
    rw [batches_concat, ← List.append_assoc, ← batches_concat] at hb'
    rcases List.mem_append.mp hb' with hb' | hb'
    · exact h.filled b' hb'
    · exact List.mem_singleton.mp hb' ▸ h.atHand.ready b (hready ▸ List.mem_cons_self)
  · have hrest := h.rest
    rw [hready] at hrest
    rw [hunsent]
    simpa [writesOf] using hrest

/-- A stream that can send no more of the open set says so, or all sets were sent. -/
theorem closing (h : Delivering p sets ts before o s) {item : Item}
    (hready : s.packer.ready = [])
    (hitem : (∃ e, item = .failed e ∧ (s.Filled → s.unsent ≠ [])) ∨
      item = .ended ∧ s.sets = [] ∧ s.unsent = []) (n : Nat) :
    Closing sets (before ++ [o]) (item :: List.replicate n .ended) := by
  have hrest := h.rest
  rw [hready] at hrest
  rcases hitem with ⟨e, rfl, hunsent⟩ | ⟨rfl, hsets, hunsent⟩
  · refine .failed e n rfl fun ho => ?_
    have hlength := ho.length_eq.trans hrest.length_eq.symm
    have := List.length_pos_iff.mpr (hunsent h.atHand)
    simp only [writesOf, List.flatMap_nil, List.nil_append, List.length_append] at hlength
    omega
  · have ho : o.Complete := by
      rw [hunsent] at hrest
      simpa [Complete, writesOf] using hrest
    refine .ended n ?_ ?_
    · obtain ⟨_, _, _, hset, _⟩ := openedInTurn_concat.mp h.inTurn
      have hlt := (List.getElem?_eq_some_iff.mp hset).1
      have hle := List.drop_eq_nil_iff.mp (h.later.symm.trans hsets)
      rw [List.length_append, List.length_singleton]
      omega
    · intro o' ho'
      rcases List.mem_append.mp ho' with ho' | ho'
      · exact h.complete o' ho'
      · exact List.mem_singleton.mp ho' ▸ ho

/-- A request is answered by the next batch, or by the last thing that the stream says. -/
theorem advance (hc : ∀ t, Std.TransCmp (p.comparer p.model t))
    (h : Delivering p sets ts before o s)
    (ht : ts[(batches (before ++ [o])).length]? = some t) :
    (∃ before' o' b, (s.advance p t).1 = .batch b ∧
      batches (before' ++ [o']) = batches (before ++ [o]) ++ [b] ∧
      Delivering p sets ts before' o' (s.advance p t).2) ∨
    ∃ before' o' s', (s.advance p t).2.done = true ∧
      batches (before' ++ [o']) = batches (before ++ [o]) ∧ Delivering p sets ts before' o' s' ∧
      ∀ n, Closing sets (before' ++ [o']) ((s.advance p t).1 :: List.replicate n .ended) := by
  fun_induction Stream.advance p t s generalizing before o with
  | case1 s item s' hturn =>
    rcases Stream.turn_eq_answer hturn with
      ⟨b, rfl, hready, hsets, hunsent, hrunning, hfilled⟩ | ⟨hdone, hready, hitem⟩
    · refine .inl ⟨before, { o with sent := o.sent ++ [b] }, b, rfl, by simp [batches], ?_⟩
      exact h.send hready hsets hunsent (hrunning h.running) (hfilled h.atHand)
    · exact .inr ⟨before, o, s, hdone, rfl, h, h.closing hready hitem⟩
  | case2 s s' hturn ih =>
    obtain ⟨before', o', hbatches, h'⟩ := h.move hc ht hturn
    rw [← hbatches] at ht ⊢
    exact ih h' ht

/-- All further requests are answered along the sets. -/
theorem requests (hc : ∀ t, Std.TransCmp (p.comparer p.model t))
    (h : Delivering p sets ts before o s) {us : List Snapshot}
    (hus : ts.drop (batches (before ++ [o])).length = us) :
    ∃ opened, Delivery p sets ts
      ((batches (before ++ [o])).map .batch ++ (s.requests p us).1) opened := by
  induction us generalizing s before o with
  | nil => exact ⟨before ++ [o], h.delivery .underway⟩
  | cons t us ih =>
    have ht : ts[(batches (before ++ [o])).length]? = some t := by
      rw [← List.head?_drop, hus, List.head?_cons]
    rw [Stream.requests, Stream.next_of_running h.running]
    rcases h.advance hc ht with
      ⟨before', o', b, hitem, hbatches, h'⟩ | ⟨before', o', s', hdone, hbatches, h', hclosing⟩
    · have hrest := ih h' (by
        rw [hbatches, List.length_append, List.length_singleton, ← List.tail_drop, hus,
          List.tail_cons])
      simp only [hitem]
      rw [hbatches, List.map_append, List.append_assoc] at hrest
      exact hrest
    · simp only [Stream.requests_of_done hdone]
      rw [← hbatches]
      exact ⟨before' ++ [o'], h'.delivery (hclosing us.length)⟩

end Delivering

namespace Planner

variable {p : Planner} {t : Snapshot} {entries : List Nat}

/-- What a pass over entries answers to requests, each with the entries as they are then; `begun`
batches were begun before it. -/
def answers (p : Planner) (entries : List Nat) (begun : Nat) (ts : List Snapshot) : List Item :=
  ((Stream.ofEntries entries begun).requests p ts).1

/-- A plan has each write in one place. -/
theorem perm_of_sets {sets : List (List RowWrite)} (h : (p.prepare t entries).sets = .ok sets) :
    ∃ built, p.buildWrites t entries = .ok built ∧ sets.flatten.Perm built.writes := by
  cases hb : p.buildWrites t entries with
  | error e => cases h.symm.trans (prepare_error hb)
  | ok built =>
    obtain ⟨g, hg, hbuilt, hv, _⟩ := dependencyGraph_eq_ok p.model p.collate t built.writes
    obtain ⟨levels, hl, rfl⟩ := levels_of_sets hb hg h
    have hperm := (Multigraph.levelled_of_levels hbuilt.indexed hl).perm
    rw [hv] at hperm
    refine ⟨built, rfl, ?_⟩
    rw [← List.filterMap_flatten]
    exact (hperm.filterMap _).trans (.of_eq (Multigraph.filterMap_getElem?_range _))

theorem answers_of_error {e : PlanError} (h : (p.prepare t entries).sets = .error e) (begun : Nat)
    (later : List Snapshot) :
    p.answers entries begun (t :: later) = .failed e :: List.replicate later.length .ended :=
  Stream.requests_of_error h begun later

/-- The first request opens the first set, if there is one. -/
theorem answers_of_sets (hc : ∀ t, Std.TransCmp (p.comparer p.model t))
    {sets : List (List RowWrite)} (h : (p.prepare t entries).sets = .ok sets) (begun : Nat)
    (later : List Snapshot) :
    ∃ opened, Delivery p sets (t :: later) (p.answers entries begun (t :: later)) opened := by
  obtain ⟨s, hs, hanswers⟩ := Stream.requests_of_sets h begun later
  rw [answers, hanswers]
  cases sets with
  | nil =>
    have hturn : s.turn p t = .answer .ended s.stop := by
      simp [Stream.turn, hs.ready, hs.current, hs.opened, hs.sets]
    have hfirst : s.next p t = (.ended, s.stop) := by
      rw [Stream.next_of_running hs.running, Stream.advance_of_answer hturn]
    rw [Stream.requests, hfirst, Stream.requests_of_done rfl]
    refine ⟨[], ⟨_, rfl, .ended later.length rfl ?_⟩, ?_, ?_, ?_, ?_⟩ <;>
      simp [OpenedInTurn, batches]
  | cons set sets =>
    let order := sortBy (p.comparer p.model t) set
    let s' : Stream := { s with sets, current := order }
    have hturn : s.turn p t = .move s' := by
      simp [Stream.turn, hs.ready, hs.current, hs.opened, hs.sets, s', order]
    have hrunning : s'.Running := hs.running
    have hfirst : s.next p t = s'.next p t := by
      rw [Stream.next_of_running hs.running, Stream.advance_of_move hturn,
        Stream.next_of_running hrunning]
    have hopened : Delivering p (set :: sets) (t :: later) [] ⟨order, []⟩ s' := by
      refine ⟨hrunning, ⟨?_, ?_⟩, rfl, ?_, ?_, ?_, ?_⟩
      · simp [s', hs.ready]
      · simp [s', hs.opened]
      · have := hc t
        refine openedInTurn_concat.mpr ⟨?_, set, t, rfl, rfl, stablySorted_sortBy set⟩
        intro k o hk
        cases hk
      · simp [batches]
      · simp
      · simpa [s', hs.ready, hs.opened, Stream.unsent, heldBy, writesOf] using SameRows.refl order
    obtain ⟨opened, hrest⟩ := hopened.requests hc (List.drop_zero : (t :: later).drop 0 = _)
    rw [Stream.requests, ← hfirst] at hrest
    exact ⟨opened, hrest⟩

end Planner

theorem length_le_writesOf {bs : List Batch} (h : ∀ b ∈ bs, b.writes ≠ []) :
    bs.length ≤ (writesOf bs).length := by
  induction bs with
  | nil => exact Nat.le_refl _
  | cons b bs ih =>
    obtain ⟨hb, hbs⟩ := List.forall_mem_cons.mp h
    have := List.length_pos_iff.mpr hb
    have := ih hbs
    simp only [writesOf, List.flatMap_cons, List.length_append, List.length_cons] at *
    omega

namespace Delivery

variable {p : Planner} {sets : List (List RowWrite)} {ts : List Snapshot}
variable {answers : List Item} {opened : List OpenedSet}

theorem sentBatches_eq (h : Delivery p sets ts answers opened) :
    sentBatches answers = batches opened := by
  obtain ⟨last, rfl, hlast⟩ := h.answers_eq
  have hnone : sentBatches last = [] := by
    cases hlast <;> simp [sentBatches]
  have hall (bs : List Batch) : sentBatches (bs.map .batch) = bs := by
    simp [sentBatches, List.filterMap_map]
  rw [sentBatches_append, hall, hnone, List.append_nil]

theorem sent_prefix (h : Delivery p sets ts answers opened) :
    ∃ rest, SameRows (writesOf (sentBatches answers) ++ rest) (schedule opened) := by
  rw [h.sentBatches_eq]
  rcases List.eq_nil_or_concat opened with rfl | ⟨before, o, rfl⟩
  · exact ⟨[], .nil⟩
  · obtain ⟨rest, hrest⟩ := h.begun o (by simp)
    have hbefore : SameRows (writesOf (batches before)) (schedule before) :=
      sameRows_schedule (by simpa using h.complete)
    refine ⟨rest, ?_⟩
    rw [List.concat_eq_append, batches_concat, schedule_concat, writesOf, List.flatMap_append,
      List.append_assoc]
    exact hbefore.append hrest

/-- A stream that ends without a failure has opened all sets and sent everything. -/
theorem all_sent (h : Delivery p sets ts answers opened) (hended : .ended ∈ answers)
    (hfailed : ∀ e, .failed e ∉ answers) :
    opened.length = sets.length ∧ (schedule opened).Perm sets.flatten ∧
      SameRows (writesOf (sentBatches answers)) (schedule opened) := by
  obtain ⟨last, rfl, hlast⟩ := h.answers_eq
  cases hlast with
  | underway => simp at hended
  | failed e n => exact absurd (by simp) (hfailed e)
  | ended n hlength hcomplete =>
    have hperm := h.inTurn.perm
    rw [hlength, List.take_length] at hperm
    rw [h.sentBatches_eq]
    exact ⟨hlength, hperm, sameRows_schedule hcomplete⟩

/-- Each batch takes at least one write out of the sets, and besides the batches there is one
failure at most. -/
theorem count_answers_le (h : Delivery p sets ts answers opened) :
    answers.countP (· ≠ .ended) ≤ sets.flatten.length + 1 := by
  obtain ⟨rest, hrest⟩ := h.sent_prefix
  have hwrites := hrest.length_eq
  rw [h.sentBatches_eq, List.length_append, h.inTurn.perm.length_eq] at hwrites
  have hsets := congrArg List.length (congrArg List.flatten
    (List.take_append_drop opened.length sets))
  rw [List.flatten_append, List.length_append] at hsets
  have hbatches := length_le_writesOf h.filled
  obtain ⟨last, rfl, hlast⟩ := h.answers_eq
  have hlast' : last.countP (· ≠ .ended) ≤ 1 := by
    cases hlast <;> simp [List.countP_replicate]
  have hmap : ((batches opened).map Item.batch).countP (· ≠ .ended) ≤ _ := List.countP_le_length
  rw [List.length_map] at hmap
  rw [List.countP_append]
  omega

end Delivery

/-- A stream sends the sets of the plan one after the other, each sorted when it is opened, in full
batches. It ends when every write was sent once, or with a failure in the set that is packed. -/
theorem batches_go_along_sets (p : Planner) (hc : ∀ t, Std.TransCmp (p.comparer p.model t))
    (t : Snapshot) (later : List Snapshot) (entries : List Nat) (begun : Nat) :
    (∀ e, (p.prepare t entries).sets = .error e →
      p.answers entries begun (t :: later) = .failed e :: List.replicate later.length .ended) ∧
    ∀ sets, (p.prepare t entries).sets = .ok sets → ∃ built opened,
      p.buildWrites t entries = .ok built ∧ sets.flatten.Perm built.writes ∧
      Delivery p sets (t :: later) (p.answers entries begun (t :: later)) opened ∧
      (∃ rest, SameRows
        (writesOf (sentBatches (p.answers entries begun (t :: later))) ++ rest)
        (schedule opened)) ∧
      (.ended ∈ p.answers entries begun (t :: later) →
        (∀ e, .failed e ∉ p.answers entries begun (t :: later)) →
        (schedule opened).Perm built.writes ∧
          SameRows (writesOf (sentBatches (p.answers entries begun (t :: later))))
            (schedule opened)) ∧
      (p.answers entries begun (t :: later)).countP (· ≠ .ended) ≤ built.writes.length + 1 := by
  refine ⟨fun e he => Planner.answers_of_error he begun later, fun sets hsets => ?_⟩
  obtain ⟨built, hb, hperm⟩ := Planner.perm_of_sets hsets
  obtain ⟨opened, h⟩ := Planner.answers_of_sets hc hsets begun later
  refine ⟨built, opened, hb, hperm, h, h.sent_prefix, fun hended hfailed => ?_, ?_⟩
  · obtain ⟨_, hall, hrows⟩ := h.all_sent hended hfailed
    exact ⟨hall.trans hperm, hrows⟩
  · rw [← hperm.length_eq]
    exact h.count_answers_le

theorem not_failed_of_all {items : List Item}
    (h : items.all (fun | .failed _ => false | _ => true) = true) (e : PlanError) :
    .failed e ∉ items := by
  intro he
  exact Bool.false_ne_true (List.all_eq_true.mp h _ he)

namespace Family

theorem sets_born : (planner.prepare born [0, 1]).sets = .ok (bornWrites.map ([·])) := by
  decide +kernel

/-- The parent is sent, then the child, and then nothing more. -/
theorem batches_go_along_sets_born :
    (∀ t, Std.TransCmp (planner.comparer planner.model t)) ∧
      ∃ answers, answers = planner.answers [0, 1] 0 [born, born, born, born] ∧
      .ended ∈ answers ∧ (∀ e, .failed e ∉ answers) ∧
      ∃ opened, Delivery planner (bornWrites.map ([·])) [born, born, born, born] answers opened ∧
        SameRows (writesOf (sentBatches answers)) (schedule opened) ∧
        answers.countP (· ≠ .ended) ≤ 3 := by
  have hc (t : Snapshot) : Std.TransCmp (planner.comparer planner.model t) :=
    inferInstanceAs (Std.TransCmp (Comparer.standard model t))
  obtain ⟨_, hsets⟩ :=
    batches_go_along_sets planner hc born [born, born, born] [0, 1] 0
  obtain ⟨built, opened, hb, _, hdelivery, _, hall, hcount⟩ := hsets _ sets_born
  obtain ⟨built', hb', hw⟩ := buildWrites_born
  obtain rfl := Except.ok.inj (hb.symm.trans hb')
  have hended : Item.ended ∈ planner.answers [0, 1] 0 [born, born, born, born] := by
    decide +kernel
  have hfailed (e : PlanError) :
      Item.failed e ∉ planner.answers [0, 1] 0 [born, born, born, born] :=
    not_failed_of_all (by decide +kernel) e
  rw [hw] at hcount
  exact ⟨hc, _, rfl, hended, hfailed, opened, hdelivery, (hall hended hfailed).2, hcount⟩

end Family

end WritePlan

import Mathlib.Algebra.GroupWithZero.Nat
import WritePlan.Proofs.BuiltWrites
import WritePlan.Proofs.Faults

namespace WritePlan

/-- The size of a batch that went out. -/
def Event.emitted? : Event → Option Nat
  | batchEmitted n => some n
  | _ => none

/-- What is recorded when the batch goes out. -/
def Batch.event (b : Batch) : Event :=
  .batchEmitted b.writes.length

/-- What becomes of a batch that takes no more writes: it goes out as a whole, or each of its writes
does so by itself. -/
inductive Outlet
  | whole (size : Nat)
  | split (size : Nat)

namespace Outlet

/-- A batch goes out as a whole if it has one write or enough of them. -/
def Fits (least : Nat) : Outlet → Prop
  | whole n => n = 1 ∨ 0 < n ∧ least ≤ n
  | split n => 1 < n ∧ n < least

/-- What is recorded at once. -/
def logged : Outlet → List Event
  | whole _ => []
  | split n => [.batchSplit n]

/-- What is recorded as the batches go out. -/
def sending : Outlet → List Event
  | whole n => [.batchEmitted n]
  | split n => List.replicate n (.batchEmitted 1)

def events (o : Outlet) : List Event :=
  o.logged ++ o.sending

theorem mem_events {o : Outlet} {e : Event} (h : e ∈ o.events) :
    (∃ n, e = .batchEmitted n) ∨ ∃ n, e = .batchSplit n := by
  cases o with
  | whole n => exact .inl ⟨n, List.mem_singleton.mp h⟩
  | split n =>
    rcases List.mem_cons.mp h with h | h
    · exact .inr ⟨n, h⟩
    · exact .inl ⟨1, (List.mem_replicate.mp h).2⟩

end Outlet

namespace Packer

/-- The packer finishes a batch or does nothing. It records what is recorded at once, and if that
succeeds then the batches that are to go out are at hand. -/
def Finishes (least : Nat) (k k' : Packer) (succeeds : Prop) : Prop :=
  ∃ (o : Option Outlet) (bs : List Batch), (∀ x, o = some x → x.Fits least) ∧
    k'.ready = k.ready ++ bs ∧ k'.events = k.events ++ o.toList.flatMap Outlet.logged ∧
    (succeeds → bs.map Batch.event = o.toList.flatMap Outlet.sending)

variable {p : Planner} {t : Snapshot} {k k' : Packer} {b : Batch} {w : RowWrite} {least : Nat}

theorem Finishes.refl (hready : k'.ready = k.ready) (hevents : k'.events = k.events)
    (succeeds : Prop) : Finishes least k k' succeeds :=
  ⟨none, [], fun _ h => (nomatch h), by simpa using hready, by simpa using hevents, fun _ => rfl⟩

theorem offer_events (p : Planner) (t : Snapshot) (k : Packer) (b : Batch) (w : RowWrite) :
    (k.offer p t b w).1.events = k.events := by
  unfold offer
  cases p.rule.namesColumns with
  | true =>
    simp only [↓reduceIte]
    split <;> rfl
  | false =>
    simp only [Bool.false_eq_true, ↓reduceIte]
    split <;> rfl

/-- A batch of its own is not finished, and nothing is recorded of it. -/
theorem offerFirst_events {r : Except PlanError Batch} (h : k.offerFirst p t w = (k', r)) :
    k'.ready = k.ready ∧ k'.events = k.events := by
  have hready := (offer_spec p t k.openBatch.1 k.openBatch.2 w).1
  have hevents := offer_events p t k.openBatch.1 k.openBatch.2 w
  simp only [offerFirst] at h
  split at h
  · rename_i hoffer
    obtain ⟨rfl, _⟩ := Prod.mk.inj h
    rw [hoffer] at hready hevents
    exact ⟨hready, hevents⟩
  · rename_i hoffer
    obtain ⟨rfl, _⟩ := Prod.mk.inj h
    rw [hoffer] at hready hevents
    exact ⟨hready, hevents⟩

theorem queueSingly_events {ws : List RowWrite} {r : Except PlanError Unit}
    (h : k.queueSingly p t ws = (k', r)) :
    ∃ bs, k'.ready = k.ready ++ bs ∧ k'.events = k.events ∧
      (r = .ok () → bs.map Batch.event = List.replicate ws.length (.batchEmitted 1)) := by
  induction ws generalizing k with
  | nil =>
    obtain ⟨rfl, _⟩ := Prod.mk.inj h
    exact ⟨[], by simp, rfl, fun _ => rfl⟩
  | cons w ws ih =>
    simp only [queueSingly] at h
    split at h
    · rename_i hfirst
      obtain ⟨rfl, rfl⟩ := Prod.mk.inj h
      obtain ⟨hready, hevents⟩ := offerFirst_events hfirst
      exact ⟨[], by simpa using hready, hevents, fun h => by cases h⟩
    · rename_i k₁ b hfirst
      obtain ⟨hready, hevents⟩ := offerFirst_events hfirst
      have hsize : b.event = .batchEmitted 1 :=
        congrArg Event.batchEmitted (offerFirst_eq_ok hfirst).2.length_eq
      obtain ⟨bs, hbs, hkept, hall⟩ := ih h
      refine ⟨b :: bs, ?_, hkept.trans hevents, fun hr => ?_⟩
      · rw [hbs, queue, hready]
        simp
      · rw [List.map_cons, hsize, hall hr, List.length_cons, List.replicate_succ]

theorem finish_events {r : Except PlanError Unit} (h : k.finish p t b = (k', r))
    (hb : b.writes ≠ []) : Finishes p.config.minBatchSize k k' (r = .ok ()) := by
  have hpos : 0 < b.writes.length := List.length_pos_iff.mpr hb
  unfold finish at h
  split at h
  · rename_i hsize
    obtain ⟨rfl, _⟩ := Prod.mk.inj h
    refine ⟨some (.whole b.writes.length), [b], fun x hx => ?_, rfl, by simp [queue,
      Outlet.logged], fun _ => rfl⟩
    obtain rfl := Option.some.inj hx
    exact hsize.imp_right fun h => ⟨hpos, h⟩
  · rename_i hsize
    obtain ⟨bs, hbs, hevents, hall⟩ := queueSingly_events h
    refine ⟨some (.split b.writes.length), bs, fun x hx => ?_, hbs, ?_, fun hr => ?_⟩
    · obtain rfl := Option.some.inj hx
      simp only [Outlet.Fits]
      omega
    · rw [hevents]
      rfl
    · simpa [Outlet.sending] using hall hr

theorem pack_events {opened : Option Batch} {r : Except PlanError Batch}
    (h : k.pack p t opened w = (k', r)) (ho : ∀ b, opened = some b → b.writes ≠ []) :
    Finishes p.config.minBatchSize k k' (∃ b, r = .ok b) := by
  unfold pack at h
  cases opened with
  | none =>
    obtain ⟨hready, hevents⟩ := offerFirst_events h
    exact .refl hready hevents _
  | some o =>
    have hready := (offer_spec p t k o w).1
    have hevents := offer_events p t k o w
    simp only at h
    split at h
    · rename_i hoffer
      obtain ⟨rfl, _⟩ := Prod.mk.inj h
      rw [hoffer] at hready hevents
      exact .refl hready hevents _
    · rename_i k₁ hoffer
      rw [hoffer] at hready hevents
      split at h
      · obtain ⟨rfl, _⟩ := Prod.mk.inj h
        exact .refl hready hevents _
      · split at h
        · rename_i k₂ e hfinish
          obtain ⟨rfl, rfl⟩ := Prod.mk.inj h
          obtain ⟨x, bs, hfits, hbs, hlogged, _⟩ := finish_events hfinish (ho o rfl)
          exact ⟨x, bs, hfits, hready ▸ hbs, hevents ▸ hlogged, fun ⟨b, hr⟩ => by cases hr⟩
        · rename_i k₂ hfinish
          obtain ⟨x, bs, hfits, hbs, hlogged, hall⟩ := finish_events hfinish (ho o rfl)
          obtain ⟨hready', hevents'⟩ := offerFirst_events h
          exact ⟨x, bs, hfits, hready' ▸ hready ▸ hbs, hevents' ▸ hevents ▸ hlogged,
            fun _ => hall rfl⟩

end Packer

/-- What was recorded of sending is the beginning of what is recorded of some outlets, the last of
which it has come to. If nothing went wrong then only the batches at hand are missing. -/
def Traced (least : Nat) (ready : List Batch) (sending : List Event) (sound : Prop) : Prop :=
  ∃ outlets : List Outlet, (∀ o ∈ outlets, o.Fits least) ∧
    outlets.dropLast.flatMap Outlet.events <+: sending ∧
    sending <+: outlets.flatMap Outlet.events ∧
    (sound → sending ++ ready.map Batch.event = outlets.flatMap Outlet.events)

namespace Traced

variable {least : Nat} {ready : List Batch} {sending : List Event} {sound sound' : Prop}

theorem nil (least : Nat) (sound : Prop) : Traced least [] [] sound :=
  ⟨[], fun _ h => absurd h List.not_mem_nil, List.prefix_rfl, List.prefix_rfl, fun _ => rfl⟩

theorem mono (h : Traced least ready sending sound) (hsound : sound' → sound) :
    Traced least ready sending sound' := by
  obtain ⟨outlets, hfits, hlast, hbegins, hall⟩ := h
  exact ⟨outlets, hfits, hlast, hbegins, fun hs => hall (hsound hs)⟩

/-- The first batch at hand goes out. -/
theorem send {b : Batch} (h : Traced least (b :: ready) sending sound) (hsound : sound) :
    Traced least ready (sending ++ [b.event]) sound := by
  obtain ⟨outlets, hfits, hlast, _, hall⟩ := h
  have heq : sending ++ [b.event] ++ ready.map Batch.event = outlets.flatMap Outlet.events := by
    rw [← hall hsound, List.map_cons, List.append_assoc, List.singleton_append]
  exact ⟨outlets, hfits, hlast.trans (List.prefix_append _ _), ⟨_, heq⟩, fun _ => heq⟩

/-- What is finished, when no batch is at hand, is the next outlet. -/
theorem finishes {k k' : Packer} {succeeds : Prop} (h : Traced least [] sending sound)
    (hsound : sound) (hready : k.ready = []) (hf : k.Finishes least k' succeeds) :
    ∃ more, k'.events = k.events ++ more ∧ more.filterMap Event.emitted? = [] ∧
      Traced least k'.ready (sending ++ more) succeeds := by
  obtain ⟨outlets, hfits, hlast, hbegins, hall⟩ := h
  obtain ⟨o, bs, hfit, hbs, hlogged, hsending⟩ := hf
  -- Nothing is at hand, so the last outlet so far is complete and the next one may begin.
  have heq : sending = outlets.flatMap Outlet.events := by simpa using hall hsound
  rw [hready, List.nil_append] at hbs
  cases o with
  | none =>
    refine ⟨[], hlogged, rfl, outlets, hfits, ?_, ?_, fun hs => ?_⟩
    · rwa [List.append_nil]
    · rwa [List.append_nil]
    · rw [hbs, hsending hs, heq]
      simp
  | some x =>
    simp only [Option.toList_some, List.flatMap_singleton] at hlogged hsending
    have hnext : (outlets ++ [x]).flatMap Outlet.events = sending ++ x.logged ++ x.sending := by
      rw [List.flatMap_append, List.flatMap_singleton, ← heq, Outlet.events, List.append_assoc]
    refine ⟨x.logged, hlogged, by cases x <;> rfl, outlets ++ [x], ?_, ?_, ?_, fun hs => ?_⟩
    · exact List.forall_mem_append.mpr ⟨hfits, List.forall_mem_singleton.mpr (hfit x rfl)⟩
    · rw [List.dropLast_concat, ← heq]
      exact List.prefix_append _ _
    · rw [hnext]
      exact List.prefix_append _ _
    · rw [hnext, hbs, hsending hs]

end Traced

/-- What is recorded: what was planned, and then for each batch among the answers its size. -/
def Packer.Recorded (least : Nat) (planned : List Event) (items : List Item) (k : Packer)
    (sound : Prop) : Prop :=
  ∃ sending, k.events = planned ++ sending ∧
    sending.filterMap Event.emitted? = (sentBatches items).map (·.writes.length) ∧
    Traced least k.ready sending sound

theorem Packer.Recorded.mono {least : Nat} {planned : List Event} {items : List Item} {k : Packer}
    {sound sound' : Prop} (h : k.Recorded least planned items sound) (hsound : sound' → sound) :
    k.Recorded least planned items sound' := by
  obtain ⟨sending, hevents, hsizes, htraced⟩ := h
  exact ⟨sending, hevents, hsizes, htraced.mono hsound⟩

namespace Stream

/-- What is known of a stream that sends `total` writes, of its answers and of what was recorded
since the plan was made, which is `planned`. -/
structure Accounted (least total : Nat) (planned : List Event) (items : List Item) (s : Stream) :
    Prop where
  filled : s.done = false → s.Filled
  stopped : (∃ e, .failed e ∈ items) ∨ .ended ∈ items → s.done = true
  rest : s.done = true → (∀ e, .failed e ∉ items) →
    writesOf s.packer.ready ++ s.unsent ++ s.sets.flatten = [] ∧ s.packer.ready = []
  count : (∀ e, .failed e ∉ items) → ((sentBatches items).map (·.writes.length)).sum +
    (writesOf s.packer.ready ++ s.unsent ++ s.sets.flatten).length = total
  record : s.packer.Recorded least planned items (∀ e, .failed e ∉ items)

namespace Accounted

variable {p : Planner} {t : Snapshot} {total : Nat} {planned : List Event} {items : List Item}
variable {s s' : Stream}

theorem not_failed {least : Nat} (h : s.Accounted least total planned items)
    (hrunning : s.Running) (e : PlanError) : .failed e ∉ items :=
  fun he => absurd (h.stopped (.inl ⟨e, he⟩)) (by simp [hrunning.2])

/-- What is finished is recorded. -/
theorem record_finishes {least : Nat} (h : s.Accounted least total planned items)
    (hrunning : s.Running) (hready : s.packer.ready = []) {k : Packer} {succeeds : Prop}
    (hf : s.packer.Finishes least k succeeds) : k.Recorded least planned items succeeds := by
  obtain ⟨sending, hevents, hsizes, htraced⟩ := h.record
  rw [hready] at htraced
  obtain ⟨more, hmore, hnone, htraced⟩ :=
    htraced.finishes (h.not_failed hrunning) hready hf
  refine ⟨sending ++ more, ?_, ?_, htraced⟩
  · rw [hmore, hevents, List.append_assoc]
  · rw [List.filterMap_append, hnone, List.append_nil, hsizes]

theorem move (h : s.Accounted p.config.minBatchSize total planned items) (hrunning : s.Running)
    (hturn : s.turn p t = .move s') : s'.Accounted p.config.minBatchSize total planned items := by
  obtain ⟨hready, hrunning', hfilled', hrows⟩ := turn_eq_move hturn
  have hdone' := (hrunning' hrunning).2
  have hsilent := h.not_failed hrunning
  have hfilled := h.filled hrunning.2
  refine ⟨fun _ => hfilled' hfilled, ?_, ?_, fun _ => ?_, ?_⟩
  · intro hover
    exact absurd (h.stopped hover) (by simp [hrunning.2])
  · intro hdone
    exact absurd hdone (by simp [hdone'])
  · have hcount := h.count hsilent
    rw [hready] at hcount
    rcases hrows with ⟨hsets, hrows⟩ | ⟨hempty, hready', set, hsets, hunsent⟩
    · rw [List.length_append, hrows.length_eq, hsets]
      simpa [writesOf] using hcount
    · rw [hready', hunsent]
      rw [hempty, hsets] at hcount
      simpa [writesOf, length_sortBy] using hcount
  · cases moved_of_turn hturn with
    | pack hr _ _ hpack =>
      have hfinishes := Packer.pack_events hpack hfilled.opened
      exact (h.record_finishes hrunning hr hfinishes).mono fun _ => ⟨_, rfl⟩
    | finish hr _ ho hfinish =>
      have hfinishes := Packer.finish_events hfinish (hfilled.opened _ ho)
      exact (h.record_finishes hrunning hr hfinishes).mono fun _ => rfl
    | openNext => exact h.record

theorem sizes_concat (items : List Item) (item : Item) :
    (sentBatches (items ++ [item])).map (·.writes.length) =
      (sentBatches items).map (·.writes.length) ++
        (sentBatches [item]).map (·.writes.length) := by
  rw [sentBatches_append, List.map_append]

/-- A failure is recorded nowhere. -/
theorem fail {least : Nat} (hdone : s.done = true) {e : PlanError} {succeeds : Prop}
    (hrecord : s.packer.Recorded least planned items succeeds) :
    s.Accounted least total planned (items ++ [.failed e]) := by
  have hfailed : ¬ ∀ e', .failed e' ∉ items ++ [.failed e] := fun h => h e (by simp)
  obtain ⟨sending, hevents, hsizes, htraced⟩ := hrecord
  refine ⟨fun h => absurd h (by simp [hdone]), fun _ => hdone,
    fun _ hsilent => absurd hsilent hfailed, fun hsilent => absurd hsilent hfailed,
    sending, hevents, ?_, ?_⟩
  · rw [hsizes, sizes_concat]
    exact (List.append_nil _).symm
  · exact htraced.mono fun hsilent => absurd hsilent hfailed

/-- A stream that says that it is over sends and records nothing. -/
theorem stop {least : Nat} (h : s.Accounted least total planned items)
    (hrest : (∀ e, .failed e ∉ items) →
      writesOf s.packer.ready ++ s.unsent ++ s.sets.flatten = [] ∧ s.packer.ready = []) :
    s.stop.Accounted least total planned (items ++ [.ended]) := by
  have hsilent (hall : ∀ e, .failed e ∉ items ++ [.ended]) : ∀ e, .failed e ∉ items :=
    fun e he => hall e (List.mem_append_left _ he)
  have hsizes : (sentBatches (items ++ [.ended])).map (·.writes.length) =
      (sentBatches items).map (·.writes.length) := by
    rw [sizes_concat]
    exact List.append_nil _
  obtain ⟨sending, hevents, hsent, htraced⟩ := h.record
  refine ⟨fun hdone => ?_, fun _ => rfl, fun _ hall => hrest (hsilent hall), fun hall => ?_,
    sending, hevents, ?_, htraced.mono hsilent⟩
  · cases hdone
  · rw [hsizes]
    exact h.count (hsilent hall)
  · rw [hsizes]
    exact hsent

theorem send {least : Nat} (h : s.Accounted least total planned items) (hrunning : s.Running)
    {b : Batch} {ready : List Batch} (hready : s.packer.ready = b :: ready) :
    ({ s with packer := { s.packer with ready }.log b.event } : Stream).Accounted least total
      planned (items ++ [.batch b]) := by
  have hsilent := h.not_failed hrunning
  have hfilled := h.filled hrunning.2
  obtain ⟨sending, hevents, hsizes, htraced⟩ := h.record
  rw [hready] at htraced
  refine ⟨fun _ => ⟨fun c hc => ?_, hfilled.opened⟩, ?_, ?_, fun _ => ?_, sending ++ [b.event],
    ?_, ?_, (htraced.send hsilent).mono fun _ => hsilent⟩
  · exact hfilled.ready c (hready ▸ List.mem_cons_of_mem b hc)
  · intro hover
    refine absurd (h.stopped ?_) (by simp [hrunning.2])
    simpa using hover
  · exact fun hdone => absurd (hrunning.2.symm.trans hdone) Bool.false_ne_true
  · have hcount := h.count hsilent
    rw [hready] at hcount
    rw [sizes_concat, List.sum_append]
    simp [sentBatches, writesOf, unsent, Packer.log] at hcount ⊢
    omega
  · rw [← List.append_assoc, ← hevents]
    rfl
  · rw [List.filterMap_append, hsizes, sizes_concat]
    rfl

theorem answer (h : s.Accounted p.config.minBatchSize total planned items)
    (hrunning : s.Running) {item : Item} (hturn : s.turn p t = .answer item s') :
    s'.Accounted p.config.minBatchSize total planned (items ++ [item]) := by
  have hfilled := h.filled hrunning.2
  cases answered_of_turn hturn with
  | send hr => exact h.send hrunning hr
  | unfit => exact fail rfl h.record
  | unpacked hr _ _ hpack =>
    exact fail rfl (h.record_finishes hrunning hr (Packer.pack_events hpack hfilled.opened))
  | unfinished hr _ ho hfinish =>
    exact fail rfl
      (h.record_finishes hrunning hr (Packer.finish_events hfinish (hfilled.opened _ ho)))
  | ended hr hc ho hs =>
    exact h.stop fun _ => ⟨by simp [writesOf, unsent, heldBy, hr, hc, ho, hs], hr⟩

theorem history (p : Planner) (total : Nat) (planned : List Event) :
    History p fun items s => s.Accounted p.config.minBatchSize total planned items where
  move _ _ _ _ hrunning h hturn := h.move hrunning hturn
  answer _ _ _ _ _ hrunning h hturn := h.answer hrunning hturn
  ended _ s hdone h := by
    have hstop : s.stop = s := by
      obtain ⟨pending, sets, current, opened, packer, done⟩ := s
      obtain rfl : done = true := hdone
      rfl
    have h := h.stop (h.rest hdone)
    rwa [hstop] at h

end Accounted

/-- Sending never fails for a circle of writes. -/
theorem isCircular_of_turn {p : Planner} {t : Snapshot} {s s' : Stream} {e : PlanError}
    (h : s.turn p t = .answer (.failed e) s') : e.isCircular = false := by
  cases answered_of_turn h with
  | unfit _ _ hexamine =>
    obtain ⟨_, _, rfl⟩ := RowWrite.temporaryValue_of_examine hexamine
    rfl
  | unpacked _ _ _ hpack => exact Packer.pack_eq_error hpack ▸ rfl
  | unfinished _ _ _ hfinish => exact Packer.finish_eq_error hfinish ▸ rfl

end Stream

/-- What is recorded of writes that are built: the entries, the writes, and the labels of their
graph over all pairs of vertices. -/
def BuiltWrites.recorded (built : BuiltWrites) (entries : List Nat) (g : DependencyGraph) :
    List Event :=
  [.prepareStart entries.length, .commandsBuilt built.writes.length built.merged built.dropped,
    .graphBuilt built.writes.length g.allLabels.length]

/-- What is recorded of the batches that a stream of `total` writes has sent. -/
structure SendingRecord (least total : Nat) (answers : List Item) (sending : List Event) :
    Prop where
  /-- Each batch is recorded with its size when it goes out. -/
  sizes : sending.filterMap Event.emitted? = (sentBatches answers).map (·.writes.length)
  /-- A batch that is too small is recorded as taken apart, with batches of one write in its place.
  Only the last of these may be missing some, and none is where the stream ends well. -/
  outlets : ∃ outlets : List Outlet, (∀ o ∈ outlets, o.Fits least) ∧
    outlets.dropLast.flatMap Outlet.events <+: sending ∧
    sending <+: outlets.flatMap Outlet.events ∧
    ((∀ e, .failed e ∉ answers) → .ended ∈ answers → sending = outlets.flatMap Outlet.events)
  /-- Where the stream ends without an error, all writes are sent. -/
  all_sent : (∀ e, .failed e ∉ answers) → .ended ∈ answers →
    (sending.filterMap Event.emitted?).sum = total

theorem SendingRecord.outlet_of_mem {least total : Nat} {answers : List Item}
    {sending : List Event} (h : SendingRecord least total answers sending) {e : Event}
    (he : e ∈ sending) :
    (∃ n, e = .batchEmitted n) ∨ ∃ n, e = .batchSplit n := by
  obtain ⟨outlets, _, _, hbegins, _⟩ := h.outlets
  obtain ⟨o, _, ho⟩ := List.mem_flatMap.mp (hbegins.subset he)
  exact o.mem_events ho

theorem Stream.Accounted.sendingRecord {least total : Nat} {planned : List Event}
    {items : List Item} {s : Stream} (h : s.Accounted least total planned items) :
    ∃ sending, s.packer.events = planned ++ sending ∧ SendingRecord least total items sending := by
  obtain ⟨sending, hevents, hsizes, outlets, hfits, hlast, hbegins, hall⟩ := h.record
  refine ⟨sending, hevents, hsizes, ⟨outlets, hfits, hlast, hbegins, ?_⟩, ?_⟩
  · intro hsilent hended
    have hready := (h.rest (h.stopped (.inr hended)) hsilent).2
    simpa [hready] using hall hsilent
  · intro hsilent hended
    have hcount := h.count hsilent
    rwa [(h.rest (h.stopped (.inr hended)) hsilent).1, List.length_nil, Nat.add_zero,
      ← hsizes] at hcount

namespace Planner

variable {p : Planner} {t : Snapshot} {entries : List Nat} {built : BuiltWrites}

theorem prepare_events (hb : p.buildWrites t entries = .ok built) :
    ∃ g, dependencyGraph p.model p.collate t built.writes = .ok g ∧
      ((∃ sets, (p.prepare t entries).sets = .ok sets ∧
          (p.prepare t entries).events = built.recorded entries g) ∨
        ∃ cycle, (p.prepare t entries).sets = .error (.circular cycle) ∧
          (p.prepare t entries).events = built.recorded entries g ++ [.cycleDetected]) := by
  obtain ⟨g, hg, hbuilt, hv, _⟩ := dependencyGraph_eq_ok p.model p.collate t built.writes
  have hsize : g.size = built.writes.length := by
    rw [← Multigraph.length_vertices, hv, List.length_range]
  have hsets := p.prepare_sets hb hg
  refine ⟨g, hg, ?_⟩
  cases ha : p.arrange built.writes g with
  | ok sets =>
    refine .inl ⟨sets, hsets.trans ha, ?_⟩
    simp [prepare, hb, hg, ha, BuiltWrites.recorded, hsize, hbuilt.labelCount_eq]
  | error e =>
    obtain ⟨cycle, rfl⟩ := circular_of_prepare hb (hsets.trans ha)
    refine .inr ⟨cycle, hsets.trans ha, ?_⟩
    simp [prepare, hb, hg, ha, BuiltWrites.recorded, hsize, hbuilt.labelCount_eq,
      PlanError.isCircular]

/-- A pass that cannot be planned records nothing but that. -/
theorem events_of_error {e : PlanError} (h : (p.prepare t entries).sets = .error e) (begun : Nat)
    (later : List Snapshot) :
    ((Stream.ofEntries entries begun).requests p (t :: later)).2.packer.events =
      (p.prepare t entries).events := by
  rw [Stream.requests_eq_of_error h]
  simp [Stream.prepare, h, Stream.ofEntries, Stream.stop]

theorem failed_mem_of_error {e e' : PlanError} (h : (p.prepare t entries).sets = .error e)
    {begun : Nat} {later : List Snapshot} :
    .failed e' ∈ p.answers entries begun (t :: later) ↔ e' = e := by
  rw [answers_of_error h, List.mem_cons]
  constructor
  · rintro (he | he)
    · exact Item.failed.inj he
    · cases List.eq_of_mem_replicate he
  · rintro rfl
    exact .inl rfl

/-- Where the writes are not built, only the entries are recorded, and there is no circle. -/
theorem events_of_not_built {e : PlanError} (hb : p.buildWrites t entries = .error e)
    (begun : Nat) (later : List Snapshot) :
    ((Stream.ofEntries entries begun).requests p (t :: later)).2.packer.events =
        [.prepareStart entries.length] ∧
      ∀ cycle, .failed (.circular cycle) ∉ p.answers entries begun (t :: later) := by
  have hsets := prepare_error hb
  refine ⟨?_, fun cycle h => ?_⟩
  · rw [events_of_error hsets]
    simp only [prepare, hb]
  · obtain rfl := (failed_mem_of_error hsets).mp h
    rcases buildWrites_eq_error hb with ⟨_, _, h⟩ | ⟨_, _, _, _, h⟩ <;> cases h

/-- A pass that can be planned adds to what was recorded of the plan. -/
theorem accounted_of_sets {sets : List (List RowWrite)} (h : (p.prepare t entries).sets = .ok sets)
    (begun : Nat) (later : List Snapshot) :
    ((Stream.ofEntries entries begun).requests p (t :: later)).2.Accounted
      p.config.minBatchSize sets.flatten.length (p.prepare t entries).events
      (p.answers entries begun (t :: later)) := by
  refine (Stream.Accounted.history p _ _).of_plan (fun sets' h' => ?_) (fun e he => ?_) later
  · obtain rfl := Except.ok.inj (h.symm.trans h')
    refine ⟨fun _ => ⟨?_, ?_⟩, ?_, ?_, ?_, [], ?_, rfl, ?_⟩ <;>
      simp [Stream.prepare, h, Stream.ofEntries, sentBatches, writesOf, Stream.unsent, heldBy]
    exact .nil _ _
  · cases h.symm.trans he

theorem not_circular_of_sets {sets : List (List RowWrite)}
    (h : (p.prepare t entries).sets = .ok sets) (begun : Nat) (later : List Snapshot)
    (cycle : String) : .failed (.circular cycle) ∉ p.answers entries begun (t :: later) := by
  have hall : ∀ e, .failed e ∈ p.answers entries begun (t :: later) → e.isCircular = false :=
    (Stream.History.of_failures fun _ _ _ _ => Stream.isCircular_of_turn).of_plan
      (fun _ _ _ he => absurd he List.not_mem_nil)
      (fun e he => by cases h.symm.trans he) later
  exact fun he => Bool.false_ne_true (hall _ he).symm

/-- Where the writes are built, there is a circle of them, or they are sent. -/
theorem events_of_built (hb : p.buildWrites t entries = .ok built) (begun : Nat)
    (later : List Snapshot) :
    ∃ g sending, dependencyGraph p.model p.collate t built.writes = .ok g ∧
      ((Stream.ofEntries entries begun).requests p (t :: later)).2.packer.events =
        built.recorded entries g ++ sending ∧
      ((∃ cycle, .failed (.circular cycle) ∈ p.answers entries begun (t :: later)) ∧
          sending = [.cycleDetected] ∨
        (∀ cycle, .failed (.circular cycle) ∉ p.answers entries begun (t :: later)) ∧
          SendingRecord p.config.minBatchSize built.writes.length
            (p.answers entries begun (t :: later)) sending) := by
  obtain ⟨g, hg, ⟨sets, hsets, hplan⟩ | ⟨cycle, hsets, hplan⟩⟩ := prepare_events hb
  · obtain ⟨built', hb', hperm⟩ := perm_of_sets hsets
    obtain rfl := Except.ok.inj (hb.symm.trans hb')
    obtain ⟨sending, hevents, hrecord⟩ := (accounted_of_sets hsets begun later).sendingRecord
    exact ⟨g, sending, hg, hplan ▸ hevents,
      .inr ⟨not_circular_of_sets hsets begun later, hperm.length_eq ▸ hrecord⟩⟩
  · exact ⟨g, _, hg, (events_of_error hsets begun later).trans hplan,
      .inl ⟨⟨cycle, (failed_mem_of_error hsets).mpr rfl⟩, rfl⟩⟩

end Planner

/-- The events of a pass account for every entry, write and label, and for all that is sent. A
circle is recorded exactly if the pass fails for one, and it comes last then. -/
theorem metrics_account_for_pass (p : Planner) (entries : List Nat) (begun : Nat) (t : Snapshot)
    (later : List Snapshot) :
    let answers := p.answers entries begun (t :: later)
    let events := ((Stream.ofEntries entries begun).requests p (t :: later)).2.packer.events
    (Stream.ofEntries entries begun).packer.events = [] ∧
      events.head? = some (.prepareStart entries.length) ∧
      (∀ n, .prepareStart n ∉ events.tail) ∧
      (.cycleDetected ∈ events ↔ ∃ cycle, .failed (.circular cycle) ∈ answers) ∧
      (∀ e, p.buildWrites t entries = .error e → events = [.prepareStart entries.length]) ∧
      ∀ built, p.buildWrites t entries = .ok built →
        built.writes.length + built.merged + built.dropped = entries.length ∧
        ∃ g sending, dependencyGraph p.model p.collate t built.writes = .ok g ∧
          events = built.recorded entries g ++ sending ∧
          ((∃ cycle, .failed (.circular cycle) ∈ answers) ∧ sending = [.cycleDetected] ∨
            (∀ cycle, .failed (.circular cycle) ∉ answers) ∧
              SendingRecord p.config.minBatchSize built.writes.length answers sending) := by
  intro answers events
  refine ⟨rfl, ?_⟩
  cases hb : p.buildWrites t entries with
  | error e =>
    obtain ⟨hevents, hcircular⟩ := Planner.events_of_not_built hb begun later
    have hevents : events = [.prepareStart entries.length] := hevents
    have hcircular : ∀ cycle, .failed (.circular cycle) ∉ answers := hcircular
    refine ⟨?_, ?_, ?_, fun _ _ => hevents, fun _ h => by cases h⟩ <;> simp [hevents, hcircular]
  | ok built =>
    obtain ⟨g, sending, hg, hevents, hsending⟩ := Planner.events_of_built hb begun later
    have hevents : events = built.recorded entries g ++ sending := hevents
    have hstart (n : Nat) : .prepareStart n ∉ sending := by
      intro h
      rcases hsending with ⟨_, rfl⟩ | ⟨_, hrecord⟩
      · cases List.mem_singleton.mp h
      · rcases hrecord.outlet_of_mem h with ⟨_, h⟩ | ⟨_, h⟩ <;> cases h
    have hcycle : .cycleDetected ∈ sending ↔ ∃ cycle, .failed (.circular cycle) ∈ answers := by
      rcases hsending with ⟨hcircular, rfl⟩ | ⟨hcircular, hrecord⟩
      · exact iff_of_true List.mem_cons_self hcircular
      · refine iff_of_false (fun h => ?_) fun ⟨cycle, h⟩ => hcircular cycle h
        rcases hrecord.outlet_of_mem h with ⟨_, h⟩ | ⟨_, h⟩ <;> cases h
    refine ⟨?_, ?_, ?_, fun _ h => (by cases h), fun built' h => ?_⟩
    · rw [hevents]
      rfl
    · simpa [hevents, BuiltWrites.recorded] using hstart
    · simpa [hevents, BuiltWrites.recorded] using hcycle
    · obtain rfl := Except.ok.inj h
      exact ⟨Planner.count_buildWrites hb, g, sending, hg, hevents, hsending⟩

end WritePlan

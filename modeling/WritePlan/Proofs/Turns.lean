import WritePlan.Proofs.Packing

namespace WritePlan

/-- The batches among the answers of a stream. -/
def sentBatches (items : List Item) : List Batch :=
  items.filterMap fun
    | .batch b => some b
    | _ => none

theorem sentBatches_append (items items' : List Item) :
    sentBatches (items ++ items') = sentBatches items ++ sentBatches items' :=
  List.filterMap_append

theorem sentBatches_cons (item : Item) (items : List Item) :
    sentBatches (item :: items) = sentBatches [item] ++ sentBatches items :=
  sentBatches_append [item] items

namespace Stream

variable {p : Planner} {t : Snapshot} {s s' : Stream}

/-- The writes of the open set that are not in a finished batch. -/
def unsent (s : Stream) : List RowWrite :=
  heldBy s.opened ++ s.current

/-- A stream that has a plan and has not come to its end. -/
def Running (s : Stream) : Prop :=
  s.pending = none ∧ s.done = false

/-- No batch at hand is empty. -/
structure Filled (s : Stream) : Prop where
  ready : ∀ b ∈ s.packer.ready, b.writes ≠ []
  opened : ∀ b, s.opened = some b → b.writes ≠ []

/-- How a stream moves on: it packs a write, finishes the open batch or opens a set. -/
inductive Moved (p : Planner) (t : Snapshot) (s : Stream) : Stream → Prop
  | pack {w w' : RowWrite} {current : List RowWrite} {k : Packer} {b : Batch} :
    s.packer.ready = [] → s.current = w :: current → w.examine p.model t = .ok w' →
      s.packer.pack p t s.opened w' = (k, .ok b) →
      Moved p t s { s with current, opened := some b, packer := k }
  | finish {b : Batch} {k : Packer} :
    s.packer.ready = [] → s.current = [] → s.opened = some b →
      s.packer.finish p t b = (k, .ok ()) → Moved p t s { s with opened := none, packer := k }
  | openNext {set : List RowWrite} {sets : List (List RowWrite)} :
    s.packer.ready = [] → s.current = [] → s.opened = none → s.sets = set :: sets →
      Moved p t s { s with sets, current := sortBy (p.comparer p.model t) set }

/-- How a stream answers: it sends a finished batch, it fails to examine a write, to pack it or to
finish the open batch, or it ends. -/
inductive Answered (p : Planner) (t : Snapshot) (s : Stream) : Item → Stream → Prop
  | send {b : Batch} {ready : List Batch} :
    s.packer.ready = b :: ready →
      Answered p t s (.batch b)
        { s with packer := { s.packer with ready }.log (.batchEmitted b.writes.length) }
  | unfit {w : RowWrite} {current : List RowWrite} {e : PlanError} :
    s.packer.ready = [] → s.current = w :: current → w.examine p.model t = .error e →
      Answered p t s (.failed e) { s with current }.stop
  | unpacked {w w' : RowWrite} {current : List RowWrite} {k : Packer} {e : PlanError} :
    s.packer.ready = [] → s.current = w :: current → w.examine p.model t = .ok w' →
      s.packer.pack p t s.opened w' = (k, .error e) →
      Answered p t s (.failed e) { s with current, opened := none, packer := k }.stop
  | unfinished {b : Batch} {k : Packer} {e : PlanError} :
    s.packer.ready = [] → s.current = [] → s.opened = some b →
      s.packer.finish p t b = (k, .error e) →
      Answered p t s (.failed e) { s with opened := none, packer := k }.stop
  | ended :
    s.packer.ready = [] → s.current = [] → s.opened = none → s.sets = [] →
      Answered p t s .ended s.stop

theorem moved_of_turn (h : s.turn p t = .move s') : Moved p t s s' := by
  unfold turn at h
  split at h
  · cases h
  · rename_i w current hr hc
    split at h
    · cases h
    · rename_i w' hw
      split at h
      · cases h
      · rename_i k b hpack
        obtain rfl := Turn.move.inj h
        exact .pack hr hc hw hpack
  · rename_i b hr hc ho
    split at h
    · cases h
    · rename_i k hfinish
      obtain rfl := Turn.move.inj h
      exact .finish hr hc ho hfinish
  · rename_i set sets hr hc ho hs
    obtain rfl := Turn.move.inj h
    exact .openNext hr hc ho hs
  · cases h

theorem answered_of_turn {item : Item} (h : s.turn p t = .answer item s') :
    Answered p t s item s' := by
  unfold turn at h
  split at h
  · rename_i b ready hr
    obtain ⟨rfl, rfl⟩ := Turn.answer.inj h
    exact .send hr
  · rename_i w current hr hc
    split at h
    · rename_i e hw
      obtain ⟨rfl, rfl⟩ := Turn.answer.inj h
      exact .unfit hr hc hw
    · rename_i w' hw
      split at h
      · rename_i k e hpack
        obtain ⟨rfl, rfl⟩ := Turn.answer.inj h
        exact .unpacked hr hc hw hpack
      · cases h
  · rename_i b hr hc ho
    split at h
    · rename_i k e hfinish
      obtain ⟨rfl, rfl⟩ := Turn.answer.inj h
      exact .unfinished hr hc ho hfinish
    · cases h
  · cases h
  · rename_i hr hc ho hs
    obtain ⟨rfl, rfl⟩ := Turn.answer.inj h
    exact .ended hr hc ho hs

/-- A stream that moves on has no finished batch. It finishes some out of the open set or, where
nothing is left of that, opens the next one. -/
theorem turn_eq_move (h : s.turn p t = .move s') :
    s.packer.ready = [] ∧ (s.Running → s'.Running) ∧ (s.Filled → s'.Filled) ∧
      ((s'.sets = s.sets ∧ SameRows (writesOf s'.packer.ready ++ s'.unsent) s.unsent) ∨
        s.unsent = [] ∧ s'.packer.ready = [] ∧
          ∃ set, s.sets = set :: s'.sets ∧ s'.unsent = sortBy (p.comparer p.model t) set) := by
  cases moved_of_turn h with
  | @pack w w' current k b hr hc hw hpack =>
    obtain ⟨bs, hready, hrows, hb, hbs⟩ := Packer.pack_eq_ok hpack
    rw [hr, List.nil_append] at hready
    refine ⟨hr, id, fun _ => ⟨hready ▸ hbs, ?_⟩, .inl ⟨rfl, ?_⟩⟩
    · intro b' hb'
      exact Option.some.inj hb' ▸ hb
    have hrow : SameRows (heldBy s.opened ++ [w']) (heldBy s.opened ++ [w]) :=
      (SameRows.refl _).append (.singleton (RowWrite.sameRow_of_examine hw))
    have hall := (hrows.trans hrow).append (SameRows.refl current)
    simpa [unsent, heldBy, hc, hready] using hall
  | @finish b k hr hc ho hfinish =>
    obtain ⟨bs, hready, hrows, hbs⟩ := Packer.finish_eq_ok hfinish
    rw [hr, List.nil_append] at hready
    refine ⟨hr, id, fun hf => ⟨hready ▸ hbs (hf.opened b ho), ?_⟩, .inl ⟨rfl, ?_⟩⟩
    · intro b' hb'
      cases hb'
    · simpa [unsent, heldBy, hc, ho, hready] using hrows
  | @openNext set sets hr hc ho hs =>
    refine ⟨hr, id, fun hf => ⟨hf.ready, hf.opened⟩, .inr ⟨?_, hr, set, hs, ?_⟩⟩
    · simp [unsent, heldBy, hc, ho]
    · simp [unsent, heldBy, ho]

/-- A stream that answers sends its first finished batch. Where there is none it comes to its end,
because something of the open set cannot be sent or because nothing is left of any set. -/
theorem turn_eq_answer {item : Item} (h : s.turn p t = .answer item s') :
    (∃ b, item = .batch b ∧ s.packer.ready = b :: s'.packer.ready ∧ s'.sets = s.sets ∧
      s'.unsent = s.unsent ∧ (s.Running → s'.Running) ∧ (s.Filled → s'.Filled)) ∨
      s'.done = true ∧ s.packer.ready = [] ∧
        ((∃ e, item = .failed e ∧ (s.Filled → s.unsent ≠ [])) ∨
          item = .ended ∧ s.sets = [] ∧ s.unsent = []) := by
  cases answered_of_turn h with
  | @send b ready hr =>
    refine .inl ⟨b, rfl, hr, rfl, rfl, id, fun hf => ⟨?_, hf.opened⟩⟩
    intro b' hb'
    exact hf.ready b' (hr ▸ List.mem_cons_of_mem b hb')
  | unfit hr hc _ => exact .inr ⟨rfl, hr, .inl ⟨_, rfl, fun _ => by simp [unsent, hc]⟩⟩
  | unpacked hr hc _ _ => exact .inr ⟨rfl, hr, .inl ⟨_, rfl, fun _ => by simp [unsent, hc]⟩⟩
  | @unfinished b _ _ hr hc ho _ =>
    have hunsent (hf : s.Filled) : s.unsent ≠ [] := by
      simpa [unsent, heldBy, hc, ho] using hf.opened b ho
    exact .inr ⟨rfl, hr, .inl ⟨_, rfl, hunsent⟩⟩
  | ended hr hc ho hs => exact .inr ⟨rfl, hr, .inr ⟨rfl, hs, by simp [unsent, heldBy, hc, ho]⟩⟩

/-- The write that the next turn examines. -/
def examined? (s : Stream) : Option RowWrite :=
  match s.packer.ready, s.current with
  | [], w :: _ => some w
  | _, _ => none

/-- The writes that the next turn compares: those of the set that it opens. -/
def compared (s : Stream) : List RowWrite :=
  match s.packer.ready, s.current, s.opened, s.sets with
  | [], [], none, set :: _ => set
  | _, _, _, _ => []

theorem mem_current_of_examined {w : RowWrite} (h : s.examined? = some w) : w ∈ s.current := by
  unfold examined? at h
  split at h
  · rename_i hcurrent
    rw [hcurrent, Option.some.inj h]
    exact List.mem_cons_self
  · cases h

theorem mem_sets_of_compared {w : RowWrite} (h : w ∈ s.compared) : w ∈ s.sets.flatten := by
  unfold compared at h
  split at h
  · rename_i hsets
    rw [hsets, List.flatten_cons]
    exact List.mem_append_left _ h
  · cases h

/-- A turn is the same for a planner that packs in the same way, examines the one write in the same
way and sorts the one set in the same way. -/
theorem turn_congr {p' : Planner} (hconfig : p'.config = p.config)
    (hoffer : ∀ (k : Packer) b w, k.offer p' t b w = k.offer p t b w)
    (hexamine : ∀ w, s.examined? = some w → w.examine p'.model t = w.examine p.model t)
    (hsort : sortBy (p'.comparer p'.model t) s.compared =
      sortBy (p.comparer p.model t) s.compared) :
    s.turn p' t = s.turn p t := by
  obtain ⟨pending, sets, current, opened, ⟨names, begun, ready, events, claims⟩, done⟩ := s
  cases ready with
  | cons b ready => rfl
  | nil =>
    cases current with
    | cons w current => simp only [turn, hexamine w rfl, Packer.pack_congr hconfig hoffer]
    | nil =>
      cases opened with
      | some b => simp only [turn, Packer.finish_congr hconfig hoffer]
      | none =>
        cases sets with
        | nil => rfl
        | cons set sets =>
          have hset : sortBy (p'.comparer p'.model t) set = sortBy (p.comparer p.model t) set :=
            hsort
          simp only [turn, hset]

/-- Asks a stream for its next batch once with each snapshot. -/
def requests (p : Planner) (s : Stream) : List Snapshot → List Item × Stream
  | [] => ([], s)
  | t :: ts =>
    let answer := s.next p t
    let rest := answer.2.requests p ts
    (answer.1 :: rest.1, rest.2)

theorem advance_of_move (h : s.turn p t = .move s') : s.advance p t = s'.advance p t := by
  rw [advance]
  split <;> simp_all

theorem advance_of_answer {item : Item} (h : s.turn p t = .answer item s') :
    s.advance p t = (item, s') := by
  rw [advance]
  split <;> simp_all

theorem next_of_running (h : s.Running) (t : Snapshot) : s.next p t = s.advance p t := by
  simp [next, h.1, h.2]

theorem next_of_done (h : s.done = true) (t : Snapshot) : s.next p t = (.ended, s) := by
  simp [next, h]

theorem length_requests (p : Planner) (s : Stream) (ts : List Snapshot) :
    (s.requests p ts).1.length = ts.length := by
  induction ts generalizing s with
  | nil => rfl
  | cons t ts ih => rw [requests, List.length_cons, List.length_cons, ih]

theorem requests_append (p : Planner) (s : Stream) (ts us : List Snapshot) :
    s.requests p (ts ++ us) = ((s.requests p ts).1 ++ ((s.requests p ts).2.requests p us).1,
      ((s.requests p ts).2.requests p us).2) := by
  induction ts generalizing s with
  | nil => rfl
  | cons t ts ih => simp only [List.cons_append, requests, ih]

theorem requests_of_done (h : s.done = true) (ts : List Snapshot) :
    s.requests p ts = (List.replicate ts.length .ended, s) := by
  induction ts with
  | nil => rfl
  | cons t ts ih =>
    rw [requests, next_of_done h]
    simp [ih, List.replicate_succ]

/-- A pass that cannot be planned says why, and no more. -/
theorem requests_eq_of_error {entries : List Nat} {e : PlanError}
    (h : (p.prepare t entries).sets = .error e) (begun : Nat) (later : List Snapshot) :
    (ofEntries entries begun).requests p (t :: later) =
      (.failed e :: List.replicate later.length .ended,
        ((ofEntries entries begun).prepare p t entries).2) := by
  have hnext : (ofEntries entries begun).next p t =
      (.failed e, ((ofEntries entries begun).prepare p t entries).2) := by
    simp [next, ofEntries, Stream.prepare, h]
  rw [requests, hnext, requests_of_done]
  simp [Stream.prepare, h, stop]

theorem requests_of_error {entries : List Nat} {e : PlanError}
    (h : (p.prepare t entries).sets = .error e) (begun : Nat) (later : List Snapshot) :
    ((ofEntries entries begun).requests p (t :: later)).1 =
      .failed e :: List.replicate later.length .ended := by
  rw [requests_eq_of_error h]

/-- A stream that has a plan and has not opened a set yet. -/
structure Planned (s : Stream) (sets : List (List RowWrite)) : Prop where
  running : s.Running
  sets : s.sets = sets
  ready : s.packer.ready = []
  current : s.current = []
  opened : s.opened = none

theorem Planned.unsent {sets : List (List RowWrite)} (h : s.Planned sets) : s.unsent = [] := by
  simp [Stream.unsent, heldBy, h.current, h.opened]

theorem planned_of_prepare {entries : List Nat} {begun : Nat}
    (h : (ofEntries entries begun).prepare p t entries = (.ok (), s)) :
    ∃ sets, (p.prepare t entries).sets = .ok sets ∧ s.Planned sets ∧
      (ofEntries entries begun).next p t = s.advance p t := by
  have hnext : (ofEntries entries begun).next p t = s.advance p t := by
    simp [next, ofEntries] at h ⊢
    rw [h]
  cases hsets : (p.prepare t entries).sets with
  | error e =>
    simp only [Stream.prepare, hsets] at h
    cases (Prod.mk.inj h).1
  | ok sets =>
    simp only [Stream.prepare, hsets] at h
    obtain ⟨_, rfl⟩ := Prod.mk.inj h
    exact ⟨sets, rfl, ⟨⟨rfl, rfl⟩, rfl, rfl, rfl, rfl⟩, hnext⟩

theorem requests_of_prepare {entries : List Nat} {begun : Nat}
    (h : (ofEntries entries begun).prepare p t entries = (.ok (), s)) (later : List Snapshot) :
    (ofEntries entries begun).requests p (t :: later) = s.requests p (t :: later) := by
  obtain ⟨_, _, hs, hnext⟩ := planned_of_prepare h
  rw [requests, requests, hnext, next_of_running hs.running]

/-- A pass that can be planned answers as the stream does that has the plan. -/
theorem requests_of_sets {entries : List Nat} {sets : List (List RowWrite)}
    (h : (p.prepare t entries).sets = .ok sets) (begun : Nat) (later : List Snapshot) :
    ∃ s : Stream, s.Planned sets ∧
      ((ofEntries entries begun).requests p (t :: later)).1 = (s.requests p (t :: later)).1 := by
  let s := ((ofEntries entries begun).prepare p t entries).2
  have hprepare : (ofEntries entries begun).prepare p t entries = (.ok (), s) := by
    simp [s, Stream.prepare, h]
  obtain ⟨sets', hsets, hs, _⟩ := planned_of_prepare hprepare
  obtain rfl := Except.ok.inj (h.symm.trans hsets)
  exact ⟨s, hs, by rw [requests_of_prepare hprepare]⟩

/-- What holds of the streams of such a pass from turn to turn, and of the batches that they send
for that reason. -/
structure Invariant (p : Planner) (t : Snapshot) (inv : Stream → Prop) (good : Batch → Prop) :
    Prop where
  running : ∀ s, inv s → s.Running
  move : ∀ s s', inv s → s.turn p t = .move s' → inv s'
  send : ∀ s b s', inv s → s.turn p t = .answer (.batch b) s' → good b ∧ inv s'

namespace Invariant

variable {inv : Stream → Prop} {good : Batch → Prop} (h : Invariant p t inv good)
include h

theorem advance (hs : inv s) :
    (∃ b, (s.advance p t).1 = .batch b ∧ good b ∧ inv (s.advance p t).2) ∨
      (∀ b, (s.advance p t).1 ≠ .batch b) ∧ (s.advance p t).2.done = true := by
  fun_induction Stream.advance p t s with
  | case1 s item s' hturn =>
    rcases turn_eq_answer hturn with ⟨b, rfl, _⟩ | ⟨hdone, _, hitem⟩
    · exact .inl ⟨b, rfl, h.send s b s' hs hturn⟩
    · refine .inr ⟨fun b hb => ?_, hdone⟩
      rcases hitem with ⟨e, rfl, _⟩ | ⟨rfl, _⟩ <;> cases hb
  | case2 s s' hturn ih => exact ih (h.move s s' hs hturn)

theorem good_of_requests (hs : inv s) {ts : List Snapshot} (hts : ∀ u ∈ ts, u = t) {b : Batch}
    (hb : .batch b ∈ (s.requests p ts).1) : good b := by
  induction ts generalizing s with
  | nil => cases hb
  | cons u ts ih =>
    obtain ⟨rfl, hts⟩ := List.forall_mem_cons.mp hts
    rw [requests, next_of_running (h.running s hs)] at hb
    rcases h.advance hs with ⟨b', hitem, hgood, hnext⟩ | ⟨hitem, hdone⟩
    · rcases List.mem_cons.mp hb with hb | hb
      · exact Item.batch.inj (hb.trans hitem) ▸ hgood
      · exact ih hnext hts hb
    · rcases List.mem_cons.mp hb with hb | hb
      · exact absurd hb.symm (hitem b)
      · rw [requests_of_done hdone] at hb
        cases List.eq_of_mem_replicate hb

/-- It is enough that the invariant holds of the plan. -/
theorem good_of_plan {entries : List Nat} {begun : Nat}
    (hplan : ∀ sets s, (p.prepare t entries).sets = .ok sets → s.Planned sets → inv s)
    {ts : List Snapshot} (hts : ∀ u ∈ ts, u = t) {b : Batch}
    (hb : .batch b ∈ ((ofEntries entries begun).requests p ts).1) : good b := by
  cases ts with
  | nil => cases hb
  | cons u later =>
    obtain ⟨rfl, _⟩ := List.forall_mem_cons.mp hts
    cases hsets : (p.prepare u entries).sets with
    | error e =>
      rw [requests_of_error hsets] at hb
      rcases List.mem_cons.mp hb with hb | hb
      · cases hb
      · cases List.eq_of_mem_replicate hb
    | ok sets =>
      obtain ⟨s, hs, hrequests⟩ := requests_of_sets hsets begun later
      exact h.good_of_requests (hplan sets s hsets hs) hts (hrequests ▸ hb)

end Invariant

theorem pending_of_answer {item : Item} (h : s.turn p t = .answer item s') :
    s'.pending = s.pending := by
  cases answered_of_turn h <;> rfl

/-- What holds of a stream and its answers so far, from turn to turn. -/
structure History (p : Planner) (inv : List Item → Stream → Prop) : Prop where
  move : ∀ t items s s', s.Running → inv items s → s.turn p t = .move s' → inv items s'
  answer : ∀ t items s item s', s.Running → inv items s → s.turn p t = .answer item s' →
    inv (items ++ [item]) s'
  ended : ∀ items s, s.done = true → inv items s → inv (items ++ [.ended]) s

/-- What holds of the failure of any turn holds of all failures. -/
theorem History.of_failures {failure : PlanError → Prop}
    (h : ∀ t (s s' : Stream) e, s.turn p t = .answer (.failed e) s' → failure e) :
    History p fun items _ => ∀ e, .failed e ∈ items → failure e where
  move _ _ _ _ _ hall _ := hall
  answer t items s item s' _ hall hturn e he := by
    rcases List.mem_append.mp he with he | he
    · exact hall e he
    · obtain rfl := List.mem_singleton.mp he
      exact h t s s' e hturn
  ended _ _ _ hall e he := by
    rcases List.mem_append.mp he with he | he
    · exact hall e he
    · cases List.mem_singleton.mp he

namespace History

variable {inv : List Item → Stream → Prop} {items : List Item} (h : History p inv)
include h

theorem advance (hs : inv items s) (hrunning : s.Running) :
    inv (items ++ [(s.advance p t).1]) (s.advance p t).2 ∧
      (s.advance p t).2.pending = none := by
  fun_induction Stream.advance p t s with
  | case1 s item s' hturn =>
    refine ⟨h.answer t items s item s' hrunning hs hturn, ?_⟩
    exact (pending_of_answer hturn).trans hrunning.1
  | case2 s s' hturn ih =>
    exact ih (h.move t items s s' hrunning hs hturn) ((turn_eq_move hturn).2.1 hrunning)

theorem next (hs : inv items s) (hpending : s.pending = none) :
    inv (items ++ [(s.next p t).1]) (s.next p t).2 ∧ (s.next p t).2.pending = none := by
  cases hdone : s.done with
  | true =>
    rw [next_of_done hdone]
    exact ⟨h.ended items s hdone hs, hpending⟩
  | false =>
    rw [next_of_running ⟨hpending, hdone⟩]
    exact h.advance hs ⟨hpending, hdone⟩

theorem requests (hs : inv items s) (hpending : s.pending = none) (ts : List Snapshot) :
    inv (items ++ (s.requests p ts).1) (s.requests p ts).2 := by
  induction ts generalizing items s with
  | nil => simpa [Stream.requests] using hs
  | cons t ts ih =>
    obtain ⟨hnext, hpending'⟩ := h.next (t := t) hs hpending
    rw [Stream.requests, List.append_cons]
    exact ih hnext hpending'

/-- It is enough that it holds of the stream that has just been planned, and of the one that cannot
be. -/
theorem of_plan {entries : List Nat} {begun : Nat}
    (hplan : ∀ sets, (p.prepare t entries).sets = .ok sets →
      inv [] ((ofEntries entries begun).prepare p t entries).2)
    (hfault : ∀ e, (p.prepare t entries).sets = .error e →
      inv [.failed e] ((ofEntries entries begun).prepare p t entries).2) (later : List Snapshot) :
    inv ((ofEntries entries begun).requests p (t :: later)).1
      ((ofEntries entries begun).requests p (t :: later)).2 := by
  cases hsets : (p.prepare t entries).sets with
  | error e =>
    have hnext : (ofEntries entries begun).next p t =
        (.failed e, ((ofEntries entries begun).prepare p t entries).2) := by
      simp [Stream.next, ofEntries, Stream.prepare, hsets]
    rw [Stream.requests, hnext, ← List.singleton_append]
    refine h.requests (hfault e hsets) ?_ later
    simp [Stream.prepare, hsets, stop]
  | ok sets =>
    have hprepare : (ofEntries entries begun).prepare p t entries =
        (.ok (), ((ofEntries entries begun).prepare p t entries).2) := by
      simp [Stream.prepare, hsets]
    obtain ⟨_, _, hs, hnext⟩ := planned_of_prepare hprepare
    have hall := h.requests (hplan sets hsets) hs.running.1 (t :: later)
    rw [List.nil_append, Stream.requests, next_of_running hs.running, ← hnext] at hall
    exact hall

end History

end Stream

end WritePlan

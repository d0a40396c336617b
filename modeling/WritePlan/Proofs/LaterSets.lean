import WritePlan.Proofs.BuiltWrites
import WritePlan.Proofs.Replacement

namespace WritePlan

/-- The writes are those of the set, in some order and with their columns settled or not. -/
def Drawn (ws set : List RowWrite) : Prop :=
  ∃ order : List RowWrite, order.Perm set ∧ SameRows ws order

theorem Drawn.of_sameRows {vs ws set : List RowWrite} (h : Drawn ws set) (hv : SameRows vs ws) :
    Drawn vs set := by
  obtain ⟨order, hperm, hrows⟩ := h
  exact ⟨order, hperm, hv.trans hrows⟩

theorem Drawn.exists_of_mem {ws set : List RowWrite} (h : Drawn ws set) {w : RowWrite}
    (hw : w ∈ ws) : ∃ v ∈ set, w.SameRow v := by
  obtain ⟨order, hperm, hrows⟩ := h
  obtain ⟨v, hv, hwv⟩ := hrows.exists_of_mem hw
  exact ⟨v, hperm.mem_iff.mp hv, hwv⟩

theorem Drawn.of_perm {ws set : List RowWrite} (h : ws.Perm set) : Drawn ws set :=
  ⟨ws, h, .refl ws⟩

/-- As many sets are out as there are lists of batches, each in the batches of its list. -/
def AllOut (sets : List (List RowWrite)) (sent : List (List Batch)) : Prop :=
  List.Forall₂ (fun bs set => Drawn (writesOf bs) set) sent (sets.take sent.length)

theorem AllOut.concat {sets : List (List RowWrite)} {before : List (List Batch)} {now : List Batch}
    {set : List RowWrite} (h : AllOut sets before) (hset : sets[before.length]? = some set)
    (hnow : Drawn (writesOf now) set) : AllOut sets (before ++ [now]) := by
  unfold AllOut
  rw [List.length_append, List.length_singleton, List.take_add_one, hset]
  exact List.rel_append h (.cons hnow .nil)

/-- An insert that passes has no temporary value but in columns that are read back. -/
theorem RowWrite.sends_of_checkTemporary {m : Model} {t : Snapshot} {w : RowWrite}
    (hadded : w.state t = .added) (h : w.checkTemporary m t = .ok ()) :
    ∀ c ∈ w.columns m t, c.roles.read = false → c.isTemporary t = false := by
  have hisAdded : (w.state t).isAdded = true := decide_eq_true hadded
  unfold checkTemporary at h
  rw [if_pos hisAdded] at h
  split at h
  · rename_i hfind
    intro c hc hread
    simpa [hread] using List.find?_eq_none.mp hfind c hc
  · cases h

/-- The columns of the write were settled in a request from the `n`th on, as its entries were then,
and no value that it sends was temporary. -/
def SettledFrom (m : Model) (requests : List Snapshot) (n : Nat) (w : RowWrite) : Prop :=
  ∃ k u, n ≤ k ∧ requests[k]? = some u ∧ w.settled = some (m.columnsOf u w.entries) ∧
    ∀ c ∈ m.columnsOf u w.entries, c.roles.read = false → c.isTemporary u = false

namespace SettledFrom

variable {m : Model} {requests : List Snapshot} {n : Nat} {w : RowWrite}

theorem append (h : SettledFrom m requests n w) (later : List Snapshot) :
    SettledFrom m (requests ++ later) n w := by
  obtain ⟨k, u, hn, hu, hw⟩ := h
  have hlt := (List.getElem?_eq_some_iff.mp hu).1
  exact ⟨k, u, hn, by rwa [List.getElem?_append_left hlt], hw⟩

/-- Columns are settled once. -/
theorem settle (h : SettledFrom m requests n w) (t : Snapshot) :
    SettledFrom m requests n (w.settle m t) := by
  obtain ⟨k, u, hn, hu, hsettled, hsends⟩ := h
  have hcolumns : (w.settle m t).settled = some (m.columnsOf u w.entries) := by
    simp [RowWrite.settle, RowWrite.columns, hsettled]
  exact ⟨k, u, hn, hu, hcolumns, hsends⟩

/-- An insert that was not settled before is settled as it is examined. -/
theorem of_examine {t : Snapshot} {w' : RowWrite} {k : Nat} (hn : n ≤ k)
    (ht : requests[k]? = some t) (hadded : w.state t = .added) (hnone : w.settled = none)
    (h : w.examine m t = .ok w') : SettledFrom m requests n w' := by
  obtain ⟨_, hcheck, h⟩ := bind_eq_ok.mp h
  have hcolumns : w.columns m t = m.columnsOf t w.entries := by
    rw [RowWrite.columns, hnone, Option.getD_none]
  have hsends := RowWrite.sends_of_checkTemporary hadded hcheck
  rw [hcolumns] at hsends
  rw [hadded] at h
  obtain rfl := Except.ok.inj h
  exact ⟨k, t, hn, ht, congrArg some hcolumns, hsends⟩

end SettledFrom

/-- Where the write is an insert, its columns were settled in a request from the `n`th on. -/
def InsertSettled (m : Model) (t₀ : Snapshot) (requests : List Snapshot) (n : Nat)
    (w : RowWrite) : Prop :=
  w.state t₀ = .added → SettledFrom m requests n w

/-- The states of all entries are those that they had at first. -/
def KeepsStates (t₀ : Snapshot) (requests : List Snapshot) : Prop :=
  ∀ t ∈ requests, ∀ i, (t i).state = (t₀ i).state

namespace Stream

/-- A turn is the same with any order that agrees on the writes that it compares. -/
theorem turn_comparer {p : Planner} {t : Snapshot} {s : Stream} {c : Comparer}
    (h : ∀ v ∈ s.compared, ∀ w ∈ s.compared, c p.model t v w = p.comparer p.model t v w) :
    s.turn { p with comparer := c } t = s.turn p t :=
  turn_congr rfl (fun _ _ _ => rfl) (fun _ _ => rfl) (sortBy_congr h)

/-- A pass in the middle of a request: the requests with the snapshots `past` have got the answers
`items`, and `s` takes its next turn for the request with the snapshot `t`. -/
inductive Turning (p : Planner) (entries : List Nat) (begun : Nat) :
    List Snapshot → List Item → Snapshot → Stream → Prop
  | first {t : Snapshot} {s : Stream} :
    (ofEntries entries begun).prepare p t entries = (.ok (), s) → Turning p entries begun [] [] t s
  | move {past : List Snapshot} {items : List Item} {t : Snapshot} {s s' : Stream} :
    Turning p entries begun past items t s → s.turn p t = .move s' →
      Turning p entries begun past items t s'
  | answer {past : List Snapshot} {items : List Item} {item : Item} {t : Snapshot} {s s' : Stream}
    (u : Snapshot) : Turning p entries begun past items t s → s.turn p t = .answer item s' →
      s'.done = false → Turning p entries begun (past ++ [t]) (items ++ [item]) u s'

/-- A pass with an open set: `before` holds the batches of all sets before it, and `now` those of
this one so far. -/
structure SetOpen (sets : List (List RowWrite)) (before : List (List Batch)) (now : List Batch)
    (s : Stream) : Prop where
  running : s.Running
  later : s.sets = sets.drop (before.length + 1)
  out : AllOut sets before
  held : ∃ set, sets[before.length]? = some set ∧
    Drawn (writesOf now ++ (writesOf s.packer.ready ++ s.unsent)) set

theorem Planned.sets_ne_of_move {p : Planner} {t : Snapshot} {s s' : Stream}
    {sets : List (List RowWrite)} (h : s.Planned sets) (hturn : s.turn p t = .move s') :
    s'.sets ≠ s.sets := by
  cases moved_of_turn hturn with
  | pack _ hc _ _ => cases h.current.symm.trans hc
  | finish _ _ ho _ => cases h.opened.symm.trans ho
  | @openNext set sets' _ _ _ hs =>
    rw [hs]
    exact (List.cons_ne_self set sets').symm

/-- How far a pass is with its sets: none was opened, or the last that was is on its way. -/
inductive Progress (sets : List (List RowWrite)) : List (List Batch) → Stream → Prop
  | planned {s : Stream} : s.Planned sets → Progress sets [] s
  | opened {before : List (List Batch)} {now : List Batch} {s : Stream} :
    SetOpen sets before now s → Progress sets (before ++ [now]) s

namespace Progress

variable {s s' : Stream} {sets : List (List RowWrite)} {sent : List (List Batch)}

theorem running (h : Progress sets sent s) : s.Running := by
  cases h with
  | planned h => exact h.running
  | opened h => exact h.running

/-- The sets that are not opened are the last of the plan. -/
theorem later (h : Progress sets sent s) : s.sets = sets.drop sent.length := by
  cases h with
  | planned h => exact h.sets
  | opened h => simpa using h.later

theorem out (h : Progress sets sent s) : AllOut sets sent.dropLast := by
  cases h with
  | planned _ => exact .nil
  | opened h => simpa using h.out

/-- When nothing is at hand, all sets that were opened are out. -/
theorem allOut (h : Progress sets sent s) (hready : s.packer.ready = []) (hunsent : s.unsent = []) :
    AllOut sets sent := by
  cases h with
  | planned _ => exact .nil
  | opened h =>
    obtain ⟨set, hset, hdrawn⟩ := h.held
    rw [hready, hunsent] at hdrawn
    exact h.out.concat hset (by simpa [writesOf] using hdrawn)

/-- The next set is opened when the one before is out. -/
theorem openNext (h : Progress sets sent s) {set : List RowWrite} (hready : s.packer.ready = [])
    (hunsent : s.unsent = []) (hready' : s'.packer.ready = []) (hrunning : s'.Running)
    (hsets : s.sets = set :: s'.sets) (hsorted : s'.unsent.Perm set) :
    SetOpen sets sent [] s' := by
  have hdrop : sets.drop sent.length = set :: s'.sets := h.later.symm.trans hsets
  refine ⟨hrunning, ?_, h.allOut hready hunsent, set, ?_, ?_⟩
  · rw [← List.tail_drop, hdrop, List.tail_cons]
  · rw [← List.head?_drop, hdrop, List.head?_cons]
  · rw [hready']
    exact .of_perm hsorted

end Progress

namespace SetOpen

variable {s s' : Stream} {sets : List (List RowWrite)} {before : List (List Batch)}
variable {now : List Batch}

/-- What is finished out of the open set stays in it. -/
theorem pack (h : SetOpen sets before now s) (hready : s.packer.ready = [])
    (hrunning : s'.Running) (hsets : s'.sets = s.sets)
    (hrows : SameRows (writesOf s'.packer.ready ++ s'.unsent) s.unsent) :
    SetOpen sets before now s' := by
  obtain ⟨set, hset, hdrawn⟩ := h.held
  rw [hready] at hdrawn
  exact ⟨hrunning, hsets.trans h.later, h.out, set, hset,
    hdrawn.of_sameRows ((SameRows.refl _).append hrows)⟩

/-- A finished batch is sent. -/
theorem send (h : SetOpen sets before now s) {b : Batch}
    (hready : s.packer.ready = b :: s'.packer.ready) (hrunning : s'.Running)
    (hsets : s'.sets = s.sets) (hunsent : s'.unsent = s.unsent) :
    SetOpen sets before (now ++ [b]) s' := by
  obtain ⟨set, hset, hdrawn⟩ := h.held
  rw [hready] at hdrawn
  refine ⟨hrunning, hsets.trans h.later, h.out, set, hset, ?_⟩
  rw [hunsent]
  simpa [writesOf] using hdrawn

end SetOpen

/-- All inserts that were sent had their columns settled when the sets before theirs were out. -/
def SentSettled (m : Model) (t₀ : Snapshot) (requests : List Snapshot)
    (sent : List (List Batch)) : Prop :=
  ∀ k bs, sent[k]? = some bs → ∀ w ∈ writesOf bs,
    InsertSettled m t₀ requests (sent.take k).flatten.length w

theorem sentSettled_concat {m : Model} {t₀ : Snapshot} {requests : List Snapshot}
    {before : List (List Batch)} {now : List Batch} :
    SentSettled m t₀ requests (before ++ [now]) ↔ SentSettled m t₀ requests before ∧
      ∀ w ∈ writesOf now, InsertSettled m t₀ requests before.flatten.length w := by
  constructor
  · intro h
    refine ⟨fun k bs hk w hw => ?_, fun w hw => ?_⟩
    · have hlt := (List.getElem?_eq_some_iff.mp hk).1
      have hold := h k bs (getElem?_concat_eq_some.mpr (.inl hk)) w hw
      rwa [List.take_append_of_le_length (Nat.le_of_lt hlt)] at hold
    · simpa using h before.length now (by simp) w hw
  · intro ⟨h, hnow⟩ k bs hk w hw
    rcases getElem?_concat_eq_some.mp hk with hk | ⟨rfl, rfl⟩
    · have hlt := (List.getElem?_eq_some_iff.mp hk).1
      rw [List.take_append_of_le_length (Nat.le_of_lt hlt)]
      exact h k bs hk w hw
    · rw [List.take_left]
      exact hnow w hw

theorem Progress.send {p : Planner} {t : Snapshot} {s s' : Stream} {sets : List (List RowWrite)}
    {sent : List (List Batch)} {b : Batch} (h : Progress sets sent s)
    (hturn : s.turn p t = .answer (.batch b) s') :
    ∃ before now, sent = before ++ [now] ∧ SetOpen sets before (now ++ [b]) s' := by
  cases answered_of_turn hturn with
  | send hready =>
    cases h with
    | planned h => cases h.ready.symm.trans hready
    | @opened before now _ h => exact ⟨before, now, rfl, h.send hready h.running rfl rfl⟩

/-- Inserts wait for their columns until they are packed, and each set until all sets before it are
out. -/
structure InsertsWait (m : Model) (t₀ : Snapshot) (requests : List Snapshot)
    (sent : List (List Batch)) (s : Stream) : Prop where
  waiting : ∀ w ∈ s.sets.flatten ++ s.current, w.state t₀ = .added → w.settled = none
  packed : ∀ w ∈ writesOf s.packer.ready ++ heldBy s.opened,
    InsertSettled m t₀ requests sent.dropLast.flatten.length w
  sent : SentSettled m t₀ requests sent

namespace InsertsWait

variable {p : Planner} {t t₀ : Snapshot} {requests : List Snapshot} {s s' : Stream}
variable {sent before : List (List Batch)} {now : List Batch}

theorem pack (h : InsertsWait p.model t₀ requests sent s)
    (hstates : ∀ i, (t i).state = (t₀ i).state) {k : Nat} (hk : sent.dropLast.flatten.length ≤ k)
    (ht : requests[k]? = some t) (hturn : s.turn p t = .move s') (hsets : s'.sets = s.sets) :
    InsertsWait p.model t₀ requests sent s' := by
  have hsettle (w : RowWrite)
      (hw : InsertSettled p.model t₀ requests sent.dropLast.flatten.length w) :
      InsertSettled p.model t₀ requests sent.dropLast.flatten.length (w.settle p.model t) :=
    fun hadded => (hw hadded).settle t
  obtain ⟨hready, hheld⟩ := List.forall_mem_append.mp h.packed
  cases moved_of_turn hturn with
  | @pack w w' current _ _ _ hc hw hpack =>
    have hwaiting := h.waiting
    rw [hc] at hwaiting
    have hsettled : InsertSettled p.model t₀ requests sent.dropLast.flatten.length w' := by
      intro hadded
      -- nobody has asked for the columns of a waiting insert, so they are those of this request
      have hfirst : w.state t₀ = .added :=
        ((RowWrite.sameRow_of_examine hw).state_eq t₀).symm.trans hadded
      have hnone : w.settled = none := hwaiting w (by simp) hfirst
      exact .of_examine hk ht ((RowWrite.state_congr hstates w).trans hfirst) hnone hw
    refine ⟨fun v hv => ?_, List.forall_mem_append.mpr ?_, h.sent⟩
    · apply hwaiting v
      simp only [List.mem_append, List.mem_cons] at hv ⊢
      tauto
    · exact Packer.pack_forall hsettle hheld hsettled hready hpack
  | @finish b _ _ hc ho hfinish =>
    have hb : heldBy s.opened = b.writes := by rw [ho]; rfl
    have hready' := Packer.finish_forall hsettle (hb ▸ hheld) hready hfinish
    exact ⟨h.waiting, List.forall_mem_append.mpr ⟨hready', List.forall_mem_nil _⟩, h.sent⟩
  | @openNext set sets _ _ _ hs =>
    rw [hs] at hsets
    exact absurd hsets.symm (List.cons_ne_self set sets)

theorem openNext (h : InsertsWait p.model t₀ requests sent s) (hturn : s.turn p t = .move s')
    {set : List RowWrite} (hsets : s.sets = set :: s'.sets) :
    InsertsWait p.model t₀ requests (sent ++ [[]]) s' := by
  cases moved_of_turn hturn with
  | pack _ _ _ _ => exact absurd hsets.symm (List.cons_ne_self set s.sets)
  | finish _ _ _ _ => exact absurd hsets.symm (List.cons_ne_self set s.sets)
  | openNext hready _ ho hs =>
    refine ⟨fun w hw => ?_, ?_, sentSettled_concat.mpr ⟨h.sent, ?_⟩⟩
    · apply h.waiting w
      rw [hs]
      simp only [List.mem_append, mem_sortBy, List.flatten_cons] at hw ⊢
      tauto
    · simp [hready, ho, heldBy, writesOf]
    · exact List.forall_mem_nil _

theorem send (h : InsertsWait p.model t₀ requests (before ++ [now]) s) {b : Batch}
    (hturn : s.turn p t = .answer (.batch b) s') :
    InsertsWait p.model t₀ requests (before ++ [now ++ [b]]) s' := by
  obtain ⟨hbefore, hnow⟩ := sentSettled_concat.mp h.sent
  cases answered_of_turn hturn with
  | send hready =>
    have hpacked := h.packed
    rw [hready, List.dropLast_concat, writesOf, List.flatMap_cons, List.append_assoc,
      List.forall_mem_append] at hpacked
    refine ⟨h.waiting, ?_, sentSettled_concat.mpr ⟨hbefore, ?_⟩⟩
    · rw [List.dropLast_concat]
      exact hpacked.2
    · rw [writesOf, List.flatMap_append, List.flatMap_singleton]
      exact List.forall_mem_append.mpr ⟨hnow, hpacked.1⟩

/-- Further requests leave what was settled. -/
theorem append (h : InsertsWait p.model t₀ requests sent s) (later : List Snapshot) :
    InsertsWait p.model t₀ (requests ++ later) sent s where
  waiting := h.waiting
  packed w hw hadded := (h.packed w hw hadded).append later
  sent k bs hk w hw hadded := (h.sent k bs hk w hw hadded).append later

end InsertsWait

/-- A pass in the middle of a request, with what it has come to: the sets that were planned in the
first request, and the batches of those that were opened. -/
structure Course (p : Planner) (entries : List Nat) (past : List Snapshot) (items : List Item)
    (t : Snapshot) (s : Stream) (t₀ : Snapshot) (sets : List (List RowWrite))
    (sent : List (List Batch)) : Prop where
  first : (past ++ [t]).head? = some t₀
  plan : (p.prepare t₀ entries).sets = .ok sets
  items_eq : items = sent.flatten.map .batch
  length_eq : sent.flatten.length = past.length
  progress : Progress sets sent s
  inserts : KeepsStates t₀ (past ++ [t]) → InsertsWait p.model t₀ (past ++ [t]) sent s

namespace Course

variable {p : Planner} {entries : List Nat} {past : List Snapshot} {items : List Item}
variable {t t₀ : Snapshot} {s s' : Stream} {sets : List (List RowWrite)}
variable {sent : List (List Batch)}

theorem start {begun : Nat} (h : (ofEntries entries begun).prepare p t entries = (.ok (), s)) :
    ∃ sets, Course p entries [] [] t s t sets [] := by
  obtain ⟨sets, hsets, hs, _⟩ := planned_of_prepare h
  refine ⟨sets, rfl, hsets, rfl, rfl, .planned hs, fun _ => ⟨fun w hw hadded => ?_, ?_, ?_⟩⟩
  · rw [hs.sets, hs.current, List.append_nil] at hw
    apply (Planner.sets_within hsets w hw).2
    rw [hadded]
    rfl
  · simp [hs.ready, hs.opened, heldBy, writesOf]
  · intro k bs hk
    cases hk

theorem move (h : Course p entries past items t s t₀ sets sent)
    (hturn : s.turn p t = .move s') : ∃ sent', Course p entries past items t s' t₀ sets sent' := by
  have hrunning := h.progress.running
  obtain ⟨hready, hkeep, _, ⟨hsets, hrows⟩ | ⟨hunsent, hready', set, hsets, hsorted⟩⟩ :=
    turn_eq_move hturn
  · have hprogress : Progress sets sent s' := by
      cases h.progress with
      | planned hplanned => exact absurd hsets (hplanned.sets_ne_of_move hturn)
      | opened hopen => exact .opened (hopen.pack hready (hkeep hrunning) hsets hrows)
    refine ⟨sent, h.first, h.plan, h.items_eq, h.length_eq, hprogress, fun hstates => ?_⟩
    have hle : sent.dropLast.flatten.length ≤ past.length := by
      rw [← h.length_eq]
      rcases List.eq_nil_or_concat sent with rfl | ⟨before, now, rfl⟩
      · exact Nat.le_refl _
      · simp
    exact (h.inserts hstates).pack (hstates t (by simp)) hle (by simp) hturn hsets
  · have hopen : SetOpen sets sent [] s' := h.progress.openNext hready hunsent hready'
      (hkeep hrunning) hsets (hsorted ▸ sortBy_perm _ set)
    refine ⟨sent ++ [[]], h.first, h.plan, ?_, ?_, .opened hopen, fun hstates => ?_⟩
    · simpa using h.items_eq
    · simpa using h.length_eq
    · exact (h.inserts hstates).openNext hturn hsets

theorem answer (h : Course p entries past items t s t₀ sets sent) {item : Item}
    (hturn : s.turn p t = .answer item s') (hdone : s'.done = false) (u : Snapshot) :
    ∃ sent', Course p entries (past ++ [t]) (items ++ [item]) u s' t₀ sets sent' := by
  rcases turn_eq_answer hturn with ⟨b, rfl, _⟩ | ⟨hended, _⟩
  · obtain ⟨before, now, rfl, hopen⟩ := h.progress.send hturn
    refine ⟨before ++ [now ++ [b]], ?_, h.plan, ?_, ?_, .opened hopen, fun hstates => ?_⟩
    · rw [List.head?_append, h.first, Option.some_or]
    · simp [h.items_eq]
    · simp [← h.length_eq, Nat.add_assoc]
    · have hbefore : KeepsStates t₀ (past ++ [t]) := (List.forall_mem_append.mp hstates).1
      exact ((h.inserts hbefore).send hturn).append [u]
  · exact absurd hended (hdone ▸ Bool.false_ne_true)

end Course

namespace Turning

variable {p : Planner} {entries : List Nat} {begun : Nat} {past : List Snapshot}
variable {items : List Item} {t : Snapshot} {s : Stream}

theorem course (h : Turning p entries begun past items t s) :
    ∃ t₀ sets sent, Course p entries past items t s t₀ sets sent := by
  induction h with
  | first hprepare =>
    obtain ⟨sets, h⟩ := Course.start hprepare
    exact ⟨_, sets, [], h⟩
  | move _ hturn ih =>
    obtain ⟨t₀, sets, _, h⟩ := ih
    obtain ⟨sent, h⟩ := h.move hturn
    exact ⟨t₀, sets, sent, h⟩
  | answer u _ hturn hdone ih =>
    obtain ⟨t₀, sets, _, h⟩ := ih
    obtain ⟨sent, h⟩ := h.answer hturn hdone u
    exact ⟨t₀, sets, sent, h⟩

theorem running (h : Turning p entries begun past items t s) : s.Running := by
  obtain ⟨_, _, _, h⟩ := h.course
  exact h.progress.running

/-- The turns are those that the pass takes as it is asked for its batches. -/
theorem answers_eq (h : Turning p entries begun past items t s) (later : List Snapshot) :
    p.answers entries begun (past ++ t :: later) = items ++ (s.requests p (t :: later)).1 := by
  induction h generalizing later with
  | first hprepare =>
    obtain ⟨_, _, hs, hnext⟩ := planned_of_prepare hprepare
    simp only [Planner.answers, List.nil_append, requests, hnext, next_of_running hs.running]
  | move h hturn ih =>
    have hrunning' := (h.move hturn).running
    rw [ih]
    simp only [requests, next_of_running h.running, next_of_running hrunning',
      advance_of_move hturn]
  | answer u h hturn _ ih =>
    rw [List.append_assoc, List.singleton_append, ih]
    simp only [requests, next_of_running h.running, advance_of_answer hturn, List.append_assoc,
      List.singleton_append]

/-- A request that does not end the pass is followed by the next one. -/
theorem advance (h : Turning p entries begun past items t s)
    (hdone : (s.advance p t).2.done = false) (u : Snapshot) :
    Turning p entries begun (past ++ [t]) (items ++ [(s.advance p t).1]) u (s.advance p t).2 := by
  fun_induction Stream.advance p t s with
  | case1 s item s' hturn => exact .answer u h hturn hdone
  | case2 s s' hturn ih => exact ih (.move h hturn) hdone

end Turning

section Looked

variable {p : Planner} {t t₀ : Snapshot} {requests : List Snapshot} {s : Stream}
variable {sets : List (List RowWrite)} {sent : List (List Batch)}

theorem Progress.of_compared (h : Progress sets sent s) (hne : s.compared ≠ []) :
    sets[sent.length]? = some s.compared ∧ AllOut sets sent := by
  unfold compared at hne ⊢
  split at hne
  · rename_i set later hready hcurrent hopened hsets
    have hunsent : s.unsent = [] := by simp [unsent, heldBy, hcurrent, hopened]
    refine ⟨?_, h.allOut hready hunsent⟩
    rw [← List.head?_drop, ← h.later, hsets, List.head?_cons]
  · exact absurd rfl hne

theorem Progress.of_examined (h : Progress sets sent s) {w : RowWrite}
    (hw : s.examined? = some w) :
    ∃ set v, sets[sent.length - 1]? = some set ∧ v ∈ set ∧ w.SameRow v := by
  have hcurrent := mem_current_of_examined hw
  cases h with
  | planned h => exact absurd (h.current ▸ hcurrent) List.not_mem_nil
  | @opened before now _ h =>
    obtain ⟨set, hset, hdrawn⟩ := h.held
    have hmem : w ∈ writesOf now ++ (writesOf s.packer.ready ++ s.unsent) :=
      List.mem_append_right _ (List.mem_append_right _ (List.mem_append_right _ hcurrent))
    obtain ⟨v, hv, hwv⟩ := hdrawn.exists_of_mem hmem
    exact ⟨set, v, by simpa using hset, hv, hwv⟩

theorem InsertsWait.unsettled_of_examined (h : InsertsWait p.model t₀ requests sent s)
    {w : RowWrite} (hw : s.examined? = some w) (hadded : w.state t₀ = .added) :
    w.settled = none :=
  h.waiting w (List.mem_append_right _ (mem_current_of_examined hw)) hadded

/-- The one write that is examined decides whether a turn fails for a temporary value. -/
theorem turn_temporary_iff {type property : String} :
    (∃ s', s.turn p t = .answer (.failed (.temporaryValue type property)) s') ↔
      ∃ w, s.examined? = some w ∧
        w.checkTemporary p.model t = .error (.temporaryValue type property) := by
  constructor
  · intro ⟨s', h⟩
    cases answered_of_turn h with
    | @unfit w _ _ hready hcurrent hexamine =>
      have hexamined : s.examined? = some w := by simp [examined?, hready, hcurrent]
      exact ⟨w, hexamined, RowWrite.examine_eq_error.mp hexamine⟩
    | unpacked _ _ _ hpack => cases Packer.pack_eq_error hpack
    | unfinished _ _ _ hfinish => cases Packer.finish_eq_error hfinish
  · intro ⟨w, hw, hcheck⟩
    unfold examined? at hw
    split at hw
    · rename_i w' current hready hcurrent
      obtain rfl := Option.some.inj hw
      have hexamine := RowWrite.examine_eq_error.mpr hcheck
      exact ⟨{ s with current }.stop, by simp only [turn, hready, hcurrent, hexamine]⟩
    · cases hw

end Looked

end Stream

/-- Sets that are not opened are as they were planned; a set is sorted, and its writes are examined,
only when all sets before it are out. An insert is sent with its columns as they are by then. -/
theorem later_sets_wait (p : Planner) (entries : List Nat) (begun : Nat) (past : List Snapshot)
    (items : List Item) (t : Snapshot) (s : Stream)
    (h : Stream.Turning p entries begun past items t s) :
    (∀ later, p.answers entries begun (past ++ t :: later) =
        items ++ (s.requests p (t :: later)).1) ∧
      (∀ c : Comparer,
        (∀ v ∈ s.compared, ∀ w ∈ s.compared, c p.model t v w = p.comparer p.model t v w) →
          s.turn { p with comparer := c } t = s.turn p t) ∧
      (∀ type property,
        (∃ s', s.turn p t = .answer (.failed (.temporaryValue type property)) s') ↔
          ∃ w, s.examined? = some w ∧
            w.checkTemporary p.model t = .error (.temporaryValue type property)) ∧
      ∃ t₀ sets sent, Stream.Course p entries past items t s t₀ sets sent ∧
        (∀ b s', s.turn p t = .answer (.batch b) s' →
          ∃ before now, sent = before ++ [now] ∧ Stream.SetOpen sets before (now ++ [b]) s') ∧
        (s.compared ≠ [] → sets[sent.length]? = some s.compared ∧ AllOut sets sent) ∧
        ∀ w, s.examined? = some w → AllOut sets sent.dropLast ∧
          (∃ set v, sets[sent.length - 1]? = some set ∧ v ∈ set ∧ w.SameRow v) ∧
          (KeepsStates t₀ (past ++ [t]) → w.state t = .added →
            w.columns p.model t = p.model.columnsOf t w.entries ∧
              ∀ w', w.examine p.model t = .ok w' → SettledFrom p.model [t] 0 w') := by
  obtain ⟨t₀, sets, sent, hcourse⟩ := h.course
  refine ⟨h.answers_eq, fun c hc => Stream.turn_comparer hc, fun _ _ => Stream.turn_temporary_iff,
    t₀, sets, sent, hcourse, fun b s' => hcourse.progress.send, hcourse.progress.of_compared,
    fun w hw => ⟨hcourse.progress.out, hcourse.progress.of_examined hw, fun hstates hadded => ?_⟩⟩
  have hfirst : w.state t₀ = .added :=
    (RowWrite.state_congr (hstates t (by simp)) w).symm.trans hadded
  have hnone := (hcourse.inserts hstates).unsettled_of_examined hw hfirst
  refine ⟨?_, fun w' hw' => .of_examine (Nat.le_refl 0) rfl hadded hnone hw'⟩
  rw [RowWrite.columns, hnone, Option.getD_none]

namespace Family

/-- As `born`, but the key of the parent is not known as yet. -/
def promised : Snapshot
  | 0 => row 0 .added [3, 7]
  | _ => (row 1 .added [5, 3]).withTemporary ⟨3⟩ true

def parentBatch : Batch :=
  ⟨0, [⟨⟨none, "Parents"⟩, [0], some (model.columnsOf promised [0])⟩]⟩

/-- The child waits for its turn until its parent is out, and is examined as it is then. -/
theorem later_sets_wait_promised :
    ∃ s : Stream, Stream.Turning planner [0, 1] 0 [promised] [.batch parentBatch] born s ∧
      planner.answers [0, 1] 0 [promised, born, born] =
        .batch parentBatch :: (s.requests planner [born, born]).1 ∧
      s.compared.map (·.entries) = [[1]] ∧
      ∃ sets sent, sent.flatten = [parentBatch] ∧ AllOut sets sent ∧
        sets[sent.length]? = some s.compared := by
  let s := ((Stream.ofEntries [0, 1] 0).prepare planner promised [0, 1]).2
  have hprepare : (Stream.ofEntries [0, 1] 0).prepare planner promised [0, 1] = (.ok (), s) :=
    Prod.ext (by decide +kernel) rfl
  have hdone : (s.advance planner promised).2.done = false := by decide +kernel
  have hitem : (s.advance planner promised).1 = .batch parentBatch := by decide +kernel
  have hcompared : (s.advance planner promised).2.compared.map (·.entries) = [[1]] := by
    decide +kernel
  have hturning := (Stream.Turning.first hprepare).advance hdone born
  rw [hitem] at hturning
  obtain ⟨hanswers, _, _, _, sets, sent, hcourse, _, hwaits, _⟩ :=
    later_sets_wait planner [0, 1] 0 _ _ born _ hturning
  have hne : (s.advance planner promised).2.compared ≠ [] := by
    intro h
    rw [h] at hcompared
    cases hcompared
  obtain ⟨hset, hout⟩ := hwaits hne
  have hflat : sent.flatten = [parentBatch] := by
    obtain ⟨b, hb, hbatch⟩ := List.map_eq_singleton_iff.mp hcourse.items_eq.symm
    rw [hb, Item.batch.inj hbatch]
  exact ⟨_, hturning, hanswers [born], hcompared, sets, sent, hflat, hout, hset⟩

end Family

end WritePlan

import WritePlan.Proofs.RowContents

namespace WritePlan

/-- The event, if there is one more entry and its write is left out. -/
def Event.oneMore : Event → Event
  | prepareStart entries => prepareStart (entries + 1)
  | commandsBuilt commands merged dropped => commandsBuilt commands merged (dropped + 1)
  | e => e

/-- The counters but for those of entries and of writes that were left out. -/
def Counters.others (c : Counters) : Counters :=
  { c with entriesSeen := 0, commandsDropped := 0 }

theorem Counters.others_record {c c' : Counters} (h : c'.others = c.others) (e : Event) :
    (c'.record e.oneMore).others = (c.record e).others := by
  obtain ⟨_, _, _, _, _, _, _, _, _, _, _, _⟩ := c
  obtain ⟨_, _, _, _, _, _, _, _, _, _, _, _⟩ := c'
  simp only [others, mk.injEq, true_and] at h
  obtain ⟨rfl, rfl, rfl, rfl, rfl, rfl, rfl, rfl, rfl, rfl⟩ := h
  cases e <;> rfl

theorem Counters.others_recordAll {c c' : Counters} (h : c'.others = c.others)
    (events : List Event) :
    (c'.recordAll (events.map Event.oneMore)).others = (c.recordAll events).others := by
  induction events generalizing c c' with
  | nil => exact h
  | cons e events ih => exact ih (others_record h e)

theorem forM_insert {ε α : Type} {f : α → Except ε Unit} {a : α} (ha : f a = .ok ())
    (before after : List α) : (before ++ a :: after).forM f = (before ++ after).forM f := by
  induction before with
  | nil =>
    change (f a >>= fun _ => after.forM f) = after.forM f
    rw [ha]
    rfl
  | cons b before ih =>
    change (f b >>= fun _ => (before ++ a :: after).forM f) = _
    rw [ih]
    rfl

namespace Routed

/-- The second has the same rows as the first, and the row `x` besides. -/
structure Beside (x : Option Route × RowWrite) (r r' : Routed) : Prop where
  rows : ∃ before after, r.rows = before ++ after ∧ r'.rows = before ++ x :: after
  merged : r'.merged = r.merged

variable {x : Option Route × RowWrite} {r r' : Routed}

/-- An entry of another route joins the same row. -/
theorem join_insert {k : Option Route} (hk : x.1 ≠ k) (j : Nat)
    (before after : List (Option Route × RowWrite)) :
    ∃ before' after', join k j (before ++ after) = before' ++ after' ∧
      join k j (before ++ x :: after) = before' ++ x :: after' := by
  induction before with
  | nil => exact ⟨[], join k j after, rfl, by simp [join, hk]⟩
  | cons y before ih =>
    by_cases hy : y.1 = k
    · exact ⟨(y.1, { y.2 with entries := y.2.entries ++ [j] }) :: before, after, by simp [join, hy],
        by simp [join, hy]⟩
    · obtain ⟨before', after', hjoin, hjoin'⟩ := ih
      exact ⟨y :: before', after', by simp [join, hy, hjoin], by simp [join, hy, hjoin']⟩

theorem Beside.add (h : Beside x r r') {k : Option Route} (hk : k = none ∨ x.1 ≠ k)
    (table : Table) (j : Nat) : Beside x (r.add k table j) (r'.add k table j) := by
  obtain ⟨before, after, hrows, hrows'⟩ := h.rows
  have hhas : r'.has k = r.has k := by
    rcases hk with rfl | hk
    · rfl
    · simp [has, hrows, hrows', hk]
  unfold Routed.add
  rw [hhas]
  split
  · rename_i hhas
    have hne : x.1 ≠ k := by
      refine hk.resolve_left fun hnone => ?_
      simp [has, hnone] at hhas
    rw [hrows, hrows']
    exact ⟨join_insert hne j before after, congrArg (· + 1) h.merged⟩
  · refine ⟨⟨before, after ++ [(k, ⟨table, [j], none⟩)], ?_, ?_⟩, h.merged⟩
    · rw [hrows, List.append_assoc]
    · rw [hrows', List.append_assoc, List.cons_append]

variable {m : Model} {tableOf : EntityTypeId → Table} {shared : List SharedTable} {t : Snapshot}

theorem addAll_append (r : Routed) (is js : List Nat) :
    r.addAll m tableOf shared t (is ++ js) =
      r.addAll m tableOf shared t is >>= fun r => r.addAll m tableOf shared t js := by
  induction is generalizing r with
  | nil => rfl
  | cons i is ih =>
    simp only [List.cons_append, addAll]
    split
    · rfl
    · exact ih _

/-- Entries of other routes make the same rows, and stop at the same entry. -/
theorem Beside.addAll (h : Beside x r r') {is : List Nat}
    (his : ∀ i ∈ is, (t i).route? m tableOf shared = none ∨
      x.1 ≠ (t i).route? m tableOf shared) :
    (∃ e, r.addAll m tableOf shared t is = .error e ∧
      r'.addAll m tableOf shared t is = .error e) ∨
    ∃ q q', r.addAll m tableOf shared t is = .ok q ∧
      r'.addAll m tableOf shared t is = .ok q' ∧ Beside x q q' := by
  induction is generalizing r r' with
  | nil => exact .inr ⟨r, r', rfl, rfl, h⟩
  | cons i is ih =>
    obtain ⟨hi, his⟩ := List.forall_mem_cons.mp his
    simp only [Routed.addAll]
    split
    · exact .inl ⟨_, rfl, rfl⟩
    · exact ih (h.add hi _ i) his

end Routed

/-- The entry is updated, but no column of it is written, and none of the others is known to be of
its row. -/
structure Planner.Silent (p : Planner) (t : Snapshot) (others : List Nat) (i : Nat) : Prop where
  state : (t i).state = .modified
  columns : ∀ c ∈ p.model.columnUses t i, c.roles.write = false
  row : ∀ k, (t i).rowKey? p.model = some k → ∀ j ∈ others,
    p.tableOf (t j).entityType = p.tableOf (t i).entityType → (t j).rowKey? p.model ≠ some k

namespace Planner.Silent

variable {p : Planner} {t : Snapshot} {before after : List Nat} {i : Nat}

/-- The row of the entry alone. -/
def aloneAt (p : Planner) (t : Snapshot) (i : Nat) : Option Route × RowWrite :=
  (p.routeOf t i, ⟨p.tableOf (t i).entityType, [i], none⟩)

theorem route {others : List Nat} (h : p.Silent t others i) :
    ∀ j ∈ others, p.routeOf t j = none ∨ (aloneAt p t i).1 ≠ p.routeOf t j := by
  intro j hj
  cases hroute : p.routeOf t j with
  | none => exact .inl rfl
  | some k =>
    refine .inr fun hi => ?_
    obtain ⟨key, hkey, rfl⟩ := Option.map_eq_some_iff.mp hi
    obtain ⟨key', hkey', hk⟩ := Option.map_eq_some_iff.mp hroute
    obtain ⟨htable, rfl, _⟩ := Route.mk.inj hk
    exact h.row key' hkey j hj htable hkey'

/-- The row makes no conflict. -/
theorem checkIdentity {others : List Nat} (h : p.Silent t others i) (sensitive : Bool) :
    (aloneAt p t i).2.checkIdentity p.model sensitive t = .ok () := by
  rw [RowWrite.checkIdentity_eq_ok, RowWrite.conflict?_eq_none_iff]
  refine ⟨.inr fun j hj => ?_, List.nodup_singleton _⟩
  obtain rfl := List.mem_singleton.mp hj
  rw [h.state]
  exact nofun

/-- The row is left out. -/
theorem kept? {others : List Nat} (h : p.Silent t others i) :
    (aloneAt p t i).2.kept? p.model t = none := by
  have hstate : (aloneAt p t i).2.state t = .modified := by
    simp [aloneAt, RowWrite.state, h.state, EntityState.isDeleted, EntityState.isAdded]
  have hwrites : (aloneAt p t i).2.hasWrites p.model t = false := by
    change (p.model.columnsOf t [i]).any (·.roles.write) = false
    rw [p.model.any_columnsOf t (fun _ _ _ => rfl), List.flatMap_singleton, List.any_eq_false]
    intro c hc
    rw [h.columns c hc]
    exact Bool.false_ne_true
  simp [RowWrite.kept?, hstate, hwrites, EntityState.isModified]

/-- The entry makes a row more than there are without it. -/
theorem addAll (h : p.Silent t (before ++ after) i) :
    (∃ e, Routed.empty.addAll p.model p.tableOf p.sharedTables t (before ++ after) = .error e ∧
      Routed.empty.addAll p.model p.tableOf p.sharedTables t (before ++ i :: after) = .error e) ∨
    ∃ r r', Routed.empty.addAll p.model p.tableOf p.sharedTables t (before ++ after) = .ok r ∧
      Routed.empty.addAll p.model p.tableOf p.sharedTables t (before ++ i :: after) = .ok r' ∧
      Routed.Beside (aloneAt p t i) r r' := by
  have hroute := List.forall_mem_append.mp h.route
  simp only [Routed.addAll_append]
  cases hbefore : Routed.empty.addAll p.model p.tableOf p.sharedTables t before with
  | error e => exact .inl ⟨e, rfl, rfl⟩
  | ok r =>
    -- no row of the entries before has its route, so the entry does not join one
    have hnew : r.has (p.routeOf t i) = false := by
      rw [← Bool.not_eq_true]
      intro hhas
      cases hi : p.routeOf t i with
      | none =>
        rw [hi] at hhas
        cases hhas
      | some k =>
        rw [hi, Routed.has_some_iff (contents_of_addAll hbefore), Multiset.mem_filterMap] at hhas
        obtain ⟨j, hj, hk⟩ := hhas
        rcases hroute.1 j hj with hnone | hne
        · cases hnone.symm.trans hk
        · exact hne (hi.trans hk.symm)
    have hbeside : Routed.Beside (aloneAt p t i) r
        (r.add (p.routeOf t i) (p.tableOf (t i).entityType) i) := by
      refine ⟨⟨r.rows, [], (List.append_nil _).symm, ?_⟩, ?_⟩
      · simp [Routed.add, hnew, aloneAt]
      · simp [Routed.add, hnew]
    have hi : r.addAll p.model p.tableOf p.sharedTables t (i :: after) =
        (r.add (p.routeOf t i) (p.tableOf (t i).entityType) i).addAll p.model p.tableOf
          p.sharedTables t after := by
      simp only [Routed.addAll, h.state, reduceCtorEq, ↓reduceIte]
      rfl
    change (∃ e, r.addAll p.model p.tableOf p.sharedTables t after = .error e ∧
      r.addAll p.model p.tableOf p.sharedTables t (i :: after) = .error e) ∨
      ∃ q q', r.addAll p.model p.tableOf p.sharedTables t after = .ok q ∧
        r.addAll p.model p.tableOf p.sharedTables t (i :: after) = .ok q' ∧ _
    rw [hi]
    exact hbeside.addAll hroute.2

theorem buildWrites (h : p.Silent t (before ++ after) i) :
    p.buildWrites t (before ++ i :: after) = (p.buildWrites t (before ++ after)).map fun built =>
      { built with dropped := built.dropped + 1 } := by
  unfold Planner.buildWrites WritePlan.buildWrites
  rcases h.addAll with ⟨e, hr, hr'⟩ | ⟨r, r', hr, hr', hbeside⟩
  · rw [hr, hr']
    rfl
  · obtain ⟨rows, others, hrows, hrows'⟩ := hbeside.rows
    have hwrites : r.writes = rows.map (·.2) ++ others.map (·.2) := by
      rw [Routed.writes, hrows, List.map_append]
    have hwrites' : r'.writes = rows.map (·.2) ++ (aloneAt p t i).2 :: others.map (·.2) := by
      rw [Routed.writes, hrows', List.map_append, List.map_cons]
    have hkept : r'.writes.filterMap (·.kept? p.model t) =
        r.writes.filterMap (·.kept? p.model t) := by
      rw [hwrites, hwrites', List.filterMap_append, List.filterMap_append,
        List.filterMap_cons_none h.kept?]
    have hlength : r'.writes.length = r.writes.length + 1 := by
      rw [hwrites, hwrites', List.length_append, List.length_append, List.length_cons]
      rfl
    have hle := List.length_filterMap_le (·.kept? p.model t) r.writes
    have hcheck : r'.writes.forM (·.checkIdentity p.model p.config.sensitiveDataLogging t) =
        r.writes.forM (·.checkIdentity p.model p.config.sensitiveDataLogging t) := by
      rw [hwrites, hwrites']
      exact forM_insert (h.checkIdentity _) _ _
    rw [hr, hr']
    change (r'.writes.forM _ >>= fun _ => _) = Except.map _ (r.writes.forM _ >>= fun _ => _)
    rw [hcheck]
    cases r.writes.forM (·.checkIdentity p.model p.config.sensitiveDataLogging t) with
    | error e => rfl
    | ok u =>
      change Except.ok _ = Except.ok _
      rw [hkept, hbeside.merged, hlength, Nat.sub_add_comm hle]

theorem prepare (h : p.Silent t (before ++ after) i) :
    p.prepare t (before ++ i :: after) = ⟨(p.prepare t (before ++ after)).sets,
      (p.prepare t (before ++ after)).events.map Event.oneMore⟩ := by
  have hlength : (before ++ i :: after).length = (before ++ after).length + 1 := by
    rw [List.length_append, List.length_append, List.length_cons]
    rfl
  unfold Planner.prepare
  rw [h.buildWrites, hlength]
  cases p.buildWrites t (before ++ after) with
  | error e => rfl
  | ok built =>
    simp only [Except.map]
    cases dependencyGraph p.model p.collate t built.writes with
    | error e => rfl
    | ok g =>
      simp only
      cases p.arrange built.writes g with
      | error e =>
        simp only
        cases e.isCircular <;> rfl
      | ok sets => rfl

end Planner.Silent

namespace Packer

variable {p : Planner} {t : Snapshot}

/-- The packer, if there was one more entry and its write was left out. -/
def oneMore (k : Packer) : Packer :=
  { k with events := k.events.map Event.oneMore }

theorem oneMore_log (k : Packer) {e : Event} (he : e.oneMore = e) :
    k.oneMore.log e = (k.log e).oneMore := by
  simp [log, oneMore, he]

theorem offer_oneMore (k : Packer) (b : Batch) (w : RowWrite) :
    k.oneMore.offer p t b w = ((k.offer p t b w).1.oneMore, (k.offer p t b w).2) := by
  unfold offer
  simp only [oneMore]
  cases p.rule.namesColumns with
  | true =>
    simp only [↓reduceIte]
    split <;> rfl
  | false =>
    simp only [Bool.false_eq_true, ↓reduceIte]
    split <;> rfl

theorem offerFirst_oneMore (k : Packer) (w : RowWrite) :
    k.oneMore.offerFirst p t w = ((k.offerFirst p t w).1.oneMore, (k.offerFirst p t w).2) := by
  have hopen : k.oneMore.openBatch = (k.openBatch.1.oneMore, k.openBatch.2) := rfl
  simp only [offerFirst, hopen, offer_oneMore]
  rcases k.openBatch.1.offer p t k.openBatch.2 w with ⟨k', _ | b⟩ <;> rfl

theorem queueSingly_oneMore (k : Packer) (ws : List RowWrite) :
    k.oneMore.queueSingly p t ws = ((k.queueSingly p t ws).1.oneMore,
      (k.queueSingly p t ws).2) := by
  induction ws generalizing k with
  | nil => rfl
  | cons w ws ih =>
    simp only [queueSingly, offerFirst_oneMore]
    rcases k.offerFirst p t w with ⟨k', e | b⟩
    · rfl
    · exact ih (k'.queue b)

theorem finish_oneMore (k : Packer) (b : Batch) :
    k.oneMore.finish p t b = ((k.finish p t b).1.oneMore, (k.finish p t b).2) := by
  unfold finish
  split
  · rfl
  · rw [oneMore_log k rfl, queueSingly_oneMore]

theorem pack_oneMore (k : Packer) (opened : Option Batch) (w : RowWrite) :
    k.oneMore.pack p t opened w = ((k.pack p t opened w).1.oneMore,
      (k.pack p t opened w).2) := by
  cases opened with
  | none => exact offerFirst_oneMore k w
  | some o =>
    simp only [pack, offer_oneMore]
    rcases k.offer p t o w with ⟨k₁, _ | b⟩
    · simp only [finish_oneMore]
      split
      · rfl
      · rcases k₁.finish p t o with ⟨k₂, e | u⟩
        · rfl
        · exact offerFirst_oneMore k₂ w
    · rfl

end Packer

/-- The stream, if there was one more entry and its write was left out. -/
def Stream.oneMore (s : Stream) : Stream :=
  { s with packer := s.packer.oneMore }

def Turn.oneMore : Turn → Turn
  | .move s => .move s.oneMore
  | .answer item s => .answer item s.oneMore

namespace Stream

variable {p : Planner} {t : Snapshot}

theorem turn_oneMore (s : Stream) : s.oneMore.turn p t = (s.turn p t).oneMore := by
  obtain ⟨pending, sets, current, opened, k, done⟩ := s
  cases hready : k.ready with
  | cons b ready =>
    have hready' : k.oneMore.ready = b :: ready := hready
    simp only [turn, oneMore, hready, hready', Turn.oneMore]
    exact congrArg (fun k => Turn.answer _ ⟨pending, sets, current, opened, k, done⟩)
      (Packer.oneMore_log { k with ready } rfl)
  | nil =>
    have hready' : k.oneMore.ready = [] := hready
    cases current with
    | cons w current =>
      simp only [turn, oneMore, hready, hready', Packer.pack_oneMore]
      cases w.examine p.model t with
      | error e => rfl
      | ok w' =>
        simp only
        rcases k.pack p t opened w' with ⟨k', e | b⟩ <;> rfl
    | nil =>
      cases opened with
      | some b =>
        simp only [turn, oneMore, hready, hready', Packer.finish_oneMore]
        rcases k.finish p t b with ⟨k', e | u⟩ <;> rfl
      | none =>
        cases sets with
        | cons set sets => simp only [turn, oneMore, hready, hready', Turn.oneMore]
        | nil =>
          simp only [turn, oneMore, hready, hready', Turn.oneMore]
          rfl

theorem advance_oneMore (s : Stream) :
    s.oneMore.advance p t = ((s.advance p t).1, (s.advance p t).2.oneMore) := by
  fun_induction Stream.advance p t s with
  | case1 s item s' hturn =>
    exact advance_of_answer (by rw [turn_oneMore, hturn]; rfl)
  | case2 s s' hturn ih =>
    rw [← ih]
    exact advance_of_move (by rw [turn_oneMore, hturn]; rfl)

theorem pending_advance (s : Stream) : (s.advance p t).2.pending = s.pending := by
  fun_induction Stream.advance p t s with
  | case1 s item s' hturn => exact pending_of_answer hturn
  | case2 s s' hturn ih =>
    rw [ih]
    cases moved_of_turn hturn <;> rfl

theorem pending_next {s : Stream} (hs : s.pending = none) : (s.next p t).2.pending = none := by
  cases hdone : s.done with
  | true => rw [next_of_done hdone, hs]
  | false => rw [next_of_running ⟨hs, hdone⟩, pending_advance, hs]

theorem next_oneMore {s : Stream} (hs : s.pending = none) :
    s.oneMore.next p t = ((s.next p t).1, (s.next p t).2.oneMore) := by
  cases hdone : s.done with
  | true =>
    have hdone' : s.oneMore.done = true := hdone
    rw [next_of_done hdone, next_of_done hdone']
  | false =>
    have hrunning : s.oneMore.Running := ⟨hs, hdone⟩
    rw [next_of_running hrunning, next_of_running ⟨hs, hdone⟩, advance_oneMore]

theorem requests_oneMore {s : Stream} (hs : s.pending = none) (ts : List Snapshot) :
    s.oneMore.requests p ts = ((s.requests p ts).1, (s.requests p ts).2.oneMore) := by
  induction ts generalizing s with
  | nil => rfl
  | cons t ts ih => simp only [requests, next_oneMore hs, ih (pending_next hs)]

end Stream

namespace Planner.Silent

variable {p : Planner} {t : Snapshot} {before after : List Nat} {i : Nat}

theorem stream_prepare (h : p.Silent t (before ++ after) i) (begun : Nat) :
    (Stream.ofEntries (before ++ i :: after) begun).prepare p t (before ++ i :: after) =
      (((Stream.ofEntries (before ++ after) begun).prepare p t (before ++ after)).1,
        ((Stream.ofEntries (before ++ after) begun).prepare p t (before ++ after)).2.oneMore) := by
  simp only [Stream.prepare, h.prepare]
  cases (p.prepare t (before ++ after)).sets <;> rfl

theorem requests (h : p.Silent t (before ++ after) i) (begun : Nat) (later : List Snapshot) :
    (Stream.ofEntries (before ++ i :: after) begun).requests p (t :: later) =
      (((Stream.ofEntries (before ++ after) begun).requests p (t :: later)).1,
        ((Stream.ofEntries (before ++ after) begun).requests p (t :: later)).2.oneMore) := by
  have hprepare' := h.stream_prepare begun
  cases hsets : (p.prepare t (before ++ after)).sets with
  | error e =>
    have hsets' : (p.prepare t (before ++ i :: after)).sets = .error e := by
      rw [h.prepare, hsets]
    rw [Stream.requests_eq_of_error hsets', Stream.requests_eq_of_error hsets, hprepare']
  | ok sets =>
    let s := ((Stream.ofEntries (before ++ after) begun).prepare p t (before ++ after)).2
    have hprepare : (Stream.ofEntries (before ++ after) begun).prepare p t (before ++ after) =
        (.ok (), s) := by
      simp [s, Stream.prepare, hsets]
    obtain ⟨_, _, hs, _⟩ := Stream.planned_of_prepare hprepare
    rw [hprepare] at hprepare'
    rw [Stream.requests_of_prepare hprepare, Stream.requests_of_prepare hprepare',
      Stream.requests_oneMore hs.running.1]

end Planner.Silent

/-- The stream that a pass over entries leaves after some requests; `begun` batches were begun
before it. -/
def Planner.left (p : Planner) (entries : List Nat) (begun : Nat) (ts : List Snapshot) : Stream :=
  ((Stream.ofEntries entries begun).requests p ts).2

/-- An update that writes nothing leaves no trace if no other entry is known to be of its row: all
requests are answered as without it, and only the counts of entries and of drops differ. -/
theorem silent_update_leaves_no_trace (p : Planner) (t : Snapshot) (before after : List Nat)
    (i : Nat) (h : p.Silent t (before ++ after) i) (begun : Nat) (later : List Snapshot) :
    p.answers (before ++ i :: after) begun (t :: later) =
      p.answers (before ++ after) begun (t :: later) ∧
    p.left (before ++ i :: after) begun (t :: later) =
      (p.left (before ++ after) begun (t :: later)).oneMore ∧
    ∀ c : Counters,
      (c.recordAll (p.left (before ++ i :: after) begun (t :: later)).packer.events).others =
        (c.recordAll (p.left (before ++ after) begun (t :: later)).packer.events).others := by
  have hall := h.requests begun later
  have hleft : p.left (before ++ i :: after) begun (t :: later) =
      (p.left (before ++ after) begun (t :: later)).oneMore := by
    rw [Planner.left, hall]
    rfl
  refine ⟨?_, hleft, fun c => ?_⟩
  · rw [Planner.answers, hall]
    rfl
  · rw [hleft]
    exact Counters.others_recordAll rfl _

namespace Family

/-- A parent is added, and a child of it, while another parent is saved as it is. -/
def bornBeside : Snapshot
  | 0 => row 0 .added [3, 7]
  | 1 => row 1 .added [5, 3]
  | _ => row 0 .modified [4, 8]

theorem silent_update_leaves_no_trace_beside :
    planner.Silent bornBeside ([0] ++ [1]) 2 ∧
      planner.answers [0, 2, 1] 0 [bornBeside, bornBeside, bornBeside] =
        planner.answers [0, 1] 0 [bornBeside, bornBeside, bornBeside] ∧
      planner.left [0, 2, 1] 0 [bornBeside, bornBeside, bornBeside] =
        (planner.left [0, 1] 0 [bornBeside, bornBeside, bornBeside]).oneMore ∧
      planner.answers [0, 1] 0 [bornBeside, bornBeside, bornBeside] =
        [.batch ⟨0, [bornWrites[0].settle model bornBeside]⟩,
          .batch ⟨1, [bornWrites[1].settle model bornBeside]⟩, .ended] := by
  have hothers : ∀ j ∈ [0] ++ [1],
      planner.tableOf (bornBeside j).entityType = planner.tableOf (bornBeside 2).entityType →
        (bornBeside j).rowKey? model ≠ (bornBeside 2).rowKey? model := by
    decide +kernel
  have h : planner.Silent bornBeside ([0] ++ [1]) 2 :=
    ⟨rfl, by decide +kernel, fun k hk j hj htable => hk ▸ hothers j hj htable⟩
  obtain ⟨hanswers, hleft, _⟩ :=
    silent_update_leaves_no_trace planner bornBeside [0] [1] 2 h 0 [bornBeside, bornBeside]
  exact ⟨h, hanswers, hleft, by decide +kernel⟩

end Family

end WritePlan

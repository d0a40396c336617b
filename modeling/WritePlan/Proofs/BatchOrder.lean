import WritePlan.Proofs.Arrangement
import WritePlan.Proofs.Turns

namespace WritePlan

/-- The list shows the writes that stand at the given places. -/
def Shows (ws : List RowWrite) (places : List Nat) (vs : List RowWrite) : Prop :=
  List.Forall₂ (fun i v => ∃ w, ws[i]? = some w ∧ v.SameRow w) places vs

/-- Each batch shows the writes at the places of its group. -/
def ShowsBatches (ws : List RowWrite) (groups : List (List Nat)) (bs : List Batch) : Prop :=
  List.Forall₂ (fun group b => Shows ws group b.writes) groups bs

namespace Shows

variable {ws vs us : List RowWrite} {places : List Nat}

theorem of_sameRows (h : Shows ws places vs) (hs : SameRows us vs) : Shows ws places us := by
  induction h generalizing us with
  | nil =>
    cases hs
    exact .nil
  | cons hv _ ih =>
    cases hs with
    | cons huv hs =>
      obtain ⟨w, hw, hv⟩ := hv
      exact .cons ⟨w, hw, huv.trans hv⟩ (ih hs)

theorem split {bs : List Batch} (h : Shows ws places (writesOf bs ++ vs)) :
    ∃ groups rest, places = groups.flatten ++ rest ∧ ShowsBatches ws groups bs ∧
      Shows ws rest vs := by
  induction bs generalizing places with
  | nil => exact ⟨[], places, rfl, .nil, h⟩
  | cons b bs ih =>
    rw [writesOf, List.flatMap_cons, List.append_assoc] at h
    obtain ⟨groups, rest, hrest, hgroups, hvs⟩ := ih (List.forall₂_drop_append _ _ _ h)
    refine ⟨places.take b.writes.length :: groups, rest, ?_, .cons ?_ hgroups, hvs⟩
    · rw [List.flatten_cons, List.append_assoc, ← hrest, List.take_append_drop]
    · exact List.forall₂_take_append _ _ _ h

theorem perm (h : Shows ws places vs) (hp : us.Perm vs) :
    ∃ places', places'.Perm places ∧ Shows ws places' us := by
  obtain ⟨places', hshows, hperm⟩ := List.perm_comp_forall₂ hp h.flip
  exact ⟨places', hperm, hshows.flip⟩

/-- The writes that are taken from places are those that stand there. -/
theorem filterMap (h : ∀ i ∈ places, i < ws.length) :
    Shows ws places (places.filterMap (ws[·]?)) := by
  induction places with
  | nil => exact .nil
  | cons i places ih =>
    have hi := List.getElem?_eq_getElem (h i List.mem_cons_self)
    rw [List.filterMap_cons_some hi]
    exact .cons ⟨_, hi, .refl _⟩ (ih fun j hj => h j (List.mem_cons_of_mem i hj))

end Shows

/-- Whatever is in an earlier level than a member of a group is in an earlier group. -/
def Forward (levels groups : List (List Nat)) : Prop :=
  ∀ j x k, InSet groups j x → InSet levels k x → ∀ i < k, ∀ y, InSet levels i y →
    ∃ l < j, InSet groups l y

theorem inSet_append {sets new : List (List α)} {k : Nat} {a : α} :
    InSet (sets ++ new) k a ↔
      InSet sets k a ∨ sets.length ≤ k ∧ InSet new (k - sets.length) a := by
  simp only [InSet, List.getElem?_append]
  split
  · rename_i h
    simp [Nat.not_le_of_lt h]
  · rename_i h
    simp [Nat.le_of_not_lt h]

theorem Forward.append {levels groups new : List (List Nat)} (h : Forward levels groups)
    (hnew : ∀ x ∈ new.flatten, ∀ k, InSet levels k x → ∀ i < k, ∀ y, InSet levels i y →
      y ∈ groups.flatten) : Forward levels (groups ++ new) := by
  intro j x k hj hk i hi y hy
  rcases inSet_append.mp hj with hj | ⟨hle, hj⟩
  · obtain ⟨l, hl, hly⟩ := h j x k hj hk i hi y hy
    exact ⟨l, hl, inSet_append.mpr (.inl hly)⟩
  · obtain ⟨l, hl⟩ := mem_flatten_iff.mp (hnew x (mem_flatten_iff.mpr ⟨_, hj⟩) k hk i hi y hy)
    exact ⟨l, Nat.lt_of_lt_of_le hl.lt_length hle, inSet_append.mpr (.inl hl)⟩

theorem Forward.of_append {levels groups new : List (List Nat)}
    (h : Forward levels (groups ++ new)) : Forward levels groups := by
  intro j x k hj hk i hi y hy
  obtain ⟨l, hl, hly⟩ := h j x k (inSet_append.mpr (.inl hj)) hk i hi y hy
  refine ⟨l, hl, ?_⟩
  rcases inSet_append.mp hly with hly | ⟨hle, _⟩
  · exact hly
  · have := hj.lt_length
    omega

/-- A pass under way. The groups are the places of what is in finished batches, those sent in front;
`rest` are the places of what else is open, all in the last level that was opened. -/
structure Underway (ws : List RowWrite) (levels : List (List Nat)) (sent : List Batch)
    (s : Stream) (groups : List (List Nat)) (rest : List Nat) (opened : Nat) : Prop where
  running : s.Running
  batches : ShowsBatches ws groups (sent ++ s.packer.ready)
  unsent : Shows ws rest s.unsent
  sets : List.Forall₂ (Shows ws) (levels.drop opened) s.sets
  perm : (groups.flatten ++ rest).Perm (levels.take opened).flatten
  last : ∀ x ∈ rest, ∃ k, k + 1 = opened ∧ InSet levels k x
  forward : Forward levels groups

/-- The batches show different writes, none before all that is in lower levels. -/
def InOrder (ws : List RowWrite) (levels : List (List Nat)) (sent : List Batch) : Prop :=
  ∃ groups, ShowsBatches ws groups sent ∧ groups.flatten.Nodup ∧ Forward levels groups

namespace Underway

variable {ws : List RowWrite} {levels : List (List Nat)} {sent : List Batch} {s s' : Stream}
variable {groups : List (List Nat)} {rest : List Nat} {opened : Nat}
variable {p : Planner} {t : Snapshot}

theorem inOrder (hn : levels.flatten.Nodup)
    (h : Underway ws levels sent s groups rest opened) : InOrder ws levels sent := by
  have hall : (groups.flatten ++ rest).Nodup := by
    rw [h.perm.nodup_iff]
    rw [← List.take_append_drop opened levels, List.flatten_append] at hn
    exact (List.nodup_append.mp hn).1
  have hsplit := List.take_append_drop sent.length groups
  refine ⟨groups.take sent.length, List.forall₂_take_append _ _ _ h.batches, ?_, ?_⟩
  · rw [← hsplit, List.flatten_append, List.append_assoc] at hall
    exact (List.nodup_append.mp hall).1
  · have hf := h.forward
    rw [← hsplit] at hf
    exact hf.of_append

/-- What is left of the open level comes after all lower levels: they are in groups. -/
theorem mem_groups_of_lt (hn : levels.flatten.Nodup)
    (h : Underway ws levels sent s groups rest opened) {x k i y : Nat} (hx : x ∈ rest)
    (hk : InSet levels k x) (hi : i < k) (hy : InSet levels i y) : y ∈ groups.flatten := by
  obtain ⟨k', hk', hx'⟩ := h.last x hx
  obtain rfl := hk.unique hn hx'
  have hm : y ∈ (levels.take opened).flatten := mem_flatten_take.mpr ⟨i, by omega, hy⟩
  rcases List.mem_append.mp (h.perm.mem_iff.mpr hm) with hm | hm
  · exact hm
  · obtain ⟨k', hk', hy'⟩ := h.last y hm
    have := hy.unique hn hy'
    omega

/-- Batches that are finished out of the open set are new groups. -/
theorem regroup (hn : levels.flatten.Nodup) (h : Underway ws levels sent s groups rest opened)
    (hready : s.packer.ready = []) (hrunning : s'.Running) (hsets : s'.sets = s.sets)
    (hrows : SameRows (writesOf s'.packer.ready ++ s'.unsent) s.unsent) :
    ∃ groups' rest', Underway ws levels sent s' groups' rest' opened := by
  obtain ⟨new, rest', rfl, hnew, hrest⟩ := (h.unsent.of_sameRows hrows).split
  have hbatches := h.batches
  rw [hready, List.append_nil] at hbatches
  refine ⟨groups ++ new, rest', hrunning, List.rel_append hbatches hnew, hrest, hsets ▸ h.sets,
    ?_, ?_, ?_⟩
  · simpa using h.perm
  · intro x hx
    exact h.last x (List.mem_append_right _ hx)
  · refine h.forward.append fun x hx k hk i hi y hy => ?_
    exact h.mem_groups_of_lt hn (List.mem_append_left _ hx) hk hi hy

/-- The next set is opened when nothing is left of the one before. -/
theorem openNext (h : Underway ws levels sent s groups rest opened) {set : List RowWrite}
    (hready : s.packer.ready = []) (hready' : s'.packer.ready = []) (hrunning : s'.Running)
    (hempty : s.unsent = []) (hsets : s.sets = set :: s'.sets) (hperm : s'.unsent.Perm set) :
    ∃ rest', Underway ws levels sent s' groups rest' (opened + 1) := by
  have hrest := h.unsent
  rw [hempty] at hrest
  cases hrest
  have hlevels := h.sets
  rw [hsets] at hlevels
  generalize hd : levels.drop opened = dropped at hlevels
  cases hlevels with
  | @cons level _ later _ hset hlater =>
    have hlt : opened < levels.length := by
      by_contra hle
      rw [List.drop_eq_nil_of_le (Nat.le_of_not_lt hle)] at hd
      cases hd
    rw [List.drop_eq_getElem_cons hlt] at hd
    obtain ⟨rfl, rfl⟩ := List.cons.inj hd
    obtain ⟨rest', hrest', hshows⟩ := hset.perm hperm
    refine ⟨rest', hrunning, ?_, hshows, hlater, ?_, ?_, h.forward⟩
    · rw [hready', ← hready]
      exact h.batches
    · have hp := h.perm
      rw [List.append_nil] at hp
      rw [← List.take_append_getElem hlt, List.flatten_append, List.flatten_singleton]
      exact hp.append hrest'
    · intro x hx
      exact ⟨opened, rfl, _, List.getElem?_eq_getElem hlt, hrest'.mem_iff.mp hx⟩

theorem move (hn : levels.flatten.Nodup) (h : Underway ws levels sent s groups rest opened)
    (ht : s.turn p t = .move s') :
    ∃ groups' rest' opened', Underway ws levels sent s' groups' rest' opened' := by
  obtain ⟨hready, hrunning, _, ⟨hsets, hrows⟩ | ⟨hempty, hready', set, hsets, hsorted⟩⟩ :=
    Stream.turn_eq_move ht
  · obtain ⟨groups', rest', h'⟩ := h.regroup hn hready (hrunning h.running) hsets hrows
    exact ⟨groups', rest', opened, h'⟩
  · obtain ⟨rest', h'⟩ := h.openNext hready hready' (hrunning h.running) hempty hsets
      (hsorted ▸ sortBy_perm _ set)
    exact ⟨groups, rest', opened + 1, h'⟩

theorem send (h : Underway ws levels sent s groups rest opened) {b : Batch}
    (hready : s.packer.ready = b :: s'.packer.ready) (hsets : s'.sets = s.sets)
    (hunsent : s'.unsent = s.unsent) (hrunning : s'.Running) :
    Underway ws levels (sent ++ [b]) s' groups rest opened := by
  refine ⟨hrunning, ?_, hunsent ▸ h.unsent, hsets ▸ h.sets, h.perm, h.last, h.forward⟩
  have hbatches := h.batches
  rw [hready] at hbatches
  simpa using hbatches

end Underway

/-- A stream is under way, or it is at its end; what it has sent is in order. -/
inductive Standing (ws : List RowWrite) (levels : List (List Nat)) (sent : List Batch)
    (s : Stream) : Prop
  | underway {groups : List (List Nat)} {rest : List Nat} {opened : Nat} :
    Underway ws levels sent s groups rest opened → Standing ws levels sent s
  | ended : s.done = true → InOrder ws levels sent → Standing ws levels sent s

namespace Stream

variable {ws : List RowWrite} {levels : List (List Nat)} {sent : List Batch} {s : Stream}
variable {p : Planner}

theorem advance_standing {t : Snapshot} (hn : levels.flatten.Nodup) {groups : List (List Nat)}
    {rest : List Nat} {opened : Nat} (h : Underway ws levels sent s groups rest opened) :
    Standing ws levels (sent ++ sentBatches [(s.advance p t).1]) (s.advance p t).2 := by
  fun_induction advance p t s generalizing groups rest opened with
  | case1 s item s' ht =>
    rcases turn_eq_answer ht with ⟨b, rfl, hready, hsets, hunsent, hrunning, _⟩ | ⟨hdone, _, hnot⟩
    · exact .underway (h.send hready hsets hunsent (hrunning h.running))
    · have hnone : sentBatches [item] = [] := by
        rcases hnot with ⟨_, rfl, _⟩ | ⟨rfl, _⟩ <;> rfl
      rw [hnone, List.append_nil]
      exact .ended hdone (h.inOrder hn)
  | case2 s s' ht ih =>
    obtain ⟨groups', rest', opened', h'⟩ := h.move hn ht
    exact ih h'

theorem next_standing (hn : levels.flatten.Nodup) (h : Standing ws levels sent s) (t : Snapshot) :
    Standing ws levels (sent ++ sentBatches [(s.next p t).1]) (s.next p t).2 := by
  cases h with
  | underway h =>
    rw [next_of_running h.running]
    exact advance_standing hn h
  | ended hdone ho =>
    rw [next_of_done hdone]
    simpa [sentBatches] using Standing.ended hdone ho

theorem requests_standing (hn : levels.flatten.Nodup) (h : Standing ws levels sent s)
    (ts : List Snapshot) :
    Standing ws levels (sent ++ sentBatches (s.requests p ts).1) (s.requests p ts).2 := by
  induction ts generalizing s sent with
  | nil => simpa [requests, sentBatches] using h
  | cons t ts ih =>
    have hrest := ih (next_standing (p := p) hn h t)
    rw [List.append_assoc, ← sentBatches_cons] at hrest
    exact hrest

end Stream

namespace Standing

theorem inOrder {ws : List RowWrite} {levels : List (List Nat)} {sent : List Batch} {s : Stream}
    (hn : levels.flatten.Nodup) (h : Standing ws levels sent s) : InOrder ws levels sent := by
  cases h with
  | underway h => exact h.inOrder hn
  | ended _ h => exact h

end Standing

namespace Stream

variable {p : Planner} {t : Snapshot} {entries : List Nat}

/-- A pass that cannot be arranged sends nothing. -/
theorem sentBatches_of_error {e : PlanError} (h : (p.prepare t entries).sets = .error e)
    (begun : Nat) (later : List Snapshot) :
    sentBatches ((ofEntries entries begun).requests p (t :: later)).1 = [] := by
  rw [requests_of_error h]
  simp [sentBatches]

/-- A pass that is arranged begins before its first set. -/
theorem standing_of_sets (ws : List RowWrite) {levels : List (List Nat)}
    (hn : levels.flatten.Nodup) (hlt : ∀ i ∈ levels.flatten, i < ws.length)
    (h : (p.prepare t entries).sets = .ok (levels.map (·.filterMap (ws[·]?))))
    (begun : Nat) (later : List Snapshot) :
    InOrder ws levels (sentBatches ((ofEntries entries begun).requests p (t :: later)).1) := by
  obtain ⟨first, hplanned, hrequests⟩ := requests_of_sets h begun later
  have hfirst : Underway ws levels [] first [] [] 0 := by
    refine ⟨hplanned.running, ?_, ?_, ?_, .nil, fun _ hx => absurd hx List.not_mem_nil, ?_⟩
    · rw [hplanned.ready]
      exact .nil
    · rw [hplanned.unsent]
      exact .nil
    · rw [hplanned.sets, List.drop_zero, List.forall₂_map_right_iff, List.forall₂_same]
      intro level hlevel
      exact .filterMap fun i hi => hlt i (List.mem_flatten_of_mem hlevel hi)
    · intro j x k hx
      obtain ⟨_, hj, _⟩ := hx
      cases hj
  have hstanding := requests_standing (p := p) hn (.underway hfirst) (t :: later)
  rw [List.nil_append, ← hrequests] at hstanding
  exact hstanding.inOrder hn

end Stream

/-- However the entries change between its batches, a pass sends no write twice, and one that must
wait for another is sent in a later batch. -/
theorem batches_follow_what_they_await (s : Spec) (p : Planner) (hm : s.build = .ok p.model)
    (t : Snapshot) (later : List Snapshot) (entries : List Nat) (begun : Nat)
    (built : BuiltWrites) (hb : p.buildWrites t entries = .ok built) :
    ∃ groups, ShowsBatches built.writes groups
        (sentBatches ((Stream.ofEntries entries begun).requests p (t :: later)).1) ∧
      groups.flatten.Nodup ∧
      ∀ j d q, InSet groups j d → Before p.model p.collate t built.writes q d →
        ∃ i < j, InSet groups i q := by
  obtain ⟨g, hg, hbuilt, hv, _⟩ := dependencyGraph_eq_ok p.model p.collate t built.writes
  have hw := hbuilt.indexed
  have hsets := (p.prepare_sets hb hg).trans (p.arrange_eq built.writes hw hv)
  cases hl : g.levels with
  | error e =>
    rw [hl] at hsets
    rw [Stream.sentBatches_of_error hsets]
    refine ⟨[], .nil, List.nodup_nil, fun j d q hd => ?_⟩
    obtain ⟨_, hj, _⟩ := hd
    cases hj
  | ok levels =>
    rw [hl] at hsets
    have hlevelled := Multigraph.levelled_of_levels hw hl
    have hperm := hlevelled.perm
    rw [hv] at hperm
    obtain ⟨groups, hshows, hn, hforward⟩ := Stream.standing_of_sets built.writes
      (hperm.nodup_iff.mpr List.nodup_range)
      (fun i hi => List.mem_range.mp (hperm.mem_iff.mp hi)) hsets begun later
    refine ⟨groups, hshows, hn, fun j d q hd hbefore => ?_⟩
    obtain ⟨label, hbetween⟩ := hbefore
    have hedge : g.HasEdge q d :=
      (hasEdge_iff hm hg).mpr ⟨label, hbetween.mono fun _ _ => .inl⟩
    obtain ⟨hq, hd'⟩ := hw.mem_vertices_of_hasEdge hedge
    exact hforward j d _ hd (hlevelled.inSet_of_mem hd') _ (hlevelled.setOf_lt hw q d hedge) q
      (hlevelled.inSet_of_mem hq)

namespace Family

/-- The child refers to the parent that is added with it. -/
theorem before_born : Before model id born bornWrites 0 1 := by
  have hparent : model.OnSide ⟨0⟩ .principal (born 0).entityType :=
    ⟨by decide +kernel, by decide +kernel⟩
  have hchild : model.OnSide ⟨0⟩ .dependent (born 1).entityType :=
    ⟨by decide +kernel, by decide +kernel⟩
  have hagrees : (born 0).Agrees id (model.sideProperties ⟨0⟩ .principal) .current
      (born 1) (model.sideProperties ⟨0⟩ .dependent) .current :=
    ⟨by decide +kernel, by decide +kernel, by decide +kernel⟩
  refine ⟨.foreignKey ⟨0⟩, by decide, _, _, rfl, rfl, .inl ⟨.inl (by decide), by decide, ?_⟩⟩
  exact ⟨0, List.mem_singleton_self 0, 1, List.mem_singleton_self 1, hparent, hchild, hagrees⟩

theorem batches_follow_what_they_await_born :
    spec.build = .ok planner.model ∧
      ∃ built, planner.buildWrites born [0, 1] = .ok built ∧
      ∃ sent, sent = sentBatches
          ((Stream.ofEntries [0, 1] 0).requests planner [born, born, born]).1 ∧
        sent.map (fun b => b.writes.map (·.entries)) = [[[0]], [[1]]] ∧
        ∃ groups, ShowsBatches built.writes groups sent ∧
          ∀ j, InSet groups j 1 → ∃ i < j, InSet groups i 0 := by
  obtain ⟨built, hb, hw⟩ := buildWrites_born
  obtain ⟨groups, hshows, _, horder⟩ := batches_follow_what_they_await spec planner spec_build
    born [born, born] [0, 1] 0 built hb
  refine ⟨spec_build, built, hb, _, rfl, by decide +kernel, groups, hshows, fun j hj => ?_⟩
  exact horder j 1 0 hj (hw ▸ before_born)

end Family

end WritePlan

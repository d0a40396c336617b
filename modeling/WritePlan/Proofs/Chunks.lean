import WritePlan.Proofs.Faults

namespace WritePlan

section Chunks

variable {α β : Type} {c least : Nat}

/-- The list in pieces of `c` elements, of which the last has the rest. -/
def chunks (c : Nat) : List α → List (List α)
  | [] => []
  | a :: l => (a :: l.take (c - 1)) :: chunks c (l.drop (c - 1))
termination_by l => l.length
decreasing_by
  rw [List.length_drop, List.length_cons]
  omega

/-- What is sent of a chunk: the whole, or single elements if it has several but fewer than
`least`. -/
def portions (least : Nat) (part : List α) : List (List α) :=
  if 1 < part.length ∧ part.length < least then part.map ([·]) else [part]

/-- What is sent of a list. -/
def cut (c least : Nat) (l : List α) : List (List α) :=
  (chunks c l).flatMap (portions least)

/-- The parts follow one another, and all but the last are of size `c`. -/
structure ChunksOf (c : Nat) (l : List α) (parts : List (List α)) : Prop where
  flatten : parts.flatten = l
  full : ∀ part ∈ parts.dropLast, part.length = c
  ne_nil : ∀ part ∈ parts, part ≠ []
  length_le : ∀ part ∈ parts, part.length ≤ c

theorem chunks_append {f : List α} (hf : f.length = c) (hc : 0 < c) (l : List α) :
    chunks c (f ++ l) = f :: chunks c l := by
  cases f with
  | nil => exact absurd hf (Nat.ne_of_lt hc)
  | cons a f =>
    have hlength : f.length = c - 1 := by
      rw [← hf, List.length_cons, Nat.add_sub_cancel]
    rw [List.cons_append, chunks, List.take_left' hlength, List.drop_left' hlength]

theorem chunks_of_length_le {l : List α} (hnil : l ≠ []) (hl : l.length ≤ c) :
    chunks c l = [l] := by
  cases l with
  | nil => exact absurd rfl hnil
  | cons a l =>
    have hlength : l.length ≤ c - 1 := by
      rw [List.length_cons] at hl
      omega
    rw [chunks, List.take_of_length_le hlength, List.drop_eq_nil_of_le hlength, chunks]

theorem chunksOf_chunks (hc : 0 < c) (l : List α) : ChunksOf c l (chunks c l) := by
  induction l using chunks.induct c with
  | case1 =>
    rw [chunks]
    exact ⟨rfl, by simp, by simp, by simp⟩
  | case2 a l ih =>
    rw [chunks]
    refine ⟨?_, ?_, ?_, ?_⟩
    · rw [List.flatten_cons, ih.flatten, List.cons_append, List.take_append_drop]
    · intro part hpart
      cases hrest : chunks c (l.drop (c - 1)) with
      | nil => simp [hrest] at hpart
      | cons next rest =>
        -- something is left behind the first part, so that one is full
        have hdrop : l.drop (c - 1) ≠ [] := by
          intro hdrop
          rw [hdrop, chunks] at hrest
          cases hrest
        rw [Ne, List.drop_eq_nil_iff] at hdrop
        rw [hrest, List.dropLast_cons_cons] at hpart
        rcases List.mem_cons.mp hpart with rfl | hpart
        · rw [List.length_cons, List.length_take]
          omega
        · exact ih.full part (hrest ▸ hpart)
    · exact List.forall_mem_cons.mpr ⟨List.cons_ne_nil _ _, ih.ne_nil⟩
    · refine List.forall_mem_cons.mpr ⟨?_, ih.length_le⟩
      rw [List.length_cons, List.length_take]
      omega

/-- Lists that agree element by element are cut alike. -/
theorem forall₂_cut {R : α → β → Prop} {l : List α} {l' : List β} (h : List.Forall₂ R l l') :
    List.Forall₂ (List.Forall₂ R) (cut c least l) (cut c least l') := by
  have hportions {part : List α} {part' : List β} (h : List.Forall₂ R part part') :
      List.Forall₂ (List.Forall₂ R) (portions least part) (portions least part') := by
    unfold portions
    rw [h.length_eq]
    split
    · rw [List.forall₂_map_left_iff, List.forall₂_map_right_iff]
      exact h.imp fun _ _ hab => .cons hab .nil
    · exact .cons h .nil
  unfold cut
  induction l using chunks.induct c generalizing l' with
  | case1 =>
    cases h
    simp [chunks]
  | case2 a l ih =>
    cases h with
    | cons hab h =>
      rw [chunks, chunks, List.flatMap_cons, List.flatMap_cons]
      exact List.rel_append (hportions (.cons hab (List.forall₂_take _ h)))
        (ih (List.forall₂_drop _ h))

theorem length_cut {l : List α} {l' : List β} (h : l.length = l'.length) :
    (cut c least l).length = (cut c least l').length := by
  have hall : List.Forall₂ (fun _ _ => True) l l' := by
    rw [List.forall₂_iff_get]
    exact ⟨h, fun _ _ _ => trivial⟩
  exact (forall₂_cut hall).length_eq

theorem cut_append {f : List α} (hf : f.length = c) (hc : 0 < c) (l : List α) :
    cut c least (f ++ l) = portions least f ++ cut c least l := by
  rw [cut, chunks_append hf hc, List.flatMap_cons, cut]

theorem cut_of_length_le {l : List α} (hnil : l ≠ []) (hl : l.length ≤ c) :
    cut c least l = portions least l := by
  rw [cut, chunks_of_length_le hnil hl, List.flatMap_singleton]

@[simp]
theorem cut_nil : cut c least ([] : List α) = [] := by
  rw [cut, chunks, List.flatMap_nil]

theorem cut_ne_nil {l : List α} (h : l ≠ []) : cut c least l ≠ [] := by
  cases l with
  | nil => exact absurd rfl h
  | cons a l =>
    rw [cut, chunks, List.flatMap_cons, portions]
    split <;> simp

/-- A size that batches may have. -/
def Sized (c least n : Nat) : Prop :=
  n = 1 ∨ least ≤ n ∧ n ≤ c

theorem sized_of_mem_cut (hc : 0 < c) {l part : List α} (h : part ∈ cut c least l) :
    Sized c least part.length := by
  obtain ⟨whole, hwhole, hpart⟩ := List.mem_flatMap.mp h
  have hle := (chunksOf_chunks hc l).length_le whole hwhole
  have hpos := List.length_pos_iff.mpr ((chunksOf_chunks hc l).ne_nil whole hwhole)
  unfold portions at hpart
  split at hpart
  · obtain ⟨a, _, rfl⟩ := List.mem_map.mp hpart
    exact .inl rfl
  · rename_i hsize
    rw [List.mem_singleton.mp hpart, Sized]
    omega

end Chunks

/-- The batches have the same rows. -/
abbrev SameBatches (bs bs' : List (List RowWrite)) : Prop :=
  List.Forall₂ SameRows bs bs'

namespace SameBatches

variable {as bs cs ds : List (List RowWrite)}

theorem refl (bs : List (List RowWrite)) : SameBatches bs bs :=
  List.forall₂_same.mpr fun ws _ => .refl ws

theorem trans (h : SameBatches as bs) (h' : SameBatches bs cs) : SameBatches as cs := by
  induction h generalizing cs with
  | nil => exact h'
  | cons hab _ ih =>
    cases h' with
    | cons hbc h' => exact .cons (hab.trans hbc) (ih h')

theorem append (h : SameBatches as bs) (h' : SameBatches cs ds) :
    SameBatches (as ++ cs) (bs ++ ds) :=
  List.rel_append h h'

end SameBatches

section Bounded

variable {p : Planner} {c : Nat} (hrule : p.rule = .bounded c) (t : Snapshot)

namespace Packer

include hrule

/-- A batch that is limited in size takes a write as it is. -/
theorem offer_bounded (k : Packer) (b : Batch) (w : RowWrite) :
    k.offer p t b w =
      (k, if b.writes.length < c then some { b with writes := b.writes ++ [w] } else none) := by
  unfold offer
  simp only [hrule, BatchRule.bounded, Bool.false_eq_true, ↓reduceIte, decide_eq_true_eq]
  split <;> rfl

theorem offerFirst_bounded (hc : 0 < c) (k : Packer) (w : RowWrite) :
    k.offerFirst p t w = (k.openBatch.1, .ok { k.openBatch.2 with writes := [w] }) := by
  have hfirst : k.openBatch.2.writes.length < c := hc
  simp only [offerFirst, offer_bounded hrule, hfirst, ↓reduceIte]
  rfl

theorem queueSingly_bounded (hc : 0 < c) (k : Packer) (ws : List RowWrite) :
    ∃ k' bs, k.queueSingly p t ws = (k', .ok ()) ∧ k'.ready = k.ready ++ bs ∧
      bs.map (·.writes) = ws.map ([·]) := by
  induction ws generalizing k with
  | nil => exact ⟨k, [], rfl, (List.append_nil _).symm, rfl⟩
  | cons w ws ih =>
    simp only [queueSingly, offerFirst_bounded hrule t hc]
    obtain ⟨k', bs, hk, hready, hbs⟩ :=
      ih (k.openBatch.1.queue { k.openBatch.2 with writes := [w] })
    refine ⟨k', { k.openBatch.2 with writes := [w] } :: bs, hk, ?_, ?_⟩
    · rw [hready, queue, List.append_assoc]
      rfl
    · rw [List.map_cons, List.map_cons, hbs]

theorem finish_bounded (hc : 0 < c) (k : Packer) {b : Batch} (hb : b.writes ≠ []) :
    ∃ k' bs, k.finish p t b = (k', .ok ()) ∧ k'.ready = k.ready ++ bs ∧
      bs.map (·.writes) = portions p.config.minBatchSize b.writes := by
  have hpos := List.length_pos_iff.mpr hb
  unfold finish portions
  split
  · rename_i hsize
    rw [if_neg (by omega)]
    exact ⟨k.queue b, [b], rfl, rfl, rfl⟩
  · rename_i hsize
    rw [if_pos (by omega)]
    exact queueSingly_bounded hrule t hc _ b.writes

/-- With the next write a batch that is full is finished, and what is to be sent stays the same. -/
theorem pack_bounded (hc : 0 < c) (k : Packer) {opened : Option Batch}
    (hopened : ∀ o, opened = some o → o.writes ≠ []) (hroom : (heldBy opened).length ≤ c)
    (w : RowWrite) :
    ∃ k' b bs, k.pack p t opened w = (k', .ok b) ∧ k'.ready = k.ready ++ bs ∧
      b.writes.length ≤ c ∧ ∀ rest, bs.map (·.writes) ++
        cut c p.config.minBatchSize (b.writes ++ rest) =
          cut c p.config.minBatchSize (heldBy opened ++ w :: rest) := by
  cases opened with
  | none =>
    refine ⟨k.openBatch.1, { k.openBatch.2 with writes := [w] }, [], ?_, ?_, hc, fun _ => rfl⟩
    · exact offerFirst_bounded hrule t hc k w
    · exact (List.append_nil _).symm
  | some o =>
    simp only [pack, offer_bounded hrule]
    by_cases hlt : o.writes.length < c
    · simp only [hlt, ↓reduceIte]
      refine ⟨k, { o with writes := o.writes ++ [w] }, [], rfl, (List.append_nil _).symm, ?_, ?_⟩
      · rw [List.length_append, List.length_singleton]
        exact hlt
      · intro rest
        simp [heldBy]
    · have hnil : o.writes.isEmpty = false := List.isEmpty_eq_false_iff.mpr (hopened o rfl)
      have hfull : o.writes.length = c := Nat.le_antisymm hroom (Nat.le_of_not_lt hlt)
      obtain ⟨k', bs, hfinish, hready, hbs⟩ := finish_bounded hrule t hc k (hopened o rfl)
      simp only [hlt, hnil, hfinish, offerFirst_bounded hrule t hc, Bool.false_eq_true, ↓reduceIte]
      refine ⟨_, _, bs, rfl, hready, hc, fun rest => ?_⟩
      rw [hbs, ← cut_append hfull hc]
      rfl

end Packer

namespace Stream

/-- The batches that are to be sent of the open set. -/
def forecast (c least : Nat) (s : Stream) : List (List RowWrite) :=
  s.packer.ready.map (·.writes) ++ cut c least s.unsent

/-- A stream that has not come to its end and whose batches are of the sizes that they may have. -/
structure Filling (c least : Nat) (s : Stream) : Prop where
  running : s.Running
  filled : s.Filled
  room : (heldBy s.opened).length ≤ c
  sized : ∀ b ∈ s.packer.ready, Sized c least b.writes.length

variable {s s' : Stream}

theorem forecast_eq_nil (h : s.Filled) (hs : s.forecast c p.config.minBatchSize = []) :
    s.packer.ready = [] ∧ s.current = [] ∧ s.opened = none := by
  obtain ⟨hready, hcut⟩ := List.append_eq_nil_iff.mp hs
  have hunsent : s.unsent = [] := by
    by_contra hne
    exact cut_ne_nil hne hcut
  obtain ⟨hheld, hcurrent⟩ := List.append_eq_nil_iff.mp hunsent
  refine ⟨List.map_eq_nil_iff.mp hready, hcurrent, ?_⟩
  cases ho : s.opened with
  | none => rfl
  | some b =>
    rw [ho] at hheld
    exact absurd hheld (h.opened b ho)

/-- The batches `bs` of the open set are sent on the way from `s` to `s'`. -/
structure Sends (c least : Nat) (s : Stream) (bs : List Batch) (s' : Stream) : Prop where
  filling : s'.Filling c least
  forecast : SameBatches (bs.map (·.writes) ++ s'.forecast c least) (s.forecast c least)
  sets : s'.sets = s.sets
  current : ∀ w ∈ s'.current, w ∈ s.current

theorem Sends.trans {least : Nat} {s s' s'' : Stream} {bs bs' : List Batch}
    (h : s.Sends c least bs s') (h' : s'.Sends c least bs' s'') :
    s.Sends c least (bs ++ bs') s'' := by
  refine ⟨h'.filling, ?_, h'.sets.trans h.sets, fun w hw => h.current w (h'.current w hw)⟩
  rw [List.map_append, List.append_assoc]
  exact ((SameBatches.refl _).append h'.forecast).trans h.forecast

include hrule

variable {t}

/-- A turn that gives no answer leaves what is to be sent as it is, or it opens the next set. -/
theorem Filling.move (hc : 0 < c) (h : s.Filling c p.config.minBatchSize)
    (hturn : s.turn p t = .move s') :
    s.Sends c p.config.minBatchSize [] s' ∨ s.forecast c p.config.minBatchSize = [] ∧
      s'.Filling c p.config.minBatchSize ∧ ∃ set, s.sets = set :: s'.sets ∧
        s'.current = sortBy (p.comparer p.model t) set ∧ s'.forecast c p.config.minBatchSize =
          cut c p.config.minBatchSize (sortBy (p.comparer p.model t) set) := by
  obtain ⟨_, hrunning, hfilled, _⟩ := turn_eq_move hturn
  cases moved_of_turn hturn with
  | @pack w w' current k b hr hcurrent hexamine hpack =>
    obtain ⟨k', b', bs, hpack', hready, hroom, hcut⟩ :=
      Packer.pack_bounded hrule t hc s.packer h.filled.opened h.room w'
    obtain ⟨rfl, hb⟩ := Prod.mk.inj (hpack.symm.trans hpack')
    obtain rfl := Except.ok.inj hb
    rw [hr, List.nil_append] at hready
    -- the write may be settled before it is packed, so the batches have the same rows only
    have hsame : SameRows (heldBy s.opened ++ w' :: current) (heldBy s.opened ++ w :: current) :=
      (SameRows.refl _).append
        (.cons (RowWrite.sameRow_of_examine hexamine) (SameRows.refl current))
    have hforecast : SameBatches (bs.map (·.writes) ++
        cut c p.config.minBatchSize (b.writes ++ current))
        (cut c p.config.minBatchSize (heldBy s.opened ++ w :: current)) := by
      rw [hcut current]
      exact forall₂_cut hsame
    refine .inl ⟨⟨hrunning h.running, hfilled h.filled, hroom, fun o ho => ?_⟩, ?_, rfl, ?_⟩
    · -- what is ready now is among the batches of the held writes, as if no others came
      have ho : o.writes ∈ bs.map (·.writes) ++
          cut c p.config.minBatchSize (b.writes ++ []) :=
        List.mem_append_left _ (List.mem_map_of_mem (hready ▸ ho))
      rw [hcut []] at ho
      exact sized_of_mem_cut hc ho
    · simpa [forecast, unsent, heldBy, hready, hr, hcurrent] using hforecast
    · intro v hv
      rw [hcurrent]
      exact List.mem_cons_of_mem w hv
  | @finish b k hr hcurrent ho hfinish =>
    obtain ⟨k', bs, hfinish', hready, hbs⟩ :=
      Packer.finish_bounded hrule t hc s.packer (h.filled.opened b ho)
    obtain ⟨rfl, _⟩ := Prod.mk.inj (hfinish.symm.trans hfinish')
    rw [hr, List.nil_append] at hready
    have hroom : b.writes.length ≤ c := by
      have := h.room
      rwa [ho] at this
    have hcut : cut c p.config.minBatchSize b.writes = bs.map (·.writes) := by
      rw [hbs, cut_of_length_le (h.filled.opened b ho) hroom]
    refine .inl ⟨⟨hrunning h.running, hfilled h.filled, Nat.zero_le c, fun o ho => ?_⟩, ?_, rfl,
      fun _ hv => hv⟩
    · have ho : o.writes ∈ cut c p.config.minBatchSize b.writes :=
        hcut ▸ List.mem_map_of_mem (hready ▸ ho)
      exact sized_of_mem_cut hc ho
    · simp only [forecast, unsent, heldBy, hready, hr, hcurrent, ho, Option.map_some,
        Option.map_none, Option.getD_some, Option.getD_none, List.map_nil, List.nil_append,
        List.append_nil, cut_nil, hcut]
      exact .refl _
  | @openNext set sets hr hcurrent ho hsets =>
    refine .inr ⟨?_, ⟨hrunning h.running, hfilled h.filled, h.room, h.sized⟩, set, hsets, rfl, ?_⟩
    · simp [forecast, unsent, heldBy, hr, hcurrent, ho]
    · simp [forecast, unsent, heldBy, hr, ho]

/-- A stream answers with the first batch that is to be sent. Else it has failed for a temporary
value or nothing is left. -/
theorem Filling.answer (hc : 0 < c) (h : s.Filling c p.config.minBatchSize) {item : Item}
    (hturn : s.turn p t = .answer item s') :
    (∃ b, item = .batch b ∧ Sized c p.config.minBatchSize b.writes.length ∧
        s.Sends c p.config.minBatchSize [b] s') ∨
      s'.done = true ∧ ((∃ w ∈ s.current, ∃ e, item = .failed e ∧
        w.checkTemporary p.model t = .error e) ∨
      item = .ended ∧ s.forecast c p.config.minBatchSize = []) := by
  cases answered_of_turn hturn with
  | @send b ready hr =>
    refine .inl ⟨b, rfl, h.sized b (hr ▸ List.mem_cons_self), ⟨h.running,
      ⟨fun b' hb' => h.filled.ready b' (hr ▸ List.mem_cons_of_mem b hb'), h.filled.opened⟩,
      h.room, fun b' hb' => h.sized b' (hr ▸ List.mem_cons_of_mem b hb')⟩, ?_, rfl,
      fun _ hw => hw⟩
    have hforecast : s.forecast c p.config.minBatchSize =
        b.writes :: (ready.map (·.writes) ++ cut c p.config.minBatchSize s.unsent) := by
      rw [forecast, hr]
      rfl
    rw [hforecast]
    exact .refl _
  | @unfit w current e hr hcurrent hexamine =>
    exact .inr ⟨rfl, .inl ⟨w, hcurrent ▸ List.mem_cons_self, e, rfl,
      RowWrite.examine_eq_error.mp hexamine⟩⟩
  | @unpacked _ w' _ _ _ hr hcurrent hexamine hpack =>
    obtain ⟨_, _, _, hpack', _⟩ :=
      Packer.pack_bounded hrule t hc s.packer h.filled.opened h.room w'
    cases hpack.symm.trans hpack'
  | @unfinished b _ _ hr hcurrent ho hfinish =>
    obtain ⟨_, _, hfinish', _⟩ :=
      Packer.finish_bounded hrule t hc s.packer (h.filled.opened b ho)
    cases hfinish.symm.trans hfinish'
  | ended hr hcurrent ho hsets =>
    exact .inr ⟨rfl, .inr ⟨rfl, by simp [forecast, unsent, heldBy, hr, hcurrent, ho]⟩⟩

/-- A request of which something is left to be sent is answered with the first batch of it, or the
stream fails for a temporary value. -/
theorem Filling.advance (hc : 0 < c) (h : s.Filling c p.config.minBatchSize)
    (hs : s.forecast c p.config.minBatchSize ≠ []) :
    (∃ b, (s.advance p t).1 = .batch b ∧
      s.Sends c p.config.minBatchSize [b] (s.advance p t).2) ∨
    ∃ w ∈ s.current, ∃ e, (s.advance p t).1 = .failed e ∧
      w.checkTemporary p.model t = .error e := by
  fun_induction Stream.advance p t s with
  | case1 s item s' hturn =>
    rcases h.answer hrule hc hturn with
      ⟨b, rfl, _, hsends⟩ | ⟨_, ⟨w, hw, e, rfl, he⟩ | ⟨_, hnil⟩⟩
    · exact .inl ⟨b, rfl, hsends⟩
    · exact .inr ⟨w, hw, e, rfl, he⟩
    · exact absurd hnil hs
  | case2 s s' hturn ih =>
    rcases h.move hrule hc hturn with hsends | ⟨hnil, _⟩
    · have hs' : s'.forecast c p.config.minBatchSize ≠ [] := by
        have hlength := hsends.forecast.length_eq
        rw [List.map_nil, List.nil_append] at hlength
        rw [← List.length_pos_iff, hlength]
        exact List.length_pos_iff.mpr hs
      rcases ih hsends.filling hs' with ⟨b, hitem, hnext⟩ | ⟨w, hw, hfailed⟩
      · exact .inl ⟨b, hitem, hsends.trans hnext⟩
      · exact .inr ⟨w, hsends.current w hw, hfailed⟩
    · exact absurd hnil hs

/-- As long as something is left of the open set, requests are answered with the batches of it. -/
theorem Filling.requests (hc : 0 < c) (h : s.Filling c p.config.minBatchSize) {us : List Snapshot}
    (hus : us.length ≤ (s.forecast c p.config.minBatchSize).length) :
    (∃ bs, (s.requests p us).1 = bs.map .batch ∧
      s.Sends c p.config.minBatchSize bs (s.requests p us).2) ∨
    ∃ w ∈ s.current, ∃ u ∈ us, ∃ e, w.checkTemporary p.model u = .error e ∧
      .failed e ∈ (s.requests p us).1 := by
  induction us generalizing s with
  | nil => exact .inl ⟨[], rfl, h, .refl _, rfl, fun _ hw => hw⟩
  | cons u us ih =>
    rw [List.length_cons] at hus
    have hs : s.forecast c p.config.minBatchSize ≠ [] :=
      List.length_pos_iff.mp (Nat.lt_of_lt_of_le (Nat.succ_pos _) hus)
    simp only [Stream.requests, next_of_running h.running]
    rcases h.advance hrule (t := u) hc hs with ⟨b, hitem, hsends⟩ | ⟨w, hw, e, hitem, he⟩
    · have hlength := hsends.forecast.length_eq
      rw [List.map_singleton, List.singleton_append, List.length_cons] at hlength
      rcases ih hsends.filling (by omega) with ⟨bs, hitems, hnext⟩ | ⟨w, hw, v, hv, e, hcheck, he⟩
      · exact .inl ⟨b :: bs, by rw [hitem, hitems, List.map_cons], hsends.trans hnext⟩
      · exact .inr ⟨w, hsends.current w hw, v, List.mem_cons_of_mem u hv, e, hcheck,
          List.mem_cons_of_mem _ he⟩
    · exact .inr ⟨w, hw, u, List.mem_cons_self, e, he, hitem ▸ List.mem_cons_self⟩

/-- Nothing is left to be sent of the open set, and these sets come next. -/
structure Rests (c least : Nat) (s : Stream) (sets : List (List RowWrite)) : Prop where
  filling : s.Filling c least
  forecast : s.forecast c least = []
  sets : s.sets = sets

omit hrule in
/-- When it is asked for a batch, the stream opens the next set. -/
theorem Rests.openNext {set : List RowWrite} {sets : List (List RowWrite)}
    (h : s.Rests c p.config.minBatchSize (set :: sets)) (u : Snapshot) (us : List Snapshot) :
    ∃ s' : Stream, s.requests p (u :: us) = s'.requests p (u :: us) ∧
      s'.Filling c p.config.minBatchSize ∧ s'.sets = sets ∧
      s'.current = sortBy (p.comparer p.model u) set ∧ s'.forecast c p.config.minBatchSize =
        cut c p.config.minBatchSize (sortBy (p.comparer p.model u) set) := by
  obtain ⟨hready, hcurrent, hopened⟩ := forecast_eq_nil h.filling.filled h.forecast
  let s' : Stream := { s with sets, current := sortBy (p.comparer p.model u) set }
  have hturn : s.turn p u = .move s' := by
    simp [Stream.turn, hready, hcurrent, hopened, h.sets, s']
  have hfilled : s'.Filled := ⟨h.filling.filled.ready, h.filling.filled.opened⟩
  have h' : s'.Filling c p.config.minBatchSize :=
    ⟨h.filling.running, hfilled, h.filling.room, h.filling.sized⟩
  refine ⟨s', ?_, h', rfl, rfl, ?_⟩
  · simp only [Stream.requests, next_of_running h.filling.running, next_of_running h'.running,
      advance_of_move hturn]
  · simp [s', Stream.forecast, unsent, heldBy, hready, hopened]

/-- All batches of a set are sent, by as many requests as there are batches. -/
theorem Rests.requests_set (hc : 0 < c) {set : List RowWrite} {sets : List (List RowWrite)}
    (h : s.Rests c p.config.minBatchSize (set :: sets)) {u : Snapshot} {us : List Snapshot}
    (hus : (u :: us).length = (cut c p.config.minBatchSize set).length) :
    (∃ bs : List Batch, (s.requests p (u :: us)).1 = bs.map .batch ∧
      SameBatches (bs.map (·.writes))
        (cut c p.config.minBatchSize (sortBy (p.comparer p.model u) set)) ∧
      (s.requests p (u :: us)).2.Rests c p.config.minBatchSize sets) ∨
    ∃ w ∈ set, ∃ v ∈ u :: us, ∃ e, w.checkTemporary p.model v = .error e ∧
      .failed e ∈ (s.requests p (u :: us)).1 := by
  obtain ⟨s', hrequests, h', hsets', hcurrent, hforecast⟩ := h.openNext u us
  have hlength : (u :: us).length = (s'.forecast c p.config.minBatchSize).length := by
    rw [hus, hforecast]
    exact length_cut (length_sortBy _ set).symm
  rw [hrequests]
  rcases h'.requests hrule hc (Nat.le_of_eq hlength) with ⟨bs, hitems, hsends⟩ | ⟨w, hw, hfailed⟩
  · have hall := hsends.forecast
    -- each request takes one batch, so none is left after as many as there are
    have hnil : (s'.requests p (u :: us)).2.forecast c p.config.minBatchSize = [] := by
      have hbs := length_requests p s' (u :: us)
      have hcount := hall.length_eq
      rw [hitems, List.length_map] at hbs
      rw [List.length_append, List.length_map, hbs, hlength] at hcount
      exact List.length_eq_zero_iff.mp (by omega)
    rw [hnil, List.append_nil, hforecast] at hall
    exact .inl ⟨bs, hitems, hall, hsends.filling, hnil, hsends.sets.trans hsets'⟩
  · exact .inr ⟨w, mem_sortBy.mp (hcurrent ▸ hw), hfailed⟩

/-- All batches of some sets are sent, set by set. -/
theorem Rests.requests_sets (hc : 0 < c) {front sets : List (List RowWrite)}
    (h : s.Rests c p.config.minBatchSize (front ++ sets)) (hnil : [] ∉ front)
    {uss : List (List Snapshot)} (huss : List.Forall₂ (fun set us =>
      us.length = (cut c p.config.minBatchSize set).length) front uss) :
    (∃ bs : List Batch, (s.requests p uss.flatten).1 = bs.map .batch ∧
      (s.requests p uss.flatten).2.Rests c p.config.minBatchSize sets) ∨
    ∃ w ∈ front.flatten, ∃ v ∈ uss.flatten, ∃ e, w.checkTemporary p.model v = .error e ∧
      .failed e ∈ (s.requests p uss.flatten).1 := by
  induction huss generalizing s with
  | nil => exact .inl ⟨[], rfl, h⟩
  | @cons set us front uss hus huss ih =>
    rw [List.mem_cons, not_or] at hnil
    simp only [List.flatten_cons, requests_append]
    cases us with
    | nil =>
      exact absurd (List.length_eq_zero_iff.mp hus.symm) (cut_ne_nil (Ne.symm hnil.1))
    | cons u us =>
      rcases h.requests_set hrule hc hus with
        ⟨bs, hitems, _, hrests⟩ | ⟨w, hw, v, hv, e, hcheck, he⟩
      · rcases ih hrests hnil.2 with ⟨bs', hitems', hrests'⟩ | ⟨w, hw, v, hv, e, hcheck, he⟩
        · exact .inl ⟨bs ++ bs', by rw [hitems, hitems', List.map_append], hrests'⟩
        · exact .inr ⟨w, List.mem_append_right _ hw, v, List.mem_append_right _ hv, e, hcheck,
            List.mem_append_right _ he⟩
      · exact .inr ⟨w, List.mem_append_left _ hw, v, List.mem_append_left _ hv, e, hcheck,
          List.mem_append_left _ he⟩

theorem history_sized (hc : 0 < c) : History p fun items s =>
    (∀ b, .batch b ∈ items → Sized c p.config.minBatchSize b.writes.length) ∧
      (s.done = false → s.Filling c p.config.minBatchSize) where
  move t items s s' hrunning h hturn := by
    refine ⟨h.1, fun _ => ?_⟩
    rcases (h.2 hrunning.2).move hrule hc hturn with hsends | ⟨_, hfilling, _⟩
    · exact hsends.filling
    · exact hfilling
  answer t items s item s' hrunning h hturn := by
    rcases (h.2 hrunning.2).answer hrule hc hturn with
      ⟨b, rfl, hsized, hsends⟩ | ⟨hdone, hitem⟩
    · refine ⟨fun b' hb' => ?_, fun _ => hsends.filling⟩
      rcases List.mem_append.mp hb' with hb' | hb'
      · exact h.1 b' hb'
      · exact Item.batch.inj (List.mem_singleton.mp hb') ▸ hsized
    · refine ⟨fun b' hb' => ?_, fun hrunning => absurd (hdone.symm.trans hrunning) (by simp)⟩
      rcases List.mem_append.mp hb' with hb' | hb'
      · exact h.1 b' hb'
      · rw [← List.mem_singleton.mp hb'] at hitem
        rcases hitem with ⟨_, _, _, hitem, _⟩ | ⟨hitem, _⟩ <;> cases hitem
  ended items s hdone h := by
    refine ⟨fun b hb => ?_, h.2⟩
    rcases List.mem_append.mp hb with hb | hb
    · exact h.1 b hb
    · cases List.mem_singleton.mp hb

omit hrule in
theorem Planned.rests {sets : List (List RowWrite)} (h : s.Planned sets) :
    s.Rests c p.config.minBatchSize sets := by
  have hready : ∀ b ∈ s.packer.ready, False := by
    intro b hb
    rw [h.ready] at hb
    cases hb
  refine ⟨⟨h.running, ⟨fun b hb => (hready b hb).elim, fun b hb => ?_⟩, ?_,
    fun b hb => (hready b hb).elim⟩, ?_, h.sets⟩
  · cases h.opened.symm.trans hb
  · rw [h.opened]
    exact Nat.zero_le c
  · rw [Stream.forecast, h.ready, h.unsent, cut_nil]
    rfl

end Stream

end Bounded

/-- No set of a plan is empty. -/
theorem Planner.nil_not_mem_sets {p : Planner} {t : Snapshot} {entries : List Nat}
    {sets : List (List RowWrite)} (h : (p.prepare t entries).sets = .ok sets) : [] ∉ sets := by
  obtain ⟨built, hb, _⟩ := perm_of_sets h
  obtain ⟨g, hg, hbuilt, hv, _⟩ := dependencyGraph_eq_ok p.model p.collate t built.writes
  obtain ⟨levels, hl, rfl⟩ := levels_of_sets hb hg h
  have hlevelled := Multigraph.levelled_of_levels hbuilt.indexed hl
  intro hnil
  obtain ⟨level, hlevel, hempty⟩ := List.mem_map.mp hnil
  cases level with
  | nil => exact hlevelled.nonempty hlevel
  | cons i level =>
    have hi : i ∈ List.range built.writes.length :=
      hv ▸ hlevelled.perm.mem_iff.mp (List.mem_flatten_of_mem hlevel List.mem_cons_self)
    have hnone := List.filterMap_eq_nil_iff.mp hempty i List.mem_cons_self
    rw [List.getElem?_eq_none_iff] at hnone
    exact absurd (List.mem_range.mp hi) (Nat.not_lt.mpr hnone)

/-- Whatever becomes of the entries, the batches of a pass are of the sizes that they may have. -/
theorem Planner.sized_of_answers {p : Planner} {c : Nat} (hrule : p.rule = .bounded c) (hc : 0 < c)
    {t : Snapshot} {later : List Snapshot} {entries : List Nat} {begun : Nat} {b : Batch}
    (hb : .batch b ∈ p.answers entries begun (t :: later)) :
    Sized c p.config.minBatchSize b.writes.length := by
  cases hsets : (p.prepare t entries).sets with
  | error e =>
    rw [answers_of_error hsets] at hb
    rcases List.mem_cons.mp hb with hb | hb
    · cases hb
    · cases List.eq_of_mem_replicate hb
  | ok sets =>
    obtain ⟨s, hs, hanswers⟩ := Stream.requests_of_sets hsets begun later
    have hrests : s.Rests c p.config.minBatchSize sets := hs.rests
    have hstart : (∀ b, Item.batch b ∈ ([] : List Item) →
        Sized c p.config.minBatchSize b.writes.length) ∧
        (s.done = false → s.Filling c p.config.minBatchSize) :=
      ⟨fun _ hb => absurd hb List.not_mem_nil, fun _ => hrests.filling⟩
    have hall := (Stream.history_sized hrule hc).requests hstart hs.running.1 (t :: later)
    rw [List.nil_append, ← hanswers] at hall
    exact hall.1 b hb

/-- Settings that make sense leave full chunks whole. -/
theorem portions_of_full {α : Type} {c least : Nat} (h : least ≤ c) {part : List α}
    (hpart : part.length = c) : portions least part = [part] := by
  unfold portions
  rw [if_neg (by omega)]

/-- As many requests as there are batches of a set of writes. -/
def Planner.Serves (p : Planner) (c : Nat) (set : List RowWrite) (us : List Snapshot) : Prop :=
  us.length = (cut c p.config.minBatchSize set).length

/-- Where batches are limited in size alone, each set goes out in chunks of its sorted writes, and a
chunk that is too small in single writes, unless a write is turned down for a temporary value. -/
theorem sets_are_cut_into_batches (p : Planner) (c : Nat) (hrule : p.rule = .bounded c)
    (hc : 0 < c) (t : Snapshot) (later : List Snapshot) (entries : List Nat) (begun : Nat) :
    (∀ b, .batch b ∈ p.answers entries begun (t :: later) → b.writes.length = 1 ∨
      p.config.minBatchSize ≤ b.writes.length ∧ b.writes.length ≤ c) ∧
    ∀ front set back, (p.prepare t entries).sets = .ok (front ++ set :: back) →
      ∀ uss u us more, t :: later = uss.flatten ++ u :: us ++ more →
        List.Forall₂ (p.Serves c) front uss → p.Serves c set (u :: us) →
        (∃ w ∈ (front ++ [set]).flatten, ∃ v ∈ uss.flatten ++ u :: us, ∃ e,
          w.checkTemporary p.model v = .error e ∧
            .failed e ∈ p.answers entries begun (t :: later)) ∨
        ∃ (sent bs : List Batch) (rest : List Item) (parts : List (List RowWrite)),
          p.answers entries begun (t :: later) = sent.map .batch ++ bs.map .batch ++ rest ∧
          sent.length = uss.flatten.length ∧
          ChunksOf c (sortBy (p.comparer p.model u) set) parts ∧
          SameBatches (bs.map (·.writes)) (parts.flatMap (portions p.config.minBatchSize)) ∧
          (p.config.validate = .ok () → c = p.config.maxBatchSize →
            ∀ part ∈ parts.dropLast, portions p.config.minBatchSize part = [part]) := by
  refine ⟨fun b hb => Planner.sized_of_answers hrule hc hb, ?_⟩
  intro front set back hsets uss u us more hts huss hus
  obtain ⟨s, hs, hanswers⟩ := Stream.requests_of_sets hsets begun later
  have hnil := Planner.nil_not_mem_sets hsets
  rw [List.mem_append, not_or] at hnil
  have hrests : s.Rests c p.config.minBatchSize (front ++ set :: back) := hs.rests
  rw [Planner.answers, hanswers, hts, List.append_assoc]
  simp only [Stream.requests_append, List.flatten_append, List.flatten_singleton]
  rcases hrests.requests_sets hrule hc hnil.1 huss with
    ⟨sent, hsent, hrests'⟩ | ⟨w, hw, v, hv, e, hcheck, he⟩
  · rcases hrests'.requests_set hrule hc hus with
      ⟨bs, hbs, hsame, _⟩ | ⟨w, hw, v, hv, e, hcheck, he⟩
    · refine .inr ⟨sent, bs,
        (((s.requests p uss.flatten).2.requests p (u :: us)).2.requests p more).1,
        chunks c (sortBy (p.comparer p.model u) set), ?_, ?_, chunksOf_chunks hc _, hsame,
        fun hvalid hcap part hpart => ?_⟩
      · rw [hsent, hbs, List.append_assoc]
      · have hlength := Stream.length_requests p s uss.flatten
        rwa [hsent, List.length_map] at hlength
      · refine portions_of_full ?_ ((chunksOf_chunks hc _).full part hpart)
        rw [hcap]
        exact Config.minBatchSize_le hvalid
    · exact .inl ⟨w, List.mem_append_right _ hw, v, List.mem_append_right _ hv, e, hcheck,
        List.mem_append_right _ (List.mem_append_left _ he)⟩
  · exact .inl ⟨w, List.mem_append_left _ hw, v, List.mem_append_left _ hv, e, hcheck,
      List.mem_append_left _ he⟩

/-- Of five writes, three are sent together, and the rest one by one. -/
example : cut 3 3 [1, 2, 3, 4, 5] = [[1, 2, 3], [4], [5]] := by decide +kernel

namespace Family

/-- The family in batches of three, but none of two. -/
def threes : Planner :=
  { planner with config := { minBatchSize := 3, maxBatchSize := 3 }, rule := .bounded 3 }

/-- Parents with numbers from the highest down. -/
def newParents : Snapshot :=
  fun i => row 0 .added [10 - Int64.ofNat i, Int64.ofNat i]

def parentWrite (i : Nat) : RowWrite :=
  ⟨⟨none, "Parents"⟩, [i], none⟩

theorem sets_are_cut_into_batches_parents :
    threes.rule = .bounded 3 ∧ 0 < 3 ∧ threes.config.validate = .ok () ∧
      (threes.prepare newParents [0, 1, 2, 3, 4]).sets = .ok [[0, 1, 2, 3, 4].map parentWrite] ∧
      ∃ (bs : List Batch) (rest : List Item) (parts : List (List RowWrite)),
        threes.answers [0, 1, 2, 3, 4] 0 [newParents, newParents, newParents] =
          bs.map .batch ++ rest ∧
        ChunksOf 3 (sortBy (threes.comparer threes.model newParents)
          ([0, 1, 2, 3, 4].map parentWrite)) parts ∧
        SameBatches (bs.map (·.writes)) (parts.flatMap (portions 3)) ∧
        ∀ part ∈ parts.dropLast, portions 3 part = [part] := by
  have hvalid : threes.config.validate = .ok () := by decide +kernel
  have hsets : (threes.prepare newParents [0, 1, 2, 3, 4]).sets =
      .ok ([] ++ [0, 1, 2, 3, 4].map parentWrite :: []) := by
    decide +kernel
  have hserves : threes.Serves 3 ([0, 1, 2, 3, 4].map parentWrite)
      [newParents, newParents, newParents] := by
    unfold Planner.Serves
    decide +kernel
  have hfailed (e : PlanError) :
      Item.failed e ∉ threes.answers [0, 1, 2, 3, 4] 0 [newParents, newParents, newParents] :=
    not_failed_of_all (by decide +kernel) e
  obtain ⟨_, hcut⟩ := sets_are_cut_into_batches threes 3 rfl (by decide) newParents
    [newParents, newParents] [0, 1, 2, 3, 4] 0
  rcases hcut [] _ [] hsets [] newParents [newParents, newParents] [] rfl .nil hserves with
    ⟨_, _, _, _, e, _, he⟩ | ⟨sent, bs, rest, parts, hanswers, hsent, hparts, hsame, hwhole⟩
  · exact absurd he (hfailed e)
  · obtain rfl := List.length_eq_zero_iff.mp hsent
    exact ⟨rfl, by decide, hvalid, hsets, bs, rest, parts, hanswers, hparts, hsame,
      hwhole hvalid rfl⟩

end Family

end WritePlan

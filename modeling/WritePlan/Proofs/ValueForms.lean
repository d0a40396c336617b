import Mathlib.Logic.Function.Basic
import WritePlan.Proofs.JsonText
import WritePlan.Proofs.UlidText
import WritePlan.Value.Json

namespace WritePlan

open Function (IsPartialInv)

theorem mapM_isPartialInv {α β : Type} {f : α → β} {g : β → Option α} (h : IsPartialInv f g) :
    IsPartialInv (List.map f) (List.mapM g) := by
  intro as bs
  induction bs generalizing as with
  | nil => simp
  | cons b bs ih =>
    rw [mapM_cons_eq_some, List.map_eq_cons_iff]
    constructor
    · rintro ⟨a, as, ha, has, rfl⟩
      exact ⟨a, as, rfl, (h a b).mp ha, (ih as).mp has⟩
    · rintro ⟨a, as, rfl, ha, has⟩
      exact ⟨a, as, (h a b).mpr ha, (ih as).mpr has, rfl⟩

namespace Value

/-- What is read from the numbers in a range, each of which is the value of what is made of it, is
read back from its value. -/
theorem ranged_isPartialInv {α : Type} {read : Json → Option α} {value : α → Int}
    {InRange : Int → Prop} [DecidablePred InRange] {make : Int → α}
    (hread : ∀ n, read (.int n) = if InRange n then some (make n) else none)
    (hother : ∀ j, (∀ n, j ≠ .int n) → read j = none)
    (hmake : ∀ n, InRange n → value (make n) = n)
    (hvalue : ∀ a, InRange (value a) ∧ make (value a) = a) :
    IsPartialInv (fun a => Json.int (value a)) read := by
  intro a j
  constructor
  · intro h
    by_cases hj : ∃ n, j = .int n
    · obtain ⟨n, rfl⟩ := hj
      rw [hread, Option.ite_none_right_eq_some, Option.some.injEq] at h
      obtain ⟨hn, rfl⟩ := h
      exact congrArg Json.int (hmake n hn)
    · rw [hother j (not_exists.mp hj)] at h
      cases h
  · rintro rfl
    rw [hread, if_pos (hvalue a).1, (hvalue a).2]

theorem int64?_isPartialInv : IsPartialInv (fun i : Int64 => Json.int i.toInt) int64? := by
  refine ranged_isPartialInv (fun _ => rfl) (fun j hj => ?_) (fun n hn => ?_) fun i =>
    ⟨⟨i.minValue_le_toInt, i.toInt_le⟩, i.ofInt_toInt⟩
  · cases j with
    | int n => exact absurd rfl (hj n)
    | _ => rfl
  · exact Int64.toInt_ofInt_of_le hn.1 (Int.lt_of_le_of_lt hn.2 (by decide))

theorem uint64?_isPartialInv : IsPartialInv (fun u : UInt64 => Json.int u.toNat) uint64? := by
  refine ranged_isPartialInv (fun _ => rfl) (fun j hj => ?_) (fun n hn => ?_) fun u =>
    ⟨⟨Int.natCast_nonneg _, u.toNat_lt_size⟩, UInt64.ofNat_toNat⟩
  · cases j with
    | int n => exact absurd rfl (hj n)
    | _ => rfl
  · rw [UInt64.toNat_ofNat', Nat.mod_eq_of_lt hn.2, Int.toNat_of_nonneg hn.1]

theorem byte?_isPartialInv : IsPartialInv (fun b : UInt8 => Json.int b.toNat) byte? := by
  refine ranged_isPartialInv (fun _ => rfl) (fun j hj => ?_) (fun n hn => ?_) fun b =>
    ⟨⟨Int.natCast_nonneg _, Int.ofNat_lt.mpr b.toNat_lt⟩, UInt8.ofNat_toNat⟩
  · cases j with
    | int n => exact absurd rfl (hj n)
    | _ => rfl
  · have hmax : n.toNat < 2 ^ 8 := by omega
    rw [UInt8.toNat_ofNat', Nat.mod_eq_of_lt hmax, Int.toNat_of_nonneg hn.1]

/-- What is written for values: the seven kinds, each with a payload of its own. -/
inductive Canonical : Json → Prop
  | null : Canonical (.string "Null")
  | bool (b : Bool) : Canonical (tagged "Bool" (.bool b))
  | int (i : Int) (hmin : -2 ^ 63 ≤ i) (hmax : i < 2 ^ 63) : Canonical (tagged "Int" (.int i))
  | uint (n : Nat) (hmax : n < 2 ^ 64) : Canonical (tagged "Uint" (.int n))
  | text (s : String) : Canonical (tagged "Text" (.string s))
  | blob (bytes : List Nat) (hmax : ∀ b ∈ bytes, b < 256) :
    Canonical (tagged "Blob" (.array (bytes.map fun b : Nat => .int b)))
  | ulid (s : String) (hs : Ulid.IsCanonicalText s) : Canonical (tagged "Ulid" (.string s))

/-- What is read as a value though it is not written for it: null as an object, and an identifier in
small letters or with a first digit of eight or more. -/
inductive Variant : Json → Value → Prop
  | null : Variant (tagged "Null" .null) .null
  | ulid (s : String) (id : Ulid) (hs : Ulid.IsText s)
    (hspelled : (∃ c ∈ s.toList, c.isLower = true) ∨
      ∃ c ∈ s.toList.head?, c.toUpper ∉ Ulid.alphabet.take 8)
    (htext : id.text = Ulid.canonicalText s) : Variant (tagged "Ulid" (.string s)) (.ulid id)

theorem canonical_toJson (v : Value) : Canonical v.toJson := by
  cases v with
  | null => exact .null
  | bool b => exact .bool b
  | int i => exact .int i.toInt i.le_toInt i.toInt_lt
  | uint u => exact .uint u.toNat u.toNat_lt
  | text s => exact .text s
  | blob bytes =>
    have h := Canonical.blob (bytes.map UInt8.toNat) fun n hn => by
      obtain ⟨b, _, rfl⟩ := List.mem_map.mp hn
      exact b.toNat_lt
    rwa [List.map_map] at h
  | ulid id => exact .ulid id.text (Ulid.isCanonicalText_iff.mpr ⟨id, rfl⟩)

/-- The canonical documents are those of the values. -/
theorem canonical_iff {j : Json} : Canonical j ↔ ∃ v : Value, j = v.toJson := by
  constructor
  · rintro (_ | b | ⟨i, hmin, hmax⟩ | ⟨n, hmax⟩ | s | ⟨bytes, hmax⟩ | ⟨s, hs⟩)
    · exact ⟨.null, rfl⟩
    · exact ⟨.bool b, rfl⟩
    · exact ⟨.int (.ofInt i), by rw [toJson, Int64.toInt_ofInt_of_le hmin hmax]⟩
    · exact ⟨.uint (.ofNat n), by rw [toJson, UInt64.toNat_ofNat', Nat.mod_eq_of_lt hmax]⟩
    · exact ⟨.text s, rfl⟩
    · refine ⟨.blob (bytes.map .ofNat), ?_⟩
      rw [toJson, List.map_map]
      refine congrArg (fun items => tagged "Blob" (.array items)) (List.map_congr_left ?_)
      intro b hb
      simp [Nat.mod_eq_of_lt (hmax b hb)]
    · obtain ⟨id, rfl⟩ := Ulid.isCanonicalText_iff.mp hs
      exact ⟨.ulid id, rfl⟩
  · rintro ⟨v, rfl⟩
    exact v.canonical_toJson

theorem ofJson?_toJson (v : Value) : ofJson? v.toJson = some v := by
  cases v with
  | null => rfl
  | bool b => rfl
  | int i => exact congrArg (·.map int) ((int64?_isPartialInv i _).mpr rfl)
  | uint u => exact congrArg (·.map uint) ((uint64?_isPartialInv u _).mpr rfl)
  | text s => rfl
  | blob bytes =>
    exact congrArg (·.map blob) ((mapM_isPartialInv byte?_isPartialInv bytes _).mpr rfl)
  | ulid id => exact congrArg (·.map ulid) id.ofText?_text

theorem Variant.ofJson? {j : Json} {v : Value} (h : Variant j v) : ofJson? j = some v := by
  cases h with
  | null => rfl
  | ulid s id hs hspelled htext =>
    exact congrArg (·.map Value.ulid) (Ulid.ofText?_eq_some.mpr ⟨hs, htext⟩)

theorem Variant.not_canonical {j : Json} {v : Value} (h : Variant j v) : ¬ Canonical j := by
  intro hcanonical
  obtain ⟨w, rfl⟩ := canonical_iff.mp hcanonical
  obtain rfl : w = v := Option.some.inj (w.ofJson?_toJson.symm.trans h.ofJson?)
  generalize hj : w.toJson = j at h
  cases h with
  | null => cases hj
  | ulid s id hs hspelled htext =>
    obtain rfl : id.text = s := by simpa [toJson, tagged] using hj
    obtain ⟨hsmall, hfirst⟩ :=
      hs.isCanonicalText_iff.mp (Ulid.isCanonicalText_iff.mpr ⟨id, rfl⟩)
    rcases hspelled with ⟨c, hc, hlower⟩ | ⟨c, hc, hhigh⟩
    · exact Bool.false_ne_true ((hsmall c hc).symm.trans hlower)
    · exact hhigh (hfirst c hc)

/-- An identifier is read from its canonical text or from another spelling of it. -/
theorem ulid_cases {s : String} {id : Ulid} (h : Ulid.ofText? s = some id) :
    s = id.text ∨ Variant (tagged "Ulid" (.string s)) (.ulid id) := by
  obtain ⟨hs, htext⟩ := Ulid.ofText?_eq_some.mp h
  by_cases hcanonical : Ulid.IsCanonicalText s
  · exact .inl ((Ulid.isCanonicalText_iff_eq.mp hcanonical).2.symm.trans htext.symm)
  · rw [hs.isCanonicalText_iff, not_and_or] at hcanonical
    push Not at hcanonical
    simp only [Bool.not_eq_false] at hcanonical
    exact .inr (.ulid s id hs hcanonical htext)

theorem ofPayload?_cases {tag : String} {payload : Json} {v : Value}
    (h : ofPayload? tag payload = some v) :
    tagged tag payload = v.toJson ∨ Variant (tagged tag payload) v := by
  simp only [ofPayload?] at h
  split_ifs at h with hnull hbool hint huint htext hblob hulid
  · subst hnull
    cases payload with
    | null =>
      obtain rfl := Option.some.inj h
      exact .inr .null
    | _ => cases h
  · subst hbool
    cases payload with
    | bool b =>
      obtain rfl := Option.some.inj h
      exact .inl rfl
    | _ => cases h
  · obtain ⟨i, hi, rfl⟩ := Option.map_eq_some_iff.mp h
    obtain rfl := (int64?_isPartialInv i payload).mp hi
    exact .inl (congrArg (tagged · _) hint)
  · obtain ⟨u, hu, rfl⟩ := Option.map_eq_some_iff.mp h
    obtain rfl := (uint64?_isPartialInv u payload).mp hu
    exact .inl (congrArg (tagged · _) huint)
  · subst htext
    cases payload with
    | string s =>
      obtain rfl := Option.some.inj h
      exact .inl rfl
    | _ => cases h
  · subst hblob
    cases payload with
    | array items =>
      obtain ⟨bytes, hbytes, rfl⟩ := Option.map_eq_some_iff.mp h
      obtain rfl := (mapM_isPartialInv byte?_isPartialInv bytes items).mp hbytes
      exact .inl rfl
    | _ => cases h
  · subst hulid
    cases payload with
    | string s =>
      obtain ⟨id, hid, rfl⟩ := Option.map_eq_some_iff.mp h
      rcases ulid_cases hid with rfl | hvariant
      · exact .inl rfl
      · exact .inr hvariant
    | _ => cases h

theorem ofJson?_cases {j : Json} {v : Value} (h : ofJson? j = some v) :
    j = v.toJson ∨ Variant j v := by
  cases j with
  | string s =>
    simp only [ofJson?, Option.ite_none_right_eq_some, Option.some.injEq] at h
    obtain ⟨rfl, rfl⟩ := h
    exact .inl rfl
  | object fields =>
    rcases fields with _ | ⟨⟨tag, payload⟩, _ | ⟨_, _⟩⟩
    · cases h
    · exact ofPayload?_cases h
    · cases h
  | _ => cases h

theorem ofJson?_ulid {s : String} :
    (∃ v, ofJson? (tagged "Ulid" (.string s)) = some v) ↔ Ulid.IsText s := by
  constructor
  · rintro ⟨v, h⟩
    obtain ⟨id, hid, _⟩ := Option.map_eq_some_iff.mp h
    exact (Ulid.ofText?_eq_some.mp hid).1
  · intro hs
    obtain ⟨id, hid⟩ := Ulid.exists_ofText? hs
    exact ⟨.ulid id, congrArg (·.map ulid) hid⟩

theorem plain_tagged (tag : String) {payload : Json} (h : payload.Plain) :
    (tagged tag payload).Plain :=
  .object _ (List.nodup_singleton tag) (List.forall_mem_singleton.mpr h)

theorem plain_toJson (v : Value) : v.toJson.Plain := by
  cases v with
  | null => exact .string _
  | bool b => exact plain_tagged _ (.bool b)
  | int i => exact plain_tagged _ (.int _)
  | uint u => exact plain_tagged _ (.int _)
  | text s => exact plain_tagged _ (.string s)
  | blob bytes =>
    refine plain_tagged _ (.array _ fun j hj => ?_)
    obtain ⟨b, _, rfl⟩ := List.mem_map.mp hj
    exact .int _
  | ulid id => exact plain_tagged _ (.string _)

/-- What is written for a value is read back as that value, also from its text. Nothing else is read
as a value but its variants, none of which is written for one. -/
theorem values_read_back :
    (∀ v : Value, Canonical v.toJson ∧ Json.parse? v.toJson.render = some v.toJson ∧
      ofJson? v.toJson = some v) ∧
    (∀ j : Json, Canonical j ↔ ∃ v : Value, j = v.toJson) ∧
    (∀ (j : Json) (v : Value), ofJson? j = some v ↔ j = v.toJson ∨ Variant j v) ∧
    (∀ (j : Json) (v : Value), Variant j v → ¬ Canonical j) ∧
    ∀ s : String, (∃ v, ofJson? (tagged "Ulid" (.string s)) = some v) ↔ Ulid.IsText s := by
  refine ⟨fun v => ⟨v.canonical_toJson, v.plain_toJson.parse?_render, v.ofJson?_toJson⟩,
    fun j => canonical_iff, fun j v => ⟨ofJson?_cases, ?_⟩, fun j v => Variant.not_canonical,
    fun s => ofJson?_ulid⟩
  rintro (rfl | h)
  · exact v.ofJson?_toJson
  · exact h.ofJson?

/-- Small letters are read as capitals, and a first digit of 31 as one of seven. -/
theorem values_read_back_spelled :
    let j := tagged "Ulid" (.string "z1arz3ndektsv4rrffq69g5fav")
    let v := ulid ⟨299524098742341801704557299199308381531⟩
    ofJson? j = some v ∧ ¬ Canonical j ∧
      v.toJson = tagged "Ulid" (.string "71ARZ3NDEKTSV4RRFFQ69G5FAV") := by
  intro j v
  obtain ⟨_, _, hread, hvariant, _⟩ := values_read_back
  have hj : ofJson? j = some v := by decide +kernel
  have htext : Ulid.text ⟨299524098742341801704557299199308381531⟩ =
      "71ARZ3NDEKTSV4RRFFQ69G5FAV" := by decide +kernel
  have hv : v.toJson = tagged "Ulid" (.string "71ARZ3NDEKTSV4RRFFQ69G5FAV") :=
    congrArg (fun s => tagged "Ulid" (.string s)) htext
  refine ⟨hj, ?_, hv⟩
  rcases (hread j v).mp hj with hsame | h
  · rw [hv] at hsame
    simp [j, tagged] at hsame
  · exact hvariant j v h

end Value

end WritePlan

import Mathlib.Data.Nat.Digits.Lemmas
import WritePlan.Ulid

namespace WritePlan

theorem mapM_cons_eq_some {α β : Type} {f : α → Option β} {a : α} {as : List α} {bs : List β} :
    (a :: as).mapM f = some bs ↔
      ∃ b bs', f a = some b ∧ as.mapM f = some bs' ∧ bs = b :: bs' := by
  simp only [List.mapM_cons, Option.bind_eq_bind, Option.bind_eq_some_iff, Option.pure_def,
    Option.some.injEq]
  constructor
  · rintro ⟨b, hb, bs, hbs, rfl⟩
    exact ⟨b, bs, hb, hbs, rfl⟩
  · rintro ⟨b, bs, hb, hbs, rfl⟩
    exact ⟨b, hb, bs, hbs, rfl⟩

namespace Ulid

theorem digit_eq_getElem {n : Nat} (h : n < alphabet.length) : digit n = alphabet[n] := by
  have hmod : n % 32 = n := Nat.mod_eq_of_lt h
  rw [digit, hmod, List.getD_eq_getElem?_getD, List.getElem?_eq_getElem h, Option.getD_some]

theorem digit_mod (n : Nat) : digit (n % 32) = digit n := by
  rw [digit, Nat.mod_mod, digit]

theorem mem_take_alphabet {c : Char} {k : Nat} (hk : k ≤ alphabet.length) :
    c ∈ alphabet.take k ↔ ∃ n < k, c = digit n := by
  rw [List.mem_take_iff_getElem]
  constructor
  · rintro ⟨n, hn, rfl⟩
    exact ⟨n, (Nat.lt_min.mp hn).1, (digit_eq_getElem (Nat.lt_min.mp hn).2).symm⟩
  · rintro ⟨n, hn, rfl⟩
    have hlt : n < alphabet.length := Nat.lt_of_lt_of_le hn hk
    exact ⟨n, Nat.lt_min.mpr ⟨hn, hlt⟩, (digit_eq_getElem hlt).symm⟩

theorem mem_alphabet {c : Char} : c ∈ alphabet ↔ ∃ n < 32, c = digit n := by
  have h := @mem_take_alphabet c alphabet.length (Nat.le_refl _)
  rwa [List.take_length] at h

theorem value?_eq_some {c : Char} {n : Nat} : value? c = some n ↔ n < 32 ∧ c.toUpper = digit n := by
  constructor
  · intro h
    obtain ⟨hn, hc, _⟩ := List.idxOf?_eq_some_iff.mp h
    exact ⟨hn, by rw [digit_eq_getElem hn, hc]⟩
  · rintro ⟨hn, hc⟩
    have hdigits : ∀ n < 32, alphabet.idxOf? (digit n) = some n := by decide
    rw [value?, hc]
    exact hdigits n hn

theorem toUpper_of_mem_alphabet {c : Char} (h : c ∈ alphabet) : c.toUpper = c := by
  have hupper : ∀ n < 32, (digit n).toUpper = digit n := by decide
  obtain ⟨n, hn, rfl⟩ := mem_alphabet.mp h
  exact hupper n hn

theorem isLower_of_mem_alphabet {c : Char} (h : c ∈ alphabet) : c.isLower = false := by
  have hlower : ∀ n < 32, (digit n).isLower = false := by decide
  obtain ⟨n, hn, rfl⟩ := mem_alphabet.mp h
  exact hlower n hn

theorem value?_digit (n : Nat) : value? (digit n) = some (n % 32) := by
  have hn : n % 32 < 32 := Nat.mod_lt n (by decide)
  rw [← digit_mod]
  exact value?_eq_some.mpr ⟨hn, toUpper_of_mem_alphabet (mem_alphabet.mpr ⟨_, hn, rfl⟩)⟩

/-- A character is itself a digit if its capital is one and it is not a small letter. -/
theorem mem_alphabet_iff_toUpper {c : Char} :
    c ∈ alphabet ↔ c.toUpper ∈ alphabet ∧ c.isLower = false := by
  constructor
  · intro h
    rw [toUpper_of_mem_alphabet h]
    exact ⟨h, isLower_of_mem_alphabet h⟩
  · rintro ⟨h, hc⟩
    have hrange : ¬ ('a'.val ≤ c.val ∧ c.val ≤ 'z'.val) := by
      rintro ⟨hmin, hmax⟩
      have hlower : c.isLower = true :=
        Bool.and_eq_true_iff.mpr ⟨decide_eq_true hmin, decide_eq_true hmax⟩
      exact Bool.false_ne_true (hc.symm.trans hlower)
    have hupper : c.toUpper = c := dif_neg hrange
    rwa [hupper] at h

/-- The number that digits of base 32 stand for, most significant first. -/
def number (ds : List Nat) : Nat :=
  Nat.ofDigits 32 ds.reverse

theorem foldl_eq_number (ds : List Nat) : ds.foldl (fun n d => 32 * n + d) 0 = number ds := by
  rw [number, Nat.ofDigits_eq_foldr, List.foldr_reverse]
  simp only [Nat.cast_id, Nat.add_comm]

theorem number_concat (ds : List Nat) (d : Nat) : number (ds ++ [d]) = 32 * number ds + d := by
  rw [number, List.reverse_concat, Nat.ofDigits_cons, Nat.add_comm]
  rfl

theorem number_cons (d : Nat) (ds : List Nat) :
    number (d :: ds) = 32 ^ ds.length * d + number ds := by
  rw [number, List.reverse_cons, Nat.ofDigits_append, Nat.ofDigits_singleton, List.length_reverse,
    Nat.add_comm]
  rfl

theorem number_lt {ds : List Nat} (h : ∀ d ∈ ds, d < 32) : number ds < 32 ^ ds.length := by
  rw [← List.length_reverse]
  exact Nat.ofDigits_lt_base_pow_length (by decide) fun d hd => h d (List.mem_reverse.mp hd)

/-- The digits of a number are read as the number. -/
theorem mapM_digits (n w : Nat) :
    ∃ ds, (digits n w).mapM value? = some ds ∧ number ds = n % 32 ^ w := by
  induction w generalizing n with
  | zero => exact ⟨[], rfl, by simp [number, Nat.mod_one]⟩
  | succ w ih =>
    obtain ⟨ds, hds, hnumber⟩ := ih (n / 32)
    refine ⟨ds ++ [n % 32], ?_, ?_⟩
    · rw [digits, List.mapM_append, hds, List.mapM_cons, value?_digit, List.mapM_nil]
      rfl
    · rw [number_concat, hnumber, Nat.pow_succ', Nat.mod_mul, Nat.add_comm]

/-- The number that digits stand for has these digits. -/
theorem digits_number {ds : List Nat} (h : ∀ d ∈ ds, d < 32) :
    digits (number ds) ds.length = ds.map digit := by
  induction ds using List.reverseRecOn with
  | nil => rfl
  | append_singleton ds d ih =>
    have hd : d < 32 := h d (List.mem_append_right _ List.mem_cons_self)
    have hquotient : (32 * number ds + d) / 32 = number ds := by omega
    have hremainder : (32 * number ds + d) % 32 = d := by omega
    rw [number_concat, List.length_append, List.length_singleton, digits, hquotient,
      ih fun d hd => h d (List.mem_append_left _ hd), ← digit_mod, hremainder, List.map_append]
    rfl

theorem length_digits (n w : Nat) : (digits n w).length = w := by
  induction w generalizing n with
  | zero => rfl
  | succ w ih => rw [digits, List.length_append, ih, List.length_singleton]

theorem ofText?_text (id : Ulid) : ofText? id.text = some id := by
  obtain ⟨ds, hds, hnumber⟩ := mapM_digits id.bits.toNat width
  have hlt : id.bits.toNat < 32 ^ width := id.bits.isLt.trans (by decide)
  rw [Nat.mod_eq_of_lt hlt] at hnumber
  rw [ofText?, text, String.toList_ofList, if_pos (length_digits _ _), hds, Option.map_some,
    foldl_eq_number, hnumber, BitVec.ofNat_toNat, BitVec.setWidth_eq]

theorem text_inj {id id' : Ulid} (h : id.text = id'.text) : id = id' :=
  Option.some.inj (by rw [← ofText?_text id, h, ofText?_text])

/-- What is read as an identifier: 26 digits, letters in either case. -/
def IsText (s : String) : Prop :=
  s.toList.length = 26 ∧ ∀ c ∈ s.toList, c.toUpper ∈ alphabet

/-- What is written for an identifier: 26 digits, letters in capitals, and the first digit one of
the lower eight. -/
def IsCanonicalText (s : String) : Prop :=
  s.toList.length = 26 ∧ (∀ c ∈ s.toList, c ∈ alphabet) ∧ ∀ c ∈ s.toList.head?, c ∈ alphabet.take 8

/-- The text in capitals, with the first digit less the top two of its five bits. -/
def canonicalText (s : String) : String :=
  match s.toList with
  | [] => ""
  | c :: cs => String.ofList (digit ((value? c).getD 0 % 8) :: cs.map Char.toUpper)

theorem mapM_value?_eq_some {cs : List Char} {ds : List Nat} (h : cs.mapM value? = some ds) :
    (∀ d ∈ ds, d < 32) ∧ cs.map Char.toUpper = ds.map digit := by
  induction cs generalizing ds with
  | nil =>
    obtain rfl : [] = ds := by simpa using h
    exact ⟨by simp, rfl⟩
  | cons c cs ih =>
    obtain ⟨d, ds, hd, hds, rfl⟩ := mapM_cons_eq_some.mp h
    obtain ⟨hlt, hc⟩ := value?_eq_some.mp hd
    obtain ⟨hlts, hcs⟩ := ih hds
    exact ⟨List.forall_mem_cons.mpr ⟨hlt, hlts⟩, by rw [List.map_cons, hc, hcs, List.map_cons]⟩

theorem exists_mapM_value? {cs : List Char} (h : ∀ c ∈ cs, c.toUpper ∈ alphabet) :
    ∃ ds, cs.mapM value? = some ds := by
  induction cs with
  | nil => exact ⟨[], rfl⟩
  | cons c cs ih =>
    obtain ⟨hc, hcs⟩ := List.forall_mem_cons.mp h
    obtain ⟨n, hn, hdigit⟩ := mem_alphabet.mp hc
    obtain ⟨ds, hds⟩ := ih hcs
    exact ⟨n :: ds, mapM_cons_eq_some.mpr ⟨n, ds, value?_eq_some.mpr ⟨hn, hdigit⟩, hds, rfl⟩⟩

/-- Of 26 digits, an identifier keeps all but the top two bits of the first. -/
theorem text_ofNat_number {d : Nat} {ds : List Nat} (hlength : ds.length = 25)
    (h : ∀ e ∈ ds, e < 32) :
    text ⟨.ofNat 128 (number (d :: ds))⟩ = String.ofList (digit (d % 8) :: ds.map digit) := by
  have hlt := number_lt h
  have hkept : number (d :: ds) % 2 ^ 128 = number (d % 8 :: ds) := by
    rw [number_cons, number_cons, hlength]
    rw [hlength] at hlt
    omega
  have hd : ∀ e ∈ d % 8 :: ds, e < 32 :=
    List.forall_mem_cons.mpr ⟨(Nat.mod_lt d (by decide)).trans (by decide), h⟩
  have hwidth : width = (d % 8 :: ds).length := by rw [List.length_cons, hlength, width]
  rw [text, BitVec.toNat_ofNat, hkept, hwidth, digits_number hd, List.map_cons]

theorem text_of_mapM_value? {s : String} (hlength : s.toList.length = 26) {ds : List Nat}
    (h : s.toList.mapM value? = some ds) :
    text ⟨.ofNat 128 (number ds)⟩ = canonicalText s := by
  rw [canonicalText]
  cases hs : s.toList with
  | nil => simp [hs] at hlength
  | cons c cs =>
    rw [hs] at h hlength
    obtain ⟨d, ds, hd, hds, rfl⟩ := mapM_cons_eq_some.mp h
    obtain ⟨hlts, hcs⟩ := mapM_value?_eq_some hds
    have hlengths := congrArg List.length hcs
    rw [List.length_map, List.length_map] at hlengths
    rw [List.length_cons] at hlength
    simp only [hd, Option.getD_some, hcs, text_ofNat_number (by omega : ds.length = 25) hlts]

theorem spec_of_ofText? {s : String} {id : Ulid} (h : ofText? s = some id) :
    IsText s ∧ id.text = canonicalText s := by
  rw [ofText?] at h
  split at h
  · rename_i hlength
    obtain ⟨ds, hds, rfl⟩ := Option.map_eq_some_iff.mp h
    obtain ⟨hlts, hcs⟩ := mapM_value?_eq_some hds
    refine ⟨⟨hlength, fun c hc => ?_⟩, ?_⟩
    · have hmem : c.toUpper ∈ ds.map digit := hcs ▸ List.mem_map_of_mem hc
      obtain ⟨d, hd, hdigit⟩ := List.mem_map.mp hmem
      exact mem_alphabet.mpr ⟨d, hlts d hd, hdigit.symm⟩
    · rw [foldl_eq_number]
      exact text_of_mapM_value? hlength hds
  · cases h

theorem exists_ofText? {s : String} (h : IsText s) : ∃ id, ofText? s = some id := by
  obtain ⟨ds, hds⟩ := exists_mapM_value? h.2
  have hlength : s.toList.length = width := h.1
  exact ⟨_, by rw [ofText?, if_pos hlength, hds, Option.map_some]⟩

/-- What is read, and as what. -/
theorem ofText?_eq_some {s : String} {id : Ulid} :
    ofText? s = some id ↔ IsText s ∧ id.text = canonicalText s := by
  refine ⟨spec_of_ofText?, fun ⟨hs, htext⟩ => ?_⟩
  obtain ⟨id', h⟩ := exists_ofText? hs
  rw [h, text_inj (htext.trans (spec_of_ofText? h).2.symm)]

theorem IsCanonicalText.isText {s : String} (h : IsCanonicalText s) : IsText s :=
  ⟨h.1, fun c hc => by rw [toUpper_of_mem_alphabet (h.2.1 c hc)]; exact h.2.1 c hc⟩

theorem mem_low_digits {c : Char} : c ∈ alphabet.take 8 ↔ ∃ n < 8, c = digit n :=
  mem_take_alphabet (by decide)

/-- Without its top two bits, a low digit is what it was. -/
theorem digit_of_low {c : Char} (h : c ∈ alphabet.take 8) : digit ((value? c).getD 0 % 8) = c := by
  obtain ⟨n, hn, rfl⟩ := mem_low_digits.mp h
  have hlt : n < 32 := hn.trans (by decide)
  rw [value?_digit, Option.getD_some, Nat.mod_eq_of_lt hlt, Nat.mod_eq_of_lt hn]

theorem isCanonicalText_iff_eq {s : String} :
    IsCanonicalText s ↔ IsText s ∧ canonicalText s = s := by
  constructor
  · intro h
    refine ⟨h.isText, ?_⟩
    obtain ⟨hlength, hmem, hfirst⟩ := h
    rw [← String.toList_inj, canonicalText]
    cases hs : s.toList with
    | nil => rfl
    | cons c cs =>
      rw [hs] at hmem hfirst
      obtain ⟨_, hcs⟩ := List.forall_mem_cons.mp hmem
      rw [String.toList_ofList, digit_of_low (hfirst c rfl),
        List.map_congr_left fun c hc => toUpper_of_mem_alphabet (hcs c hc), List.map_id']
  · rintro ⟨⟨hlength, hmem⟩, heq⟩
    rw [canonicalText] at heq
    cases hs : s.toList with
    | nil => simp [hs] at hlength
    | cons c cs =>
      rw [hs] at hmem
      simp only [hs] at heq
      rw [← String.toList_inj, String.toList_ofList, hs] at heq
      obtain ⟨hc, hcs⟩ := List.cons.inj heq
      have hlow : c ∈ alphabet.take 8 :=
        mem_low_digits.mpr ⟨_, Nat.mod_lt _ (by decide), hc.symm⟩
      refine ⟨hlength, ?_, ?_⟩
      · rw [hs]
        refine List.forall_mem_cons.mpr ⟨List.mem_of_mem_take hlow, fun d hd => ?_⟩
        rw [← hcs] at hd
        obtain ⟨e, he, rfl⟩ := List.mem_map.mp hd
        exact hmem e (List.mem_cons_of_mem c he)
      · rw [hs]
        rintro d ⟨⟩
        exact hlow

/-- The canonical texts are those of the identifiers. -/
theorem isCanonicalText_iff {s : String} : IsCanonicalText s ↔ ∃ id : Ulid, s = id.text := by
  rw [isCanonicalText_iff_eq]
  constructor
  · rintro ⟨hs, heq⟩
    obtain ⟨id, h⟩ := exists_ofText? hs
    exact ⟨id, heq.symm.trans (spec_of_ofText? h).2.symm⟩
  · rintro ⟨id, rfl⟩
    obtain ⟨hs, heq⟩ := spec_of_ofText? (ofText?_text id)
    exact ⟨hs, heq.symm⟩

/-- A text that is read is canonical if it has no small letters and begins with one of the lower
eight digits. -/
theorem IsText.isCanonicalText_iff {s : String} (h : IsText s) :
    IsCanonicalText s ↔ (∀ c ∈ s.toList, c.isLower = false) ∧
      ∀ c ∈ s.toList.head?, c.toUpper ∈ alphabet.take 8 := by
  constructor
  · rintro ⟨_, hmem, hfirst⟩
    refine ⟨fun c hc => (mem_alphabet_iff_toUpper.mp (hmem c hc)).2, fun c hc => ?_⟩
    rw [toUpper_of_mem_alphabet (hmem c (List.mem_of_head? hc))]
    exact hfirst c hc
  · rintro ⟨hsmall, hfirst⟩
    have hmem (c : Char) (hc : c ∈ s.toList) : c ∈ alphabet :=
      mem_alphabet_iff_toUpper.mpr ⟨h.2 c hc, hsmall c hc⟩
    refine ⟨h.1, hmem, fun c hc => ?_⟩
    rw [← toUpper_of_mem_alphabet (hmem c (List.mem_of_head? hc))]
    exact hfirst c hc

end Ulid

end WritePlan

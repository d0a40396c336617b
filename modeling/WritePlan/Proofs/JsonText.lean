import Mathlib.Data.List.Forall2
import Mathlib.Data.List.TakeWhile
import WritePlan.Json.Printer
import WritePlan.Json.Reader

namespace WritePlan.Json

/-- The lexer has met the tokens `ts`, the last of them in front. That one may be a bare word that
is not known to be complete. -/
inductive Lexer.Met : Lexer → List Token → Prop
  | between (ts : List Token) : Met ⟨ts, .between⟩ ts
  | bare {chars : List Char} {j : Json} (ts : List Token) (h : bare? chars.reverse = some j) :
    Met ⟨ts, .bare chars⟩ (.scalar j :: ts)

/-- The text is cut into these tokens. -/
def Cuts (cs : List Char) (new : List Token) : Prop :=
  ∀ ts, ∃ l, cs.foldlM Lexer.step ⟨ts, .between⟩ = some l ∧ l.Met (new.reverse ++ ts)

/-- A character that is a token by itself, also right behind a bare word. -/
structure IsMark (c : Char) (t : Token) : Prop where
  notBare : isBare c = false
  plain : ∀ ts, Lexer.plain ts c = some ⟨t :: ts, .between⟩

theorem isMark_comma : IsMark ',' .comma := ⟨rfl, fun _ => rfl⟩
theorem isMark_colon : IsMark ':' .colon := ⟨rfl, fun _ => rfl⟩
theorem isMark_beginArray : IsMark '[' .beginArray := ⟨rfl, fun _ => rfl⟩
theorem isMark_endArray : IsMark ']' .endArray := ⟨rfl, fun _ => rfl⟩
theorem isMark_beginObject : IsMark '\x7b' .beginObject := ⟨rfl, fun _ => rfl⟩
theorem isMark_endObject : IsMark '\x7d' .endObject := ⟨rfl, fun _ => rfl⟩

theorem Lexer.Met.step_mark {l : Lexer} {ts : List Token} (h : l.Met ts) {c : Char} {t : Token}
    (hc : IsMark c t) : l.step c = some ⟨t :: ts, .between⟩ := by
  cases h with
  | between => exact hc.plain ts
  | bare ts h => simp only [Lexer.step, hc.notBare, Bool.false_eq_true, ↓reduceIte, h,
      Option.bind_some, hc.plain]

theorem Cuts.nil : Cuts [] [] :=
  fun ts => ⟨⟨ts, .between⟩, rfl, .between ts⟩

/-- Two texts with a mark between them are cut one after the other. -/
theorem Cuts.append_mark {cs cs' : List Char} {new new' : List Token} (h : Cuts cs new) {c : Char}
    {t : Token} (hc : IsMark c t) (h' : Cuts cs' new') :
    Cuts (cs ++ c :: cs') (new ++ t :: new') := by
  intro ts
  obtain ⟨l, hl, hmet⟩ := h ts
  obtain ⟨l', hl', hmet'⟩ := h' (t :: (new.reverse ++ ts))
  refine ⟨l', ?_, by simpa using hmet'⟩
  rw [List.foldlM_append, hl, Option.bind_eq_bind, Option.bind_some, List.foldlM_cons,
    hmet.step_mark hc]
  exact hl'

theorem Cuts.separated {css : List (List Char)} {tss : List (List Token)}
    (h : List.Forall₂ Cuts css tss) :
    Cuts (List.intercalate [','] css) (List.intercalate [.comma] tss) := by
  induction h with
  | nil => exact .nil
  | cons hcs h ih =>
    cases h with
    | nil => simpa using hcs
    | cons =>
      rw [List.intercalate_cons_cons, List.intercalate_cons_cons]
      simpa using hcs.append_mark isMark_comma ih

theorem tokens?_of_cuts {cs : List Char} {new : List Token} (h : Cuts cs new) :
    tokens? cs = some new := by
  obtain ⟨l, hl, hmet⟩ := h []
  rw [List.append_nil] at hmet
  rw [tokens?, hl, Option.bind_some]
  generalize hr : new.reverse = met at hmet
  obtain rfl : new = met.reverse := List.reverse_eq_iff.mp hr
  cases hmet with
  | between => rfl
  | bare ts hj => simp only [hj, Option.map_some]

theorem plain_of_isBare {c : Char} (h : isBare c = true) (ts : List Token) :
    Lexer.plain ts c = some ⟨ts, .bare [c]⟩ := by
  have hne (d : Char) (hd : isBare d = false) : c ≠ d := by
    rintro rfl
    exact Bool.false_ne_true (hd.symm.trans h)
  have hspace : ¬ (c = ' ' ∨ c = '\t' ∨ c = '\n' ∨ c = '\r') := by
    rintro (hc | hc | hc | hc) <;> exact hne _ (by decide) hc
  simp only [Lexer.plain, hspace, hne '[' rfl, hne ']' rfl, hne '\x7b' rfl, hne '\x7d' rfl,
    hne ':' rfl, hne ',' rfl, hne '"' rfl, h, ↓reduceIte]

theorem foldlM_bare {cs : List Char} (h : cs.all isBare = true) (ts : List Token)
    (chars : List Char) :
    cs.foldlM Lexer.step ⟨ts, .bare chars⟩ = some ⟨ts, .bare (cs.reverse ++ chars)⟩ := by
  induction cs generalizing chars with
  | nil => rfl
  | cons c cs ih =>
    obtain ⟨hc, hcs⟩ := Bool.and_eq_true_iff.mp h
    have hstep : Lexer.step ⟨ts, .bare chars⟩ c = some ⟨ts, .bare (c :: chars)⟩ := if_pos hc
    rw [List.foldlM_cons, hstep, Option.bind_eq_bind, Option.bind_some, ih hcs]
    simp

theorem cuts_bare {cs : List Char} (h : cs.all isBare = true) {j : Json} (hj : bare? cs = some j) :
    Cuts cs [.scalar j] := by
  intro ts
  cases cs with
  | nil => cases hj
  | cons c cs =>
    obtain ⟨hc, hcs⟩ := Bool.and_eq_true_iff.mp h
    refine ⟨⟨ts, .bare (cs.reverse ++ [c])⟩, ?_, .bare ts (by simpa using hj)⟩
    have hstep : Lexer.step ⟨ts, .between⟩ c = some ⟨ts, .bare [c]⟩ := plain_of_isBare hc ts
    rw [List.foldlM_cons, hstep, Option.bind_eq_bind, Option.bind_some, foldlM_bare hcs]

/-- A digit or a sign is not the first character of a word. -/
theorem bare?_eq_number? {c : Char} (h : c.isDigit = true ∨ c = '-') (cs : List Char) :
    bare? (c :: cs) = number? (c :: cs) := by
  have hne (word : String) {d : Char} {ds : List Char} (hword : word.toList = d :: ds)
      (hd : d.isDigit = false ∧ d ≠ '-') : String.ofList (c :: cs) ≠ word := by
    rintro rfl
    obtain ⟨rfl, _⟩ := List.cons.inj (String.toList_ofList.symm.trans hword)
    rcases h with h | h
    · exact Bool.false_ne_true (hd.1.symm.trans h)
    · exact hd.2 h
  simp only [bare?, hne "null" rfl (by decide), hne "true" rfl (by decide),
    hne "false" rfl (by decide), ↓reduceIte]

theorem isDigit_of_mem_toDigits {n : Nat} {c : Char} (h : c ∈ Nat.toDigits 10 n) :
    c.isDigit = true :=
  Nat.isDigit_of_mem_toDigits (by decide) (by decide) h

theorem head?_toDigits {n : Nat} (hn : n ≠ 0) : (Nat.toDigits 10 n).head? ≠ some '0' := by
  induction n using Nat.strongRecOn with
  | _ n ih =>
    by_cases hlt : n < 10
    · have hdigit : ∀ n < 10, n ≠ 0 → n.digitChar ≠ '0' := by decide
      rw [Nat.toDigits_of_lt_base hlt, List.head?_cons]
      exact fun h => hdigit n hlt hn (Option.some.inj h)
    · rw [Nat.toDigits_of_base_le (by decide) (by omega),
        List.head?_append_of_ne_nil _ Nat.toDigits_ne_nil]
      exact ih (n / 10) (by omega) (by omega)

theorem isWholePart_toDigits (n : Nat) : isWholePart (Nat.toDigits 10 n) = true := by
  have hdigits : allDigits (Nat.toDigits 10 n) = true := by
    simp only [allDigits, Bool.and_eq_true, bne_iff_ne, ne_eq, Nat.toDigits_ne_nil,
      not_false_eq_true, List.all_eq_true, true_and]
    exact fun c hc => isDigit_of_mem_toDigits hc
  rw [isWholePart, hdigits, Bool.true_and]
  by_cases hn : n = 0
  · subst hn
    rfl
  · rw [bne_iff_ne.mpr (head?_toDigits hn), Bool.or_true]

theorem takeWhile_toDigits (n : Nat) :
    (Nat.toDigits 10 n).takeWhile Char.isDigit = Nat.toDigits 10 n :=
  List.takeWhile_eq_self_iff.mpr fun _ hc => isDigit_of_mem_toDigits hc

theorem dropWhile_toDigits (n : Nat) : (Nat.toDigits 10 n).dropWhile Char.isDigit = [] :=
  List.dropWhile_eq_nil_iff.mpr fun _ hc => isDigit_of_mem_toDigits hc

theorem foldl_toDigits (n : Nat) :
    (Nat.toDigits 10 n).foldl (fun n c => 10 * n + (c.toNat - '0'.toNat)) 0 = n :=
  Nat.ofDigitChars_toDigits (by decide) (by decide)

theorem number?_toDigits (n : Nat) : number? (Nat.toDigits 10 n) = some (.int n) := by
  have hsign : ((Nat.toDigits 10 n).head? == some '-') = false := by
    rw [beq_eq_false_iff_ne]
    intro h
    cases isDigit_of_mem_toDigits (List.mem_of_head? h)
  simp only [number?, hsign, Bool.false_eq_true, ↓reduceIte, takeWhile_toDigits,
    dropWhile_toDigits, isWholePart_toDigits, Bool.not_true, List.isEmpty_nil, foldl_toDigits]

theorem number?_minus_toDigits {n : Nat} (hn : n ≠ 0) :
    number? ('-' :: Nat.toDigits 10 n) = some (.int (-n)) := by
  simp only [number?, List.head?_cons, beq_self_eq_true, ↓reduceIte, List.drop_succ_cons,
    List.drop_zero, takeWhile_toDigits, dropWhile_toDigits, isWholePart_toDigits, Bool.not_true,
    Bool.false_eq_true, List.isEmpty_nil, foldl_toDigits, hn]

theorem isBare_toDigits (n : Nat) : (Nat.toDigits 10 n).all isBare = true := by
  rw [List.all_eq_true]
  intro c hc
  simp [isBare, Char.isAlphanum, isDigit_of_mem_toDigits hc]

theorem cuts_int (i : Int) : Cuts (toString i).toList [.scalar (.int i)] := by
  rw [Int.toString_eq_repr]
  cases i with
  | ofNat n =>
    have hchars : (Int.repr (.ofNat n)).toList = Nat.toDigits 10 n := Nat.toList_repr
    rw [hchars]
    refine cuts_bare (isBare_toDigits n) ?_
    cases hd : Nat.toDigits 10 n with
    | nil => exact absurd hd Nat.toDigits_ne_nil
    | cons c cs =>
      have hdigit : c.isDigit = true := isDigit_of_mem_toDigits (hd ▸ List.mem_cons_self)
      rw [bare?_eq_number? (.inl hdigit), ← hd]
      exact number?_toDigits n
  | negSucc n =>
    have hchars : (Int.repr (.negSucc n)).toList = '-' :: Nat.toDigits 10 (n + 1) := by
      rw [Int.repr, String.toList_append, Nat.toList_repr]
      rfl
    rw [hchars]
    refine cuts_bare ?_ ?_
    · rw [List.all_cons, isBare_toDigits, Bool.and_true]
      decide
    · rw [bare?_eq_number? (.inr rfl)]
      exact number?_minus_toDigits n.succ_ne_zero

theorem number?_hexDigits {n : Nat} (hn : n < 32) :
    Text.Hex.number? (Text.Hex.digits n 4) = some n := by
  revert n
  decide

/-- The code of a control character is read as the character. -/
theorem foldlM_code {c : Char} (hc : c.toNat < 32) (ts : List Token) (chars : List Char) :
    (Text.Hex.digits c.toNat 4).foldlM Lexer.step ⟨ts, .code chars none []⟩ =
      some ⟨ts, .string (c :: chars)⟩ := by
  have hnumber := number?_hexDigits hc
  have hcode : Lexer.code ts chars none c.toNat = some ⟨ts, .string (c :: chars)⟩ := by
    have hlead : ¬ (0xD800 ≤ c.toNat ∧ c.toNat < 0xDC00) := by omega
    have htrail : ¬ (0xDC00 ≤ c.toNat ∧ c.toNat < 0xE000) := by omega
    simp only [Lexer.code, hlead, htrail, ↓reduceIte, Char.ofNat_toNat]
  simp only [Text.Hex.digits, List.nil_append, List.cons_append] at hnumber ⊢
  simp [Lexer.step, hnumber, hcode]

theorem foldlM_escape (c : Char) (ts : List Token) (chars : List Char) :
    (escape c).foldlM Lexer.step ⟨ts, .string chars⟩ = some ⟨ts, .string (c :: chars)⟩ := by
  rw [escape]
  split_ifs with hquote hslash hcontrol
  · subst hquote
    rfl
  · subst hslash
    rfl
  · rw [List.foldlM_append]
    exact foldlM_code hcontrol ts chars
  · simp [Lexer.step, hquote, hslash, hcontrol]

theorem foldlM_escapes (cs : List Char) (ts : List Token) (chars : List Char) :
    (cs.flatMap escape).foldlM Lexer.step ⟨ts, .string chars⟩ =
      some ⟨ts, .string (cs.reverse ++ chars)⟩ := by
  induction cs generalizing chars with
  | nil => rfl
  | cons c cs ih =>
    rw [List.flatMap_cons, List.foldlM_append, foldlM_escape, Option.bind_eq_bind,
      Option.bind_some, ih, List.reverse_cons, List.append_assoc]
    rfl

theorem cuts_quote (s : String) : Cuts (quote s).toList [.string s] := by
  intro ts
  refine ⟨⟨.string s :: ts, .between⟩, ?_, .between _⟩
  have hopen : Lexer.step ⟨ts, .between⟩ '"' = some ⟨ts, .string []⟩ := rfl
  have hclose (chars : List Char) : Lexer.step ⟨ts, .string chars⟩ '"' =
      some ⟨.string (String.ofList chars.reverse) :: ts, .between⟩ := rfl
  rw [quote, String.toList_ofList, List.cons_append, List.foldlM_cons, hopen,
    Option.bind_eq_bind, Option.bind_some, List.foldlM_append, foldlM_escapes,
    Option.bind_eq_bind, Option.bind_some, List.append_nil, List.foldlM_cons, hclose,
    List.reverse_reverse, String.ofList_toList]
  rfl

/-- The document is read from these tokens, whatever follows them. -/
structure Reads (ts : List Token) (j : Json) : Prop where
  starts : ∃ t rest, ts = t :: rest ∧ t ≠ .endArray
  document : ∀ calls rest, ts.length ≤ calls → document? calls (ts ++ rest) = some (j, rest)

theorem Reads.scalar (j : Json) : Reads [.scalar j] j where
  starts := ⟨_, _, rfl, nofun⟩
  document calls rest h := by
    cases calls with
    | zero => cases h
    | succ n => rfl

theorem Reads.string (s : String) : Reads [.string s] (.string s) where
  starts := ⟨_, _, rfl, nofun⟩
  document calls rest h := by
    cases calls with
    | zero => cases h
    | succ n => rfl

theorem items?_separated {tss : List (List Token)} {items : List Json}
    (h : List.Forall₂ Reads tss items) (hne : items ≠ []) (calls : Nat) (done : List Json)
    (rest : List Token) (hcalls : (List.intercalate [.comma] tss).length < calls) :
    items? calls done (List.intercalate [.comma] tss ++ .endArray :: rest) =
      some (.array (done ++ items), rest) := by
  induction h generalizing calls done with
  | nil => exact absurd rfl hne
  | @cons ts j tss items hts h ih =>
    obtain ⟨n, rfl⟩ : ∃ n, calls = n + 1 := ⟨calls - 1, by omega⟩
    obtain ⟨t, ts', hstarts, _⟩ := hts.starts
    have hlength : 1 ≤ ts.length := by simp [hstarts]
    cases h with
    | nil =>
      rw [List.intercalate_singleton] at hcalls ⊢
      rw [items?, hts.document n _ (by omega)]
    | cons hts' h =>
      rw [List.intercalate_cons_cons] at hcalls ⊢
      simp only [List.length_append, List.length_singleton] at hcalls
      rw [List.append_assoc, List.append_assoc, items?, hts.document n _ (by omega)]
      simp only [List.singleton_append]
      rw [ih (List.cons_ne_nil _ _) n (done ++ [j]) (by omega), List.append_assoc,
        List.singleton_append]

theorem Reads.array {tss : List (List Token)} {items : List Json}
    (h : List.Forall₂ Reads tss items) :
    Reads (.beginArray :: (List.intercalate [.comma] tss ++ [.endArray])) (.array items) where
  starts := ⟨_, _, rfl, nofun⟩
  document calls rest hcalls := by
    obtain ⟨n, rfl⟩ : ∃ n, calls = n + 1 := ⟨calls - 1, by simp at hcalls; omega⟩
    have hopen {ts : List Token} (hts : ∃ t rest, ts = t :: rest ∧ t ≠ .endArray) :
        document? (n + 1) (.beginArray :: ts) = items? n [] ts := by
      obtain ⟨t, rest, rfl, hne⟩ := hts
      cases t <;> first | rfl | exact absurd rfl hne
    cases h with
    | nil => rfl
    | @cons ts j tss items hts h =>
      have hitems := items?_separated (.cons hts h) (List.cons_ne_nil _ _) n [] rest
        (by simp at hcalls ⊢; omega)
      obtain ⟨t, ts', rfl, hne⟩ := hts.starts
      rw [List.cons_append, List.append_assoc, List.singleton_append, hopen, hitems,
        List.nil_append]
      cases tss with
      | nil => exact ⟨t, _, rfl, hne⟩
      | cons => exact ⟨t, _, by rw [List.intercalate_cons_cons]; rfl, hne⟩

/-- The field is read from its name, a colon and the tokens of its document. -/
def ReadsField (ts : List Token) (f : String × Json) : Prop :=
  ∃ rest, ts = .string f.1 :: .colon :: rest ∧ Reads rest f.2

theorem setField_of_not_mem {fields : List (String × Json)} {key : String}
    (h : key ∉ fields.map (·.1)) (j : Json) : setField fields key j = fields ++ [(key, j)] := by
  rw [setField, List.filter_eq_self.mpr fun f hf => ?_]
  exact bne_iff_ne.mpr fun hkey => h (List.mem_map.mpr ⟨f, hf, hkey⟩)

theorem fields?_separated {tss : List (List Token)} {fields : List (String × Json)}
    (h : List.Forall₂ ReadsField tss fields) (hne : fields ≠ []) (calls : Nat)
    (done : List (String × Json)) (hn : ((done ++ fields).map (·.1)).Nodup) (rest : List Token)
    (hcalls : (List.intercalate [.comma] tss).length < calls) :
    fields? calls done (List.intercalate [.comma] tss ++ .endObject :: rest) =
      some (.object (done ++ fields), rest) := by
  induction h generalizing calls done with
  | nil => exact absurd rfl hne
  | @cons ts f tss fields hts h ih =>
    obtain ⟨n, rfl⟩ : ∃ n, calls = n + 1 := ⟨calls - 1, by omega⟩
    obtain ⟨key, j⟩ := f
    obtain ⟨ts, rfl, hreads⟩ := hts
    have hkey : key ∉ done.map (·.1) := by
      rw [List.map_append] at hn
      exact fun hmem => (List.nodup_append.mp hn).2.2 key hmem key List.mem_cons_self rfl
    cases h with
    | nil =>
      rw [List.intercalate_singleton] at hcalls ⊢
      simp only [List.length_cons] at hcalls
      rw [List.cons_append, List.cons_append, fields?, hreads.document n _ (by omega)]
      simp only [setField_of_not_mem hkey]
    | cons hts' h =>
      rw [List.intercalate_cons_cons] at hcalls ⊢
      simp only [List.length_append, List.length_cons, List.length_nil] at hcalls
      rw [List.append_assoc, List.append_assoc, List.cons_append, List.cons_append, fields?,
        hreads.document n _ (by omega)]
      simp only [List.singleton_append, setField_of_not_mem hkey]
      rw [ih (List.cons_ne_nil _ _) n (done ++ [(key, j)]) (by simpa using hn) (by omega),
        List.append_assoc, List.singleton_append]

theorem Reads.object {tss : List (List Token)} {fields : List (String × Json)}
    (h : List.Forall₂ ReadsField tss fields) (hn : (fields.map (·.1)).Nodup) :
    Reads (.beginObject :: (List.intercalate [.comma] tss ++ [.endObject])) (.object fields) where
  starts := ⟨_, _, rfl, nofun⟩
  document calls rest hcalls := by
    obtain ⟨n, rfl⟩ : ∃ n, calls = n + 1 := ⟨calls - 1, by simp at hcalls; omega⟩
    cases h with
    | nil => rfl
    | @cons ts f tss fields hts h =>
      have hfields := fields?_separated (.cons hts h) (List.cons_ne_nil _ _) n [] hn rest
        (by simp at hcalls ⊢; omega)
      have hopen (ts : List Token) :
          document? (n + 1) (.beginObject :: .string f.1 :: ts) = fields? n [] (.string f.1 :: ts) :=
        rfl
      obtain ⟨ts, rfl, _⟩ := hts
      rw [List.nil_append] at hfields
      rw [List.cons_append, List.append_assoc, List.singleton_append, ← hfields]
      cases tss with
      | nil => exact hopen _
      | cons =>
        rw [List.intercalate_cons_cons]
        exact hopen _

/-- The document is read from the text. -/
def Spells (cs : List Char) (j : Json) : Prop :=
  ∃ ts, Cuts cs ts ∧ Reads ts j

/-- The text of each of several parts is cut into tokens of its own. -/
theorem exists_tokens {α : Type} {reads : List Token → α → Prop} {chars : α → List Char}
    {parts : List α} (h : ∀ a ∈ parts, ∃ ts, Cuts (chars a) ts ∧ reads ts a) :
    ∃ tss, List.Forall₂ Cuts (parts.map chars) tss ∧ List.Forall₂ reads tss parts := by
  induction parts with
  | nil => exact ⟨[], .nil, .nil⟩
  | cons a parts ih =>
    obtain ⟨⟨ts, hcuts, hreads⟩, hparts⟩ := List.forall_mem_cons.mp h
    obtain ⟨tss, hcutss, hreadss⟩ := ih hparts
    exact ⟨ts :: tss, .cons hcuts hcutss, .cons hreads hreadss⟩

theorem Cuts.enclosed {cs : List Char} {ts : List Token} (h : Cuts cs ts) {c d : Char}
    {t u : Token} (hc : IsMark c t) (hd : IsMark d u) :
    Cuts (c :: (cs ++ [d])) (t :: (ts ++ [u])) :=
  Cuts.nil.append_mark hc (h.append_mark hd .nil)

theorem renderItems_eq_map (items : List Json) : renderItems items = items.map render := by
  induction items with
  | nil => rfl
  | cons j items ih => rw [renderItems, ih, List.map_cons]

theorem renderFields_eq_map (fields : List (String × Json)) :
    renderFields fields = fields.map fun f => quote f.1 ++ ":" ++ render f.2 := by
  induction fields with
  | nil => rfl
  | cons f fields ih =>
    obtain ⟨key, j⟩ := f
    rw [renderFields, ih, List.map_cons]

theorem Spells.array {items : List Json} (h : ∀ j ∈ items, Spells j.render.toList j) :
    Spells (render (.array items)).toList (.array items) := by
  obtain ⟨tss, hcuts, hreads⟩ := exists_tokens h
  refine ⟨_, ?_, .array hreads⟩
  have hchars : (render (.array items)).toList =
      '[' :: (List.intercalate [','] (items.map fun j => j.render.toList) ++ [']']) := by
    simp [render, renderItems_eq_map, String.toList_intercalate, Function.comp_def]
  rw [hchars]
  exact (Cuts.separated hcuts).enclosed isMark_beginArray isMark_endArray

theorem Spells.field {f : String × Json} (h : Spells f.2.render.toList f.2) :
    ∃ ts, Cuts ((quote f.1).toList ++ ':' :: f.2.render.toList) ts ∧ ReadsField ts f := by
  obtain ⟨ts, hcuts, hreads⟩ := h
  exact ⟨_, (cuts_quote f.1).append_mark isMark_colon hcuts, ts, rfl, hreads⟩

theorem Spells.object {fields : List (String × Json)} (hn : (fields.map (·.1)).Nodup)
    (h : ∀ f ∈ fields, Spells f.2.render.toList f.2) :
    Spells (render (.object fields)).toList (.object fields) := by
  obtain ⟨tss, hcuts, hreads⟩ := exists_tokens fun f hf => (h f hf).field
  refine ⟨_, ?_, .object hreads hn⟩
  have hchars : (render (.object fields)).toList = '\x7b' :: (List.intercalate [',']
      (fields.map fun f => (quote f.1).toList ++ ':' :: f.2.render.toList) ++ ['\x7d']) := by
    simp [render, renderFields_eq_map, String.toList_intercalate, Function.comp_def]
  rw [hchars]
  exact (Cuts.separated hcuts).enclosed isMark_beginObject isMark_endObject

/-- Documents that can stand in a text: what is kept as written is a number, and no object has two
fields of one name. -/
inductive Plain : Json → Prop
  | null : Plain .null
  | bool (b : Bool) : Plain (.bool b)
  | int (i : Int) : Plain (.int i)
  | real (literal : String) (hbare : literal.toList.all isBare = true)
    (hliteral : bare? literal.toList = some (.real literal)) : Plain (.real literal)
  | string (s : String) : Plain (.string s)
  | array (items : List Json) (h : ∀ j ∈ items, Plain j) : Plain (.array items)
  | object (fields : List (String × Json)) (hn : (fields.map (·.1)).Nodup)
    (h : ∀ f ∈ fields, Plain f.2) : Plain (.object fields)

theorem Plain.spells {j : Json} (h : j.Plain) : Spells j.render.toList j := by
  induction h with
  | null => exact ⟨_, cuts_bare rfl rfl, .scalar .null⟩
  | bool b => cases b <;> exact ⟨_, cuts_bare rfl rfl, .scalar (.bool _)⟩
  | int i => exact ⟨_, cuts_int i, .scalar (.int i)⟩
  | real literal hbare hliteral => exact ⟨_, cuts_bare hbare hliteral, .scalar (.real literal)⟩
  | string s => exact ⟨_, cuts_quote s, .string s⟩
  | array items _ ih => exact .array ih
  | object fields hn _ ih => exact .object hn ih

/-- A document is read back from its text. -/
theorem Plain.parse?_render {j : Json} (h : j.Plain) : parse? j.render = some j := by
  obtain ⟨ts, hcuts, hreads⟩ := h.spells
  have hdocument := hreads.document (ts.length + 1) [] (Nat.le_succ _)
  rw [List.append_nil] at hdocument
  rw [parse?, tokens?_of_cuts hcuts, Option.bind_some, hdocument]

end WritePlan.Json

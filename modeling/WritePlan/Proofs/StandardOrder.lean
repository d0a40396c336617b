import Mathlib.Data.List.Basic
import WritePlan.Proofs.Sorting

namespace WritePlan

/-- The comparison puts all elements in one row, in which only those stand at one place that `tie`
relates. -/
structure OrdersUpTo {α : Type} (cmp : α → α → Ordering) (tie : α → α → Prop) : Prop where
  swap : ∀ a b, cmp a b = (cmp b a).swap
  trans : ∀ a b c, (cmp a b).isLE = true → (cmp b c).isLE = true → (cmp a c).isLE = true
  eq_iff : ∀ a b, cmp a b = .eq ↔ tie a b

theorem OrdersUpTo.of_transCmp {α : Type} {cmp : α → α → Ordering} [Std.TransCmp cmp]
    {tie : α → α → Prop} (h : ∀ a b, cmp a b = .eq ↔ tie a b) : OrdersUpTo cmp tie :=
  ⟨fun _ _ => Std.OrientedCmp.eq_swap, fun _ _ _ => Std.TransCmp.isLE_trans, h⟩

/-- A comparison whose ties are equalities puts lists in the order of a dictionary. -/
theorem compare_list_eq_lt_iff {α : Type} [Ord α] [Std.LawfulEqOrd α] {before : α → α → Prop}
    (h : ∀ a b : α, compare a b = .lt ↔ before a b) (as bs : List α) :
    compare as bs = .lt ↔ List.Lex before as bs := by
  induction as generalizing bs with
  | nil => cases bs <;> simp
  | cons a as ih =>
    cases bs with
    | nil => simp
    | cons b bs =>
      rw [List.compare_cons_cons, Ordering.then_eq_lt, Std.LawfulEqOrd.compare_eq_iff_eq, h, ih,
        List.cons_lex_cons_iff]

/-- Of two characters the smaller one has the smaller code, whatever follows: a longer code begins
with a greater byte, and codes of one length are the digits of the characters' numbers. -/
theorem utf8EncodeChar_lt {c d : Char} (h : c < d) (xs ys : List UInt8) :
    String.utf8EncodeChar c ++ xs < String.utf8EncodeChar d ++ ys := by
  have hlt : c.val.toNat < d.val.toNat := h
  have hbound : d.val.toNat < 0x110000 := by
    have hvalid := d.valid
    simp only [UInt32.isValidChar, Nat.isValidChar] at hvalid
    omega
  unfold String.utf8EncodeChar
  simp only
  generalize c.val.toNat = v at *
  generalize d.val.toNat = w at *
  -- a digit is what is left of the number before it
  have hv2 : v / 64 / 64 = v / 4096 := Nat.div_div_eq_div_mul ..
  have hv3 : v / 4096 / 64 = v / 262144 := Nat.div_div_eq_div_mul ..
  have hw2 : w / 64 / 64 = w / 4096 := Nat.div_div_eq_div_mul ..
  have hw3 : w / 4096 / 64 = w / 262144 := Nat.div_div_eq_div_mul ..
  split_ifs <;>
    simp (disch := omega) only [List.cons_append, List.nil_append, List.cons_lt_cons_iff,
      UInt8.lt_iff_toNat_lt, ← UInt8.toNat_inj, UInt8.toNat_ofNat', Nat.mod_eq_of_lt] <;>
    omega

theorem flatMap_utf8EncodeChar_lt {cs ds : List Char} (h : cs < ds) :
    cs.flatMap String.utf8EncodeChar < ds.flatMap String.utf8EncodeChar := by
  induction cs generalizing ds with
  | nil =>
    cases ds with
    | nil => simp at h
    | cons d ds =>
      rw [List.flatMap_nil, List.flatMap_cons]
      obtain ⟨b, bs, hbs⟩ := List.exists_cons_of_ne_nil (String.utf8EncodeChar_ne_nil (c := d))
      simp [hbs]
  | cons c cs ih =>
    cases ds with
    | nil => simp at h
    | cons d ds =>
      rw [List.flatMap_cons, List.flatMap_cons]
      rcases List.cons_lt_cons_iff.mp h with hcd | ⟨rfl, hrest⟩
      · exact utf8EncodeChar_lt hcd _ _
      · exact List.append_left_lt (ih hrest)

/-- The bytes in which a text is stored. -/
def utf8Bytes (s : String) : List UInt8 :=
  s.toUTF8.data.toList

theorem utf8Bytes_eq (s : String) : utf8Bytes s = s.toList.flatMap String.utf8EncodeChar := by
  have h : s.toByteArray = s.toList.utf8Encode := by
    rw [← String.toByteArray_ofList, String.ofList_toList]
  rw [utf8Bytes, String.toUTF8_eq_toByteArray, h, List.utf8Encode]
  simp

theorem utf8Bytes_lt_iff {s t : String} : utf8Bytes s < utf8Bytes t ↔ s < t := by
  have hforth {s t : String} (h : s < t) : utf8Bytes s < utf8Bytes t := by
    rw [utf8Bytes_eq, utf8Bytes_eq]
    exact flatMap_utf8EncodeChar_lt (String.lt_iff.mp h)
  refine ⟨fun h => ?_, hforth⟩
  by_contra hst
  by_cases hle : s ≤ t
  · obtain rfl := String.le_antisymm hle (String.not_lt.mp hst)
    exact List.lt_irrefl _ h
  · exact List.lt_asymm h (hforth (String.not_le.mp hle))

theorem compare_text_eq_lt_iff {s t : String} :
    compare s t = .lt ↔ List.Lex (· < ·) (utf8Bytes s) (utf8Bytes t) := by
  have h : compare s t = compareOfLessAndEq s t := rfl
  rw [h, compareOfLessAndEq_eq_lt]
  exact utf8Bytes_lt_iff.symm

namespace Value

/-- The kinds of values, the lowest first. -/
def kindsInOrder : List String :=
  ["null", "bool", "int", "uint", "text", "blob", "ulid"]

/-- What is before what within one kind: numbers and ids by what they count, texts and blobs byte by
byte, as words in a dictionary. -/
def PayloadBefore : Value → Value → Prop
  | bool a, bool b => a = false ∧ b = true
  | int i, int j => i.toInt < j.toInt
  | uint a, uint b => a.toNat < b.toNat
  | text s, text t => List.Lex (· < ·) (utf8Bytes s) (utf8Bytes t)
  | blob as, blob bs => List.Lex (· < ·) as bs
  | ulid a, ulid b => a.bits.toNat < b.bits.toNat
  | _, _ => False

def Before (v w : Value) : Prop :=
  kindsInOrder.idxOf v.kind < kindsInOrder.idxOf w.kind ∨ v.PayloadBefore w

theorem idxOf_kind (v : Value) : kindsInOrder.idxOf v.kind = v.rank := by
  cases v <;> simp [kindsInOrder, kind, rank]

theorem not_payloadBefore_of_rank_ne {v w : Value} (h : v.rank ≠ w.rank) :
    ¬ v.PayloadBefore w := by
  cases v <;> cases w <;> simp_all [PayloadBefore, rank]

theorem compare_payload_eq_lt_iff {v w : Value} (h : v.rank = w.rank) :
    v.order w = .lt ↔ v.PayloadBefore w := by
  cases v <;> cases w <;> simp [rank] at h
  case null.null => simp [order, PayloadBefore]
  case bool.bool a b =>
    change compare a b = .lt ↔ a = false ∧ b = true
    decide +revert
  case int.int i j => exact compareOfLessAndEq_eq_lt.trans Int64.lt_iff_toInt_lt
  case uint.uint a b => exact compareOfLessAndEq_eq_lt.trans UInt64.lt_iff_toNat_lt
  case text.text s t => exact compare_text_eq_lt_iff
  case blob.blob as bs =>
    exact compare_list_eq_lt_iff (fun a b => compareOfLessAndEq_eq_lt) as bs
  case ulid.ulid a b => exact compareOfLessAndEq_eq_lt.trans BitVec.lt_def

theorem compare_eq_lt_iff (v w : Value) : compare v w = .lt ↔ v.Before w := by
  change v.order w = .lt ↔ _
  rw [Before, idxOf_kind, idxOf_kind]
  by_cases h : v.rank = w.rank
  · rw [compare_payload_eq_lt_iff h, or_iff_right (h ▸ Nat.lt_irrefl _)]
  · rw [order_of_rank_ne h, or_iff_left (not_payloadBefore_of_rank_ne h), Nat.compare_eq_lt]

/-- Two values compare equal only if they are. -/
instance : Std.LawfulEqOrd Value where
  eq_of_compare := by
    intro v w h
    change v.order w = .eq at h
    by_cases hrank : v.rank = w.rank
    · cases v <;> cases w <;> simp [rank] at hrank
      case null.null => rfl
      case bool.bool a b => exact congrArg bool (Std.LawfulEqOrd.eq_of_compare h)
      case int.int i j => exact congrArg int (Std.LawfulEqOrd.eq_of_compare h)
      case uint.uint a b => exact congrArg uint (Std.LawfulEqOrd.eq_of_compare h)
      case text.text s t => exact congrArg text (Std.LawfulEqOrd.eq_of_compare h)
      case blob.blob as bs => exact congrArg blob (Std.LawfulEqOrd.eq_of_compare h)
      case ulid.ulid a b =>
        have hbits : a.bits = b.bits := Std.LawfulEqOrd.eq_of_compare h
        exact congrArg (ulid ∘ Ulid.mk) hbits
    · rw [order_of_rank_ne hrank, Nat.compare_eq_eq] at h
      exact absurd h hrank

end Value

namespace Comparer

theorem rank_inj {a b : EntityState} : rank a = rank b ↔ a = b := by
  cases a <;> cases b <;> simp [rank]

theorem standard_eq_eq_iff {m : Model} {t : Snapshot} (v w : RowWrite) :
    standard m t v w = .eq ↔ v.table.schema = w.table.schema ∧ v.table.name = w.table.name ∧
      v.state t = w.state t ∧ v.keyValues m t = w.keyValues m t := by
  simp only [standard, Ordering.then_eq_eq, Std.LawfulEqOrd.compare_eq_iff_eq, rank_inj]

end Comparer

/-- The standard order is total, and two writes tie only if they have the same schema, table, kind
and key. It ends in an order of values in which nothing ties but equals. -/
theorem standard_orders_writes (m : Model) (t : Snapshot) :
    OrdersUpTo (Comparer.standard m t) (fun v w =>
      v.table.schema = w.table.schema ∧ v.table.name = w.table.name ∧
        v.state t = w.state t ∧ v.keyValues m t = w.keyValues m t) ∧
      OrdersUpTo (compare : Value → Value → Ordering) Eq ∧
      OrdersUpTo (compare : List Value → List Value → Ordering) Eq ∧
      (∀ v w : Value, compare v w = .lt ↔ v.Before w) ∧
      ∀ vs ws : List Value, compare vs ws = .lt ↔ List.Lex Value.Before vs ws := by
  refine ⟨.of_transCmp Comparer.standard_eq_eq_iff, .of_transCmp fun v w => ?_,
    .of_transCmp fun vs ws => ?_, Value.compare_eq_lt_iff, ?_⟩
  · exact Std.LawfulEqOrd.compare_eq_iff_eq
  · exact Std.LawfulEqOrd.compare_eq_iff_eq
  · exact compare_list_eq_lt_iff Value.compare_eq_lt_iff

end WritePlan

import TextLines.Proofs.Charset.WellFormed
import TextLines.Proofs.Json.Grammar

/-!
# JSON texts in Unicode

What is written for a value is ASCII, but for the bytes of strings from 0x80 up, which are written
as they are. So the text of a value is well-formed UTF-8 exactly if all strings in the value are
(`Json.WellFormed.isUtf8_render_iff`), names of fields included.
-/

namespace TextLines

open Bytes

namespace Json

/-- All strings in a value are well-formed UTF-8. -/
inductive IsUnicode : Json → Prop where
  | null : IsUnicode .null
  | bool (b : Bool) : IsUnicode (.bool b)
  | number (n : Numeral) : IsUnicode (.number n)
  | string {value : Bytes} (h : IsUtf8 value) : IsUnicode (.string value)
  | array {items : List Json} (h : ∀ item ∈ items, IsUnicode item) : IsUnicode (.array items)
  | object {fields : List (Bytes × Json)} (hnames : ∀ field ∈ fields, IsUtf8 field.1)
      (hvalues : ∀ field ∈ fields, IsUnicode field.2) : IsUnicode (.object fields)

theorem isUnicode_string_iff {value : Bytes} : IsUnicode (.string value) ↔ IsUtf8 value :=
  ⟨fun h => by cases h with | string h => exact h, .string⟩

theorem isUnicode_array_iff {items : List Json} :
    IsUnicode (.array items) ↔ ∀ item ∈ items, IsUnicode item :=
  ⟨fun h => by cases h with | array h => exact h, .array⟩

theorem isUnicode_object_iff {fields : List (Bytes × Json)} :
    IsUnicode (.object fields) ↔ ∀ field ∈ fields, IsUtf8 field.1 ∧ IsUnicode field.2 := by
  constructor
  · intro h
    cases h with
    | object hnames hvalues => exact fun field hfield => ⟨hnames field hfield, hvalues field hfield⟩
  · exact fun h => .object (fun field hfield => (h field hfield).1)
      fun field hfield => (h field hfield).2

/-! ## Numbers -/

theorem isAscii_of_digits {text : Bytes} (h : ∀ b ∈ text, isDigit b = true) : IsAscii text := by
  intro b hb
  have hdigit := h b hb
  rw [isDigit, Bool.and_eq_true, decide_eq_true_eq, decide_eq_true_eq] at hdigit
  exact UInt8.lt_of_le_of_lt hdigit.2 (by decide)

theorem IsAscii.append {front back : Bytes} (hfront : IsAscii front) (hback : IsAscii back) :
    IsAscii (front ++ back) :=
  List.forall_mem_append.mpr ⟨hfront, hback⟩

theorem isAscii_exponentText (x : Int) : IsAscii (Numeral.exponentText x) := by
  have hdigits := isAscii_of_digits (digits_twoDigits x.natAbs).1.2
  rw [Numeral.exponentText]
  split
  · exact IsAscii.append (by decide) hdigits
  · exact IsAscii.append (by decide) hdigits

theorem isAscii_render_numeral {n : Numeral} (h : ∀ b ∈ n.decimals, isDigit b = true) :
    IsAscii n.render := by
  have hwhole := isAscii_of_digits (whole_decimal n.whole).1.2
  refine IsAscii.append (IsAscii.append (IsAscii.append ?_ hwhole) ?_) ?_
  · split
    · decide
    · exact List.forall_mem_nil _
  · split
    · exact List.forall_mem_nil _
    · exact List.forall_mem_cons.mpr ⟨by decide, isAscii_of_digits h⟩
  · split
    · exact isAscii_exponentText _
    · exact List.forall_mem_nil _

/-! ## Strings -/

theorem escapeByte_of_ascii : ∀ n < 0x80, IsAscii (escapeByte (UInt8.ofNat n)) ∧
    escapeByte (UInt8.ofNat n) ≠ [] := by
  decide +kernel

/-- A byte that is part of a longer character is written as it is. -/
theorem escapeByte_of_not_ascii {b : UInt8} (hb : 0x80 ≤ b) : escapeByte b = [b] := by
  have hne : ∀ c < 0x80, (b == c) = false := by
    intro c hc
    rw [beq_eq_false_iff_ne]
    rintro rfl
    exact absurd hc (UInt8.not_lt.mpr hb)
  have hlarge : ¬ b < 32 := UInt8.not_lt.mpr (UInt8.le_trans (by decide) hb)
  rw [escapeByte, hne backslash (by decide), hne quote (by decide), hne lf (by decide),
    hne cr (by decide), hne 9 (by decide), if_neg hlarge]
  rfl

theorem isUtf8_renderString_iff {value : Bytes} : IsUtf8 (renderString value) ↔ IsUtf8 value := by
  have hquote : IsAscii [quote] := by decide
  have hascii : ∀ b < (0x80 : UInt8), IsAscii (escapeByte b) ∧ escapeByte b ≠ [] := by
    intro b hb
    have hescape := escapeByte_of_ascii b.toNat (UInt8.lt_iff_toNat_lt.mp hb)
    rwa [UInt8.ofNat_toNat] at hescape
  rw [renderString, List.cons_append, ← List.singleton_append, isUtf8_append_iff_right hquote,
    isUtf8_append_iff_left hquote,
    isUtf8_flatMap_iff hascii fun _ => escapeByte_of_not_ascii]

/-! ## Values -/

/-- What is written for a value is well-formed if all strings in it are, and only then. -/
theorem WellFormed.isUtf8_render_iff {value : Json} (h : value.WellFormed) :
    IsUtf8 value.render ↔ value.IsUnicode := by
  have hcomma : IsAscii (ascii ",") ∧ ascii "," ≠ [] := by decide
  induction h with
  | null => exact iff_of_true (IsAscii.isUtf8 (by decide)) .null
  | bool b => cases b <;> exact iff_of_true (IsAscii.isUtf8 (by decide)) (.bool _)
  | number h => exact iff_of_true (isAscii_render_numeral h).isUtf8 (.number _)
  | string value =>
    rw [render, isUtf8_renderString_iff, isUnicode_string_iff]
  | @array items h ih =>
    rw [render, renderItems_eq_map, isUtf8_append_iff_left (by decide),
      isUtf8_append_iff_right (by decide), isUtf8_join_iff hcomma.1 hcomma.2, List.forall_mem_map,
      isUnicode_array_iff]
    exact forall₂_congr ih
  | @object fields h ih =>
    rw [render, renderFields_eq_map, isUtf8_append_iff_left (by decide),
      isUtf8_append_iff_right (by decide), isUtf8_join_iff hcomma.1 hcomma.2, List.forall_mem_map,
      isUnicode_object_iff]
    refine forall₂_congr fun field hfield => ?_
    rw [List.append_assoc, isUtf8_append_append_iff (by decide) (by decide),
      isUtf8_renderString_iff]
    exact and_congr_right fun _ => ih field hfield

end Json

end TextLines

import TextLines.CommandLine.Number
import TextLines.Json.Basic
import TextLines.Proofs.Charset.Units

/-!
# The grammar of JSON texts

`Json.Says` relates a text to the value it stands for, for texts of any make: with blanks, with
escapes of every kind, with numbers in every form. It is a grammar over bytes, so that strings can
hold any bytes that are not reserved.

* `Json.Blank` are the blanks, which may surround every value, name and colon.
* `Json.Letters` is what stands between the quotation marks of a string. A character that is escaped
  by its number stands for its UTF-8 form; two escaped halves stand for one character, and a half
  alone has no meaning.
* `Json.Figures` are the numbers.
* `Json.Entry` is what stands between two commas, with a name in objects and without one in arrays.

`Json.WellFormed.says_render` says that what is written for a value is a text of the grammar that
stands for the value.
-/

namespace TextLines

open Bytes

namespace Json

/-! ## Bytes with a meaning -/

/-- What opens an array. -/
def openArray : UInt8 := 91

/-- What closes an array. -/
def closeArray : UInt8 := 93

/-- What opens an object. -/
def openObject : UInt8 := 123

/-- What closes an object. -/
def closeObject : UInt8 := 125

/-- What stands between entries. -/
def comma : UInt8 := 44

/-- What stands between a name and its value. -/
def colon : UInt8 := 58

/-- The sign of a negative number. -/
def minus : UInt8 := 45

/-- A sign that may stand in front of a positive power. -/
def plus : UInt8 := 43

/-- The blanks. -/
def isBlank (b : UInt8) : Bool :=
  b == 32 || b == 9 || b == lf || b == cr

/-- Nothing but blanks. -/
def Blank (text : Bytes) : Prop :=
  ∀ b ∈ text, isBlank b = true

/-! ## Strings -/

/-- The value of a hexadecimal digit. -/
def hexValue? (b : UInt8) : Option Nat :=
  if isDigit b then some (b.toNat - 48)
  else if 97 ≤ b ∧ b ≤ 102 then some (b.toNat - 87)
  else if 65 ≤ b ∧ b ≤ 70 then some (b.toNat - 55)
  else none

/-- The number that four hexadecimal digits write. -/
def unit? (a b c d : UInt8) : Option Nat := do
  let a ← hexValue? a
  let b ← hexValue? b
  let c ← hexValue? c
  let d ← hexValue? d
  return ((a * 16 + b) * 16 + c) * 16 + d

/-- The bytes that can be escaped by a single one behind the backslash, with that one first. -/
def shortEscapes : List (UInt8 × UInt8) :=
  [(quote, quote), (backslash, backslash), (slash, slash), (98, 8), (102, 12), (110, lf), (114, cr),
    (116, 9)]

/-- The text of a single character in a string, and the bytes that it stands for. -/
inductive Letter : Bytes → Bytes → Prop where
  | plain {b : UInt8} (hcode : 32 ≤ b) (hquote : b ≠ quote) (hbackslash : b ≠ backslash) :
      Letter [b] [b]
  | short {code b : UInt8} (h : (code, b) ∈ shortEscapes) : Letter [backslash, code] [b]
  | unit {a b c d : UInt8} {n : Nat} (h : unit? a b c d = some n)
      (hhalf : Charset.isSurrogate n = false) :
      Letter [backslash, 117, a, b, c, d] (Charset.encodeUtf8 n)
  | pair {a b c d a' b' c' d' : UInt8} {n n' : Nat} (h : unit? a b c d = some n)
      (hhigh : Charset.IsHigh n) (h' : unit? a' b' c' d' = some n') (hlow : Charset.IsLow n') :
      Letter [backslash, 117, a, b, c, d, backslash, 117, a', b', c', d']
        (Charset.encodeUtf8 (Charset.pairCode n n'))

/-- What stands between the quotation marks of a string, and the bytes of the string. -/
inductive Letters : Bytes → Bytes → Prop where
  | nil : Letters [] []
  | cons {front bytes text value : Bytes} (hletter : Letter front bytes)
      (hrest : Letters text value) : Letters (front ++ text) (bytes ++ value)

/-! ## Numbers -/

/-- Digits, at least one. -/
def Digits (text : Bytes) : Prop :=
  text ≠ [] ∧ ∀ b ∈ text, isDigit b = true

/-- The digits in front of the point. The first of several is not zero. -/
def Whole (text : Bytes) : Prop :=
  Digits text ∧ (text.head? = some (digit 0) → text = [digit 0])

/-- The point and the digits behind it. -/
inductive Fraction : Bytes → Bytes → Prop where
  | absent : Fraction [] []
  | digits {text : Bytes} (h : Digits text) : Fraction (dot :: text) text

/-- The sign of a power of ten, and whether it makes it negative. -/
inductive Sign : Bytes → Bool → Prop where
  | absent : Sign [] false
  | plus : Sign [plus] false
  | minus : Sign [minus] true

/-- A whole number by its sign and its absolute value. -/
def signed (negative : Bool) (n : Nat) : Int :=
  if negative then -n else n

/-- The power of ten. -/
inductive Power : Bytes → Option Int → Prop where
  | absent : Power [] none
  | present {e : UInt8} {sign digits : Bytes} {negative : Bool} (he : e = 101 ∨ e = 69)
      (hsign : Sign sign negative) (hdigits : Digits digits) :
      Power (e :: (sign ++ digits)) (some (signed negative (Number.ofDigits digits)))

/-- The text of a number. -/
inductive Figures : Bytes → Numeral → Prop where
  | intro {negative : Bool} {whole fraction decimals power : Bytes} {exponent : Option Int}
      (hwhole : Whole whole) (hfraction : Fraction fraction decimals)
      (hpower : Power power exponent) :
      Figures ((if negative then [minus] else []) ++ whole ++ fraction ++ power)
        { negative, whole := Number.ofDigits whole, decimals, exponent }

/-! ## Values -/

/-- What stands in front of a value in an array or, with a name, in an object. -/
inductive Label : Bool → Bytes → Bytes → Prop where
  | item : Label false [] []
  | field {before letters after name : Bytes} (hbefore : Blank before)
      (hletters : Letters letters name) (hafter : Blank after) :
      Label true (before ++ quote :: letters ++ quote :: after ++ [colon]) name

/-- What stands between two commas. -/
structure Entry where
  /-- The text of the name with the colon, if there is a name. -/
  label : Bytes
  /-- The name. -/
  name : Bytes
  /-- The blanks in front of the value. -/
  before : Bytes
  /-- The text of the value. -/
  text : Bytes
  /-- The blanks behind the value. -/
  after : Bytes
  /-- The value. -/
  value : Json

/-- The text of an entry. -/
def Entry.whole (e : Entry) : Bytes :=
  e.label ++ e.before ++ e.text ++ e.after

/-- Apart from its value the text of an entry is as it should be. -/
structure Entry.Forms (named : Bool) (e : Entry) : Prop where
  label : Label named e.label e.name
  before : Blank e.before
  after : Blank e.after

/-- The text of entries with commas between them. -/
def entriesText (entries : List Entry) : Bytes :=
  Bytes.join [comma] (entries.map Entry.whole)

/-- The values that have a word of their own. -/
def words : List (String × Json) :=
  [("null", .null), ("true", .bool true), ("false", .bool false)]

/-- The text stands for the value. -/
inductive Says : Bytes → Json → Prop where
  | word {word : String} {value : Json} (h : (word, value) ∈ words) : Says (ascii word) value
  | number {text : Bytes} {n : Numeral} (h : Figures text n) : Says text (.number n)
  | string {letters value : Bytes} (h : Letters letters value) :
      Says (quote :: letters ++ [quote]) (.string value)
  | emptyArray {blank : Bytes} (h : Blank blank) :
      Says (openArray :: blank ++ [closeArray]) (.array [])
  | emptyObject {blank : Bytes} (h : Blank blank) :
      Says (openObject :: blank ++ [closeObject]) (.object [])
  | array {entries : List Entry} (hne : entries ≠ []) (hforms : ∀ e ∈ entries, e.Forms false)
      (hstands : ∀ e ∈ entries, Says e.text e.value) :
      Says (openArray :: entriesText entries ++ [closeArray]) (.array (entries.map (·.value)))
  | object {entries : List Entry} (hne : entries ≠ []) (hforms : ∀ e ∈ entries, e.Forms true)
      (hstands : ∀ e ∈ entries, Says e.text e.value) :
      Says (openObject :: entriesText entries ++ [closeObject])
        (.object (entries.map fun e => (e.name, e.value)))

/-- A text with nothing but the value in it, and blanks. -/
def SaysAlone (text : Bytes) (value : Json) : Prop :=
  ∃ before inner after, text = before ++ inner ++ after ∧ Blank before ∧ Says inner value ∧
    Blank after

/-! ## What is written -/

theorem isDigit_digit : ∀ n < 10, isDigit (digit n) = true := by
  decide

theorem hexValue?_digit : ∀ n < 16, hexValue? (digit n) = some n := by
  decide

/-- The text of a number begins with zero only if it is that of zero. -/
theorem whole_decimal (n : Nat) : Whole (decimal n) := by
  have hdigits : Digits (decimal n) ∧ (0 < n → (decimal n).head? ≠ some (digit 0)) := by
    fun_induction decimal n with
    | case1 n h =>
      refine ⟨⟨List.cons_ne_nil _ _, List.forall_mem_singleton.mpr (isDigit_digit n h)⟩, ?_⟩
      intro hpos
      have hne : ∀ n < 10, 0 < n → digit n ≠ digit 0 := by decide
      exact fun heq => hne n h hpos (Option.some.inj heq)
    | case2 n h ih =>
      obtain ⟨⟨hne, hall⟩, hhead⟩ := ih
      refine ⟨⟨List.append_ne_nil_of_left_ne_nil hne _, List.forall_mem_append.mpr ⟨hall,
        List.forall_mem_singleton.mpr (isDigit_digit _ (Nat.mod_lt n (by decide)))⟩⟩, fun _ => ?_⟩
      obtain ⟨d, rest, hd⟩ := List.exists_cons_of_ne_nil hne
      rw [hd] at hhead ⊢
      exact hhead (by omega)
  refine ⟨hdigits.1, fun hzero => ?_⟩
  rcases Nat.eq_zero_or_pos n with rfl | hpos
  · rw [decimal, if_pos (by decide)]
  · exact absurd hzero (hdigits.2 hpos)

theorem digits_twoDigits (n : Nat) :
    Digits (Numeral.twoDigits n) ∧ Number.ofDigits (Numeral.twoDigits n) = n := by
  obtain ⟨hne, hall⟩ := (whole_decimal n).1
  rw [Numeral.twoDigits]
  split
  · refine ⟨⟨List.cons_ne_nil _ _, List.forall_mem_cons.mpr ⟨by decide, hall⟩⟩, ?_⟩
    exact Number.ofDigits_decimal n
  · exact ⟨⟨hne, hall⟩, Number.ofDigits_decimal n⟩

theorem power_exponentText (x : Int) : Power (Numeral.exponentText x) (some x) := by
  obtain ⟨hdigits, hvalue⟩ := digits_twoDigits x.natAbs
  rw [Numeral.exponentText]
  split
  · have hpower := Power.present (.inl rfl) .minus hdigits
    rwa [hvalue, show signed true x.natAbs = x by rw [signed, if_pos rfl]; omega] at hpower
  · have hpower := Power.present (.inl rfl) .plus hdigits
    rwa [hvalue, show signed false x.natAbs = x by rw [signed, if_neg (by decide)]; omega] at hpower

/-- A numeral whose decimals are digits is read from what is written for it. -/
theorem figures_render {n : Numeral} (h : ∀ b ∈ n.decimals, isDigit b = true) :
    Figures n.render n := by
  obtain ⟨negative, whole, decimals, exponent⟩ := n
  have hfraction : Fraction (if decimals.isEmpty then [] else dot :: decimals) decimals := by
    split
    · rename_i hempty
      rw [List.isEmpty_iff.mp hempty]
      exact .absent
    · rename_i hne
      exact .digits ⟨fun hnil => hne (List.isEmpty_iff.mpr hnil), h⟩
  have hfigures : ∀ {power : Bytes}, Power power exponent →
      Figures ((if negative then [minus] else []) ++ decimal whole ++
        (if decimals.isEmpty then [] else dot :: decimals) ++ power)
          { negative, whole, decimals, exponent } := fun hpower => by
    have hintro := @Figures.intro negative _ _ _ _ _ (whole_decimal whole) hfraction hpower
    rwa [Number.ofDigits_decimal] at hintro
  cases exponent with
  | none => exact hfigures .absent
  | some x => exact hfigures (power_exponentText x)

theorem unit?_digit {high low : Nat} (hhigh : high < 16) (hlow : low < 16) :
    unit? (digit 0) (digit 0) (digit high) (digit low) = some (high * 16 + low) := by
  rw [unit?, hexValue?_digit 0 (by decide), hexValue?_digit high hhigh, hexValue?_digit low hlow]
  exact congrArg some (by omega)

/-- What is written for a byte of a string stands for it. -/
theorem letter_escapeByte (b : UInt8) : Letter (escapeByte b) [b] := by
  have hshort : ∀ c ∈ [backslash, quote, lf, cr, 9], Letter (escapeByte c) [c] := by
    simp only [List.forall_mem_cons]
    exact ⟨.short (by decide), .short (by decide), .short (by decide), .short (by decide),
      .short (by decide), List.forall_mem_nil _⟩
  by_cases hb : b ∈ [backslash, quote, lf, cr, 9]
  · exact hshort b hb
  · simp only [List.mem_cons, List.not_mem_nil, or_false, not_or] at hb
    simp only [escapeByte, beq_iff_eq, hb, if_false]
    split
    · rename_i hcode
      have hlt : b.toNat < 32 := UInt8.lt_iff_toNat_lt.mp hcode
      have hunit := @unit?_digit (b.toNat / 16) (b.toNat % 16) (by omega) (by omega)
      have hletter := Letter.unit hunit ((Charset.isSurrogate_eq_false_iff _).mpr (by omega))
      have hbyte : Charset.encodeUtf8 (b.toNat / 16 * 16 + b.toNat % 16) = [b] := by
        rw [Nat.div_add_mod', Charset.encodeUtf8, if_pos (by omega), UInt8.ofNat_toNat]
      rwa [hbyte] at hletter
    · rename_i hcode
      exact .plain (UInt8.not_lt.mp hcode) hb.2.1 hb.1

theorem letters_flatMap_escapeByte (value : Bytes) : Letters (value.flatMap escapeByte) value := by
  induction value with
  | nil => exact .nil
  | cons b value ih => exact .cons (letter_escapeByte b) ih

/-- The decimals of all numbers in a value are digits. -/
inductive WellFormed : Json → Prop where
  | null : WellFormed .null
  | bool (b : Bool) : WellFormed (.bool b)
  | number {n : Numeral} (h : ∀ b ∈ n.decimals, isDigit b = true) : WellFormed (.number n)
  | string (value : Bytes) : WellFormed (.string value)
  | array {items : List Json} (h : ∀ item ∈ items, WellFormed item) : WellFormed (.array items)
  | object {fields : List (Bytes × Json)} (h : ∀ field ∈ fields, WellFormed field.2) :
      WellFormed (.object fields)

/-- An item of an array as it is written. -/
def Entry.ofItem (value : Json) : Entry where
  label := []
  name := []
  before := []
  text := value.render
  after := []
  value := value

/-- A field of an object as it is written. -/
def Entry.ofField (field : Bytes × Json) : Entry where
  label := renderString field.1 ++ [colon]
  name := field.1
  before := []
  text := field.2.render
  after := []
  value := field.2

theorem Entry.ofField_forms (field : Bytes × Json) : (Entry.ofField field).Forms true where
  label := by
    have hlabel := @Label.field [] _ [] field.1 (List.forall_mem_nil _)
      (letters_flatMap_escapeByte field.1) (List.forall_mem_nil _)
    simpa [ofField, renderString] using hlabel
  before := List.forall_mem_nil _
  after := List.forall_mem_nil _

theorem entriesText_ofItem (items : List Json) :
    entriesText (items.map Entry.ofItem) = Bytes.join [comma] (renderItems items) := by
  rw [entriesText, renderItems_eq_map, List.map_map]
  congr 1
  exact List.map_congr_left fun item _ => List.append_nil _

theorem entriesText_ofField (fields : List (Bytes × Json)) :
    entriesText (fields.map Entry.ofField) = Bytes.join [comma] (renderFields fields) := by
  rw [entriesText, renderFields_eq_map, List.map_map]
  congr 1
  refine List.map_congr_left fun field _ => ?_
  show renderString field.1 ++ [colon] ++ [] ++ field.2.render ++ [] = _
  rw [List.append_nil, List.append_nil]
  rfl

/-- What is written for a value stands for it. -/
theorem WellFormed.says_render {value : Json} (h : value.WellFormed) : Says value.render value := by
  induction h with
  | null => exact .word (.head _)
  | bool b =>
    cases b with
    | true => exact .word (.tail _ (.head _))
    | false => exact .word (.tail _ (.tail _ (.head _)))
  | number h => exact .number (figures_render h)
  | string value => exact .string (letters_flatMap_escapeByte value)
  | @array items h ih =>
    rcases items with _ | ⟨item, items⟩
    · exact .emptyArray (List.forall_mem_nil _)
    have hstands := @Says.array ((item :: items).map Entry.ofItem) (List.cons_ne_nil _ _)
      (List.forall_mem_map.mpr fun item _ =>
        ⟨.item, List.forall_mem_nil _, List.forall_mem_nil _⟩)
      (List.forall_mem_map.mpr ih)
    have hvalues : ((item :: items).map Entry.ofItem).map (·.value) = item :: items := by
      rw [List.map_map]
      exact List.map_id _
    rw [hvalues, entriesText_ofItem] at hstands
    exact hstands
  | @object fields h ih =>
    rcases fields with _ | ⟨field, fields⟩
    · exact .emptyObject (List.forall_mem_nil _)
    have hstands := @Says.object ((field :: fields).map Entry.ofField) (List.cons_ne_nil _ _)
      (List.forall_mem_map.mpr fun field _ => Entry.ofField_forms field)
      (List.forall_mem_map.mpr ih)
    have hvalues : ((field :: fields).map Entry.ofField).map (fun e => (e.name, e.value)) =
        field :: fields := by
      rw [List.map_map]
      exact List.map_id _
    rw [hvalues, entriesText_ofField] at hstands
    exact hstands

end Json

end TextLines

import Mathlib.Data.List.Basic
import TextLines.Proofs.Json.Scanning

/-!
# Reading JSON texts

`Json.read` reads a text, and it reads exactly the texts of the grammar, each as the value that it
stands for (`Json.read_eq_some_iff`). So a text stands for one value at most, and what is written
for a value is read as this value (`Json.WellFormed.read_render`).

Arrays and objects are read by the same function, which takes a name in front of every value or does
not. Its recursion is on the text that is left, and the test in front of the recursive call only
says that some text has been taken.
-/

namespace TextLines

open Bytes

namespace Json

/-! ## Blanks and single bytes -/

/-- The text behind the blanks at its front. -/
def skipBlanks (text : Bytes) : Bytes :=
  text.dropWhile isBlank

theorem length_skipBlanks_le (text : Bytes) : (skipBlanks text).length ≤ text.length :=
  (List.dropWhile_suffix isBlank).length_le

theorem exists_blank (text : Bytes) : ∃ before, text = before ++ skipBlanks text ∧ Blank before :=
  ⟨text.takeWhile isBlank, List.takeWhile_append_dropWhile.symm, fun _ => List.mem_takeWhile_imp⟩

theorem skipBlanks_append {before : Bytes} (h : Blank before) (rest : Bytes) :
    skipBlanks (before ++ rest) = skipBlanks rest :=
  List.dropWhile_append_of_pos h

theorem skipBlanks_cons {b : UInt8} (h : isBlank b = false) (rest : Bytes) :
    skipBlanks (b :: rest) = b :: rest := by
  rw [skipBlanks, List.dropWhile_cons_of_neg (ne_true_of_eq_false h)]

/-- The text behind a byte that has to stand at its front. -/
def expect (b : UInt8) : Bytes → Option Bytes
  | [] => none
  | c :: rest => if c = b then some rest else none

theorem expect_eq_some_iff {b : UInt8} {text rest : Bytes} :
    expect b text = some rest ↔ text = b :: rest := by
  rcases text with _ | ⟨c, text⟩
  · exact iff_of_false (Option.some_ne_none _).symm (List.cons_ne_nil _ _).symm
  · rw [expect]
    split
    · rename_i hc
      rw [Option.some.injEq, List.cons.injEq, and_iff_right hc]
    · rename_i hc
      exact iff_of_false (Option.some_ne_none _).symm fun h => hc (List.cons.inj h).1

theorem expect_cons_of_ne {b c : UInt8} (h : c ≠ b) (rest : Bytes) :
    expect b (c :: rest) = none :=
  if_neg h

/-! ## Scalars -/

/-- Reads a value that has a word of its own. -/
def readWord (text : Bytes) : Option (Json × Bytes) :=
  words.findSome? fun w => ((ascii w.1).isPrefixOf? text).map fun rest => (w.2, rest)

/-- Reads a value that is neither an array nor an object. -/
def readScalar (text : Bytes) : Option (Json × Bytes) :=
  match expect quote text with
  | some rest => (readLetters rest).map fun r => (.string r.1, r.2)
  | none => (readWord text).or ((readFigures text).map fun r => (.number r.1, r.2))

theorem exists_word_of_readWord {text rest : Bytes} {value : Json}
    (h : readWord text = some (value, rest)) :
    ∃ word, (word, value) ∈ words ∧ text = ascii word ++ rest := by
  obtain ⟨⟨word, value'⟩, hmem, hread⟩ := List.exists_of_findSome?_eq_some h
  obtain ⟨rest', hfront, hpair⟩ := Option.map_eq_some_iff.mp hread
  obtain ⟨rfl, rfl⟩ := Prod.mk.inj hpair
  exact ⟨word, hmem, (List.isPrefixOf?_eq_some_iff_append_eq.mp hfront).symm⟩

theorem says_of_readScalar {text rest : Bytes} {value : Json}
    (h : readScalar text = some (value, rest)) :
    ∃ front, text = front ++ rest ∧ Says front value := by
  rw [readScalar] at h
  split at h
  · rename_i behind hquote
    obtain ⟨⟨bytes, rest'⟩, hread, hpair⟩ := Option.map_eq_some_iff.mp h
    obtain ⟨rfl, rfl⟩ := Prod.mk.inj hpair
    obtain ⟨letters, rfl, hletters⟩ := letters_of_readLetters hread
    refine ⟨quote :: letters ++ [quote], ?_, .string hletters⟩
    rw [expect_eq_some_iff.mp hquote, List.append_assoc]
    rfl
  · rcases Option.or_eq_some_iff.mp h with hword | ⟨-, hnumber⟩
    · obtain ⟨word, hmem, rfl⟩ := exists_word_of_readWord hword
      exact ⟨ascii word, rfl, .word hmem⟩
    · obtain ⟨⟨n, rest'⟩, hread, hpair⟩ := Option.map_eq_some_iff.mp hnumber
      obtain ⟨rfl, rfl⟩ := Prod.mk.inj hpair
      obtain ⟨front, rfl, hfigures⟩ := figures_of_readFigures hread
      exact ⟨front, rfl, .number hfigures⟩

/-! ## Arrays and objects -/

/-- The array of the values, or the object that they have names in. -/
def container (named : Bool) (bindings : List (Bytes × Json)) : Json :=
  if named then .object bindings else .array (bindings.map (·.2))

/-- What opens an array or an object. -/
def opening (named : Bool) : UInt8 :=
  if named then openObject else openArray

/-- What closes an array or an object. -/
def closing (named : Bool) : UInt8 :=
  if named then closeObject else closeArray

theorem says_container_nil (named : Bool) {blank : Bytes} (h : Blank blank) :
    Says (opening named :: blank ++ [closing named]) (container named []) := by
  cases named with
  | false => exact .emptyArray h
  | true => exact .emptyObject h

theorem says_container {named : Bool} {entries : List Entry} (hne : entries ≠ [])
    (hforms : ∀ e ∈ entries, e.Forms named) (hstands : ∀ e ∈ entries, Says e.text e.value) :
    Says (opening named :: entriesText entries ++ [closing named])
      (container named (entries.map fun e => (e.name, e.value))) := by
  cases named with
  | false =>
    rw [container, if_neg Bool.false_ne_true, List.map_map]
    exact .array hne hforms hstands
  | true => exact .object hne hforms hstands

/-- Whether a text begins with an object or with an array, and the rest. -/
def opened? : Bytes → Option (Bool × Bytes)
  | [] => none
  | b :: rest =>
    if b = openArray then some (false, rest)
    else if b = openObject then some (true, rest)
    else none

theorem opened?_opening (named : Bool) (rest : Bytes) :
    opened? (opening named :: rest) = some (named, rest) := by
  cases named with
  | false => rfl
  | true => rfl

theorem eq_of_opened? {named : Bool} {text rest : Bytes} (h : opened? text = some (named, rest)) :
    text = opening named :: rest := by
  rcases text with _ | ⟨b, text⟩
  · cases h
  rw [opened?] at h
  split at h
  · rename_i hb
    obtain ⟨rfl, rfl⟩ := Prod.mk.inj (Option.some.inj h)
    rw [hb]
    rfl
  · split at h
    · rename_i hb
      obtain ⟨rfl, rfl⟩ := Prod.mk.inj (Option.some.inj h)
      rw [hb]
      rfl
    · cases h

theorem length_of_opened? {named : Bool} {text rest : Bytes}
    (h : opened? text = some (named, rest)) : rest.length < text.length := by
  rw [eq_of_opened? h, List.length_cons]
  exact Nat.lt_succ_self _

/-- Reads the name of a value, if there is to be one. -/
def readLabel (named : Bool) (text : Bytes) : Option (Bytes × Bytes) :=
  if named then do
    let rest ← expect quote (skipBlanks text)
    let (name, rest) ← readLetters rest
    let rest ← expect colon (skipBlanks rest)
    return (name, rest)
  else some ([], text)

/-- What is read as a name is one. -/
theorem label_of_readLabel {named : Bool} {text name rest : Bytes}
    (h : readLabel named text = some (name, rest)) :
    ∃ label, text = label ++ rest ∧ Label named label name := by
  rw [readLabel] at h
  split at h
  · rename_i hnamed
    obtain ⟨text₁, hquote, h⟩ := Option.bind_eq_some_iff.mp h
    obtain ⟨⟨name', text₂⟩, hread, h⟩ := Option.bind_eq_some_iff.mp h
    obtain ⟨text₃, hcolon, h⟩ := Option.bind_eq_some_iff.mp h
    obtain ⟨rfl, rfl⟩ := Prod.mk.inj (Option.some.inj h)
    obtain ⟨letters, rfl, hletters⟩ := letters_of_readLetters hread
    obtain ⟨before, htext, hbefore⟩ := exists_blank text
    obtain ⟨after, htext₂, hafter⟩ := exists_blank text₂
    rw [expect_eq_some_iff.mp hquote] at htext
    rw [expect_eq_some_iff.mp hcolon] at htext₂
    rw [hnamed]
    refine ⟨_, ?_, .field hbefore hletters hafter⟩
    rw [htext, htext₂]
    simp only [List.append_assoc, List.cons_append, List.nil_append]
  · rename_i hnamed
    obtain ⟨rfl, rfl⟩ := Prod.mk.inj (Option.some.inj h)
    rw [eq_false_of_ne_true hnamed]
    exact ⟨[], rfl, .item⟩

theorem length_of_readLabel {named : Bool} {text name rest : Bytes}
    (h : readLabel named text = some (name, rest)) : rest.length ≤ text.length := by
  obtain ⟨label, rfl, -⟩ := label_of_readLabel h
  rw [List.length_append]
  exact Nat.le_add_left _ _

mutual

/-- Reads a value. -/
def readValue (text : Bytes) : Option (Json × Bytes) :=
  match _h : opened? text with
  | none => readScalar text
  | some (named, rest) =>
    match expect (closing named) (skipBlanks rest) with
    | some rest => some (container named [], rest)
    | none => (readEntries named rest).map fun r => (container named r.1, r.2)
termination_by (text.length, 0)
decreasing_by exact Prod.Lex.left _ _ (length_of_opened? _h)

/-- Reads values with commas between them, up to what closes them, with names or without. -/
def readEntries (named : Bool) (text : Bytes) : Option (List (Bytes × Json) × Bytes) :=
  match _h : readLabel named text with
  | none => none
  | some (name, rest) =>
    match readValue (skipBlanks rest) with
    | none => none
    | some (value, rest) =>
      match expect comma (skipBlanks rest) with
      | none => (expect (closing named) (skipBlanks rest)).map fun rest => ([(name, value)], rest)
      | some rest =>
        if rest.length < text.length then
          (readEntries named rest).map fun r => ((name, value) :: r.1, r.2)
        else none
termination_by (text.length, 1)
decreasing_by
  · exact Prod.Lex.right' _
      (Nat.le_trans (length_skipBlanks_le _) (length_of_readLabel _h)) Nat.one_pos
  · exact Prod.Lex.left _ _ ‹_›

end

/-! ## What is read is of the grammar

The recursion is that of the readers: on the text that is left, and at the same length a value is
read before the entries that it is the first of. -/

/-- The text is one of values with commas between them, with names or without. -/
def Lists (named : Bool) (text : Bytes) (bindings : List (Bytes × Json)) : Prop :=
  ∃ entries : List Entry, entries ≠ [] ∧ text = entriesText entries ∧
    (∀ e ∈ entries, e.Forms named) ∧ (∀ e ∈ entries, Says e.text e.value) ∧
      bindings = entries.map fun e => (e.name, e.value)

theorem entriesText_cons (e e' : Entry) (entries : List Entry) :
    entriesText (e :: e' :: entries) = e.whole ++ comma :: entriesText (e' :: entries) :=
  List.append_assoc _ _ _

theorem Entry.lists {named : Bool} {e : Entry} (hforms : e.Forms named)
    (hstands : Says e.text e.value) : Lists named e.whole [(e.name, e.value)] :=
  ⟨[e], List.cons_ne_nil _ _, rfl, List.forall_mem_singleton.mpr hforms,
    List.forall_mem_singleton.mpr hstands, rfl⟩

theorem Lists.cons {named : Bool} {text : Bytes} {bindings : List (Bytes × Json)}
    (h : Lists named text bindings) {e : Entry} (hforms : e.Forms named)
    (hstands : Says e.text e.value) :
    Lists named (e.whole ++ comma :: text) ((e.name, e.value) :: bindings) := by
  obtain ⟨entries, hne, rfl, hall, hall', rfl⟩ := h
  obtain ⟨e', entries, rfl⟩ := List.exists_cons_of_ne_nil hne
  exact ⟨e :: e' :: entries, List.cons_ne_nil _ _, (entriesText_cons _ _ _).symm,
    List.forall_mem_cons.mpr ⟨hforms, hall⟩, List.forall_mem_cons.mpr ⟨hstands, hall'⟩, rfl⟩

theorem Lists.enclosed {named : Bool} {text : Bytes} {bindings : List (Bytes × Json)}
    (h : Lists named text bindings) :
    Says (opening named :: text ++ [closing named]) (container named bindings) := by
  obtain ⟨entries, hne, rfl, hforms, hstands, rfl⟩ := h
  exact says_container hne hforms hstands

mutual

/-- What is read as a value stands for it. -/
theorem says_of_readValue {text rest : Bytes} {value : Json}
    (h : readValue text = some (value, rest)) :
    ∃ front, text = front ++ rest ∧ Says front value := by
  rw [readValue] at h
  split at h
  · exact says_of_readScalar h
  rename_i named behind hopened
  split at h
  · rename_i rest' hclosing
    obtain ⟨rfl, rfl⟩ := Prod.mk.inj (Option.some.inj h)
    obtain ⟨blank, hbehind, hblank⟩ := exists_blank behind
    rw [expect_eq_some_iff.mp hclosing] at hbehind
    refine ⟨opening named :: blank ++ [closing named], ?_, says_container_nil named hblank⟩
    rw [eq_of_opened? hopened, hbehind, List.append_assoc]
    rfl
  · obtain ⟨⟨bindings, rest'⟩, hread, hpair⟩ := Option.map_eq_some_iff.mp h
    obtain ⟨rfl, rfl⟩ := Prod.mk.inj hpair
    obtain ⟨front, hbehind, hlists⟩ := lists_of_readEntries hread
    refine ⟨opening named :: front ++ [closing named], ?_, hlists.enclosed⟩
    rw [eq_of_opened? hopened, hbehind, List.append_assoc]
    rfl
termination_by (text.length, 0)
decreasing_by exact Prod.Lex.left _ _ (length_of_opened? ‹_›)

/-- What is read as values is a text of such. -/
theorem lists_of_readEntries {named : Bool} {text rest : Bytes} {bindings : List (Bytes × Json)}
    (h : readEntries named text = some (bindings, rest)) :
    ∃ front, text = front ++ closing named :: rest ∧ Lists named front bindings := by
  rw [readEntries] at h
  split at h
  · cases h
  rename_i name behind hlabelled
  obtain ⟨label, htext, hlabel⟩ := label_of_readLabel hlabelled
  obtain ⟨before, hbehind, hbefore⟩ := exists_blank behind
  split at h
  · cases h
  rename_i value behind' hread
  obtain ⟨inner, hinner, hstands⟩ := says_of_readValue hread
  obtain ⟨after, hbehind', hafter⟩ := exists_blank behind'
  have hwhole : text = Entry.whole ⟨label, name, before, inner, after, value⟩ ++
      skipBlanks behind' := by
    rw [htext, hbehind, hinner, Entry.whole]
    simp only [List.append_assoc]
    rw [← hbehind']
  have hforms : Entry.Forms named ⟨label, name, before, inner, after, value⟩ :=
    ⟨hlabel, hbefore, hafter⟩
  split at h
  · obtain ⟨rest', hclosing, hpair⟩ := Option.map_eq_some_iff.mp h
    obtain ⟨rfl, rfl⟩ := Prod.mk.inj hpair
    exact ⟨_, by rw [hwhole, expect_eq_some_iff.mp hclosing], Entry.lists hforms hstands⟩
  · rename_i rest' hcomma
    split at h
    · obtain ⟨⟨bindings', rest''⟩, hmore, hpair⟩ := Option.map_eq_some_iff.mp h
      obtain ⟨rfl, rfl⟩ := Prod.mk.inj hpair
      obtain ⟨front, hfront, hlists⟩ := lists_of_readEntries hmore
      refine ⟨_, ?_, hlists.cons hforms hstands⟩
      rw [hwhole, expect_eq_some_iff.mp hcomma, hfront, List.append_assoc]
      rfl
    · cases h
termination_by (text.length, 1)
decreasing_by
  · exact Prod.Lex.right' _
      (Nat.le_trans (length_skipBlanks_le _) (length_of_readLabel ‹_›)) Nat.one_pos
  · exact Prod.Lex.left _ _ ‹_›

end

/-! ## What is of the grammar is read -/

theorem isBlank_iff {b : UInt8} : isBlank b = true ↔ b = 32 ∨ b = 9 ∨ b = lf ∨ b = cr := by
  simp [isBlank, or_assoc]

/-- A number begins with its sign or with a digit. -/
theorem Figures.exists_cons {text : Bytes} {n : Numeral} (h : Figures text n) :
    ∃ b more, text = b :: more ∧ (b = minus ∨ isDigit b = true) := by
  obtain @⟨negative, whole, fraction, decimals, power, exponent, hwhole, hfraction, hpower⟩ := h
  cases negative with
  | true => exact ⟨_, _, rfl, .inl rfl⟩
  | false =>
    obtain ⟨b, more, rfl⟩ := List.exists_cons_of_ne_nil hwhole.1.1
    exact ⟨_, _, rfl, .inr (hwhole.1.2 b List.mem_cons_self)⟩

theorem ne_of_figures {b c : UInt8} (h : b = minus ∨ isDigit b = true) (hminus : c ≠ minus)
    (hdigit : isDigit c = false) : b ≠ c := by
  rintro rfl
  rcases h with h | h
  · exact hminus h
  · cases hdigit.symm.trans h

/-- A value begins neither with a blank nor with what closes an array or an object. -/
theorem Says.exists_cons {text : Bytes} {value : Json} (h : Says text value) :
    ∃ b more, text = b :: more ∧ isBlank b = false ∧ ∀ named, b ≠ closing named := by
  cases h with
  | word h =>
    rcases h with _ | ⟨_, _ | ⟨_, _ | ⟨_, ⟨⟩⟩⟩⟩
    · exact ⟨_, _, rfl, by decide⟩
    · exact ⟨_, _, rfl, by decide⟩
    · exact ⟨_, _, rfl, by decide⟩
  | number h =>
    obtain ⟨b, more, rfl, hb⟩ := h.exists_cons
    refine ⟨b, more, rfl, eq_false_of_ne_true fun hblank => ?_, fun named => ?_⟩
    · rcases isBlank_iff.mp hblank with heq | heq | heq | heq
      all_goals exact ne_of_figures hb (by decide) (by decide) heq
    · exact ne_of_figures hb (by revert named; decide) (by revert named; decide)
  | string => exact ⟨_, _, rfl, by decide⟩
  | emptyArray => exact ⟨_, _, rfl, by decide⟩
  | emptyObject => exact ⟨_, _, rfl, by decide⟩
  | array => exact ⟨_, _, rfl, by decide⟩
  | object => exact ⟨_, _, rfl, by decide⟩

theorem Says.skipBlanks_append {text : Bytes} {value : Json} (h : Says text value)
    (rest : Bytes) : skipBlanks (text ++ rest) = text ++ rest := by
  obtain ⟨b, more, rfl, hb, -⟩ := h.exists_cons
  exact skipBlanks_cons hb _

/-- Blanks do not go on with a number. -/
theorem apart_append {after rest : Bytes} (h : Blank after) (hrest : Apart rest) :
    Apart (after ++ rest) := by
  rcases after with _ | ⟨b, after⟩
  · exact hrest
  · rintro _ ⟨⟩
    rcases isBlank_iff.mp (h b List.mem_cons_self) with rfl | rfl | rfl | rfl
    all_goals decide

/-! ### Scalars -/

theorem readValue_of_scalar {text : Bytes} (h : opened? text = none) :
    readValue text = readScalar text := by
  rw [readValue]
  split
  · rfl
  · rename_i hsome
    cases h.symm.trans hsome

theorem readValue_word {word : String} {value : Json} (h : (word, value) ∈ words)
    (rest : Bytes) : readValue (ascii word ++ rest) = some (value, rest) := by
  rcases h with _ | ⟨_, _ | ⟨_, _ | ⟨_, ⟨⟩⟩⟩⟩
  · exact readValue_of_scalar rfl
  · exact readValue_of_scalar rfl
  · exact readValue_of_scalar rfl

theorem readValue_string {letters value : Bytes} (h : Letters letters value) (rest : Bytes) :
    readValue (quote :: letters ++ [quote] ++ rest) = some (.string value, rest) := by
  have hread := h.read rest
  rw [List.append_assoc, List.cons_append, readValue_of_scalar rfl, readScalar,
    expect_eq_some_iff.mpr rfl]
  show (readLetters (letters ++ quote :: rest)).map _ = _
  rw [hread]
  rfl

theorem readWord_of_figures {b : UInt8} (h : b = minus ∨ isDigit b = true) (rest : Bytes) :
    readWord (b :: rest) = none := by
  refine Option.eq_none_iff_forall_ne_some.mpr fun r hr => ?_
  rcases r with ⟨value, rest'⟩
  obtain ⟨word, hmem, htext⟩ := exists_word_of_readWord hr
  rcases hmem with _ | ⟨_, _ | ⟨_, _ | ⟨_, ⟨⟩⟩⟩⟩
  all_goals exact ne_of_figures h (by decide) (by decide) (List.cons.inj htext).1

theorem readValue_figures {text rest : Bytes} {n : Numeral} (h : Figures text n)
    (hrest : Apart rest) : readValue (text ++ rest) = some (.number n, rest) := by
  have hread := h.read hrest
  obtain ⟨b, more, rfl, hb⟩ := h.exists_cons
  have hopened : opened? (b :: (more ++ rest)) = none := by
    rw [opened?, if_neg (ne_of_figures hb (by decide) (by decide)),
      if_neg (ne_of_figures hb (by decide) (by decide))]
  rw [List.cons_append] at hread ⊢
  rw [readValue_of_scalar hopened, readScalar,
    expect_cons_of_ne (ne_of_figures hb (by decide) (by decide)), readWord_of_figures hb, hread]
  rfl

/-! ### Arrays and objects -/

theorem readValue_opening (named : Bool) (text : Bytes) : readValue (opening named :: text) =
    match expect (closing named) (skipBlanks text) with
    | some rest => some (container named [], rest)
    | none => (readEntries named text).map fun r => (container named r.1, r.2) := by
  rw [readValue]
  split
  · rename_i hnone
    cases hnone.symm.trans (opened?_opening named text)
  · rename_i hsome
    obtain ⟨rfl, rfl⟩ := Prod.mk.inj (Option.some.inj (hsome.symm.trans (opened?_opening _ text)))
    rfl

theorem readEntries_of_readLabel {named : Bool} {text name behind rest : Bytes} {value : Json}
    (hlabel : readLabel named text = some (name, behind))
    (hvalue : readValue (skipBlanks behind) = some (value, rest)) : readEntries named text =
      match expect comma (skipBlanks rest) with
      | none => (expect (closing named) (skipBlanks rest)).map fun rest => ([(name, value)], rest)
      | some rest =>
        if rest.length < text.length then
          (readEntries named rest).map fun r => ((name, value) :: r.1, r.2)
        else none := by
  rw [readEntries]
  split
  · rename_i hnone
    cases hnone.symm.trans hlabel
  · rename_i hsome
    obtain ⟨rfl, rfl⟩ := Prod.mk.inj (Option.some.inj (hsome.symm.trans hlabel))
    rw [hvalue]

/-- A name is read. -/
theorem Label.read {named : Bool} {label name : Bytes} (h : Label named label name)
    (rest : Bytes) : readLabel named (label ++ rest) = some (name, rest) := by
  cases h with
  | item => rfl
  | @field before letters after name hbefore hletters hafter =>
    have hread := hletters.read (after ++ colon :: rest)
    simp only [List.append_assoc, List.cons_append, List.nil_append]
    rw [readLabel, if_pos rfl, skipBlanks_append hbefore, skipBlanks_cons (by decide),
      expect_eq_some_iff.mpr rfl]
    simp only [Option.bind_eq_bind, Option.bind_some, hread, skipBlanks_append hafter,
      skipBlanks_cons (show isBlank colon = false by decide)]
    rfl

/-- A text that stands for the value, and is read as it. -/
def Readable (text : Bytes) (value : Json) : Prop :=
  Says text value ∧ ∀ rest, Apart rest → readValue (text ++ rest) = some (value, rest)

/-- The name and the value of an entry are read, up to what follows it. -/
theorem Entry.read {named : Bool} {e : Entry} (hforms : e.Forms named)
    (he : Readable e.text e.value) {b : UInt8} (hb : b = comma ∨ b = closing named)
    (rest : Bytes) : ∃ behind behind',
      readLabel named (e.whole ++ b :: rest) = some (e.name, behind) ∧
        readValue (skipBlanks behind) = some (e.value, behind') ∧
          skipBlanks behind' = b :: rest := by
  have hend : isBlank b = false ∧ Apart (b :: rest) := by
    have hcomma : isBlank comma = false ∧ Apart (comma :: rest) :=
      ⟨rfl, by rintro _ ⟨⟩; decide⟩
    have hclosing : isBlank (closing named) = false ∧ Apart (closing named :: rest) :=
      ⟨by cases named <;> rfl, by rintro _ ⟨⟩; cases named <;> decide⟩
    rcases hb with rfl | rfl
    · exact hcomma
    · exact hclosing
  refine ⟨e.before ++ (e.text ++ (e.after ++ b :: rest)), e.after ++ b :: rest, ?_, ?_, ?_⟩
  · have hlabel := hforms.label.read (e.before ++ (e.text ++ (e.after ++ b :: rest)))
    rw [Entry.whole]
    simpa only [List.append_assoc] using hlabel
  · rw [skipBlanks_append hforms.before, he.1.skipBlanks_append]
    exact he.2 _ (apart_append hforms.after hend.2)
  · rw [skipBlanks_append hforms.after, skipBlanks_cons hend.1]

/-- Entries are read up to what closes them. -/
theorem readEntries_entriesText {named : Bool} {entries : List Entry} (hne : entries ≠ [])
    (hforms : ∀ e ∈ entries, e.Forms named) (hread : ∀ e ∈ entries, Readable e.text e.value)
    (rest : Bytes) : readEntries named (entriesText entries ++ closing named :: rest) =
      some (entries.map (fun e => (e.name, e.value)), rest) := by
  induction entries with
  | nil => exact absurd rfl hne
  | cons e entries ih =>
    obtain ⟨hform, hforms⟩ := List.forall_mem_cons.mp hforms
    obtain ⟨he, hread⟩ := List.forall_mem_cons.mp hread
    rcases entries with _ | ⟨e', entries⟩
    · obtain ⟨behind, behind', hlabel, hvalue, hbehind⟩ := Entry.read hform he (.inr rfl) rest
      have hcomma : closing named ≠ comma := by cases named <;> decide
      show readEntries named (e.whole ++ closing named :: rest) = _
      rw [readEntries_of_readLabel hlabel hvalue, hbehind, expect_cons_of_ne hcomma,
        expect_eq_some_iff.mpr rfl]
      rfl
    · obtain ⟨behind, behind', hlabel, hvalue, hbehind⟩ := Entry.read hform he (.inl rfl)
        (entriesText (e' :: entries) ++ closing named :: rest)
      -- The comma alone makes the rest shorter, so the test of the reader does not stop it here.
      have hlength : (entriesText (e' :: entries) ++ closing named :: rest).length <
          (e.whole ++ comma :: (entriesText (e' :: entries) ++ closing named :: rest)).length := by
        simp only [List.length_append, List.length_cons]
        omega
      rw [entriesText_cons, List.append_assoc, List.cons_append,
        readEntries_of_readLabel hlabel hvalue, hbehind, expect_eq_some_iff.mpr rfl]
      dsimp only
      rw [if_pos hlength, ih (List.cons_ne_nil _ _) hforms hread]
      rfl

theorem readValue_container_nil (named : Bool) {blank : Bytes} (h : Blank blank)
    (rest : Bytes) : readValue (opening named :: blank ++ [closing named] ++ rest) =
      some (container named [], rest) := by
  have hclosing : isBlank (closing named) = false := by cases named <;> rfl
  rw [List.append_assoc, List.cons_append, readValue_opening, skipBlanks_append h,
    List.singleton_append, skipBlanks_cons hclosing, expect_eq_some_iff.mpr rfl]

theorem Label.expect_closing {named : Bool} {label name rest : Bytes}
    (h : Label named label name) (hrest : expect (closing named) (skipBlanks rest) = none) :
    expect (closing named) (skipBlanks (label ++ rest)) = none := by
  cases h with
  | item => exact hrest
  | field hbefore =>
    simp only [List.append_assoc, List.cons_append]
    rw [skipBlanks_append hbefore, skipBlanks_cons (by decide)]
    exact expect_cons_of_ne (by decide) _

/-- Entries do not begin with what closes them. -/
theorem expect_closing_entriesText {named : Bool} {entries : List Entry} (hne : entries ≠ [])
    (hforms : ∀ e ∈ entries, e.Forms named) (hstands : ∀ e ∈ entries, Says e.text e.value)
    (rest : Bytes) :
    expect (closing named) (skipBlanks (entriesText entries ++ rest)) = none := by
  -- Only the first entry counts, and what stands in front of its value: nothing, or its name.
  obtain ⟨e, entries, rfl⟩ := List.exists_cons_of_ne_nil hne
  obtain ⟨more, hmore⟩ : ∃ more, entriesText (e :: entries) = e.whole ++ more := by
    rcases entries with _ | ⟨e', entries⟩
    · exact ⟨[], (List.append_nil _).symm⟩
    · exact ⟨_, entriesText_cons e e' entries⟩
  have hform := hforms e List.mem_cons_self
  have he := hstands e List.mem_cons_self
  rw [hmore, Entry.whole]
  simp only [List.append_assoc]
  refine hform.label.expect_closing ?_
  rw [skipBlanks_append hform.before, he.skipBlanks_append]
  obtain ⟨b, text, htext, -, hclosing⟩ := he.exists_cons
  rw [htext]
  exact expect_cons_of_ne (hclosing named) _

theorem readValue_container {named : Bool} {entries : List Entry} (hne : entries ≠ [])
    (hforms : ∀ e ∈ entries, e.Forms named) (hread : ∀ e ∈ entries, Readable e.text e.value)
    (rest : Bytes) :
    readValue (opening named :: entriesText entries ++ [closing named] ++ rest) =
      some (container named (entries.map fun e => (e.name, e.value)), rest) := by
  rw [List.append_assoc, List.cons_append, readValue_opening,
    expect_closing_entriesText hne hforms fun e he => (hread e he).1]
  dsimp only
  rw [List.singleton_append, readEntries_entriesText hne hforms hread]
  rfl

/-- A value is read if what follows does not go on with it. -/
theorem Says.read {text : Bytes} {value : Json} (h : Says text value) {rest : Bytes}
    (hrest : Apart rest) : readValue (text ++ rest) = some (value, rest) := by
  induction h generalizing rest with
  | word h => exact readValue_word h rest
  | number h => exact readValue_figures h hrest
  | string h => exact readValue_string h rest
  | emptyArray h => exact readValue_container_nil false h rest
  | emptyObject h => exact readValue_container_nil true h rest
  | array hne hforms hstands ih =>
    have hread := @readValue_container false _ hne hforms
      (fun e he => ⟨hstands e he, fun _ => ih e he⟩) rest
    rwa [container, if_neg Bool.false_ne_true, List.map_map] at hread
  | object hne hforms hstands ih =>
    exact readValue_container hne hforms (fun e he => ⟨hstands e he, fun _ => ih e he⟩) rest

/-! ## Whole texts -/

/-- Reads a text with nothing but a value in it, and blanks. -/
def read (text : Bytes) : Option Json :=
  match readValue (skipBlanks text) with
  | none => none
  | some (value, rest) => if rest.all isBlank then some value else none

/-- Exactly the texts of the grammar are read, as the values that they stand for. -/
theorem read_eq_some_iff {text : Bytes} {value : Json} :
    read text = some value ↔ SaysAlone text value := by
  constructor
  · intro h
    rw [read] at h
    split at h
    · cases h
    rename_i value' rest hread
    split at h
    · rename_i hblank
      obtain rfl := Option.some.inj h
      obtain ⟨before, htext, hbefore⟩ := exists_blank text
      obtain ⟨inner, hinner, hstands⟩ := says_of_readValue hread
      exact ⟨before, inner, rest, by rw [List.append_assoc, ← hinner]; exact htext, hbefore,
        hstands, List.all_eq_true.mp hblank⟩
    · cases h
  · rintro ⟨before, inner, after, rfl, hbefore, hstands, hafter⟩
    have hapart : Apart after := by
      rw [← List.append_nil after]
      exact apart_append hafter (fun b hb => (Option.not_mem_none b hb).elim)
    rw [List.append_assoc, read, skipBlanks_append hbefore, hstands.skipBlanks_append,
      hstands.read hapart]
    exact if_pos (List.all_eq_true.mpr hafter)

theorem SaysAlone.unique {text : Bytes} {value value' : Json} (h : SaysAlone text value)
    (h' : SaysAlone text value') : value = value' :=
  Option.some.inj ((read_eq_some_iff.mpr h).symm.trans (read_eq_some_iff.mpr h'))

theorem Says.alone {text : Bytes} {value : Json} (h : Says text value) : SaysAlone text value :=
  ⟨[], text, [], (List.append_nil _).symm, List.forall_mem_nil _, h, List.forall_mem_nil _⟩

/-- What is written for a value is read as this value. -/
theorem WellFormed.read_render {value : Json} (h : value.WellFormed) :
    read value.render = some value :=
  read_eq_some_iff.mpr h.says_render.alone

end Json

end TextLines

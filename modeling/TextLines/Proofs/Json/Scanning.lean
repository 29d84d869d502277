import Mathlib.Data.List.TakeWhile
import TextLines.Proofs.Json.Grammar

/-!
# Reading strings and numbers in JSON texts

A reader takes what it is for from the front of a text and gives its value and the rest. For each
reader there is a lemma that what it takes is of the grammar, and one that it takes what is of the
grammar.

* `Json.readLetters` reads a string up to its closing quotation mark (`letters_of_readLetters`,
  `Letters.read`).
* `Json.readFigures` reads a number. Numbers go on as long as they can, so a number is read as a
  whole only if what follows does not go on with it, which is `Json.Apart`
  (`figures_of_readFigures`, `Figures.read`).
-/

namespace TextLines

open Bytes

namespace Json

/-! ## Strings -/

/-- Reads four hexadecimal digits. -/
def readUnit : Bytes → Option (Nat × Bytes)
  | a :: b :: c :: d :: rest => (unit? a b c d).map fun n => (n, rest)
  | _ => none

theorem readUnit_eq_some_iff {text rest : Bytes} {n : Nat} : readUnit text = some (n, rest) ↔
    ∃ a b c d, text = a :: b :: c :: d :: rest ∧ unit? a b c d = some n := by
  constructor
  · intro h
    rcases text with _ | ⟨a, _ | ⟨b, _ | ⟨c, _ | ⟨d, behind⟩⟩⟩⟩
    case cons.cons.cons.cons =>
      obtain ⟨n', hn, hpair⟩ := Option.map_eq_some_iff.mp h
      obtain ⟨rfl, rfl⟩ := Prod.mk.inj hpair
      exact ⟨a, b, c, d, rfl, hn⟩
    all_goals cases h
  · rintro ⟨a, b, c, d, rfl, hn⟩
    rw [readUnit, hn]
    rfl

/-- Reads the second half of a character, with the signs that escape it. -/
def readHalf : Bytes → Option (Nat × Bytes)
  | b :: c :: rest => if b = backslash ∧ c = 117 then readUnit rest else none
  | _ => none

/-- Reads the number of a character, behind the signs that escape it. -/
def readNumbered (text : Bytes) : Option (Bytes × Bytes) :=
  match readUnit text with
  | none => none
  | some (n, rest) =>
    if Charset.isSurrogate n then
      match readHalf rest with
      | none => none
      | some (n', rest) =>
        if Charset.IsHigh n ∧ Charset.IsLow n' then
          some (Charset.encodeUtf8 (Charset.pairCode n n'), rest)
        else none
    else some (Charset.encodeUtf8 n, rest)

/-- Reads a character that is escaped, behind the backslash. -/
def readEscaped : Bytes → Option (Bytes × Bytes)
  | [] => none
  | code :: rest =>
    if code = 117 then readNumbered rest
    else (shortEscapes.lookup code).map fun b => ([b], rest)

/-- Reads a character of a string. -/
def readLetter : Bytes → Option (Bytes × Bytes)
  | [] => none
  | b :: rest =>
    if b = backslash then readEscaped rest
    else if b < 32 ∨ b = quote then none
    else some ([b], rest)

theorem lookup_shortEscapes {code b : UInt8} :
    shortEscapes.lookup code = some b ↔ (code, b) ∈ shortEscapes := by
  have hall : shortEscapes.all (fun e => shortEscapes.lookup e.1 == some e.2) = true := by decide
  refine ⟨fun h => ?_, fun h => beq_iff_eq.mp (List.all_eq_true.mp hall _ h)⟩
  obtain ⟨front, back, hlist, -⟩ := List.lookup_eq_some_iff.mp h
  rw [hlist]
  exact List.mem_append_right _ List.mem_cons_self

theorem readHalf_eq_some {text rest : Bytes} {n : Nat} (h : readHalf text = some (n, rest)) :
    ∃ behind, text = backslash :: 117 :: behind ∧ readUnit behind = some (n, rest) := by
  rcases text with _ | ⟨b, _ | ⟨c, behind⟩⟩
  · cases h
  · cases h
  · rw [readHalf] at h
    split at h
    · rename_i hbytes
      obtain ⟨rfl, rfl⟩ := hbytes
      exact ⟨behind, rfl, h⟩
    · cases h

theorem letter_of_readNumbered {text bytes rest : Bytes}
    (h : readNumbered text = some (bytes, rest)) :
    ∃ front, text = front ++ rest ∧ Letter (backslash :: 117 :: front) bytes := by
  rw [readNumbered] at h
  split at h
  · cases h
  rename_i n behind hunit
  obtain ⟨a, b, c, d, rfl, hn⟩ := readUnit_eq_some_iff.mp hunit
  split at h
  · split at h
    · cases h
    rename_i n' rest' hhalf
    split at h
    · rename_i hpair
      obtain ⟨rfl, rfl⟩ := Prod.mk.inj (Option.some.inj h)
      obtain ⟨behind', rfl, hunit'⟩ := readHalf_eq_some hhalf
      obtain ⟨a', b', c', d', rfl, hn'⟩ := readUnit_eq_some_iff.mp hunit'
      exact ⟨[a, b, c, d, backslash, 117, a', b', c', d'], rfl, .pair hn hpair.1 hn' hpair.2⟩
    · cases h
  · rename_i hhalf
    obtain ⟨rfl, rfl⟩ := Prod.mk.inj (Option.some.inj h)
    exact ⟨[a, b, c, d], rfl, .unit hn (eq_false_of_ne_true hhalf)⟩

/-- What is read as a character is one. -/
theorem letter_of_readLetter {text bytes rest : Bytes} (h : readLetter text = some (bytes, rest)) :
    ∃ front, text = front ++ rest ∧ Letter front bytes := by
  rcases text with _ | ⟨b, behind⟩
  · cases h
  rw [readLetter] at h
  split at h
  · rename_i hb
    subst hb
    rcases behind with _ | ⟨code, behind⟩
    · cases h
    rw [readEscaped] at h
    split at h
    · rename_i hcode
      subst hcode
      obtain ⟨front, rfl, hletter⟩ := letter_of_readNumbered h
      exact ⟨backslash :: 117 :: front, rfl, hletter⟩
    · obtain ⟨b, hlookup, hpair⟩ := Option.map_eq_some_iff.mp h
      obtain ⟨rfl, rfl⟩ := Prod.mk.inj hpair
      exact ⟨[backslash, code], rfl, .short (lookup_shortEscapes.mp hlookup)⟩
  · rename_i hbackslash
    split at h
    · cases h
    · rename_i hplain
      obtain ⟨hcode, hquote⟩ := not_or.mp hplain
      obtain ⟨rfl, rfl⟩ := Prod.mk.inj (Option.some.inj h)
      exact ⟨[b], rfl, .plain (UInt8.not_lt.mp hcode) hquote hbackslash⟩

theorem readNumbered_unit {a b c d : UInt8} {n : Nat} (h : unit? a b c d = some n)
    (hhalf : Charset.isSurrogate n = false) (rest : Bytes) :
    readNumbered (a :: b :: c :: d :: rest) = some (Charset.encodeUtf8 n, rest) := by
  rw [readNumbered, readUnit, h]
  exact if_neg (ne_true_of_eq_false hhalf)

theorem readNumbered_pair {a b c d a' b' c' d' : UInt8} {n n' : Nat} (h : unit? a b c d = some n)
    (hhigh : Charset.IsHigh n) (h' : unit? a' b' c' d' = some n') (hlow : Charset.IsLow n')
    (rest : Bytes) :
    readNumbered (a :: b :: c :: d :: backslash :: 117 :: a' :: b' :: c' :: d' :: rest) =
      some (Charset.encodeUtf8 (Charset.pairCode n n'), rest) := by
  have hhalf : readHalf (backslash :: 117 :: a' :: b' :: c' :: d' :: rest) = some (n', rest) := by
    rw [readHalf, if_pos ⟨rfl, rfl⟩, readUnit, h']
    rfl
  rw [readNumbered, readUnit, h]
  show (if Charset.isSurrogate n = true then _ else _) = _
  rw [if_pos ((Charset.isSurrogate_iff n).mpr (.inl hhigh)), hhalf]
  exact if_pos ⟨hhigh, hlow⟩

/-- A character is read as what it stands for. -/
theorem Letter.read {front bytes : Bytes} (h : Letter front bytes) (rest : Bytes) :
    readLetter (front ++ rest) = some (bytes, rest) := by
  cases h with
  | @plain b hcode hquote hbackslash =>
    show readLetter (b :: rest) = _
    rw [readLetter, if_neg hbackslash, if_neg (not_or.mpr ⟨UInt8.not_lt.mpr hcode, hquote⟩)]
  | @short code b hshort =>
    have hall : shortEscapes.all (·.1 != 117) = true := by decide
    have hcode : code ≠ 117 := bne_iff_ne.mp (List.all_eq_true.mp hall _ hshort)
    show readLetter (backslash :: code :: rest) = _
    rw [readLetter, if_pos rfl, readEscaped, if_neg hcode, lookup_shortEscapes.mpr hshort]
    rfl
  | unit hn hhalf => exact readNumbered_unit hn hhalf rest
  | pair hn hhigh hn' hlow => exact readNumbered_pair hn hhigh hn' hlow rest

/-- A character does not begin with a quotation mark. -/
theorem Letter.exists_cons {front bytes : Bytes} (h : Letter front bytes) :
    ∃ b more, front = b :: more ∧ b ≠ quote := by
  cases h with
  | plain _ hquote => exact ⟨_, _, rfl, hquote⟩
  | short => exact ⟨_, _, rfl, by decide⟩
  | unit => exact ⟨_, _, rfl, by decide⟩
  | pair => exact ⟨_, _, rfl, by decide⟩

theorem length_of_readLetter {text bytes rest : Bytes} (h : readLetter text = some (bytes, rest)) :
    rest.length < text.length := by
  obtain ⟨front, rfl, hletter⟩ := letter_of_readLetter h
  obtain ⟨b, more, rfl, -⟩ := hletter.exists_cons
  rw [List.length_append, List.length_cons]
  omega

/-- Reads a string behind its first quotation mark. -/
def readLetters (text : Bytes) : Option (Bytes × Bytes) :=
  match text with
  | [] => none
  | b :: rest =>
    if b = quote then some ([], rest)
    else
      match _h : readLetter (b :: rest) with
      | none => none
      | some (bytes, rest) => (readLetters rest).map fun r => (bytes ++ r.1, r.2)
termination_by text.length
decreasing_by exact length_of_readLetter _h

/-- What is read as a string is one. -/
theorem letters_of_readLetters {text value rest : Bytes}
    (h : readLetters text = some (value, rest)) :
    ∃ letters, text = letters ++ quote :: rest ∧ Letters letters value := by
  fun_induction readLetters text generalizing value with
  | case1 => cases h
  | case2 rest' =>
    obtain ⟨rfl, rfl⟩ := Prod.mk.inj (Option.some.inj h)
    exact ⟨[], rfl, .nil⟩
  | case3 => cases h
  | case4 b rest' hb bytes behind hletter ih =>
    obtain ⟨⟨value', rest''⟩, hread, hpair⟩ := Option.map_eq_some_iff.mp h
    obtain ⟨rfl, rfl⟩ := Prod.mk.inj hpair
    obtain ⟨letters, rfl, hletters⟩ := ih hread
    obtain ⟨front, hfront, hfirst⟩ := letter_of_readLetter hletter
    exact ⟨front ++ letters, by rw [hfront, List.append_assoc], .cons hfirst hletters⟩

theorem readLetters_of_letter {b : UInt8} {rest bytes behind : Bytes} (hb : b ≠ quote)
    (h : readLetter (b :: rest) = some (bytes, behind)) :
    readLetters (b :: rest) = (readLetters behind).map fun r => (bytes ++ r.1, r.2) := by
  rw [readLetters, if_neg hb]
  split
  · rename_i hnone
    cases h.symm.trans hnone
  · rename_i hsome
    obtain ⟨rfl, rfl⟩ := Prod.mk.inj (Option.some.inj (h.symm.trans hsome))
    rfl

/-- A string is read as its bytes. -/
theorem Letters.read {letters value : Bytes} (h : Letters letters value) (rest : Bytes) :
    readLetters (letters ++ quote :: rest) = some (value, rest) := by
  induction h with
  | nil => rw [List.nil_append, readLetters, if_pos rfl]
  | @cons front bytes text value hletter _ ih =>
    have hread := hletter.read (text ++ quote :: rest)
    obtain ⟨b, more, rfl, hb⟩ := hletter.exists_cons
    rw [List.append_assoc]
    exact (readLetters_of_letter hb hread).trans (by rw [ih]; rfl)

/-! ## Numbers -/

/-- What follows does not go on with a number. -/
def Apart (rest : Bytes) : Prop :=
  ∀ b ∈ rest.head?, isDigit b = false ∧ b ≠ dot ∧ b ≠ 101 ∧ b ≠ 69

/-- Reads digits, at least one, as many as there are. -/
def readDigits (text : Bytes) : Option (Bytes × Bytes) :=
  if (text.takeWhile isDigit).isEmpty then none
  else some (text.takeWhile isDigit, text.dropWhile isDigit)

theorem digits_of_readDigits {text digits rest : Bytes}
    (h : readDigits text = some (digits, rest)) : text = digits ++ rest ∧ Digits digits := by
  rw [readDigits] at h
  split at h
  · cases h
  · rename_i hne
    obtain ⟨rfl, rfl⟩ := Prod.mk.inj (Option.some.inj h)
    exact ⟨List.takeWhile_append_dropWhile.symm, fun hnil => hne (List.isEmpty_iff.mpr hnil),
      fun _ => List.mem_takeWhile_imp⟩

theorem Digits.read {digits rest : Bytes} (h : Digits digits)
    (hrest : ∀ b ∈ rest.head?, isDigit b = false) :
    readDigits (digits ++ rest) = some (digits, rest) := by
  have htake : rest.takeWhile isDigit = [] ∧ rest.dropWhile isDigit = rest := by
    rcases rest with _ | ⟨b, rest⟩
    · exact ⟨rfl, rfl⟩
    · have hb := ne_true_of_eq_false (hrest b rfl)
      exact ⟨List.takeWhile_cons_of_neg hb, List.dropWhile_cons_of_neg hb⟩
  rw [readDigits, List.takeWhile_append_of_pos h.2, List.dropWhile_append_of_pos h.2, htake.1,
    htake.2, List.append_nil, List.isEmpty_eq_false_iff.mpr h.1, if_neg Bool.false_ne_true]

/-- Reads the digits in front of the point. -/
def readWhole (text : Bytes) : Option (Bytes × Bytes) :=
  match readDigits text with
  | none => none
  | some (digits, rest) =>
    if digits.head? = some (digit 0) ∧ digits ≠ [digit 0] then none else some (digits, rest)

/-- Reads the point and the digits behind it, if there is a point. -/
def readFraction : Bytes → Option (Bytes × Bytes)
  | [] => some ([], [])
  | b :: rest => if b = dot then readDigits rest else some ([], b :: rest)

/-- Reads the power of ten behind its letter. -/
def readExponent (text : Bytes) : Option (Int × Bytes) :=
  (readDigits (Number.splitSign text).2).map fun r =>
    (signed (Number.splitSign text).1 (Number.ofDigits r.1), r.2)

/-- Reads the power of ten, if there is one. -/
def readPower : Bytes → Option (Option Int × Bytes)
  | [] => some (none, [])
  | b :: rest =>
    if b = 101 ∨ b = 69 then (readExponent rest).map fun r => (some r.1, r.2)
    else some (none, b :: rest)

/-- Reads a sign. -/
def readSign : Bytes → Bool × Bytes
  | [] => (false, [])
  | b :: rest => if b = minus then (true, rest) else (false, b :: rest)

/-- Reads a number. -/
def readFigures (text : Bytes) : Option (Numeral × Bytes) := do
  let (negative, text) := readSign text
  let (whole, text) ← readWhole text
  let (decimals, text) ← readFraction text
  let (exponent, text) ← readPower text
  return ({ negative, whole := Number.ofDigits whole, decimals, exponent }, text)

theorem eq_of_readSign {text behind : Bytes} {negative : Bool}
    (h : readSign text = (negative, behind)) :
    text = (if negative then [minus] else []) ++ behind := by
  rcases text with _ | ⟨b, text⟩
  · obtain ⟨rfl, rfl⟩ := Prod.mk.inj h
    rfl
  rw [readSign] at h
  split at h
  · rename_i hb
    obtain ⟨rfl, rfl⟩ := Prod.mk.inj h
    rw [hb]
    rfl
  · obtain ⟨rfl, rfl⟩ := Prod.mk.inj h
    rfl

theorem whole_of_readWhole {text whole rest : Bytes} (h : readWhole text = some (whole, rest)) :
    text = whole ++ rest ∧ Whole whole := by
  rw [readWhole] at h
  split at h
  · cases h
  rename_i hdigits
  split at h
  · cases h
  rename_i hzero
  obtain ⟨rfl, rfl⟩ := Prod.mk.inj (Option.some.inj h)
  obtain ⟨htext, hall⟩ := digits_of_readDigits hdigits
  exact ⟨htext, hall, fun hhead => Classical.byContradiction fun hne => hzero ⟨hhead, hne⟩⟩

theorem fraction_of_readFraction {text decimals rest : Bytes}
    (h : readFraction text = some (decimals, rest)) :
    ∃ front, text = front ++ rest ∧ Fraction front decimals := by
  rcases text with _ | ⟨b, behind⟩
  · obtain ⟨rfl, rfl⟩ := Prod.mk.inj (Option.some.inj h)
    exact ⟨[], rfl, .absent⟩
  rw [readFraction] at h
  split at h
  · rename_i hb
    subst hb
    obtain ⟨rfl, hdigits⟩ := digits_of_readDigits h
    exact ⟨dot :: decimals, rfl, .digits hdigits⟩
  · obtain ⟨rfl, rfl⟩ := Prod.mk.inj (Option.some.inj h)
    exact ⟨[], rfl, .absent⟩

theorem sign_splitSign (text : Bytes) : ∃ sign,
    text = sign ++ (Number.splitSign text).2 ∧ Sign sign (Number.splitSign text).1 := by
  unfold Number.splitSign
  split
  · exact ⟨[minus], rfl, .minus⟩
  · exact ⟨[plus], rfl, .plus⟩
  · exact ⟨[], rfl, .absent⟩

theorem power_of_readExponent {e : UInt8} (he : e = 101 ∨ e = 69) {text rest : Bytes} {x : Int}
    (h : readExponent text = some (x, rest)) :
    ∃ front, text = front ++ rest ∧ Power (e :: front) (some x) := by
  obtain ⟨⟨digits, rest'⟩, hread, hpair⟩ := Option.map_eq_some_iff.mp h
  obtain ⟨rfl, rfl⟩ := Prod.mk.inj hpair
  obtain ⟨hbehind, hdigits⟩ := digits_of_readDigits hread
  obtain ⟨sign, htext, hsign⟩ := sign_splitSign text
  exact ⟨sign ++ digits, by rw [htext, hbehind, List.append_assoc], .present he hsign hdigits⟩

theorem power_of_readPower {text rest : Bytes} {exponent : Option Int}
    (h : readPower text = some (exponent, rest)) :
    ∃ front, text = front ++ rest ∧ Power front exponent := by
  rcases text with _ | ⟨b, behind⟩
  · obtain ⟨rfl, rfl⟩ := Prod.mk.inj (Option.some.inj h)
    exact ⟨[], rfl, .absent⟩
  rw [readPower] at h
  split at h
  · rename_i hb
    obtain ⟨⟨x, rest'⟩, hread, hpair⟩ := Option.map_eq_some_iff.mp h
    obtain ⟨rfl, rfl⟩ := Prod.mk.inj hpair
    obtain ⟨front, rfl, hpower⟩ := power_of_readExponent hb hread
    exact ⟨b :: front, rfl, hpower⟩
  · obtain ⟨rfl, rfl⟩ := Prod.mk.inj (Option.some.inj h)
    exact ⟨[], rfl, .absent⟩

/-- What is read as a number is one. -/
theorem figures_of_readFigures {text rest : Bytes} {n : Numeral}
    (h : readFigures text = some (n, rest)) :
    ∃ front, text = front ++ rest ∧ Figures front n := by
  rw [readFigures] at h
  rcases hsign : readSign text with ⟨negative, behind⟩
  rw [hsign] at h
  obtain ⟨⟨whole, text₁⟩, hreadWhole, h⟩ := Option.bind_eq_some_iff.mp h
  obtain ⟨⟨decimals, text₂⟩, hreadFraction, h⟩ := Option.bind_eq_some_iff.mp h
  obtain ⟨⟨exponent, text₃⟩, hreadPower, h⟩ := Option.bind_eq_some_iff.mp h
  obtain ⟨rfl, rfl⟩ := Prod.mk.inj (Option.some.inj h)
  obtain ⟨rfl, hwhole⟩ := whole_of_readWhole hreadWhole
  obtain ⟨fraction, rfl, hfraction⟩ := fraction_of_readFraction hreadFraction
  obtain ⟨power, rfl, hpower⟩ := power_of_readPower hreadPower
  refine ⟨_, ?_, .intro hwhole hfraction hpower⟩
  rw [eq_of_readSign hsign]
  simp only [List.append_assoc]

theorem Whole.read {whole rest : Bytes} (h : Whole whole)
    (hrest : ∀ b ∈ rest.head?, isDigit b = false) :
    readWhole (whole ++ rest) = some (whole, rest) := by
  rw [readWhole, h.1.read hrest]
  exact if_neg fun hzero => hzero.2 (h.2 hzero.1)

theorem Fraction.read {front decimals rest : Bytes} (h : Fraction front decimals)
    (hrest : ∀ b ∈ rest.head?, isDigit b = false ∧ b ≠ dot) :
    readFraction (front ++ rest) = some (decimals, rest) := by
  cases h with
  | absent =>
    rcases rest with _ | ⟨b, rest⟩
    · rfl
    · exact if_neg (hrest b rfl).2
  | digits h =>
    rw [List.cons_append, readFraction, if_pos rfl]
    exact h.read fun b hb => (hrest b hb).1

theorem splitSign_append {sign digits : Bytes} {negative : Bool} (h : Sign sign negative)
    (hdigits : Digits digits) (rest : Bytes) :
    Number.splitSign (sign ++ (digits ++ rest)) = (negative, digits ++ rest) := by
  cases h with
  | plus => rfl
  | minus => rfl
  | absent =>
    obtain ⟨b, more, rfl⟩ := List.exists_cons_of_ne_nil hdigits.1
    have hb := hdigits.2 b List.mem_cons_self
    rw [List.nil_append, List.cons_append]
    unfold Number.splitSign
    split
    · rename_i heq
      obtain ⟨rfl, -⟩ := List.cons.inj heq
      cases hb
    · rename_i heq
      obtain ⟨rfl, -⟩ := List.cons.inj heq
      cases hb
    · rfl

theorem Power.read {front rest : Bytes} {exponent : Option Int} (h : Power front exponent)
    (hrest : Apart rest) : readPower (front ++ rest) = some (exponent, rest) := by
  cases h with
  | absent =>
    rcases rest with _ | ⟨b, rest⟩
    · rfl
    · obtain ⟨-, -, he, he'⟩ := hrest b rfl
      exact if_neg (not_or.mpr ⟨he, he'⟩)
  | @present e sign digits negative he hsign hdigits =>
    rw [List.cons_append, List.append_assoc, readPower, if_pos he, readExponent,
      splitSign_append hsign hdigits, hdigits.read fun b hb => (hrest b hb).1]
    rfl

theorem readSign_append {digits : Bytes} (hdigits : Digits digits) (negative : Bool)
    (rest : Bytes) :
    readSign ((if negative then [minus] else []) ++ (digits ++ rest)) =
      (negative, digits ++ rest) := by
  cases negative with
  | true => rfl
  | false =>
    obtain ⟨b, more, rfl⟩ := List.exists_cons_of_ne_nil hdigits.1
    have hb : b ≠ minus := by
      rintro rfl
      cases hdigits.2 minus List.mem_cons_self
    exact if_neg hb

/-- The digits of a number end where its point or its power begins, or what follows it. -/
theorem Power.apart {front rest : Bytes} {exponent : Option Int} (h : Power front exponent)
    (hrest : Apart rest) : ∀ b ∈ (front ++ rest).head?, isDigit b = false ∧ b ≠ dot := by
  cases h with
  | absent => exact fun b hb => ⟨(hrest b hb).1, (hrest b hb).2.1⟩
  | present he =>
    rintro b ⟨⟩
    rcases he with rfl | rfl
    · decide
    · decide

theorem Fraction.apart {front decimals rest : Bytes} (h : Fraction front decimals)
    (hrest : ∀ b ∈ rest.head?, isDigit b = false) :
    ∀ b ∈ (front ++ rest).head?, isDigit b = false := by
  cases h with
  | absent => exact hrest
  | digits =>
    rintro b ⟨⟩
    rfl

/-- A number is read if what follows does not go on with it. -/
theorem Figures.read {front rest : Bytes} {n : Numeral} (h : Figures front n)
    (hrest : Apart rest) : readFigures (front ++ rest) = some (n, rest) := by
  obtain @⟨negative, whole, fraction, decimals, power, exponent, hwhole, hfraction, hpower⟩ := h
  have hapart := hpower.apart hrest
  have hdigits := hfraction.apart fun b hb => (hapart b hb).1
  simp only [List.append_assoc]
  rw [readFigures, readSign_append hwhole.1]
  simp only [Option.bind_eq_bind, hwhole.read hdigits, Option.bind_some, hfraction.read hapart,
    hpower.read hrest]
  rfl

end Json

end TextLines

import TextLines.Charset.Encoding

/-!
# Converting text to UTF-8

`decode` is what it means to read a whole text: character by character from left to right, every
byte that cannot begin a character replaced by one U+FFFD and skipped alone, and a beginning of a
character at the very end replaced by one U+FFFD as a whole.

`Charset.convert` is the step from which a decoder over pieces is built. It converts as far as the
text is sound and there is room for the result, and it says why it stopped there; what to replace
and when to ask for more is up to its caller.
-/

namespace TextLines

namespace Charset

/-- Why a conversion went no further. -/
inductive Stop where
  /-- All of the text has been converted. -/
  | exhausted
  /-- The next byte cannot begin a character. -/
  | malformed
  /-- The rest of the text is the beginning of a character. -/
  | incomplete
  /-- The next character does not fit. -/
  | full
  deriving DecidableEq, Repr

/-- How far a conversion went. -/
structure Conversion where
  /-- What has been converted, in UTF-8. -/
  text : Bytes
  /-- What has not been converted. -/
  rest : Bytes
  /-- Why. -/
  stop : Stop
  deriving DecidableEq, Repr

/-- Converts `input` behind `done`, the converted text with its last byte first, as long as the
characters fit into `room` bytes. -/
def convertFrom (charset : Charset) (room : Nat) (done input : Bytes) : Conversion :=
  match input with
  | [] => ⟨done.reverse, [], .exhausted⟩
  | b :: rest =>
    match charset.first b rest with
    | .malformed => ⟨done.reverse, b :: rest, .malformed⟩
    | .incomplete => ⟨done.reverse, b :: rest, .incomplete⟩
    | .character code extra =>
      let bytes := encodeUtf8 code
      if room < bytes.length then ⟨done.reverse, b :: rest, .full⟩
      else convertFrom charset (room - bytes.length) (bytes.reverse ++ done) (rest.drop extra)
termination_by input.length
decreasing_by
  simp only [List.length_drop, List.length_cons]
  omega

/-- Converts a text as long as its characters fit into `room` bytes. -/
def convert (charset : Charset) (room : Nat) (input : Bytes) : Conversion :=
  convertFrom charset room [] input

theorem convertFrom_length (charset : Charset) (room : Nat) (done input : Bytes) :
    (convertFrom charset room done input).text.length +
        6 * (convertFrom charset room done input).rest.length ≤
      done.length + 6 * input.length := by
  fun_induction convertFrom charset room done input with
  | case1 => simp
  | case2 => simp
  | case3 => simp
  | case4 => simp
  | case5 room done b rest code extra _ bytes _ ih =>
    have := length_encodeUtf8_le code
    have hd : (rest.drop extra).length ≤ rest.length := by simp
    simp only [List.length_append, List.length_reverse, List.length_cons, bytes] at ih ⊢
    omega

/-- Six bytes of output for each byte of input are enough. -/
theorem convert_length (charset : Charset) (room : Nat) (input : Bytes) :
    (convert charset room input).text.length + 6 * (convert charset room input).rest.length ≤
      6 * input.length := by
  simpa [convert] using convertFrom_length charset room [] input

theorem convertFrom_rest_ne_nil (charset : Charset) (room : Nat) (done input : Bytes)
    (h : (convertFrom charset room done input).stop ≠ .exhausted) :
    (convertFrom charset room done input).rest ≠ [] := by
  fun_induction convertFrom charset room done input with
  | case1 => simp at h
  | case2 => simp
  | case3 => simp
  | case4 => simp
  | case5 _ _ _ _ _ _ _ _ _ ih => exact ih h

/-- A conversion that stops early leaves something. -/
theorem convert_rest_ne_nil (charset : Charset) (room : Nat) (input : Bytes)
    (h : (convert charset room input).stop ≠ .exhausted) :
    (convert charset room input).rest ≠ [] :=
  convertFrom_rest_ne_nil charset room [] input h

/-! ## Whole texts -/

/-- The UTF-8 form of a text in one character set. -/
def decode (charset : Charset) (text : Bytes) : Bytes :=
  match text with
  | [] => []
  | b :: rest =>
    match charset.first b rest with
    | .character code extra => encodeUtf8 code ++ charset.decode (rest.drop extra)
    | .malformed => replacement ++ charset.decode rest
    | .incomplete => replacement
termination_by text.length
decreasing_by
  · simp only [List.length_drop, List.length_cons]; omega
  · simp

end Charset

namespace Encoding

/-- The UTF-8 form of a text. A text too short to hold the mark that its encoding looks for is the
beginning of a character. -/
def decode (encoding : Encoding) (text : Bytes) : Bytes :=
  match encoding.settle text with
  | some (charset, rest) => charset.decode rest
  | none => if text.isEmpty then [] else Charset.replacement

theorem settle_length {encoding : Encoding} {text rest : Bytes} {charset : Charset}
    (h : encoding.settle text = some (charset, rest)) : rest.length ≤ text.length := by
  unfold settle at h
  split at h
  · simp only [Option.some.injEq, Prod.mk.injEq] at h
    simp [h.2]
  all_goals
    split at h <;> simp only [Option.some.injEq, Prod.mk.injEq, reduceCtorEq] at h
    all_goals
      obtain ⟨_, rfl⟩ := h
      simp only [List.length_cons]
      omega

end Encoding

end TextLines

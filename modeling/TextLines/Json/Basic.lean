import TextLines.Json.Numeral

/-!
# JSON text

A `Json` value is what a JSON text says, and `Json.render` writes the text, without blanks. Strings
are byte strings: the two characters and the control codes that JSON reserves are escaped, and every
other byte is written as it is.
-/

namespace TextLines

open Bytes

/-- What a JSON text says. The fields of an object keep their order. -/
inductive Json where
  | null
  | bool (value : Bool)
  | number (value : Numeral)
  | string (value : Bytes)
  | array (items : List Json)
  | object (fields : List (Bytes × Json))

namespace Json

/-- The quotation mark. -/
def quote : UInt8 := 34

/-- The backslash. -/
def backslash : UInt8 := 92

/-- A byte inside a string. -/
def escapeByte (b : UInt8) : Bytes :=
  if b == backslash then [backslash, backslash]
  else if b == quote then [backslash, quote]
  else if b == lf then ascii "\\n"
  else if b == cr then ascii "\\r"
  else if b == 9 then ascii "\\t"
  else if b < 32 then ascii "\\u00" ++ hex [b]
  else [b]

/-- The text of a string. -/
def renderString (value : Bytes) : Bytes :=
  quote :: value.flatMap escapeByte ++ [quote]

mutual

/-- The text of a value. -/
def render : Json → Bytes
  | .null => ascii "null"
  | .bool true => ascii "true"
  | .bool false => ascii "false"
  | .number value => value.render
  | .string value => renderString value
  | .array items => ascii "[" ++ Bytes.join (ascii ",") (renderItems items) ++ ascii "]"
  | .object fields => ascii "\x7b" ++ Bytes.join (ascii ",") (renderFields fields) ++ ascii "\x7d"

/-- The texts of the items of an array. -/
def renderItems : List Json → List Bytes
  | [] => []
  | item :: rest => item.render :: renderItems rest

/-- The texts of the fields of an object. -/
def renderFields : List (Bytes × Json) → List Bytes
  | [] => []
  | (name, value) :: rest =>
    (renderString name ++ ascii ":" ++ value.render) :: renderFields rest

end

theorem renderItems_eq_map (items : List Json) : renderItems items = items.map render := by
  induction items with
  | nil => rfl
  | cons item items ih => rw [renderItems, ih, List.map_cons]

theorem renderFields_eq_map (fields : List (Bytes × Json)) :
    renderFields fields = fields.map fun f => renderString f.1 ++ ascii ":" ++ f.2.render := by
  induction fields with
  | nil => rfl
  | cons field fields ih => rw [renderFields, ih, List.map_cons]

end Json

end TextLines

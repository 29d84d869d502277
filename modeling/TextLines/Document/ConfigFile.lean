import TextLines.Document.Config

/-!
# Configurations in files

A configuration can be written into a file, as a JSON object with its fields. These are taken one
after another, so a field that is given twice counts as it was given last, and fields with other
names are passed over. Only the path has to be given (`Config.load`).

JSON is read by a library that is not part of this one (`JsonReader`). It hands out the fields of an
object with their values unread; a value is then looked at as one of a kind, and is refused if it is
of another. What the library refuses it refuses in its own words, which are passed on.
-/

namespace TextLines

open Bytes
open Files (FileSystem)

/-- A field of a JSON object, with what its value is when it is looked at as one of a kind. -/
structure JsonField where
  /-- Its name. -/
  name : Bytes
  /-- Whether the value is `null`. -/
  isNull : Except Bytes Bool
  /-- The value as a string. -/
  string : Except Bytes Bytes
  /-- The value as a truth value. -/
  truth : Except Bytes Bool
  /-- The value as a natural number of 64 bits. -/
  natural : Except Bytes UInt64

/-- A library that reads JSON. -/
class JsonReader where
  /-- The text of a file, or why it cannot be read. -/
  load : FileSystem → (path : Bytes) → Except Bytes Bytes
  /-- The fields of the object that a text is, in their order. Where the text turns out to be none,
  the reason stands in place of a field. -/
  fields : (text : Bytes) → List (Except Bytes JsonField)

/-- Why a file gives no configuration. -/
inductive ConfigFault where
  /-- It cannot be read. -/
  | unreadable (path reason : Bytes)
  /-- It is not an object, or a field is not of the kind that it has to be. -/
  | badJson (reason : Bytes)
  /-- There is no file to read lines of. -/
  | noPath
  /-- Reading nothing at a time leads nowhere. -/
  | emptyChunk
  deriving DecidableEq, Repr

/-- The text for a file that gives no configuration. -/
def ConfigFault.text : ConfigFault → Bytes
  | .unreadable path reason => ascii "cannot read view config " ++ path ++ ascii ": " ++ reason
  | .badJson reason => ascii "invalid view config: " ++ reason
  | .noPath => ascii "invalid view config: \"path\" is required"
  | .emptyChunk => ascii "invalid view config: \"chunk_bytes\" must be > 0"

namespace Config

/-- The fields that are known, each with what it does to a configuration. -/
def knownFields : List (String × (Config → JsonField → Except Bytes Config)) := [
  ("path", fun config field => field.string.map fun path => { config with path }),
  ("encoding", fun config field =>
    field.isNull.bind fun isNull =>
      if isNull then .ok { config with encoding := none }
      else field.string.map fun name => { config with encoding := some name }),
  ("compressed", fun config field => field.truth.map fun compressed => { config with compressed }),
  ("chunk_bytes", fun config field =>
    field.natural.map fun n => { config with chunkBytes := n.toNat }),
  ("max_line_bytes", fun config field =>
    field.natural.map fun n => { config with maxLineBytes := n.toNat })]

/-- Takes a field, or passes it over. -/
def takeField (config : Config) (field : JsonField) : Except Bytes Config :=
  match knownFields.find? (ascii ·.1 == field.name) with
  | some (_, take) => take config field
  | none => .ok config

/-- Takes fields one after another. -/
def takeFields (config : Config) : List (Except Bytes JsonField) → Except Bytes Config
  | [] => .ok config
  | .error reason :: _ => .error reason
  | .ok field :: rest =>
    match config.takeField field with
    | .error reason => .error reason
    | .ok config => config.takeFields rest

/-- Checks a configuration. A name of an encoding that is empty declares none. -/
def check (config : Config) : Except ConfigFault Config :=
  if config.path.isEmpty then .error .noPath
  else if config.chunkBytes = 0 then .error .emptyChunk
  else .ok { config with encoding := config.encoding.filter (!·.isEmpty) }

variable [JsonReader]

/-- The configuration that a text gives. -/
def ofJson (text : Bytes) : Except ConfigFault Config :=
  match takeFields {} (JsonReader.fields text) with
  | .error reason => .error (.badJson reason)
  | .ok config => config.check

/-- The configuration that a file gives. -/
def load (fs : FileSystem) (path : Bytes) : Except ConfigFault Config :=
  match JsonReader.load fs path with
  | .error reason => .error (.unreadable path reason)
  | .ok text => ofJson text

end Config

end TextLines

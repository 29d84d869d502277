import TextLines.Charset.Decoder
import TextLines.Gzip.Source
import TextLines.Source.File

/-!
# What document to read, and how

A `Config` names a file and says how its bytes become lines: whether it is compressed, how the text
is encoded, how much to read at a time and how long a line may be. `Config.openSource` puts the
sources together accordingly: the file, inflated if it is compressed, decoded if an encoding is
declared. Without a declared encoding the bytes are taken as they are.
-/

namespace TextLines

open Files (FileSystem)

/-- A file and the way to read it. -/
structure Config where
  /-- The path of the file. -/
  path : Bytes := []
  /-- The name of the encoding, if one is declared. -/
  encoding : Option Bytes := none
  /-- Whether the file is a gzip file. -/
  compressed : Bool := false
  /-- How many bytes to ask for at a time; zero counts as one. -/
  chunkBytes : Nat := 65536
  /-- The longest line that is accepted; zero accepts all. -/
  maxLineBytes : Nat := 0
  deriving DecidableEq, Repr

/-- A file, plain or compressed. -/
abbrev RawSource := FileSource ⊕ GzipSource

/-- A file with a decoder in front of it, or without. -/
abbrev DocumentSource := RawSource ⊕ Decoder RawSource

/-- Opens a file, plain or compressed. -/
def RawSource.ofPath (fs : FileSystem) (compressed : Bool) (path : Bytes) :
    Except Error RawSource :=
  if compressed then (GzipSource.ofPath fs path).map .inr else (FileSource.ofPath fs path).map .inl

/-- Opens the source that a configuration describes. The file is opened first, so a missing file
hides an unknown encoding. -/
def Config.openSource (config : Config) (fs : FileSystem) : Except Error DocumentSource :=
  match RawSource.ofPath fs config.compressed config.path with
  | .error e => .error e
  | .ok raw =>
    match config.encoding with
    | none => .ok (.inl raw)
    | some name => (Decoder.ofSource raw name config.path).map .inr

end TextLines

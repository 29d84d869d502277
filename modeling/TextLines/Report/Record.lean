import TextLines.Json.Basic
import TextLines.Report.Tally

/-!
# The record of a run

A `RunRecord` is what is kept of a run over one file: what the tally shows, what the file is and how
it was read, and the digest of its lines. `RunRecord.toJson` says how the record looks as a JSON
object, and `RunRecord.text` is what is written to the report file.
-/

namespace TextLines

open Bytes

/-- What is kept of a run over a file. -/
structure RunRecord where
  /-- What the run has done. -/
  summary : Summary
  /-- The path of the file, as it was given. -/
  fileName : Bytes
  /-- The name of the declared encoding, empty if none is. -/
  encoding : Bytes
  /-- Whether the file was read as a gzip file. -/
  compressed : Bool
  /-- What was asked for. -/
  mode : Bytes
  /-- The digest of the lines. -/
  digest : Bytes
  /-- The size of the file. -/
  fileSize : UInt64

namespace RunRecord

/-- A counter. -/
def counter (n : UInt64) : Json :=
  .number (.ofNat n.toNat)

/-- A measured value. -/
def measure (value : Float) : Json :=
  .number (.ofFloat value)

/-- A stage with its time. -/
def stageJson (stage : Bytes × UInt64) : Json :=
  .object [
    (ascii "stage", .string stage.1),
    (ascii "duration_ms", counter stage.2)]

/-- The record as a JSON object. -/
def toJson (r : RunRecord) : Json :=
  .object [
    (ascii "lines", counter r.summary.lines),
    (ascii "bytes", counter r.summary.bytes),
    (ascii "chars", counter r.summary.chars),
    (ascii "wall_time_ms", measure r.summary.wallTime),
    (ascii "throughput_mb_s", measure r.summary.throughput),
    (ascii "lines_per_sec", measure r.summary.lineRate),
    (ascii "stage_times", .array (r.summary.stages.map stageJson)),
    (ascii "filename", .string r.fileName),
    (ascii "encoding", if r.encoding.isEmpty then .null else .string r.encoding),
    (ascii "compressed", .bool r.compressed),
    (ascii "mode", .string r.mode),
    (ascii "digest", .string r.digest),
    (ascii "file_size", counter r.fileSize)]

/-- The text of the report on a run. -/
def text (r : RunRecord) : Bytes :=
  r.toJson.render

end RunRecord

end TextLines

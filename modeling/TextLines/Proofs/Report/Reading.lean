import TextLines.Proofs.Json.Doubles
import TextLines.Proofs.Json.Reading
import TextLines.Report.Record

/-!
# Reading reports

The report on a run is read as JSON, and `RunFacts.ofFields?` takes from its fields what they keep
exactly, by their names. For every record this gives back what the record holds
(`RunRecord.text_reads_back`): whatever bytes its names are made of, however large its counters are,
and also if its measured values are not numbers.

`RunFacts` are the exact things. The measured values are none of them, as they are rounded; each is
written as a number that is no larger than the largest finite double.
-/

namespace TextLines

open Bytes

namespace Json

/-! ## Values of a kind -/

/-- A counter of 64 bits, written without a sign, a point or a power. -/
def counter? : Json → Option UInt64
  | .number n =>
    if n = .ofNat n.whole ∧ n.whole < Number.wordSize then some (.ofNat n.whole) else none
  | _ => none

/-- A string. -/
def string? : Json → Option Bytes
  | .string value => some value
  | _ => none

/-- A name, or null for the empty one. -/
def name? : Json → Option Bytes
  | .null => some []
  | .string [] => none
  | .string name => some name
  | _ => none

/-- Yes or no. -/
def bool? : Json → Option Bool
  | .bool value => some value
  | _ => none

/-- A stage with its milliseconds. -/
def stage? : Json → Option (Bytes × UInt64)
  | .object fields => do
    let name ← fields.lookup (ascii "stage") >>= string?
    let spent ← fields.lookup (ascii "duration_ms") >>= counter?
    return (name, spent)
  | _ => none

/-- Stages in order. -/
def stages? : Json → Option (List (Bytes × UInt64))
  | .array items => items.mapM stage?
  | _ => none

end Json

/-- What the report on a run keeps exactly. -/
structure RunFacts where
  /-- The lines read. -/
  lines : UInt64
  /-- The bytes consumed. -/
  bytes : UInt64
  /-- The bytes of the lines, without what ends them. -/
  chars : UInt64
  /-- The names of the stages, each with its milliseconds. -/
  stages : List (Bytes × UInt64)
  /-- The path of the file. -/
  fileName : Bytes
  /-- The name of the declared encoding, empty if none is. -/
  encoding : Bytes
  /-- Whether the file was read as a gzip file. -/
  compressed : Bool
  /-- What was asked for. -/
  mode : Bytes
  /-- The digest of the lines. -/
  digest : Bytes
  /-- The size of the file. -/
  fileSize : UInt64

/-- What a record holds of what its report keeps exactly. -/
def RunRecord.facts (r : RunRecord) : RunFacts where
  lines := r.summary.lines
  bytes := r.summary.bytes
  chars := r.summary.chars
  stages := r.summary.stages
  fileName := r.fileName
  encoding := r.encoding
  compressed := r.compressed
  mode := r.mode
  digest := r.digest
  fileSize := r.fileSize

/-- Takes what is exact from the fields of a report. -/
def RunFacts.ofFields? (fields : List (Bytes × Json)) : Option RunFacts := do
  let lines ← fields.lookup (ascii "lines") >>= Json.counter?
  let bytes ← fields.lookup (ascii "bytes") >>= Json.counter?
  let chars ← fields.lookup (ascii "chars") >>= Json.counter?
  let stages ← fields.lookup (ascii "stage_times") >>= Json.stages?
  let fileName ← fields.lookup (ascii "filename") >>= Json.string?
  let encoding ← fields.lookup (ascii "encoding") >>= Json.name?
  let compressed ← fields.lookup (ascii "compressed") >>= Json.bool?
  let mode ← fields.lookup (ascii "mode") >>= Json.string?
  let digest ← fields.lookup (ascii "digest") >>= Json.string?
  let fileSize ← fields.lookup (ascii "file_size") >>= Json.counter?
  return { lines, bytes, chars, stages, fileName, encoding, compressed, mode, digest, fileSize }

namespace RunRecord

/-- The fields with measured values. -/
def measures : List String :=
  ["wall_time_ms", "throughput_mb_s", "lines_per_sec"]

/-! ## The fields of a report -/

theorem counter?_counter (n : UInt64) : (counter n).counter? = some n := by
  have hlt : n.toNat < Number.wordSize := n.toNat_lt
  show (if _ then _ else _) = _
  rw [if_pos ⟨rfl, hlt⟩]
  exact congrArg some (UInt64.ofNat_toNat)

theorem stage?_stageJson (stage : Bytes × UInt64) : (stageJson stage).stage? = some stage := by
  show (counter stage.2).counter? >>= (fun spent => some (stage.1, spent)) = some stage
  rw [counter?_counter]
  rfl

theorem stages?_stageJson (stages : List (Bytes × UInt64)) :
    (Json.array (stages.map stageJson)).stages? = some stages := by
  show (stages.map stageJson).mapM Json.stage? = some stages
  induction stages with
  | nil => rfl
  | cons stage stages ih =>
    rw [List.map_cons, List.mapM_cons, stage?_stageJson, ih]
    rfl

theorem name?_encoding (encoding : Bytes) :
    (if encoding.isEmpty then Json.null else .string encoding).name? = some encoding := by
  rcases encoding with _ | ⟨b, encoding⟩
  · rfl
  · rfl

/-- The fields of the report on a run. -/
def fields (r : RunRecord) : List (Bytes × Json) :=
  match r.toJson with
  | .object fields => fields
  | _ => []

theorem ofFields?_fields (r : RunRecord) : RunFacts.ofFields? r.fields = some r.facts := by
  -- The names are fixed texts, so the look-ups compute; what is left are the values.
  show (do
    let lines ← (counter r.summary.lines).counter?
    let bytes ← (counter r.summary.bytes).counter?
    let chars ← (counter r.summary.chars).counter?
    let stages ← (Json.array (r.summary.stages.map stageJson)).stages?
    let encoding ← (if r.encoding.isEmpty then Json.null else .string r.encoding).name?
    let fileSize ← (counter r.fileSize).counter?
    return RunFacts.mk lines bytes chars stages r.fileName encoding r.compressed r.mode r.digest
      fileSize) = _
  simp only [counter?_counter, stages?_stageJson, name?_encoding]
  rfl

theorem nodup_fields (r : RunRecord) : (r.fields.map Prod.fst).Nodup := by
  show (["lines", "bytes", "chars", "wall_time_ms", "throughput_mb_s", "lines_per_sec",
    "stage_times", "filename", "encoding", "compressed", "mode", "digest", "file_size"].map
      ascii).Nodup
  decide

theorem lookup_encoding (r : RunRecord) :
    r.fields.lookup (ascii "encoding") = some .null ↔ r.encoding = [] := by
  show some (if r.encoding.isEmpty then Json.null else .string r.encoding) = some .null ↔ _
  rcases r.encoding with _ | ⟨b, encoding⟩
  · exact iff_of_true rfl rfl
  · exact iff_of_false (fun h => by cases h) (List.cons_ne_nil _ _)

theorem exists_measure (r : RunRecord) : ∀ name ∈ measures, ∃ value,
    r.fields.lookup (ascii name) = some (measure value) := by
  refine List.forall_mem_cons.mpr ⟨⟨_, rfl⟩, ?_⟩
  exact List.forall_mem_cons.mpr ⟨⟨_, rfl⟩, List.forall_mem_singleton.mpr ⟨_, rfl⟩⟩

/-! ## The text -/

theorem counter_wellFormed (n : UInt64) : (counter n).WellFormed :=
  .number (List.forall_mem_nil _)

theorem measure_wellFormed (value : Float) : (measure value).WellFormed :=
  .number (Numeral.isDigit_of_mem_decimals _)

theorem stageJson_wellFormed (stage : Bytes × UInt64) : (stageJson stage).WellFormed :=
  .object (List.forall_mem_cons.mpr ⟨.string _,
    List.forall_mem_singleton.mpr (counter_wellFormed _)⟩)

theorem toJson_wellFormed (r : RunRecord) : r.toJson.WellFormed := by
  have hencoding : Json.WellFormed (if r.encoding.isEmpty then .null else .string r.encoding) := by
    split
    · exact .null
    · exact .string _
  refine .object ?_
  simp only [List.forall_mem_cons]
  exact ⟨counter_wellFormed _, counter_wellFormed _, counter_wellFormed _, measure_wellFormed _,
    measure_wellFormed _, measure_wellFormed _,
    .array (List.forall_mem_map.mpr fun stage _ => stageJson_wellFormed stage), .string _,
    hencoding,
    .bool _, .string _, .string _, counter_wellFormed _, List.forall_mem_nil _⟩

theorem read_text (r : RunRecord) : Json.read r.text = some (.object r.fields) :=
  r.toJson_wellFormed.read_render

/-- The report on a run is the text of a single object, whose fields have different names. Reading
it gives back what the record holds, with null for an encoding that is not declared, and a finite
number for each measured value. So reports with the same text are on the same facts. -/
theorem text_reads_back (r : RunRecord) : ∃ fields : List (Bytes × Json),
    Json.Says r.text (.object fields) ∧ Json.read r.text = some (.object fields) ∧
      (fields.map Prod.fst).Nodup ∧ RunFacts.ofFields? fields = some r.facts ∧
      (fields.lookup (ascii "encoding") = some .null ↔ r.encoding = []) ∧
      (∀ name ∈ measures, ∃ n : Numeral, fields.lookup (ascii name) = some (.number n) ∧
        |n.value| ≤ Numeral.largestDouble) ∧
      ∀ r' : RunRecord, r'.text = r.text → r'.facts = r.facts := by
  refine ⟨r.fields, r.toJson_wellFormed.says_render, r.read_text, r.nodup_fields,
    r.ofFields?_fields, r.lookup_encoding, fun name hname => ?_, fun r' htext => ?_⟩
  · obtain ⟨value, hvalue⟩ := r.exists_measure name hname
    exact ⟨.ofFloat value, hvalue, Numeral.abs_value_ofBits_le _⟩
  · have hfields : r'.fields = r.fields := by
      have hread := r'.read_text
      rw [htext, r.read_text] at hread
      exact (Json.object.inj (Option.some.inj hread)).symm
    have hfacts := r'.ofFields?_fields
    rw [hfields, r.ofFields?_fields] at hfacts
    exact (Option.some.inj hfacts).symm

end RunRecord

end TextLines

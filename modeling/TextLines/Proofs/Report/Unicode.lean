import TextLines.Proofs.CommandLine.Modes
import TextLines.Proofs.Json.Unicode
import TextLines.Proofs.Report.Placing
import TextLines.Proofs.Report.Reading

/-!
# Reports in Unicode

JSON texts that are exchanged are Unicode texts in UTF-8. The report on a run always obeys the
grammar, but the names in it are byte strings, and it is well-formed UTF-8 exactly if they are
(`RunRecord.isUtf8_text_iff`). Of the names in the reports of the program two are not its own: the
path of the file and the name of the encoding (`Options.namesAreUtf8_recordAfter_iff`).
-/

namespace TextLines

open Bytes
open Files (FileSystem)

/-! ## Records -/

/-- All names in a record are well-formed UTF-8. -/
structure RunRecord.NamesAreUtf8 (r : RunRecord) : Prop where
  fileName : IsUtf8 r.fileName
  encoding : IsUtf8 r.encoding
  mode : IsUtf8 r.mode
  digest : IsUtf8 r.digest
  stages : ∀ stage ∈ r.summary.stages, IsUtf8 stage.1

namespace RunRecord

theorem isUnicode_stageJson_iff (stage : Bytes × UInt64) :
    (stageJson stage).IsUnicode ↔ IsUtf8 stage.1 := by
  have hstage : IsUtf8 (ascii "stage") := IsAscii.isUtf8 (by decide)
  have hspent : IsUtf8 (ascii "duration_ms") := IsAscii.isUtf8 (by decide)
  rw [stageJson, Json.isUnicode_object_iff, List.forall_mem_cons, List.forall_mem_singleton,
    Json.isUnicode_string_iff, and_iff_right hstage]
  exact and_iff_left ⟨hspent, .number _⟩

theorem isUnicode_encoding_iff (encoding : Bytes) :
    Json.IsUnicode (if encoding.isEmpty then .null else .string encoding) ↔ IsUtf8 encoding := by
  rcases encoding with _ | ⟨b, encoding⟩
  · exact iff_of_true .null isUtf8_nil
  · exact Json.isUnicode_string_iff

theorem isUnicode_toJson_iff (r : RunRecord) : r.toJson.IsUnicode ↔ r.NamesAreUtf8 := by
  have hfields : ∀ field ∈ r.fields, IsUtf8 field.1 := by
    have hnames : ∀ name ∈ r.fields.map Prod.fst, IsAscii name := by
      show ∀ name ∈ ["lines", "bytes", "chars", "wall_time_ms", "throughput_mb_s",
        "lines_per_sec", "stage_times", "filename", "encoding", "compressed", "mode", "digest",
        "file_size"].map ascii, IsAscii name
      decide
    exact fun field hfield => (hnames _ (List.mem_map_of_mem hfield)).isUtf8
  have hvalues : (∀ field ∈ r.fields, field.2.IsUnicode) ↔ r.NamesAreUtf8 := by
    have hnumber : ∀ n, (Json.number n).IsUnicode ↔ True := fun n => iff_true_intro (.number n)
    have hbool : ∀ b, (Json.bool b).IsUnicode ↔ True := fun b => iff_true_intro (.bool b)
    have hstages : (Json.array (r.summary.stages.map stageJson)).IsUnicode ↔
        ∀ stage ∈ r.summary.stages, IsUtf8 stage.1 := by
      rw [Json.isUnicode_array_iff, List.forall_mem_map]
      exact forall₂_congr fun stage _ => isUnicode_stageJson_iff stage
    simp only [fields, toJson, counter, measure, List.forall_mem_cons, hnumber, hbool, hstages,
      Json.isUnicode_string_iff, isUnicode_encoding_iff, true_and]
    exact ⟨fun h => ⟨h.2.1, h.2.2.1, h.2.2.2.1, h.2.2.2.2.1, h.1⟩,
      fun h => ⟨h.stages, h.fileName, h.encoding, h.mode, h.digest, List.forall_mem_nil _⟩⟩
  rw [← hvalues]
  refine Json.isUnicode_object_iff.trans ⟨fun h field hfield => (h field hfield).2, ?_⟩
  exact fun h field hfield => ⟨hfields field hfield, h field hfield⟩

/-- The report on a run is well-formed if all names in the record are, and only then. -/
theorem isUtf8_text_iff (r : RunRecord) : IsUtf8 r.text ↔ r.NamesAreUtf8 :=
  r.toJson_wellFormed.isUtf8_render_iff.trans r.isUnicode_toJson_iff

end RunRecord

/-! ## Reports of the program -/

section Runs

variable {σ : Type} [Source σ] {o : Options} {fs : FileSystem} {config : Config} {s : Scan}

/-- No stage has begun, and the digest has not been asked for. -/
def Scan.Fresh (s : Scan) : Prop :=
  s.tally.order = [] ∧ s.digest.final = none

theorem Scan.Fresh.foldl_see (h : s.Fresh) (lines : List Bytes) :
    (lines.foldl Scan.see s).Fresh := by
  induction lines generalizing s with
  | nil => exact h
  | cons line lines ih => exact ih ⟨h.1, h.2⟩

theorem Scan.Fresh.visit (h : s.Fresh) (mode : Mode) (line : Bytes) :
    (s.visit mode line).Fresh := by
  rw [Scan.visit]
  split
  · exact ⟨h.1, h.2⟩
  · exact ⟨h.1, h.2⟩

theorem fresh_of_readCollected {c : Cursor σ} (h : (readCollected c).result = .ok s) :
    s.Fresh := by
  rw [readCollected] at h
  dsimp only at h
  rcases hresult : (Pass.collect c).result with e | lines
  · rw [hresult] at h
    cases h
  · rw [hresult] at h
    rw [← Except.ok.inj h]
    exact Scan.Fresh.foldl_see ⟨rfl, rfl⟩ lines

theorem fresh_of_readStreamed {mode : Mode} {c : Cursor σ}
    (h : (readStreamed mode c).result = .ok s) : s.Fresh := by
  have hkeeps := Cursor.walk_keeps (fun line s => .goOn (Scan.visit mode s line))
    (P := Scan.Fresh) (Q := fun _ => False)
    (fun line s s' hs hvisit => Cursor.Visit.goOn.inj hvisit ▸ hs.visit mode line)
    (fun _ _ _ _ hvisit => by cases hvisit) (v := {}) ⟨rfl, rfl⟩ c
  rw [readStreamed] at h
  dsimp only at h
  generalize c.walk _ ({} : Scan) = w at hkeeps h
  rcases hresult : (Pass.finish w.result w.cursor).result with e | s'
  · rw [hresult] at h
    cases h
  · rw [hresult] at h
    have hvalue := Pass.eq_ok_of_finish hresult
    have hfresh : s'.Fresh := by
      rcases w with ⟨_ | _ | e, value, cursor⟩
      · exact Except.ok.inj hvalue ▸ hkeeps.2 Cursor.Ending.noConfusion
      · exact (hkeeps.1 rfl).elim
      · cases hvalue
    rw [← Except.ok.inj h]
    exact ⟨hfresh.1, hfresh.2⟩

theorem Options.fresh_of_read [Room] (h : (o.read fs config).result = .ok s) : s.Fresh := by
  rw [read] at h
  split at h
  · cases h
  · split at h
    · exact fresh_of_readCollected h
    · exact fresh_of_readStreamed h

end Runs

/-- The names of the stages of a run. -/
theorem Tally.order_recordAll_stages (mode : Mode) (timing : Timing) {t : Tally}
    (h : t.order = []) :
    (t.recordAll (mode.stages timing)).order =
      ascii "scan" :: if mode = .collect then [ascii "digest"] else [] := by
  have hstage : ∀ (t : Tally) (name : Bytes) (start stop : Nat),
      (t.recordAll [.begin name start, .finish name stop]).order =
        if name ∈ t.order then t.order else t.order ++ [name] :=
    fun t name start stop => (t.begin name start).order_finish name stop
  have hscan : (t.recordAll [.begin (ascii "scan") timing.scan.1,
      .finish (ascii "scan") timing.scan.2]).order = [ascii "scan"] := by
    rw [hstage, h]
    rfl
  rw [Mode.stages, Tally.recordAll_append]
  split
  · rw [hstage, hscan]
    rfl
  · exact hscan

theorem isAscii_hex (bytes : Bytes) : IsAscii (hex bytes) := by
  have hdigit : ∀ n < 16, digit n < 0x80 := by decide
  intro b hb
  obtain ⟨n, hn, rfl⟩ := exists_digit_of_mem_hex hb
  exact hdigit n hn

namespace Options

/-- The record of a scan when the stages of the run have been noted. -/
def recordAfter (o : Options) (timing : Timing) (fs : FileSystem) (config : Config)
    (s : Scan) : RunRecord :=
  o.recordOf fs config ((s.tally.recordAll (o.mode.stages timing)).summary timing.wall) s.digest

variable {o : Options} {fs : FileSystem} {config : Config} {s : Scan}

/-- The text that the program saves for a file it has read. -/
theorem conclude_files [Room] (h : (o.read fs config).result = .ok s) (timing : Timing) :
    (o.conclude timing fs config (o.read fs config)).2 =
      if o.reportRoot.isEmpty then fs
      else (saveReport fs o.reportRoot (o.slugOf fs config.path)
        (o.recordAfter timing fs config s).text).2 := by
  rw [conclude, h]
  exact o.report_files fs config _ s.digest

/-- Of the names in a record of the program only the path and the name of the encoding may not be
well-formed. -/
theorem namesAreUtf8_recordAfter_iff (h : s.Fresh) (timing : Timing) :
    (o.recordAfter timing fs config s).NamesAreUtf8 ↔
      IsUtf8 config.path ∧ ∀ encoding ∈ config.encoding, IsUtf8 encoding := by
  have hmode : IsUtf8 o.mode.word := by cases o.mode <;> exact IsAscii.isUtf8 (by decide)
  have hdigest : IsUtf8 s.digest.hex.1 := by
    rw [LineDigest.hex, h.2]
    exact (isAscii_hex _).isUtf8
  have hstages : ∀ stage ∈ (o.recordAfter timing fs config s).summary.stages, IsUtf8 stage.1 := by
    have hnames : ∀ name ∈ (s.tally.recordAll (o.mode.stages timing)).order, IsUtf8 name := by
      rw [Tally.order_recordAll_stages o.mode timing h.1]
      refine List.forall_mem_cons.mpr ⟨IsAscii.isUtf8 (by decide), ?_⟩
      split
      · exact List.forall_mem_singleton.mpr (IsAscii.isUtf8 (by decide))
      · exact List.forall_mem_nil _
    intro stage hstage
    obtain ⟨shown, hshown, rfl⟩ := List.mem_map.mp hstage
    exact hnames _ hshown
  have hencoding : IsUtf8 (config.encoding.getD []) ↔
      ∀ encoding ∈ config.encoding, IsUtf8 encoding := by
    cases config.encoding with
    | none => exact iff_of_true isUtf8_nil fun _ hnone => by cases hnone
    | some encoding =>
      exact ⟨fun h _ hsome => Option.some.inj hsome ▸ h, fun h => h encoding rfl⟩
  rw [← hencoding]
  exact ⟨fun h => ⟨h.fileName, h.encoding⟩, fun h => ⟨h.1, h.2, hmode, hdigest, hstages⟩⟩

end Options

/-- The report on a run is a JSON text, and it is well-formed UTF-8 exactly if all names in the
record are. In the reports that the program saves these are the path of the file and the name of the
encoding, which need not be; its other names are. -/
theorem RunRecord.isUtf8_text_iff_names [Room] (r : RunRecord) :
    (∃ fields, Json.Says r.text (.object fields)) ∧ (IsUtf8 r.text ↔ r.NamesAreUtf8) ∧
    ∀ (o : Options) (fs : FileSystem) (config : Config) (s : Scan) (timing : Timing),
      (o.read fs config).result = .ok s → r = o.recordAfter timing fs config s →
        ((o.conclude timing fs config (o.read fs config)).2 =
          if o.reportRoot.isEmpty then fs
          else (saveReport fs o.reportRoot (o.slugOf fs config.path) r.text).2) ∧
        (IsUtf8 r.text ↔
          IsUtf8 config.path ∧ ∀ encoding ∈ config.encoding, IsUtf8 encoding) := by
  refine ⟨⟨r.fields, r.toJson_wellFormed.says_render⟩, r.isUtf8_text_iff, ?_⟩
  intro o fs config s timing h hr
  rw [isUtf8_text_iff, hr]
  exact ⟨Options.conclude_files h timing,
    Options.namesAreUtf8_recordAfter_iff (Options.fresh_of_read h) timing⟩

/-- A file of one line, whose path is ASCII. -/
theorem RunRecord.isUtf8_text_of_ascii_path :
    let _ : Room := .ample
    let fs := FileSystem.single (ascii "f") (ascii "a\n")
    let o : Options :=
      { mode := .count, encoding := none, compressed := none, chunkBytes := 65536,
        maxLineBytes := 0, reportRoot := ascii "out", naming := .givenPath, slugLength := 12,
        files := [ascii "f"] }
    let config := o.config (ascii "f")
    ∃ s, (o.read fs config).result = .ok s ∧ IsUtf8 (o.recordAfter {} fs config s).text := by
  intro _ fs o config
  obtain ⟨source, hopen, hgives⟩ : ∃ source, config.openSource fs = .ok source ∧
      Source.Gives source (ascii "a\n") :=
    Config.exists_source_of_plain rfl rfl (Files.openFile_single _)
  obtain ⟨s, -, hread⟩ := o.read_counts hopen hgives (by decide) fun _ _ => .inl rfl
  have hresult : (o.read fs config).result = .ok s := by rw [hread]
  refine ⟨s, hresult, ?_⟩
  obtain ⟨-, -, hprogram⟩ := RunRecord.isUtf8_text_iff_names (o.recordAfter {} fs config s)
  obtain ⟨-, htext⟩ := hprogram o fs config s {} hresult rfl
  refine htext.mpr ⟨IsAscii.isUtf8 (by decide), fun encoding hnone => ?_⟩
  cases hnone

/-- The path of a file may be a byte that no UTF-8 text contains. -/
theorem RunRecord.not_isUtf8_text_of_stray_byte :
    let summary : Summary :=
      { lines := 0, bytes := 0, chars := 0, wallTime := 0, throughput := 0, lineRate := 0,
        stages := [] }
    ¬ IsUtf8 (RunRecord.text
      { summary, fileName := [0xff], encoding := [], compressed := false, mode := [], digest := [],
        fileSize := 0 }) := by
  intro summary h
  have haccepts : Charset.utf8.Accepts [0xff] := ((isUtf8_text_iff _).mp h).fileName.accepts
  cases haccepts with
  | character hfirst => cases hfirst

end TextLines

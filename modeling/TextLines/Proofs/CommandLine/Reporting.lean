import TextLines.Proofs.CommandLine.Arguments
import TextLines.Proofs.Document.Carrying
import TextLines.Proofs.Document.ConfigFile

/-!
# What is reported of a file

The program reports three figures of a file: the number of its lines, the number of their bytes, and
their digest. They are figures of the lines alone (`Options.Reports`), so it does not matter how the
lines were written. Files that carry the same lines are reported alike, whatever the encoding, the
terminators, the packing and the size of the chunks (`Options.digest_canonical`).

That needs memory for a chunk. Without it nothing is reported at all
(`Options.digest_chunkTooLarge`).
-/

namespace TextLines

open Bytes
open Files (FileSystem)
open Gzip (Packed fileOf textOf)

/-! ## The figures -/

/-- The number of the bytes of all lines. -/
def Line.totalLength (lines : List Bytes) : Nat :=
  (lines.map List.length).sum

/-- A scan has seen these lines. -/
structure Scan.Counts (seen : List Bytes) (s : Scan) : Prop where
  digest : s.digest = LineDigest.addAll {} seen
  lines : s.tally.lines = UInt64.ofNat seen.length
  chars : s.tally.chars = UInt64.ofNat (Line.totalLength seen)

namespace Scan

variable {mode : Mode} {lines : List Bytes} {s : Scan}

theorem counts_nil : Counts [] {} :=
  ⟨rfl, rfl, rfl⟩

theorem Counts.visit (h : s.Counts lines) (line : Bytes) :
    (s.visit mode line).Counts (lines ++ [line]) := by
  have hsee : (s.see line).Counts (lines ++ [line]) := by
    refine ⟨?_, ?_, ?_⟩
    · rw [see, h.digest, LineDigest.addAll, LineDigest.addAll, List.foldl_append]
      rfl
    · rw [List.length_append, UInt64.ofNat_add, ← h.lines]
      rfl
    · rw [Line.totalLength, List.map_append, List.sum_append, UInt64.ofNat_add,
        ← Line.totalLength, ← h.chars]
      rfl
  rw [Scan.visit]
  split
  · exact ⟨hsee.digest, hsee.lines, hsee.chars⟩
  · exact hsee

theorem Counts.foldl_visit {front : List Bytes} (h : s.Counts front) :
    (lines.foldl (Scan.visit mode) s).Counts (front ++ lines) := by
  induction lines generalizing front s with
  | nil =>
    rw [List.append_nil]
    exact h
  | cons line lines ih =>
    have hstep : (Scan.visit mode s line).Counts (front ++ [line]) := h.visit line
    have hrest := ih hstep
    rw [List.append_assoc] at hrest
    exact hrest

theorem printed_foldl_visit :
    (lines.foldl (Scan.visit mode) s).printed.reverse =
      s.printed.reverse ++ if mode = .print then lines else [] := by
  induction lines generalizing s with
  | nil => simp
  | cons line lines ih =>
    rw [List.foldl_cons, ih]
    by_cases hmode : mode = .print
    · rw [Scan.visit, if_pos hmode, if_pos hmode, if_pos hmode, List.reverse_cons,
        List.append_assoc, List.singleton_append]
    · rw [Scan.visit, if_neg hmode, if_neg hmode, if_neg hmode]
      rfl

end Scan

/-! ## Reading -/

/-- What is printed while lines are read. -/
def Mode.linesPrinted (mode : Mode) (lines : List Bytes) : Bytes :=
  if mode = .print then printLines lines else []

/-- A reading of these lines that has gone through. -/
def Reading.Counts (mode : Mode) (lines : List Bytes) (r : Reading) : Prop :=
  ∃ s, s.Counts lines ∧
    r = { printed := mode.linesPrinted lines, result := .ok s, unreported := none }

variable {σ : Type} [Source σ] {o : Options} {fs : FileSystem} {config : Config} {text : Bytes}
  {mode : Mode}

theorem Reading.counts_of_withoutBytes {r : Reading} {lines : List Bytes} {s : Scan}
    (hs : s = lines.foldl (Scan.visit mode) {})
    (h : r.withoutBytes =
      ⟨printLines s.printed.reverse, .ok (s.consumed 0), none⟩) : r.Counts mode lines := by
  have hcounts : s.Counts lines := hs ▸ Scan.counts_nil.foldl_visit
  have hprinted : printLines s.printed.reverse = mode.linesPrinted lines := by
    rw [hs, Scan.printed_foldl_visit, Mode.linesPrinted]
    split <;> rfl
  rw [hprinted] at h
  obtain ⟨printed, result, unreported⟩ := r
  obtain ⟨rfl, hresult, rfl⟩ := Reading.mk.inj h
  rcases result with e | s'
  · cases hresult
  · have hsame : s'.consumed 0 = s.consumed 0 := Except.ok.inj hresult
    have hdigest : (s'.consumed 0).digest = (s.consumed 0).digest := congrArg Scan.digest hsame
    have htally : (s'.consumed 0).tally = (s.consumed 0).tally := congrArg Scan.tally hsame
    have hlines : (s'.consumed 0).tally.lines = (s.consumed 0).tally.lines :=
      congrArg Tally.lines htally
    have hchars : (s'.consumed 0).tally.chars = (s.consumed 0).tally.chars :=
      congrArg Tally.chars htally
    refine ⟨s', ⟨?_, ?_, ?_⟩, rfl⟩
    · exact hdigest.trans hcounts.digest
    · exact hlines.trans hcounts.lines
    · exact hchars.trans hcounts.chars

theorem readCollected_counts {source : σ} (h : Source.Gives source text) {chunkBytes limit : Nat}
    (hfits : ∀ line ∈ Line.cut text, Splitter.Fits limit line.length) :
    (readCollected (.ofSource source chunkBytes limit)).Counts .collect (Line.cut text) := by
  refine Reading.counts_of_withoutBytes rfl ?_
  have hwalk := Line.walkResult_of_fits (fun line lines => line :: lines) hfits []
  rw [readCollected_of_gives h, hwalk, List.foldl_flip_cons_eq_append', List.append_nil]
  simp only [Except.map, List.reverse_reverse, Scan.printed_foldl_visit]
  rfl

theorem readStreamed_counts {source : σ} (h : Source.Gives source text) (mode : Mode)
    {chunkBytes limit : Nat} (hfits : ∀ line ∈ Line.cut text, Splitter.Fits limit line.length) :
    (readStreamed mode (.ofSource source chunkBytes limit)).Counts mode (Line.cut text) := by
  refine Reading.counts_of_withoutBytes rfl ?_
  have hwalk := Line.walkResult_of_fits (fun line s => Scan.visit mode s line) hfits {}
  have hvisit := Line.visitAll_of_fits (fun line s => Scan.visit mode s line) hfits 1 {}
  rw [readStreamed_of_gives h, hwalk, hvisit]
  rfl

/-- A document that gives a text without a line that is too long is read to its end. -/
theorem Options.read_counts [Room] {source : DocumentSource}
    (hopen : config.openSource fs = .ok source) (h : Source.Gives source text)
    (hroom : config.chunkBytes < Room.limit)
    (hfits : ∀ line ∈ Line.cut text, Splitter.Fits config.maxLineBytes line.length) :
    (o.read fs config).Counts o.mode (Line.cut text) := by
  rw [read_of_lt hopen hroom]
  split
  · rename_i hmode
    rw [hmode]
    exact readCollected_counts h hfits
  · exact readStreamed_counts h o.mode hfits

/-! ## Reporting -/

/-- The figures of a record are those of these lines. The digest is the hash of the text in which
every line ends in a line feed. -/
structure RunRecord.Counts (seen : List Bytes) (r : RunRecord) : Prop where
  lines : r.summary.lines = UInt64.ofNat seen.length
  chars : r.summary.chars = UInt64.ofNat (Line.totalLength seen)
  digest : r.digest = Bytes.hex (Sha256.hash (printLines seen))

/-- What is printed for a file with these lines. -/
def Mode.says (mode : Mode) (path : Bytes) (lines : List Bytes) : Bytes :=
  let number (n : Nat) : Bytes := decimal (UInt64.ofNat n).toNat ++ ascii "\t"
  match mode with
  | .count => number lines.length ++ path ++ [lf]
  | .print => printLines lines
  | .collect => number lines.length ++ number (Line.totalLength lines) ++ path ++ [lf]

/-- The program reports these lines of a file. -/
structure Options.Reports [Room] [JsonReader] (o : Options) (fs : FileSystem) (config : Config)
    (lines : List Bytes) : Prop where
  /-- They are read without a failure. -/
  read : (o.read fs config).Counts o.mode lines
  /-- Their figures are printed and saved, whatever time it has taken to read them. -/
  conclude : ∀ timing, ∃ summary digest, (o.recordOf fs config summary digest).Counts lines ∧
    o.conclude timing fs config (o.read fs config) =
      (Output.append { out := o.mode.says config.path lines } (o.report fs config summary digest).1,
        (o.report fs config summary digest).2)
  /-- A run over the file alone that saves nothing prints the figures and succeeds. -/
  run : ∀ timing arguments, Options.ofArguments (Config.load fs) arguments = .ok o →
    o.inputs = [config] → o.reportRoot = [] →
      TextLines.run timing fs arguments = ({ out := o.mode.says config.path lines }, fs)

theorem LineDigest.final_addAll (d : LineDigest) (lines : List Bytes) :
    (d.addAll lines).final = d.final := by
  induction lines generalizing d with
  | nil => rfl
  | cons line lines ih => exact ih (d.add line)

theorem Scan.Counts.hex {s : Scan} {lines : List Bytes} (h : s.Counts lines) :
    s.digest.hex.1 = Bytes.hex (Sha256.hash (printLines lines)) := by
  have hfinal : s.digest.final = none := by
    rw [h.digest]
    exact LineDigest.final_addAll {} lines
  have hstate : s.digest.state = Sha256.State.feed {} (printLines lines) := by
    rw [h.digest]
    exact LineDigest.addAll_state {} lines
  rw [LineDigest.hex, hfinal, hstate]
  rfl

/-- What is said about a file whose lines have been read is figures of the lines. -/
theorem Scan.Counts.conclude {s : Scan} {lines : List Bytes} (h : s.Counts lines)
    (o : Options) (fs : FileSystem) (config : Config) (timing : Timing) :
    ∃ summary, summary.bytes = s.tally.bytes ∧
      (o.recordOf fs config summary s.digest).Counts lines ∧
      o.conclude timing fs config
          { printed := o.mode.linesPrinted lines, result := .ok s, unreported := none } =
        (Output.append { out := o.mode.says config.path lines }
            (o.report fs config summary s.digest).1,
          (o.report fs config summary s.digest).2) := by
  obtain ⟨_, _, _, hstages⟩ := Tally.recordAll_stages o.mode timing s.tally
  let summary := (s.tally.recordAll (o.mode.stages timing)).summary timing.wall
  have hl : summary.lines = UInt64.ofNat lines.length := by
    simp only [summary, Tally.summary, hstages, h.lines]
  have hc : summary.chars = UInt64.ofNat (Line.totalLength lines) := by
    simp only [summary, Tally.summary, hstages, h.chars]
  have hb : summary.bytes = s.tally.bytes := by
    simp only [summary, Tally.summary, hstages]
  refine ⟨summary, hb, ⟨hl, hc, h.hex⟩, ?_⟩
  have hsays : o.mode.linesPrinted lines ++ o.mode.summaryLine config.path summary =
      o.mode.says config.path lines := by
    rcases o.mode with _ | _ | _
    · simp only [Mode.linesPrinted, Mode.summaryLine, Mode.says, hl, reduceCtorEq, if_false,
        List.nil_append]
    · exact List.append_nil _
    · simp only [Mode.linesPrinted, Mode.summaryLine, Mode.says, hl, hc, reduceCtorEq, if_false,
        List.nil_append]
  rw [← hsays]
  rfl

theorem Reading.Counts.conclude {r : Reading} {lines : List Bytes} (h : r.Counts o.mode lines)
    (fs : FileSystem) (config : Config) (timing : Timing) :
    ∃ summary digest, (o.recordOf fs config summary digest).Counts lines ∧
      o.conclude timing fs config r =
        (Output.append { out := o.mode.says config.path lines }
            (o.report fs config summary digest).1,
          (o.report fs config summary digest).2) := by
  obtain ⟨s, hs, rfl⟩ := h
  obtain ⟨summary, -, hcounts, hconclude⟩ := hs.conclude o fs config timing
  exact ⟨summary, s.digest, hcounts, hconclude⟩

/-- Without reports nothing else is said, and nothing is changed. -/
theorem Reading.Counts.conclude_of_no_report {r : Reading} {lines : List Bytes}
    (h : r.Counts o.mode lines) (hreport : o.reportRoot = []) (fs : FileSystem) (config : Config)
    (timing : Timing) : o.conclude timing fs config r =
      ({ out := o.mode.says config.path lines }, fs) := by
  obtain ⟨summary, digest, -, hconclude⟩ := h.conclude fs config timing
  have hnone : o.report fs config summary digest = ({}, fs) := by
    rw [Options.report, hreport]
    rfl
  rw [hnone, Output.append_empty] at hconclude
  exact hconclude

theorem Options.reports_of_read [Room] [JsonReader] {lines : List Bytes}
    (h : (o.read fs config).Counts o.mode lines) : o.Reports fs config lines where
  read := h
  conclude := h.conclude fs config
  run timing arguments ho hinputs hreport := by
    rw [run_of_single ho hinputs]
    exact h.conclude_of_no_report hreport fs config timing

/-- A file that carries lines is reported with the figures of their UTF-8 form, in whatever way
they were written into it and whatever the size of the chunks in which they are read. -/
theorem Options.digest_canonical [Room] [JsonReader] (o : Options) {lines : List (List Char)}
    (h : config.Carries fs lines) (hroom : config.chunkBytes < Room.limit)
    (hfits : ∀ line ∈ lines, Splitter.Fits config.maxLineBytes (utf8 line).length) :
    o.Reports fs config (lines.map utf8) := by
  obtain ⟨source, text, hopen, hgives, hcut⟩ := h.openSource
  rw [← hcut]
  apply reports_of_read
  apply read_counts hopen hgives hroom
  intro line hline
  rw [hcut] at hline
  obtain ⟨original, horiginal, rfl⟩ := List.mem_map.mp hline
  exact hfits original horiginal

/-- Lines with terminators of all kinds, one of them beyond the first plane, in UTF-16. The file has
two members, and the end of the first of them cuts a unit. -/
theorem Options.digest_canonical_packed :
    let _ : Room := .ample
    let _ : JsonReader := .grammar
    let lines : List (List Char) := [['é'], [], ['a', '😀']]
    let bytes : Bytes := [0xfe, 0xff, 0, 0xe9, 0, 0x0d, 0, 0x0d, 0, 0x0a, 0, 0x61, 0xd8, 0x3d,
      0xde, 0x00]
    let members : List Packed := [.stored (bytes.take 5), .stored (bytes.drop 5)]
    let fs := FileSystem.single (ascii "f") (fileOf members)
    let arguments := [ascii "--mode=collect", ascii "--gzip", ascii "--encoding=UTF-16",
      ascii "--chunk-bytes=3", ascii "f"]
    ∃ o, Options.ofArguments (Config.load fs) arguments = .ok o ∧
      (o.config (ascii "f")).Carries fs lines ∧ o.chunkBytes < Room.limit ∧
      (∀ line ∈ lines, Splitter.Fits o.maxLineBytes (utf8 line).length) ∧
      run {} fs arguments = ({ out := ascii "3\t7\tf\n" }, fs) := by
  intro _ _ lines bytes members fs arguments
  let o : Options :=
    { mode := .collect, encoding := some (ascii "UTF-16"), compressed := some true, chunkBytes := 3,
      maxLineBytes := 0, reportRoot := [], naming := .canonicalPath, slugLength := 12,
      files := [ascii "f"] }
  have ho : Options.ofArguments (Config.load fs) arguments = .ok o :=
    Options.ofArguments_of_no_config (by decide) rfl _
  have hwritten : Line.Written lines ['é', '\r', '\r', '\n', 'a', '😀'] := by
    refine .cons .carriageReturn (by decide) (.cons .both (by decide) (.last (by decide) ?_) ?_) ?_
    · exact List.cons_ne_nil _ _
    · exact fun h => by cases h
    · exact fun _ => by decide
  have hwrites : Encoding.markedUtf16.Writes ['é', '\r', '\r', '\n', 'a', '😀'] bytes :=
    .markedUtf16 .big (.cons (.unit16 (by decide)) (.cons (.unit16 (by decide))
      (.cons (.unit16 (by decide)) (.cons (.unit16 (by decide)) (.cons (.unit16 (by decide))
        (.cons (.pair16 (by decide)) .nil))))))
  have hholds : (o.config (ascii "f")).Holds fs bytes :=
    .packed rfl (List.cons_ne_nil _ _) rfl (Files.openFile_single _)
  have hknown : Encoding.ofName? (ascii "UTF-16") = some .markedUtf16 := by
    rw [Encoding.ofName?, Encoding.normalName, Encoding.dropOptions_of_lt (by decide)]
    decide
  have hcarries : (o.config (ascii "f")).Carries fs lines :=
    ⟨_, _, _, bytes, hwritten, rfl, hknown, hwrites, hholds⟩
  have hroom : o.chunkBytes < Room.limit := by decide
  have hfits : ∀ line ∈ lines, Splitter.Fits o.maxLineBytes (utf8 line).length :=
    fun _ _ => .inl rfl
  have hreports := Options.digest_canonical o hcarries hroom hfits
  have hsays : o.mode.says (ascii "f") (lines.map utf8) = ascii "3\t7\tf\n" := by
    show decimal 3 ++ ascii "\t" ++ (decimal 7 ++ ascii "\t") ++ ascii "f" ++ [lf] =
      ascii "3\t7\tf\n"
    rw [decimal_of_lt (by decide), decimal_of_lt (by decide)]
    decide
  rw [← hsays]
  exact ⟨o, ho, hcarries, hroom, hfits, hreports.run {} arguments ho rfl rfl⟩

/-- Without memory for a chunk no file is read. -/
theorem Options.digest_chunkTooLarge :
    let _ : Room := .ample
    let _ : JsonReader := .grammar
    let lines : List (List Char) := [['a']]
    let fs := FileSystem.single (ascii "f") (ascii "a\n")
    ∃ o, Options.ofArguments (Config.load fs)
        [ascii "--encoding=UTF-8", ascii "--chunk-bytes=9223372036854775808", ascii "f"] = .ok o ∧
      (o.config (ascii "f")).Carries fs lines ∧
      (∀ line ∈ lines, Splitter.Fits o.maxLineBytes (utf8 line).length) ∧
      ¬ o.Reports fs (o.config (ascii "f")) (lines.map utf8) := by
  intro _ _ lines fs
  let o : Options :=
    { mode := .count, encoding := some (ascii "UTF-8"), compressed := none,
      chunkBytes := 0x8000000000000000, maxLineBytes := 0, reportRoot := [],
      naming := .canonicalPath, slugLength := 12, files := [ascii "f"] }
  have hwritten : Line.Written lines ['a', '\n'] := .cons .lineFeed (by decide) .nil (by decide)
  have hwrites : (Encoding.plain .utf8).Writes ['a', '\n'] (ascii "a\n") :=
    .plain (.cons (.utf8 'a') (.cons (.utf8 '\n') .nil))
  have hholds : (o.config (ascii "f")).Holds fs (ascii "a\n") :=
    .plain rfl (Files.openFile_single _)
  have hknown : Encoding.ofName? (ascii "UTF-8") = some (.plain .utf8) := by
    rw [Encoding.ofName?, Encoding.normalName, Encoding.dropOptions_of_lt (by decide)]
    decide
  have hcarries : (o.config (ascii "f")).Carries fs lines :=
    ⟨_, _, _, _, hwritten, rfl, hknown, hwrites, hholds⟩
  have ho : Options.ofArguments (Config.load fs)
      [ascii "--encoding=UTF-8", ascii "--chunk-bytes=9223372036854775808", ascii "f"] = .ok o :=
    Options.ofArguments_of_no_config (by decide) rfl _
  refine ⟨o, ho, hcarries, fun _ _ => .inl rfl, fun hreports => ?_⟩
  obtain ⟨source, -, hopen, -⟩ := hcarries.openSource
  have hlarge : Room.limit ≤ (o.config (ascii "f")).chunkBytes := by decide
  obtain ⟨e, he⟩ := read_of_le hlarge
  obtain ⟨s, -, hread⟩ := hreports.read
  rw [he fs source hopen] at hread
  have hresult : Except.error e = Except.ok s := congrArg Reading.result hread
  cases hresult

end TextLines

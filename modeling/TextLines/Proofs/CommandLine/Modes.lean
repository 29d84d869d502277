import TextLines.Proofs.CommandLine.Reporting
import TextLines.Proofs.Document.Lines

/-!
# The modes agree

Counting and printing take notice of the lines while they come, from the buffer of the cursor.
Collecting first gathers all of them and takes notice of them afterwards, and only then is it known
how many bytes have been consumed. Both are compared with what comes of the document
(`Config.Hands`), and so with each other (`Options.read_of_hands`).

A run over one input therefore comes to the same in all modes (`Options.modes_agree`): it fails for
the same reason, or it reports the same figures, and saving the report goes the same way.
-/

namespace TextLines

open Bytes
open Files (FileSystem)

/-! ## Reading -/

/-- A scan has seen these lines, and so many bytes have been consumed for them. -/
structure Scan.Measures (seen : List Bytes) (taken : Nat) (s : Scan) : Prop
    extends s.Counts seen where
  bytes : s.tally.bytes = UInt64.ofNat taken

theorem Scan.bytes_foldl_visit (mode : Mode) (lines : List Bytes) (s : Scan) :
    (lines.foldl (Scan.visit mode) s).tally.bytes = s.tally.bytes := by
  induction lines generalizing s with
  | nil => rfl
  | cons line lines ih =>
    rw [List.foldl_cons, ih, Scan.visit]
    split <;> rfl

section

variable {σ : Type} [Source σ] {c c' : Cursor σ} {lines : List Bytes} {failure : Option Error}

/-- Taking notice of the lines while they come. -/
theorem readStreamed_of_hands (h : c.Hands lines failure c') (hmust : c.mustRead = true)
    (hcloses : c.ClosesWith none) (mode : Mode) :
    ∃ s, s.Measures lines c'.bytesRead ∧ readStreamed mode c =
      { printed := mode.linesPrinted lines, result := okUnless failure s, unreported := none } := by
  let seen : Scan := lines.foldl (Scan.visit mode) {}
  have hwalk : c.walk (fun line s => .goOn (s.visit mode line)) ({} : Scan) =
      ⟨.ofFailure failure, seen, c'⟩ :=
    h.walk_of_goes (f := fun line (s : Scan) => s.visit mode line) (P := fun _ => True)
      (fun _ _ _ => ⟨rfl, trivial⟩) trivial
  have hprinted : printLines seen.printed.reverse = mode.linesPrinted lines := by
    rw [Scan.printed_foldl_visit, Mode.linesPrinted]
    split <;> rfl
  have hcounts : seen.Counts lines := Scan.counts_nil.foldl_visit
  refine ⟨seen.consumed c'.bytesRead, ⟨⟨hcounts.digest, hcounts.lines, hcounts.chars⟩, rfl⟩, ?_⟩
  have hclose := h.close_eq hmust hcloses
  have hbytes := c'.bytesRead_close
  rcases hc : c'.close with ⟨e, d⟩
  rw [hc] at hclose hbytes
  obtain rfl : e = none := hclose
  rw [readStreamed, hwalk, ← hprinted, ← hbytes]
  cases failure <;> simp only [Cursor.Ending.ofFailure, Cursor.Walk.result, Pass.finish, hc,
    okUnless, Except.map]

/-- Taking notice of the lines when all of them have been gathered. -/
theorem readCollected_of_hands (h : c.Hands lines failure c') (hmust : c.mustRead = true)
    (hcloses : c.ClosesWith none) :
    ∃ s, s.Measures lines c'.bytesRead ∧ readCollected c =
      { printed := [], result := okUnless failure s, unreported := none } := by
  let seen : Scan := lines.foldl (Scan.visit .collect) (Scan.consumed {} c'.bytesRead)
  have hwalk : c.walk (fun line lines => .goOn (line :: lines)) [] =
      ⟨.ofFailure failure, lines.reverse, c'⟩ := by
    have hgather := h.walk_of_goes (f := fun line lines => line :: lines) (P := fun _ => True)
      (fun _ _ _ => ⟨rfl, trivial⟩) (v := []) trivial
    rw [List.foldl_flip_cons_eq_append', List.append_nil] at hgather
    exact hgather
  have hnone : (Scan.consumed {} c'.bytesRead).Counts [] := ⟨rfl, rfl, rfl⟩
  have hcounts : seen.Counts lines := hnone.foldl_visit
  have hbytes : seen.tally.bytes = UInt64.ofNat c'.bytesRead := Scan.bytes_foldl_visit _ _ _
  refine ⟨seen, ⟨hcounts, hbytes⟩, ?_⟩
  have hclose := h.close_eq hmust hcloses
  have htaken := c'.bytesRead_close
  rcases hc : c'.close with ⟨e, d⟩
  rw [hc] at hclose htaken
  obtain rfl : e = none := hclose
  have hsee : ∀ s : Scan, lines.foldl Scan.see s = lines.foldl (Scan.visit .collect) s :=
    fun s => rfl
  cases failure <;> simp only [readCollected, Pass.collect, hwalk, Cursor.Ending.ofFailure,
    Cursor.Walk.result, Pass.finish, Pass.map, hc, okUnless, Except.map, List.reverse_reverse,
    htaken, hsee, seen]

end

variable {o : Options} {fs : FileSystem} {config : Config} {lines : List Bytes}
  {failure : Option Error} {taken : Nat}

/-- Reading a file comes to what its lines come to, in whatever mode. -/
theorem Options.read_of_hands [Room] (h : config.Hands fs lines failure taken) :
    ∃ s, s.Measures lines taken ∧ o.read fs config =
      { printed := o.mode.linesPrinted lines, result := okUnless failure s,
        unreported := none } := by
  rw [read]
  cases h with
  | refused hrefused =>
    have hnone : o.mode.linesPrinted [] = [] := by
      rw [Mode.linesPrinted]
      split <;> rfl
    rw [Config.openCursor] at hrefused
    rw [hrefused, hnone]
    exact ⟨{}, ⟨Scan.counts_nil, rfl⟩, rfl⟩
  | @opened c c' lines failure hopened hhands =>
    obtain ⟨source, hopen, rfl⟩ := Config.exists_source_of_openCursor hopened
    have hcloses : Cursor.ClosesWith none (Cursor.ofSource source config.chunkBytes
        config.maxLineBytes) :=
      ⟨source, rfl, Config.closesQuietly_of_openSource hopen⟩
    rw [Config.openCursor] at hopened
    rw [hopened]
    dsimp only
    split
    · rename_i hmode
      rw [hmode]
      exact readCollected_of_hands hhands rfl hcloses
    · exact readStreamed_of_hands hhands rfl hcloses o.mode

/-! ## Saving -/

theorem Files.FileSystem.writeAt_alike (content content' : Bytes) (fs : FileSystem)
    (place : Files.Place) : (fs.writeAt place content).1 = (fs.writeAt place content').1 := by
  rw [writeAt, writeAt]
  cases fs.nextFate <;> rfl

/-- How writing a file goes depends on its content only if there is none. -/
theorem Files.FileSystem.writeFile_alike {content content' : Bytes} (h : content ≠ [])
    (h' : content' ≠ []) (fs : FileSystem) (path : Bytes) :
    (fs.writeFile path content).1 = (fs.writeFile path content').1 := by
  rw [writeFile, writeFile]
  rcases fs.lookUp path true with e | (⟨place, entry⟩ | ⟨directory, name⟩)
  · rfl
  · cases entry with
    | file old => exact fs.writeAt_alike content content' place
    | fullDevice =>
      simp only [List.isEmpty_eq_false_iff.mpr h, List.isEmpty_eq_false_iff.mpr h']
    | _ => rfl
  · exact fs.writeAt_alike content content' (directory ++ [name])

/-- How saving a report goes does not depend on what it says. -/
theorem saveReport_alike {text text' : Bytes} (h : text ≠ []) (h' : text' ≠ []) (fs : FileSystem)
    (root slug : Bytes) : (saveReport fs root slug text).1 = (saveReport fs root slug text').1 := by
  rw [saveReport, saveReport]
  rcases ensureParents fs (reportPath root slug) with ⟨e | (_ | _), fs'⟩
  · rfl
  · rfl
  · have hwrite := fs'.writeFile_alike h h' (reportPath root slug)
    dsimp only
    rcases hw : fs'.writeFile (reportPath root slug) text with ⟨outcome, after⟩
    rcases hw' : fs'.writeFile (reportPath root slug) text' with ⟨outcome', after'⟩
    rw [hw, hw'] at hwrite
    obtain rfl : outcome = outcome' := hwrite
    cases outcome <;> rfl

theorem RunRecord.text_ne_nil (r : RunRecord) : r.text ≠ [] := by
  rw [text, toJson, Json.render]
  exact List.append_ne_nil_of_left_ne_nil (List.append_ne_nil_of_left_ne_nil (by decide) _) _

namespace Options

/-- The same run in another mode. -/
def inMode (o : Options) (mode : Mode) : Options :=
  { o with mode }

/-- The same is said about the report of a file in all modes. -/
theorem report_alike (o : Options) (mode : Mode) (fs : FileSystem) (config : Config)
    (summary summary' : Summary) (digest digest' : LineDigest) :
    ((o.inMode mode).report fs config summary digest).1 =
      (o.report fs config summary' digest').1 := by
  rw [report, report]
  show (if o.reportRoot.isEmpty then _ else _ : Output × FileSystem).1 = _
  split
  · rfl
  · have hsave := saveReport_alike
      ((o.inMode mode).recordOf fs config summary digest).text_ne_nil
      (o.recordOf fs config summary' digest').text_ne_nil fs o.reportRoot (o.slugOf fs config.path)
    have hslug : (o.inMode mode).slugOf fs config.path = o.slugOf fs config.path := rfl
    have hroot : (o.inMode mode).reportRoot = o.reportRoot := rfl
    simp only [hslug, hroot]
    generalize saveReport fs o.reportRoot (o.slugOf fs config.path)
      ((o.inMode mode).recordOf fs config summary digest).text = saved at hsave ⊢
    generalize saveReport fs o.reportRoot (o.slugOf fs config.path)
      (o.recordOf fs config summary' digest').text = saved' at hsave ⊢
    obtain ⟨r, after⟩ := saved
    obtain ⟨r', after'⟩ := saved'
    obtain rfl : r = r' := hsave
    rcases r with e | (_ | fault) <;> rfl

/-- What is said about a report is not printed, and nothing is said if none is wanted. -/
theorem report_quiet (o : Options) (fs : FileSystem) (config : Config) (summary : Summary)
    (digest : LineDigest) :
    (o.report fs config summary digest).1.out = [] ∧
      (o.reportRoot = [] → (o.report fs config summary digest).1 = {}) := by
  rw [report]
  split
  · exact ⟨rfl, fun _ => rfl⟩
  · rename_i hroot
    refine ⟨?_, fun hempty => absurd (List.isEmpty_iff.mpr hempty) hroot⟩
    dsimp only
    rcases saveReport fs o.reportRoot (o.slugOf fs config.path)
      (o.recordOf fs config summary digest).text with ⟨e | (_ | fault), after⟩ <;> rfl

theorem report_files (o : Options) (fs : FileSystem) (config : Config) (summary : Summary)
    (digest : LineDigest) :
    (o.report fs config summary digest).2 =
      if o.reportRoot.isEmpty then fs
      else (saveReport fs o.reportRoot (o.slugOf fs config.path)
        (o.recordOf fs config summary digest).text).2 := by
  rw [report]
  split
  · rfl
  · dsimp only
    rcases saveReport fs o.reportRoot (o.slugOf fs config.path)
      (o.recordOf fs config summary digest).text with ⟨e | (_ | fault), after⟩ <;> rfl

/-! ## Runs -/

variable [Room] [JsonReader]

/-- The input cannot be read in any mode, for one reason. The lines in front of the failure are
printed if lines are printed. -/
structure FailsAlike (o : Options) (fs : FileSystem) (config : Config) (lines : List Bytes)
    (e : Error) : Prop where
  read : ∀ mode, (o.inMode mode).read fs config =
    { printed := mode.linesPrinted lines, result := .error e, unreported := none }
  /-- A run over this input alone says why, and changes nothing. -/
  run : o.inputs = [config] → ∀ mode timing arguments,
    ofArguments (Config.load fs) arguments = .ok (o.inMode mode) →
      TextLines.run timing fs arguments =
        ({ out := mode.linesPrinted lines, err := failureLine config.path e, failed := true }, fs)

/-- The input is read in all modes with the same figures. What else is said, about the report, is
the same in all modes. -/
structure AgreesOn (o : Options) (fs : FileSystem) (config : Config) (lines : List Bytes)
    (taken : Nat) : Prop where
  read : ∀ mode, ∃ s, s.Measures lines taken ∧ (o.inMode mode).read fs config =
    { printed := mode.linesPrinted lines, result := .ok s, unreported := none }
  /-- A run over this input alone says what its lines come to, and saves it if that is wanted. -/
  run : o.inputs = [config] → ∃ said : Output, said.out = [] ∧ (o.reportRoot = [] → said = {}) ∧
    ∀ mode timing arguments, ofArguments (Config.load fs) arguments = .ok (o.inMode mode) →
      (TextLines.run timing fs arguments).1 =
          Output.append { out := mode.says config.path lines } said ∧
        ∃ record : RunRecord, record.Counts lines ∧ record.summary.bytes = UInt64.ofNat taken ∧
          (TextLines.run timing fs arguments).2 =
            if o.reportRoot.isEmpty then fs
            else (saveReport fs o.reportRoot (o.slugOf fs config.path) record.text).2

/-- A run over one input comes to the same in all modes: it fails for the same reason, or it reports
the figures of the lines that are handed out of the document. -/
theorem modes_agree (o : Options) (fs : FileSystem) (config : Config) :
    ∃ lines failure taken, config.Hands fs lines failure taken ∧
      match failure with
      | some e => o.FailsAlike fs config lines e
      | none => o.AgreesOn fs config lines taken ∧ config.Spends fs taken := by
  obtain ⟨lines, failure, taken, h⟩ := config.exists_hands fs
  have hread : ∀ mode, ∃ s, s.Measures lines taken ∧ (o.inMode mode).read fs config =
      { printed := mode.linesPrinted lines, result := okUnless failure s, unreported := none } :=
    fun mode => read_of_hands h
  refine ⟨lines, failure, taken, h, ?_⟩
  cases failure with
  | some e =>
    have hfails : ∀ mode, (o.inMode mode).read fs config =
        { printed := mode.linesPrinted lines, result := .error e, unreported := none } := by
      intro mode
      obtain ⟨s, -, hs⟩ := hread mode
      exact hs
    refine ⟨hfails, fun hinputs mode timing arguments ho => ?_⟩
    rw [run_of_single ho hinputs, hfails mode, conclude]
    simp only [Output.append, List.append_nil, Option.map_none, Option.getD_none, List.nil_append,
      Bool.false_or]
  | none =>
    -- What is said about the report does not depend on the figures in it, so any will do.
    obtain ⟨hout, hnone⟩ := o.report_quiet fs config (({} : Tally).summary 0) {}
    refine ⟨⟨hread, fun hinputs =>
      ⟨(o.report fs config (({} : Tally).summary 0) {}).1, hout, hnone, ?_⟩⟩, h.spends⟩
    intro mode timing arguments ho
    obtain ⟨s, hs, hreads⟩ := hread mode
    obtain ⟨summary, hbytes, hcounts, hconclude⟩ :=
      hs.toCounts.conclude (o.inMode mode) fs config timing
    have hrun := run_of_single ho hinputs timing
    rw [hreads] at hrun
    have hdone := hrun.trans hconclude
    refine ⟨?_, _, hcounts, hbytes.trans hs.bytes, ?_⟩
    · rw [hdone, ← o.report_alike mode fs config summary (({} : Tally).summary 0) s.digest {}]
      rfl
    · rw [hdone]
      exact (o.inMode mode).report_files fs config summary s.digest

omit [Room] [JsonReader] in
/-- A file of two lines, the second of them without a terminator. -/
theorem modes_agree_two_lines :
    let _ : Room := .ample
    let _ : JsonReader := .grammar
    let content := ascii "a\r\nbc"
    let fs := FileSystem.single (ascii "f") content
    run {} fs [ascii "--mode=count", ascii "f"] = ({ out := ascii "2\tf\n" }, fs) ∧
      run {} fs [ascii "--mode=cat", ascii "f"] = ({ out := ascii "a\nbc\n" }, fs) ∧
      run {} fs [ascii "--mode=collect", ascii "f"] = ({ out := ascii "2\t3\tf\n" }, fs) := by
  intro _ _ content fs
  let o : Options :=
    { mode := .count, encoding := none, compressed := none, chunkBytes := 65536, maxLineBytes := 0,
      reportRoot := [], naming := .canonicalPath, slugLength := 12, files := [ascii "f"] }
  obtain ⟨lines, failure, taken, h, hmodes⟩ := modes_agree o fs (o.config (ascii "f"))
  obtain ⟨source, hopen, hgives⟩ : ∃ source, (o.config (ascii "f")).openSource fs = .ok source ∧
      Source.Gives source content :=
    Config.exists_source_of_plain rfl rfl (Files.openFile_single content)
  obtain ⟨rfl, rfl⟩ := h.eq_cut hopen hgives (by decide) fun _ _ => .inl rfl
  obtain ⟨⟨-, hsingle⟩, -⟩ := hmodes
  obtain ⟨said, -, hsaid, hrun⟩ := hsingle rfl
  obtain rfl := hsaid rfl
  have hruns : ∀ mode arguments, ofArguments (Config.load fs) arguments = .ok (o.inMode mode) →
      run {} fs arguments = ({ out := mode.says (ascii "f") (Line.cut content) }, fs) := by
    intro mode arguments ho
    obtain ⟨hout, _, _, _, hfiles⟩ := hrun mode {} arguments ho
    rw [Output.append_empty] at hout
    exact Prod.ext hout hfiles
  have hcount : Mode.count.says (ascii "f") (Line.cut content) = ascii "2\tf\n" := by
    show decimal 2 ++ ascii "\t" ++ ascii "f" ++ [lf] = ascii "2\tf\n"
    rw [decimal_of_lt (by decide)]
    decide
  have hcollect : Mode.collect.says (ascii "f") (Line.cut content) = ascii "2\t3\tf\n" := by
    show decimal 2 ++ ascii "\t" ++ (decimal 3 ++ ascii "\t") ++ ascii "f" ++ [lf] =
      ascii "2\t3\tf\n"
    rw [decimal_of_lt (by decide), decimal_of_lt (by decide)]
    decide
  rw [← hcount, ← hcollect]
  exact ⟨hruns .count _ (ofArguments_of_no_config (by decide) rfl _),
    hruns .print _ (ofArguments_of_no_config (by decide) rfl _),
    hruns .collect _ (ofArguments_of_no_config (by decide) rfl _)⟩

end Options

end TextLines

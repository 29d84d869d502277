import TextLines.Proofs.CommandLine.Modes
import TextLines.Proofs.Line.Joining

/-!
# What is printed is a normal form

Printing sets a line feed behind every line, whatever ended the lines in the file. So the printed
text is cut into the lines that were printed, and printing a file that holds it prints it again
(`Options.print_normal`). Files with different lines are printed differently. The digest is the hash
of what is printed.

Printing the text again needs memory for a chunk like any other reading
(`Options.print_chunkTooLarge`).
-/

namespace TextLines

open Bytes
open Files (FileSystem)

namespace Options

variable [Room] [JsonReader] {o : Options} {fs : FileSystem} {config : Config} {lines : List Bytes}
  {taken : Nat}

/-- These lines of an input are printed, and the digest is the hash of what is printed. -/
structure Prints (o : Options) (fs : FileSystem) (config : Config) (lines : List Bytes) : Prop where
  read : ∃ s, s.Counts lines ∧
    o.read fs config = { printed := printLines lines, result := .ok s, unreported := none }
  digest : ∀ s, (o.read fs config).result = .ok s →
    s.digest.hex.1 = Bytes.hex (Sha256.hash (o.read fs config).printed)
  /-- A run over the input alone prints nothing else. -/
  run : ∀ timing arguments, ofArguments (Config.load fs) arguments = .ok o → o.inputs = [config] →
    (TextLines.run timing fs arguments).1.out = (o.read fs config).printed

/-- Lines that are handed out of a document are printed. -/
theorem prints_of_hands (hmode : o.mode = .print) (h : config.Hands fs lines none taken) :
    o.Prints fs config lines := by
  obtain ⟨s, hs, hread⟩ := read_of_hands (o := o) h
  have hprinted : o.mode.linesPrinted lines = printLines lines := by
    rw [hmode]
    rfl
  have hread' : o.read fs config =
      { printed := printLines lines, result := .ok s, unreported := none } := by
    rw [hread, hprinted]
    rfl
  refine ⟨⟨s, hs.toCounts, hread'⟩, fun s' hs' => ?_, fun timing arguments ho hinputs => ?_⟩
  · rw [hread'] at hs' ⊢
    obtain rfl := Except.ok.inj hs'
    exact hs.hex
  · obtain ⟨summary, -, -, hconclude⟩ := hs.toCounts.conclude o fs config timing
    have hrun := run_of_single ho hinputs timing
    rw [hread, okUnless, hconclude] at hrun
    rw [hrun, hread', hmode]
    show printLines lines ++ (o.report fs config summary s.digest).1.out = printLines lines
    rw [(o.report_quiet fs config summary s.digest).1, List.append_nil]

/-- Whatever is printed of an input, the digest is its hash. A plain file that holds it is printed
as it is, with the same figures. And only inputs with the same lines are printed alike. -/
theorem print_normal {s : Scan} (hmode : o.mode = .print)
    (h : (o.read fs config).result = .ok s) :
    ∃ lines taken, config.Hands fs lines none taken ∧ o.Prints fs config lines ∧
      (∀ line ∈ lines, Splitter.Fits config.maxLineBytes line.length) ∧
      (∀ (o' : Options) (fs' : FileSystem) (config' : Config), o'.mode = .print →
        config'.encoding = none → config'.compressed = false →
        config'.chunkBytes < Room.limit →
        (∀ line ∈ lines, Splitter.Fits config'.maxLineBytes line.length) →
        fs'.openFile config'.path = .ok (.content (o.read fs config).printed) →
          o'.Prints fs' config' lines) ∧
      ∀ (o' : Options) (fs' : FileSystem) (config' : Config) (lines' : List Bytes) (taken' : Nat),
        o'.mode = .print → config'.Hands fs' lines' none taken' →
          ((o'.read fs' config').printed = (o.read fs config).printed ↔ lines' = lines) := by
  obtain ⟨lines, failure, taken, hhands⟩ := config.exists_hands fs
  obtain rfl : failure = none := by
    obtain ⟨s', -, hread⟩ := read_of_hands (o := o) hhands
    rw [hread] at h
    cases failure with
    | none => rfl
    | some e => cases h
  have hprints := prints_of_hands hmode hhands
  obtain ⟨_, _, hread⟩ := hprints.read
  refine ⟨lines, taken, hhands, hprints, hhands.fits, ?_, ?_⟩
  · intro o' fs' config' hmode' hname hz hroom hfits hfile
    rw [hread] at hfile
    obtain ⟨source, hopen, hgives⟩ := Config.exists_source_of_plain hz hname hfile
    have hcut : Line.cut (printLines lines) = lines := Line.cut_flatMap hhands.unterminated
    obtain ⟨lines', failure', taken', hhands'⟩ := config'.exists_hands fs'
    obtain ⟨rfl, hlines⟩ := hhands'.eq_cut hopen hgives hroom (hcut.symm ▸ hfits)
    rw [hlines, hcut] at hhands'
    exact prints_of_hands hmode' hhands'
  · intro o' fs' config' lines' taken' hmode' hhands'
    obtain ⟨_, _, hread'⟩ := (prints_of_hands hmode' hhands').read
    rw [hread, hread']
    exact Line.flatMap_eq_iff hhands'.unterminated hhands.unterminated

omit [Room] [JsonReader]

/-- Options as they are for one plain file that is to be printed. -/
def printing (chunkBytes : Nat) : Options :=
  { mode := .print, encoding := none, compressed := some false, chunkBytes, maxLineBytes := 0,
    reportRoot := [], naming := .canonicalPath, slugLength := 12, files := [ascii "f"] }

/-- A file that is printed with other terminators, and what is printed of it. -/
theorem print_normal_carriage_returns :
    let _ : Room := .ample
    let _ : JsonReader := .grammar
    let content := ascii "a\r\n\rb"
    let fs := FileSystem.single (ascii "f") content
    let fs' := FileSystem.single (ascii "f") (ascii "a\n\nb\n")
    let config := (printing 65536).config (ascii "f")
    let config' := (printing 1).config (ascii "f")
    ∃ s, ((printing 65536).read fs config).result = .ok s ∧
      s.digest.hex.1 = Bytes.hex (Sha256.hash (ascii "a\n\nb\n")) ∧
      ∃ s', (printing 1).read fs' config' =
        { printed := ascii "a\n\nb\n", result := .ok s', unreported := none } := by
  intro _ _ content fs fs' config config'
  obtain ⟨source, hopen, hgives⟩ : ∃ source, config.openSource fs = .ok source ∧
      Source.Gives source content :=
    Config.exists_source_of_plain rfl rfl (Files.openFile_single content)
  obtain ⟨s, -, hread⟩ := (printing 65536).read_counts hopen hgives (by decide) fun _ _ => .inl rfl
  have hprinted : ((printing 65536).read fs config).printed = ascii "a\n\nb\n" := by
    rw [hread]
    show printLines (Line.cut (ascii "a\r\n\rb")) = ascii "a\n\nb\n"
    decide
  have hresult : ((printing 65536).read fs config).result = .ok s := by rw [hread]
  obtain ⟨lines, taken, hhands, hprints, -, hagain, -⟩ := print_normal rfl hresult
  have hdigest := hprints.digest s hresult
  obtain ⟨s', -, hread'⟩ := (hagain (printing 1) fs' config' rfl rfl rfl (by decide)
    (fun _ _ => .inl rfl) (hprinted.symm ▸ Files.openFile_single _)).read
  obtain ⟨s'', -, hread''⟩ := hprints.read
  have hlines : printLines lines = ascii "a\n\nb\n" := by
    rw [hread''] at hprinted
    exact hprinted
  rw [hlines] at hread'
  rw [hprinted] at hdigest
  exact ⟨s, hresult, hdigest, s', hread'⟩

/-- Without memory for a chunk what has been printed cannot be printed again. -/
theorem print_chunkTooLarge :
    let _ : Room := .ample
    let _ : JsonReader := .grammar
    let fs := FileSystem.single (ascii "f") (ascii "a\n")
    let config := (printing 65536).config (ascii "f")
    let config' := (printing 0x8000000000000000).config (ascii "f")
    (∃ s, ((printing 65536).read fs config).result = .ok s) ∧
      ((printing 65536).read fs config).printed = ascii "a\n" ∧
      ofArguments (Config.load fs) [ascii "--mode=cat", ascii "--no-gzip",
        ascii "--chunk-bytes=9223372036854775808", ascii "f"] =
          .ok (printing 0x8000000000000000) ∧
      ((printing 0x8000000000000000).read fs config').printed ≠ ascii "a\n" := by
  intro _ _ fs config config'
  obtain ⟨source, hopen, hgives⟩ : ∃ source, config.openSource fs = .ok source ∧
      Source.Gives source (ascii "a\n") :=
    Config.exists_source_of_plain rfl rfl (Files.openFile_single (ascii "a\n"))
  obtain ⟨s, -, hread⟩ := (printing 65536).read_counts hopen hgives (by decide) fun _ _ => .inl rfl
  have hlarge : Room.limit ≤ config'.chunkBytes := by decide
  obtain ⟨e, he⟩ := read_of_le hlarge
  rw [hread, he fs source hopen]
  exact ⟨⟨s, rfl⟩, rfl, ofArguments_of_no_config (by decide) rfl _, fun heq => by cases heq⟩

end Options

end TextLines

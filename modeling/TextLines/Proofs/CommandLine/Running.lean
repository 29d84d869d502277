import TextLines.CommandLine.Run
import TextLines.Proofs.Document.Scanning

/-!
# Runs over files

A run works on its files one after another, and what one of them comes to is not lost among the
others: a file that cannot be read makes the whole run fail (`Options.runInputs_failed`). A file
whose source breaks off cannot be read in any mode, and what has been printed of it by then are
settled lines (`Options.read_of_breaksOff`).
-/

namespace TextLines

open Files (FileSystem)

variable [Room] {o : Options} {timing : Timing} {fs : FileSystem} {config : Config} {data : Bytes}

namespace Options

theorem runInputs_cons (o : Options) (timing : Timing) (fs : FileSystem) (config : Config)
    (rest : List Config) :
    o.runInputs timing fs (config :: rest) =
      ((o.conclude timing fs config (o.read fs config)).1.append
          (o.runInputs timing (o.conclude timing fs config (o.read fs config)).2 rest).1,
        (o.runInputs timing (o.conclude timing fs config (o.read fs config)).2 rest).2) := rfl

theorem runInputs_singleton (o : Options) (timing : Timing) (fs : FileSystem) (config : Config) :
    o.runInputs timing fs [config] = o.conclude timing fs config (o.read fs config) := by
  rw [runInputs_cons]
  exact Prod.ext (Output.append_empty _) rfl

/-- The files behind others are worked on when those have been. -/
theorem runInputs_append (o : Options) (timing : Timing) (fs : FileSystem)
    (front back : List Config) :
    o.runInputs timing fs (front ++ back) =
      ((o.runInputs timing fs front).1.append
          (o.runInputs timing (o.runInputs timing fs front).2 back).1,
        (o.runInputs timing (o.runInputs timing fs front).2 back).2) := by
  induction front generalizing fs with
  | nil => rw [List.nil_append, runInputs, Output.empty_append]
  | cons config front ih =>
    rw [List.cons_append, runInputs_cons, ih, runInputs_cons, Output.append_assoc]

/-- A file that cannot be read makes the run fail. -/
theorem runInputs_failed {before after : List Config} {e : Error}
    (h : (o.read (o.runInputs timing fs before).2 config).result = .error e) :
    (o.runInputs timing fs (before ++ config :: after)).1.failed = true := by
  have hfile : (o.conclude timing (o.runInputs timing fs before).2 config
      (o.read (o.runInputs timing fs before).2 config)).1.failed = true := by
    rw [conclude, h]
    rfl
  rw [runInputs_append, runInputs_cons]
  simp only [Output.append, hfile, Bool.true_or, Bool.or_true]

theorem run_of_failed [JsonReader] {arguments : List Bytes}
    (ho : ofArguments (Config.load fs) arguments = .ok o)
    (h : (o.runInputs timing fs o.inputs).1.failed = true) :
    (run timing fs arguments).1.status = 2 := by
  rw [run, ho]
  show (o.runInputs timing fs o.inputs).1.status = 2
  rw [Output.status, h, if_pos rfl]

/-- A run that reads one file. -/
theorem run_of_single [JsonReader] {arguments : List Bytes}
    (ho : ofArguments (Config.load fs) arguments = .ok o) (hinputs : o.inputs = [config])
    (timing : Timing) :
    run timing fs arguments = o.conclude timing fs config (o.read fs config) := by
  rw [run, ho]
  show o.runInputs timing fs o.inputs = _
  rw [hinputs, runInputs_singleton]

/-! ## Reading a file -/

theorem read_of_refused {e : Error} (hopen : config.openSource fs = .error e) :
    o.read fs config = { printed := [], result := .error e, unreported := none } := by
  unfold read
  simp only [hopen, Except.map, Config.cursor]

theorem read_of_lt {source : DocumentSource} (hopen : config.openSource fs = .ok source)
    (hroom : config.chunkBytes < Room.limit) :
    o.read fs config =
      if o.mode = .collect then
        readCollected (.ofSource source config.chunkBytes config.maxLineBytes)
      else
        readStreamed o.mode
          (.ofSource source config.chunkBytes config.maxLineBytes) := by
  unfold read
  simp only [hopen, Except.map, Config.cursor_of_lt hroom]

theorem read_of_le (hroom : Room.limit ≤ config.chunkBytes) :
    ∃ e, ∀ (fs : FileSystem) (source : DocumentSource),
      config.openSource fs = .ok source →
        o.read fs config = { printed := [], result := .error e, unreported := none } := by
  obtain ⟨e, he⟩ := Config.cursor_of_le (σ := DocumentSource) hroom
  refine ⟨e, fun fs source hopen => ?_⟩
  unfold read
  simp only [hopen, Except.map, he]

section

omit [Room]

variable {σ : Type} [Source σ]

theorem readCollected_of_breaksOff {source : σ}
    (h : Source.BreaksOff Error.IsReading source data) (chunkBytes limit : Nat) :
    (∃ e, (readCollected (.ofSource source chunkBytes limit)).result = .error e) ∧
      (readCollected (.ofSource source chunkBytes limit)).printed = [] := by
  obtain ⟨e, he, -⟩ := Session.collect_breaksOff h chunkBytes limit
  refine ⟨⟨e, ?_⟩, rfl⟩
  rw [readCollected, he]
  rfl

/-- The lines that are printed while they are read are settled. -/
theorem readStreamed_of_breaksOff {source : σ}
    (h : Source.BreaksOff Error.IsReading source data) (mode : Mode) (chunkBytes limit : Nat) :
    (∃ e, (readStreamed mode (.ofSource source chunkBytes limit)).result = .error e) ∧
      ∃ lines, (readStreamed mode (.ofSource source chunkBytes limit)).printed =
        printLines lines ∧ Line.Settled data lines := by
  let visit : Bytes → Scan → Cursor.Visit Scan := fun line s => .goOn (s.visit mode line)
  let w := (Cursor.ofSource source chunkBytes limit).walk visit {}
  obtain ⟨e, he, -⟩ := Session.walk_ofSource h chunkBytes limit visit (by simp [visit]) {}
  refine ⟨⟨e, ?_⟩, w.value.printed.reverse, rfl, ?_⟩
  · rw [readStreamed, he]
    rfl
  · by_cases hmode : mode = .print
    · refine (Cursor.walk_of_breaksOff h (fun _ => id) chunkBytes limit Scan.printed
        (fun line s s' hs => ?_) (v := {}) rfl).1
      rcases hs with hs | hs
      · rw [← Cursor.Visit.goOn.inj hs, Scan.visit, if_pos hmode]
      · cases hs
    · -- Nothing is printed in the other modes.
      have hvisit : ∀ line (s s' : Scan), s.printed = [] → visit line s = .goOn s' →
          s'.printed = [] := by
        intro line s s' hs hgone
        rw [← Cursor.Visit.goOn.inj hgone, Scan.visit, if_neg hmode]
        exact hs
      obtain ⟨hstop, hgoOn⟩ := Cursor.walk_keeps visit (Q := fun s => s.printed = []) hvisit
        (fun _ _ _ _ hs => by cases hs) (v := {}) rfl (Cursor.ofSource source chunkBytes limit)
      have hnone : w.value.printed = [] := by
        by_cases hstopped : w.ending = .stopped
        · exact hstop hstopped
        · exact hgoOn hstopped
      rw [hnone]
      exact fun _ => List.nil_prefix

end

/-- A file that breaks off cannot be read, and the lines that have been printed are settled. -/
theorem read_of_breaksOff {source : DocumentSource}
    (hopen : config.openSource fs = .ok source)
    (h : Source.BreaksOff Error.IsReading source data) :
    (∃ e, (o.read fs config).result = .error e) ∧
      ∃ lines, (o.read fs config).printed = printLines lines ∧ Line.Settled data lines := by
  rcases Nat.lt_or_ge config.chunkBytes Room.limit with hroom | hroom
  · rw [read_of_lt hopen hroom]
    split
    · obtain ⟨hfails, hprinted⟩ := readCollected_of_breaksOff h config.chunkBytes
        config.maxLineBytes
      exact ⟨hfails, [], hprinted, fun _ => List.nil_prefix⟩
    · exact readStreamed_of_breaksOff h o.mode _ _
  · obtain ⟨e, he⟩ := read_of_le hroom
    rw [he fs source hopen]
    exact ⟨⟨e, rfl⟩, [], rfl, fun _ => List.nil_prefix⟩

end Options

/-! ## Documents in files that break off -/

/-- A document in a file. -/
def Session.ofFile (config : Config) (fs : FileSystem) : Session FileSystem DocumentSource :=
  { config, opener := fun config fs => (config.openSource fs).map some, world := fs }

variable {text : Bytes}

/-- What becomes of a document in a file when a source has been opened for it that gives a beginning
of `text` and no end. -/
structure Config.GoesOn (config : Config) (fs : FileSystem) (source : DocumentSource)
    (text : Bytes) : Prop where
  /-- All passes over all lines fail to read, whatever was done with the document before. -/
  passes : config.chunkBytes < Room.limit → ∀ ops, (∀ op ∈ ops, ∀ world, op ≠ .change world) →
    ((Session.ofFile config fs).run ops).ScansFail text
  /-- A stream never says that it has come to its end, whatever was done with it before. -/
  streams : ∀ calls, (∀ call ∈ calls, ¬ call.2.Closes) →
    ((Consumer.ofSource source config.chunkBytes config.maxLineBytes).run calls).Endures text
  /-- Whoever goes on taking lines from a stream fails to read. -/
  takes : ∀ calls, (∀ call ∈ calls, call.2 = .borrow ∨ call.2 = .take ∨ call.2 = .start) →
    (Line.cut text).length < calls.length →
      ((Consumer.ofSource source config.chunkBytes config.maxLineBytes).run calls).Failed

/-- The end of a document in a file is never reported. The lines that are seen of it are the first
ones of any text that begins with `text`. -/
structure Config.NeverEnds [JsonReader] (config : Config) (fs : FileSystem)
    (text : Bytes) : Prop where
  /-- The file is refused when it is opened, or whatever looks for the end fails to read. -/
  opened : (∃ fault, config.openSource fs = .error (.opening config.path fault)) ∨
    ∃ source, config.openSource fs = .ok source ∧ config.GoesOn fs source text
  /-- The program prints no other lines of the file in a run that comes to it. -/
  printed : ∀ o : Options,
    ∃ lines, (o.read fs config).printed = printLines lines ∧ Line.Settled text lines
  /-- Such a run fails. -/
  run : ∀ (o : Options) (timing : Timing) (start : FileSystem) (before after : List Config),
    o.inputs = before ++ config :: after → (o.runInputs timing start before).2 = fs →
      ∀ arguments, Options.ofArguments (Config.load start) arguments = .ok o →
        (run timing start arguments).1.status = 2

theorem Config.goesOn_of_breaksOff {source : DocumentSource}
    (hopen : config.openSource fs = .ok source)
    (h : Source.BreaksOff Error.IsReading source text) : config.GoesOn fs source text where
  passes := by
    intro hmemory ops hops
    have hopened : (config.openSource fs).map some = .ok (some source) := by
      rw [hopen]
      rfl
    exact (Session.run_breaksOff hops ⟨⟨source, hopened, h⟩, hmemory, rfl⟩).scansFail
  streams _ hcalls := Consumer.run_of_breaksOff h (fun _ => id) _ _ hcalls
  takes _ hcalls hlong := Consumer.run_fails h (fun _ => id) _ _ hcalls hlong

/-- A document never ends if its file is refused or a source that is opened for it breaks off. -/
theorem Config.neverEnds_of_opened [JsonReader]
    (h : (∃ fault, config.openSource fs = .error (.opening config.path fault)) ∨
      ∃ source, config.openSource fs = .ok source ∧
        Source.BreaksOff Error.IsReading source text) : config.NeverEnds fs text := by
  have hread : ∀ o : Options, (∃ e, (o.read fs config).result = .error e) ∧
      ∃ lines, (o.read fs config).printed = printLines lines ∧ Line.Settled text lines := by
    intro o
    rcases h with ⟨fault, hrefused⟩ | ⟨source, hopen, hbreaks⟩
    · rw [Options.read_of_refused hrefused]
      exact ⟨⟨_, rfl⟩, [], rfl, fun _ => List.nil_prefix⟩
    · exact Options.read_of_breaksOff hopen hbreaks
  refine ⟨h.imp id fun ⟨source, hopen, hbreaks⟩ =>
    ⟨source, hopen, goesOn_of_breaksOff hopen hbreaks⟩, fun o => (hread o).2, ?_⟩
  rintro o timing start before after hinputs rfl arguments ho
  obtain ⟨e, he⟩ := (hread o).1
  apply Options.run_of_failed ho
  rw [hinputs]
  exact Options.runInputs_failed he

end TextLines

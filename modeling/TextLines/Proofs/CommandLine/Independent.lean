import TextLines.Proofs.CommandLine.Reporting

/-!
# Files do not touch each other

Without reports a run is the runs over each of its inputs alone, one after the other
(`run_independent`). The inputs are the files with configurations and then the other files. Neither
what goes wrong with one of them nor how long it takes changes anything for the others. The files
with configurations are inputs and no options of the other files: given again with each of these,
they would be read again (`run_options_once`).

* `SameOptions` says when two lists of arguments ask for the same, apart from the inputs: options
  may stand in front of files or behind them (`sameOptions_of_filter`), and an option that is given
  again later counts for nothing.
* `Options.runInputs_eq_foldr` is the loop over the inputs.
-/

namespace TextLines

open Bytes
open Files (FileSystem)

variable {load : (path : Bytes) → Except ConfigFault Config}

/-! ## The same options -/

/-- The same options are given, each as it was given last. -/
structure SameOptions (arguments others : List Bytes) : Prop where
  given : ∀ a ∈ others, isOption a = true → a ∈ arguments
  last : ∀ load s, Draft.lastChange (changesOf load others) s =
    Draft.lastChange (changesOf load arguments) s

/-- Arguments are only taken if the files with configurations give some. -/
theorem exists_load_of_taken {arguments : List Bytes}
    (h : ∀ a ∈ arguments, ∃ c, Change.ofArgument load a = .ok c) {path : Bytes}
    (hpath : path ∈ configFilesOf arguments) : ∃ config, load path = .ok config := by
  obtain ⟨a, ha, hbehind⟩ := List.mem_filterMap.mp hpath
  obtain ⟨c, hc⟩ := h a ha
  rw [behind?_eq_some_iff.mp hbehind, Change.ofArgument_config] at hc
  cases hload : load path with
  | error fault =>
    rw [hload] at hc
    cases hc
  | ok config => exact ⟨config, rfl⟩

/-- The same options with other inputs are accepted as well, and mean the same. -/
theorem SameOptions.ofArguments {arguments others : List Bytes} {o : Options}
    (h : SameOptions arguments others) (ho : Options.ofArguments load arguments = .ok o)
    (hinputs : configFilesOf others ≠ [] ∨ filesOf others ≠ []) :
    Options.ofArguments load others = .ok { o with
      views := (configFilesOf others).filterMap fun path => (load path).toOption
      files := filesOf others } := by
  obtain ⟨htaken, hcheck⟩ := Options.ofArguments_eq_ok_iff.mp ho
  have htaken' : ∀ a ∈ others, ∃ c, Change.ofArgument load a = .ok c := by
    intro a ha
    cases hoption : isOption a with
    | true => exact htaken a (h.given a ha hoption)
    | false => exact ⟨_, Change.ofArgument_of_file hoption⟩
  let views := (configFilesOf others).filterMap fun path => (load path).toOption
  have hdraft : ({} : Draft).changeAll (changesOf load others) =
      { ({} : Draft).changeAll (changesOf load arguments) with
        views := views.reverse
        files := (filesOf others).reverse } := by
    apply Draft.ext_of_value
    · intro s
      refine Eq.trans ?_ (Draft.value_inputs _ _ _ s).symm
      rw [Draft.value_changeAll, Draft.value_changeAll, h.last load s]
    · rw [Draft.views_changeAll, Draft.views_of_taken htaken', List.append_nil]
    · rw [Draft.files_changeAll, Draft.files_of_taken htaken', List.append_nil]
  have hviews : configFilesOf others ≠ [] → views ≠ [] := by
    intro hne hnil
    obtain ⟨path, rest, hcons⟩ := List.exists_cons_of_ne_nil hne
    have hpath : path ∈ configFilesOf others := hcons ▸ List.mem_cons_self
    obtain ⟨config, hload⟩ := exists_load_of_taken htaken' hpath
    have hnone := List.filterMap_eq_nil_iff.mp hnil path hpath
    rw [hload] at hnone
    cases hnone
  obtain ⟨mode, hmode, hchunk, hslug, -, rfl⟩ := Draft.check_eq_ok_iff.mp hcheck
  refine Options.ofArguments_eq_ok_iff.mpr ⟨htaken', Draft.check_eq_ok_iff.mpr ?_⟩
  rw [hdraft]
  refine ⟨mode, hmode, hchunk, hslug, ?_, ?_⟩
  · exact hinputs.imp (fun hne hnil => hviews hne (List.reverse_eq_nil_iff.mp hnil))
      fun hne hnil => hne (List.reverse_eq_nil_iff.mp hnil)
  · rw [Draft.options, List.reverse_reverse, List.reverse_reverse]
    rfl

/-- What an argument sets does not depend on the files with configurations. -/
theorem filter_ofArgument_congr (load load' : (path : Bytes) → Except ConfigFault Config)
    (argument : Bytes) (s : Setting) :
    (Change.ofArgument load argument).toOption.filter (fun c => c.setting? = some s) =
      (Change.ofArgument load' argument).toOption.filter fun c => c.setting? = some s := by
  cases hpath : behind? "--config=" argument with
  | some path =>
    rw [behind?_eq_some_iff.mp hpath, Change.ofArgument_config, Change.ofArgument_config]
    cases load path <;> cases load' path <;> rfl
  | none =>
    have hsame : Change.ofArgument load argument = Change.ofArgument load' argument :=
      Change.ofArgument_congr fun path hsome => absurd (hpath.symm.trans hsome) (by nofun)
    rw [hsame]

/-- The same options are given if they are so with some files for the configurations. -/
theorem sameOptions_of_last {arguments others : List Bytes}
    (load : (path : Bytes) → Except ConfigFault Config)
    (hgiven : ∀ a ∈ others, isOption a = true → a ∈ arguments)
    (hlast : ∀ s, Draft.lastChange (changesOf load others) s =
      Draft.lastChange (changesOf load arguments) s) : SameOptions arguments others := by
  refine ⟨hgiven, fun load' s => ?_⟩
  have hsame : ∀ arguments : List Bytes, Draft.lastChange (changesOf load' arguments) s =
      Draft.lastChange (changesOf load arguments) s := by
    intro arguments
    simp only [Draft.lastChange, changesOf, List.filter_filterMap,
      filter_ofArgument_congr load' load]
  rw [hsame, hsame, hlast]

/-- It makes no difference how options and files are mixed. -/
theorem sameOptions_of_filter {arguments others : List Bytes}
    (h : others.filter isOption = arguments.filter isOption) : SameOptions arguments others := by
  have hlast : ∀ (load : Bytes → Except ConfigFault Config) (arguments : List Bytes) (s : Setting),
      (changesOf load arguments).filter (fun c => c.setting? = some s) =
        (changesOf load (arguments.filter isOption)).filter fun c => c.setting? = some s := by
    intro load arguments s
    rw [changesOf, changesOf, List.filter_filterMap, List.filter_filterMap, List.filterMap_filter]
    refine List.filterMap_congr fun a _ => ?_
    cases hoption : isOption a with
    | true => rfl
    | false =>
      rw [Change.ofArgument_of_file hoption]
      rfl
  refine ⟨fun a ha hoption => ?_, fun load s => ?_⟩
  · have hmem : a ∈ arguments.filter isOption := h ▸ List.mem_filter.mpr ⟨ha, hoption⟩
    exact (List.mem_filter.mp hmem).1
  · rw [Draft.lastChange, Draft.lastChange, hlast load others, hlast load arguments, h]

/-- Without the option for reports none are wanted. -/
theorem Options.reportRoot_eq_nil {arguments : List Bytes} {o : Options}
    (ho : Options.ofArguments load arguments = .ok o)
    (h : ∀ a ∈ arguments, ¬ ascii "--report-root=" <+: a) : o.reportRoot = [] := by
  obtain ⟨-, hcheck⟩ := Options.ofArguments_eq_ok_iff.mp ho
  obtain ⟨mode, -, -, -, -, rfl⟩ := Draft.check_eq_ok_iff.mp hcheck
  have hnone : Draft.lastChange (changesOf load arguments) .reportRoot = none := by
    rw [Draft.lastChange, List.getLast?_eq_none_iff, List.filter_eq_nil_iff]
    intro c hc hsets
    obtain ⟨a, ha, htaken⟩ := mem_changesOf.mp hc
    exact h a ha (Change.flag_prefix_of_ofArgument htaken (of_decide_eq_true hsets) rfl)
  have hvalue := Draft.value_changeAll {} (changesOf load arguments) .reportRoot
  rw [hnone] at hvalue
  exact Change.reportRoot.inj hvalue

/-! ## The inputs -/

/-- The arguments that name what is to be read, in the order in which it is read. -/
def inputsOf (arguments : List Bytes) : List Bytes :=
  arguments.filter (fun a => (behind? "--config=" a).isSome) ++ filesOf arguments

theorem inputsOf_ne_nil_iff {arguments : List Bytes} :
    inputsOf arguments ≠ [] ↔ configFilesOf arguments ≠ [] ∨ filesOf arguments ≠ [] := by
  have hconfigs : arguments.filter (fun a => (behind? "--config=" a).isSome) = [] ↔
      configFilesOf arguments = [] := by
    rw [configFilesOf, List.filter_eq_nil_iff, List.filterMap_eq_nil_iff]
    simp only [Option.not_isSome_iff_eq_none]
  rw [inputsOf, Ne, List.append_eq_nil_iff, not_and_or, hconfigs]

namespace Options

/-- What an argument names to be read, if the file with a configuration gives one. -/
def inputOf (load : (path : Bytes) → Except ConfigFault Config) (o : Options) (argument : Bytes) :
    Option Config :=
  match behind? "--config=" argument with
  | some path => (load path).toOption
  | none => some (o.config argument)

theorem inputOf_of_file {a : Bytes} (h : isOption a = false) (o : Options) :
    o.inputOf load a = some (o.config a) := by
  cases hpath : behind? "--config=" a with
  | none => rw [inputOf, hpath]
  | some path =>
    have hprefix : ascii "--" <+: a := by
      rw [behind?_eq_some_iff.mp hpath]
      exact List.IsPrefix.trans (by decide : ascii "--" <+: ascii "--config=")
        (List.prefix_append _ _)
    rw [isOption, List.isPrefixOf_iff_prefix.mpr hprefix] at h
    cases h

/-- What arguments ask to be read is what they name. -/
theorem inputs_eq_filterMap {arguments : List Bytes} {o : Options}
    (hviews : o.views = (configFilesOf arguments).filterMap fun path => (load path).toOption)
    (hfiles : o.files = filesOf arguments) :
    o.inputs = (inputsOf arguments).filterMap (o.inputOf load) := by
  have hconfigs : ∀ arguments : List Bytes,
      ((configFilesOf arguments).filterMap fun path => (load path).toOption) =
        (arguments.filter fun a => (behind? "--config=" a).isSome).filterMap (o.inputOf load) := by
    intro arguments
    rw [configFilesOf, List.filterMap_filterMap, List.filterMap_filter]
    congr
    funext a
    rw [inputOf]
    cases behind? "--config=" a <;> rfl
  have hplain : (filesOf arguments).filterMap (o.inputOf load) =
      (filesOf arguments).map o.config := by
    rw [← List.filterMap_eq_map]
    refine List.filterMap_congr fun a ha => inputOf_of_file ?_ o
    exact Bool.not_eq_true' _ ▸ (List.mem_filter.mp ha).2
  rw [inputs, hviews, hfiles, hconfigs, inputsOf, List.filterMap_append, hplain]

end Options

/-! ## One file after another -/

/-- How long things take is not printed. -/
theorem Mode.summaryLine_timing (mode : Mode) (timing timing' : Timing) (path : Bytes)
    (t : Tally) :
    mode.summaryLine path ((t.recordAll (mode.stages timing)).summary timing.wall) =
      mode.summaryLine path ((t.recordAll (mode.stages timing')).summary timing'.wall) := by
  obtain ⟨_, _, _, hstages⟩ := Tally.recordAll_stages mode timing t
  obtain ⟨_, _, _, hstages'⟩ := Tally.recordAll_stages mode timing' t
  simp only [summaryLine, Tally.summary, hstages, hstages']

namespace Options

/-- Without reports nothing is written, and it makes no difference how long things take. -/
theorem conclude_of_no_report {o : Options} (hreport : o.reportRoot = []) (timing timing' : Timing)
    (fs : FileSystem) (config : Config) (r : Reading) :
    o.conclude timing fs config r = ((o.conclude timing' fs config r).1, fs) := by
  unfold conclude
  cases r.result with
  | error e => rfl
  | ok s =>
    simp only [report, hreport, List.isEmpty_nil, if_true,
      Mode.summaryLine_timing o.mode timing timing']

variable [Room]

/-- What else is to be read makes no difference to how a file is read. -/
theorem runInputs_inputs (o : Options) (views : List Config) (files : List Bytes) (timing : Timing)
    (fs : FileSystem) (configs : List Config) :
    ({ o with views := views, files := files } : Options).runInputs timing fs configs =
      o.runInputs timing fs configs := by
  induction configs generalizing fs with
  | nil => rfl
  | cons config rest ih =>
    rw [runInputs_cons, runInputs_cons, ih]
    rfl

/-- Without reports each input comes to what it comes to alone. -/
theorem runInputs_eq_foldr {ι : Type} {o : Options} (hreport : o.reportRoot = []) (timing : Timing)
    (times : ι → Timing) (config : ι → Config) (fs : FileSystem) (inputs : List ι) :
    o.runInputs timing fs (inputs.map config) =
      ((inputs.map fun i => (o.runInputs (times i) fs [config i]).1).foldr Output.append {},
        fs) := by
  induction inputs with
  | nil => rfl
  | cons i rest ih =>
    have hfirst := conclude_of_no_report hreport timing (times i) fs (config i)
      (o.read fs (config i))
    rw [List.map_cons, runInputs_cons, hfirst, ih, List.map_cons, List.foldr_cons,
      runInputs_singleton]

end Options

namespace Output

theorem out_foldr (outputs : List Output) :
    (outputs.foldr append {}).out = outputs.flatMap out := by
  induction outputs with
  | nil => rfl
  | cons output outputs ih => exact congrArg (output.out ++ ·) ih

theorem err_foldr (outputs : List Output) :
    (outputs.foldr append {}).err = outputs.flatMap err := by
  induction outputs with
  | nil => rfl
  | cons output outputs ih => exact congrArg (output.err ++ ·) ih

theorem status_eq_two_iff (output : Output) : output.status = 2 ↔ output.failed = true := by
  unfold status
  cases output.failed <;> decide

theorem failed_foldr (outputs : List Output) :
    (outputs.foldr append {}).failed = outputs.any failed := by
  induction outputs with
  | nil => rfl
  | cons output outputs ih => exact congrArg (output.failed || ·) ih

/-- Programs that run one after the other fail if one of them does. -/
theorem status_foldr (outputs : List Output) :
    (outputs.foldr append {}).status =
      if ∃ output ∈ outputs, output.status = 2 then 2 else 0 := by
  rw [status, failed_foldr]
  simp only [List.any_eq_true, status_eq_two_iff]

end Output

/-- Arguments with the same options that name one input are accepted, and this is what they ask to
be read. -/
theorem SameOptions.ofArguments_single {arguments alone : List Bytes} {o : Options} {input : Bytes}
    (h : SameOptions arguments alone) (ho : Options.ofArguments load arguments = .ok o)
    (hone : inputsOf alone = [input]) :
    ∃ config views files, o.inputOf load input = some config ∧
      Options.ofArguments load alone = .ok { o with views, files } ∧
      views ++ files.map o.config = [config] := by
  have hne : inputsOf alone ≠ [] := by
    rw [hone]
    exact List.cons_ne_nil _ _
  have hsingle := h.ofArguments ho (inputsOf_ne_nil_iff.mp hne)
  obtain ⟨hviews, hfiles, hsome⟩ := Options.inputs_of_ofArguments hsingle
  have hinputs := Options.inputs_eq_filterMap hviews hfiles
  rw [hone] at hinputs
  cases hinput : o.inputOf load input with
  | none =>
    refine absurd (hinputs.trans ?_) hsome
    exact List.filterMap_cons_none hinput
  | some config =>
    refine ⟨config, _, _, rfl, hsingle, hinputs.trans ?_⟩
    exact List.filterMap_cons_some hinput

/-- Without reports the inputs do not touch each other. Whatever arguments with the same options are
used for each of them alone, in whatever order, and however long things take: what is written is
what is written for each of them, one after the other, and the run fails if one of these fails. -/
theorem run_independent [Room] [JsonReader] {fs : FileSystem} {arguments : List Bytes} {o : Options}
    (ho : Options.ofArguments (Config.load fs) arguments = .ok o)
    (hroot : ∀ a ∈ arguments, ¬ ascii "--report-root=" <+: a) {alone : Bytes → List Bytes}
    (halone : ∀ input ∈ inputsOf arguments,
      SameOptions arguments (alone input) ∧ inputsOf (alone input) = [input])
    (timing : Timing) (times : Bytes → Timing) :
    let single := fun input => (run (times input) fs (alone input)).1
    inputsOf arguments ≠ [] ∧
      (∀ input ∈ inputsOf arguments, ∃ config views files,
        o.inputOf (Config.load fs) input = some config ∧
          Options.ofArguments (Config.load fs) (alone input) = .ok { o with views, files } ∧
          views ++ files.map o.config = [config]) ∧
      (run timing fs arguments).1.out =
        (inputsOf arguments).flatMap (fun input => (single input).out) ∧
      (run timing fs arguments).1.err =
        (inputsOf arguments).flatMap (fun input => (single input).err) ∧
      (run timing fs arguments).1.status =
        (if ∃ input ∈ inputsOf arguments, (single input).status = 2 then 2 else 0) ∧
      (run timing fs arguments).2 = fs := by
  intro single
  have hreport := Options.reportRoot_eq_nil ho hroot
  obtain ⟨hviews, hfiles, hsome⟩ := Options.inputs_of_ofArguments ho
  have hinputs := Options.inputs_eq_filterMap hviews hfiles
  have haccepted : ∀ input ∈ inputsOf arguments, ∃ config views files,
      o.inputOf (Config.load fs) input = some config ∧
        Options.ofArguments (Config.load fs) (alone input) = .ok { o with views, files } ∧
        views ++ files.map o.config = [config] := by
    intro input hinput
    obtain ⟨hsame, hone⟩ := halone input hinput
    exact hsame.ofArguments_single ho hone
  have : Nonempty Config := ⟨{}⟩
  choose! config views files hconfig hsingle hone using haccepted
  have hall : o.inputs = (inputsOf arguments).map config := by
    rw [hinputs, ← List.filterMap_eq_map]
    exact List.filterMap_congr hconfig
  have hrun_single : ∀ input ∈ inputsOf arguments,
      single input = (o.runInputs (times input) fs [config input]).1 := by
    intro input hinput
    show (run (times input) fs (alone input)).1 = _
    rw [run, hsingle input hinput]
    show (Options.runInputs { o with views := views input, files := files input } _ fs
      (views input ++ (files input).map o.config)).1 = _
    rw [hone input hinput, Options.runInputs_inputs]
  have hrun : run timing fs arguments =
      (((inputsOf arguments).map single).foldr Output.append {}, fs) := by
    rw [run, ho, List.map_congr_left hrun_single]
    show o.runInputs timing fs o.inputs = _
    rw [hall]
    exact Options.runInputs_eq_foldr hreport timing times config fs (inputsOf arguments)
  rw [hrun]
  refine ⟨fun hnil => hsome ?_, fun input hinput => ⟨config input, views input, files input,
    hconfig input hinput, hsingle input hinput, hone input hinput⟩, ?_, ?_, ?_, rfl⟩
  · rw [hall, hnil, List.map_nil]
  · rw [Output.out_foldr, List.flatMap_map]
  · rw [Output.err_foldr, List.flatMap_map]
  · rw [Output.status_foldr]
    simp only [List.mem_map, exists_exists_and_eq_and]

/-! ## A configuration beside files -/

/-- Three files of one line each, and one with a configuration that names the last of them. -/
def Files.FileSystem.withView : FileSystem where
  tree := (((Files.Tree.empty.put [ascii "a"] (.file (ascii "x\n"))).put [ascii "b"]
    (.file (ascii "x\n"))).put [ascii "c"] (.file (ascii "x\n"))).put [ascii "v"]
      (.file ({ path := ascii "c" } : Config).toJson.render)
  workingDirectory := []

theorem Config.load_withView :
    @Config.load .grammar .withView (ascii "v") = .ok { path := ascii "c" } := by
  let _ : JsonReader := .grammar
  have hopen : FileSystem.withView.openFile (ascii "v") =
      .ok (.content ({ path := ascii "c" } : Config).toJson.render) := by cbv
  rw [Config.load, JsonReader.load_grammar hopen]
  exact ofJson_render { path := ascii "c" } (by decide) (by decide)

theorem Options.ofArguments_withView {arguments : List Bytes}
    (h : configFilesOf arguments = [ascii "v"]) :
    ofArguments (@Config.load .grammar .withView) arguments =
      ofArguments (fun _ => .ok { path := ascii "c" }) arguments := by
  refine ofArguments_congr fun path hpath => ?_
  rw [h] at hpath
  obtain rfl := List.mem_singleton.mp hpath
  exact Config.load_withView

/-- The line of each file is counted. -/
theorem Options.runInputs_withView {o : Options} (hmode : o.mode = .count)
    (hreport : o.reportRoot = []) {paths : List Bytes}
    (hpaths : paths ⊆ [ascii "a", ascii "b", ascii "c"]) :
    @runInputs .ample o {} .withView (paths.map fun path => { path }) =
      ({ out := paths.flatMap fun path => ascii "1\t" ++ path ++ [lf] }, .withView) := by
  let _ : Room := .ample
  have hfile : ∀ path ∈ [ascii "a", ascii "b", ascii "c"],
      FileSystem.withView.openFile path = .ok (.content (ascii "x\n")) := by
    simp only [List.forall_mem_cons, List.not_mem_nil, false_imp_iff, implies_true, and_true]
    exact ⟨by cbv, by cbv, by cbv⟩
  have hfirst : ∀ path ∈ [ascii "a", ascii "b", ascii "c"],
      o.conclude {} .withView { path } (o.read .withView { path }) =
        ({ out := ascii "1\t" ++ path ++ [lf] }, .withView) := by
    intro path hpath
    obtain ⟨source, hopen, hgives⟩ : ∃ source,
        ({ path } : Config).openSource .withView = .ok source ∧
          Source.Gives source (ascii "x\n") :=
      Config.exists_source_of_plain rfl rfl (hfile path hpath)
    have hroom : ({ path } : Config).chunkBytes < Room.limit := by
      show 65536 < Room.limit
      decide
    have hcounts := read_counts (o := o) hopen hgives hroom fun _ _ => .inl rfl
    rw [hcounts.conclude_of_no_report hreport, hmode]
    show (({ out := decimal 1 ++ ascii "\t" ++ path ++ [lf] } : Output), _) = _
    rw [decimal_of_lt (by decide)]
    rfl
  induction paths with
  | nil => rfl
  | cons path paths ih =>
    obtain ⟨hpath, hpaths⟩ := List.cons_subset.mp hpaths
    rw [List.map_cons, runInputs_cons, hfirst path hpath, ih hpaths]
    rfl

/-- Options and inputs that are mixed. The mode counts as it was given last, and no encoding is
declared. -/
theorem run_independent_mixed :
    let _ : Room := .ample
    let _ : JsonReader := .grammar
    let arguments := [ascii "a", ascii "--mode=cat", ascii "--config=v", ascii "b",
      ascii "--encoding=", ascii "--mode=count"]
    let alone := fun input => [ascii "--mode=count", input]
    inputsOf arguments = [ascii "--config=v", ascii "a", ascii "b"] ∧
      (∀ input ∈ inputsOf arguments,
        SameOptions arguments (alone input) ∧ inputsOf (alone input) = [input]) ∧
      ∀ timing, (run timing .withView arguments).1.out =
        (run timing .withView (alone (ascii "--config=v"))).1.out ++
          ((run timing .withView (alone (ascii "a"))).1.out ++
            (run timing .withView (alone (ascii "b"))).1.out) := by
  intro _ _ arguments alone
  let o : Options :=
    { mode := .count, encoding := none, compressed := none, chunkBytes := 65536, maxLineBytes := 0,
      reportRoot := [], naming := .canonicalPath, slugLength := 12,
      views := [{ path := ascii "c" }], files := [ascii "a", ascii "b"] }
  have ho : Options.ofArguments (Config.load .withView) arguments = .ok o :=
    (Options.ofArguments_withView (by decide)).trans (by decide +kernel)
  have hinputs : inputsOf arguments = [ascii "--config=v", ascii "a", ascii "b"] := by decide
  have halone : ∀ input ∈ inputsOf arguments,
      SameOptions arguments (alone input) ∧ inputsOf (alone input) = [input] := by
    rw [hinputs]
    simp only [List.forall_mem_cons, List.not_mem_nil, false_imp_iff, implies_true, and_true]
    refine ⟨⟨?_, by decide⟩, ⟨?_, by decide⟩, ⟨?_, by decide⟩⟩
    all_goals
      exact sameOptions_of_last (fun path => .error (.unreadable path [])) (by decide)
        fun s => by cases s <;> decide
  refine ⟨hinputs, halone, fun timing => ?_⟩
  obtain ⟨-, -, hout, -⟩ := run_independent ho (by decide) halone timing fun _ => timing
  rw [hout, hinputs, List.flatMap_cons, List.flatMap_cons, List.flatMap_cons, List.flatMap_nil,
    List.append_nil]

/-- Some options say something once in a run, and so twice if they are given again with each of two
files. An option that names a file with a configuration adds an input, and one that asks for the
usage shows it. -/
theorem run_options_once :
    let _ : Room := .ample
    let _ : JsonReader := .grammar
    let arguments := [ascii "--config=v", ascii "a", ascii "b"]
    let alone := fun path => [ascii "--config=v", path]
    let help := [ascii "-h", ascii "a", ascii "b"]
    let helpAlone := fun path => [ascii "-h", path]
    ((∃ o, Options.ofArguments (Config.load .withView) arguments = .ok o) ∧
      filesOf arguments = [ascii "a", ascii "b"] ∧
      (∀ path ∈ filesOf arguments,
        (alone path).filter isOption = arguments.filter isOption ∧ filesOf (alone path) = [path]) ∧
      (run {} .withView arguments).1.out = ascii "1\tc\n1\ta\n1\tb\n" ∧
      (filesOf arguments).flatMap (fun path => (run {} .withView (alone path)).1.out) =
        ascii "1\tc\n1\ta\n1\tc\n1\tb\n") ∧
    (run {} .withView help).1 = { out := usage } ∧
      ∀ path ∈ [ascii "a", ascii "b"],
        (run {} .withView (helpAlone path)).1 = { out := usage } := by
  intro _ _ arguments alone help helpAlone
  let o (files : List Bytes) : Options :=
    { mode := .count, encoding := none, compressed := none, chunkBytes := 65536, maxLineBytes := 0,
      reportRoot := [], naming := .canonicalPath, slugLength := 12,
      views := [{ path := ascii "c" }], files }
  have ho : Options.ofArguments (Config.load .withView) arguments =
      .ok (o [ascii "a", ascii "b"]) :=
    (Options.ofArguments_withView (by decide)).trans (by decide +kernel)
  have hrun : ∀ (files : List Bytes) {arguments : List Bytes},
      Options.ofArguments (Config.load .withView) arguments = .ok (o files) →
      (o files).inputs = (ascii "c" :: files).map (fun path => { path }) →
      ascii "c" :: files ⊆ [ascii "a", ascii "b", ascii "c"] →
        (run {} .withView arguments).1.out =
          (ascii "c" :: files).flatMap fun path => ascii "1\t" ++ path ++ [lf] := by
    intro files arguments ho hinputs hfiles
    have hall := Options.runInputs_withView (o := o files) rfl rfl hfiles
    rw [← hinputs] at hall
    rw [run, ho]
    exact congrArg (·.1.out) hall
  have hsingle : ∀ path ∈ [ascii "a", ascii "b"],
      (run {} .withView (alone path)).1.out =
        ascii "1\tc\n" ++ (ascii "1\t" ++ path ++ [lf]) := by
    simp only [List.forall_mem_cons, List.not_mem_nil, false_imp_iff, implies_true, and_true]
    constructor
    · exact hrun [ascii "a"]
        ((Options.ofArguments_withView (by decide)).trans (by decide +kernel)) (by decide)
        (by decide)
    · exact hrun [ascii "b"]
        ((Options.ofArguments_withView (by decide)).trans (by decide +kernel)) (by decide)
        (by decide)
  have hfiles : filesOf arguments = [ascii "a", ascii "b"] := by decide
  have hhelp : ∀ {arguments : List Bytes}, configFilesOf arguments = [] →
      Options.ofArguments (fun path => .error (.unreadable path [])) arguments =
        .error .helpWanted → (run {} .withView arguments).1 = { out := usage } := by
    intro arguments hnone hwanted
    rw [run, Options.ofArguments_of_no_config hnone hwanted]
    rfl
  refine ⟨⟨⟨_, ho⟩, hfiles, by decide, ?_, ?_⟩, hhelp (by decide) (by decide), ?_⟩
  · exact hrun _ ho (by decide) (by decide)
  · rw [hfiles, List.flatMap_cons, List.flatMap_cons, List.flatMap_nil,
      hsingle _ (by decide), hsingle _ (by decide)]
    decide
  · simp only [List.forall_mem_cons, List.not_mem_nil, false_imp_iff, implies_true, and_true]
    exact ⟨hhelp (by decide) (by decide), hhelp (by decide) (by decide)⟩

end TextLines

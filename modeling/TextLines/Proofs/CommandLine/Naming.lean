import TextLines.Proofs.CommandLine.Independent
import TextLines.Proofs.Report.Slugs
import TextLines.Proofs.Report.Spelling
import TextLines.Proofs.Report.Unicode

/-!
# The names of report directories

Two decisions are made on the word for the naming of report directories: which path is the key, the
canonical one or the one that was given, and whether the key is hashed or only its last component is
taken. The first asks for the word `hashprefix`, the second for the word `basename`. So any other
word, all of which are accepted, hashes the path as it was given (`Options.slugOf_of_word`), and
spellings of one path have directories of their own. With `hashprefix` they have one in common,
whatever is run in between (`reports_together_iff`).
-/

namespace TextLines

open Bytes
open Files (FileSystem)

variable {load : (path : Bytes) → Except ConfigFault Config}

/-! ## The word for the naming -/

/-- The word for the naming that the arguments give: the last one, or the default. -/
def namingWord (arguments : List Bytes) : Bytes :=
  ((arguments.filterMap (behind? "--slug-mode=")).getLast?).getD (ascii "hashprefix")

/-- An argument sets the naming if it has the flag, to what stands behind the flag. -/
theorem Change.naming_of_ofArgument {argument : Bytes} {c : Change}
    (h : ofArgument load argument = .ok c) :
    (∃ word, behind? "--slug-mode=" argument = some word ∧ c = .naming word) ∨
      (behind? "--slug-mode=" argument = none ∧ c.setting? ≠ some .naming) := by
  cases hword : behind? "--slug-mode=" argument with
  | some word =>
    obtain rfl := behind?_eq_some_iff.mp hword
    have hnaming : ofArgument load (ascii "--slug-mode=" ++ word) = .ok (.naming word) :=
      ofArgument_of_mem (o := ("--slug-mode=", fun _ value => .ok (.naming value)))
        (by simp [ofValue]) word
    exact .inl ⟨word, rfl, Except.ok.inj (h.symm.trans hnaming)⟩
  | none =>
    refine .inr ⟨rfl, fun hsets => ?_⟩
    obtain ⟨word, rfl⟩ := flag_prefix_of_ofArgument h hsets rfl
    cases hword.symm.trans (behind?_eq_some_iff.mpr rfl)

theorem filter_changesOf_naming {arguments : List Bytes}
    (h : ∀ a ∈ arguments, ∃ c, Change.ofArgument load a = .ok c) :
    (changesOf load arguments).filter (fun c => c.setting? = some .naming) =
      (arguments.filterMap (behind? "--slug-mode=")).map .naming := by
  induction arguments with
  | nil => rfl
  | cons a arguments ih =>
    obtain ⟨⟨c, hc⟩, hrest⟩ := List.forall_mem_cons.mp h
    rw [changesOf_cons hc, List.filterMap_cons]
    rcases Change.naming_of_ofArgument hc with ⟨word, hword, rfl⟩ | ⟨hnone, hother⟩
    · rw [hword, List.filter_cons_of_pos (by rfl), ih hrest, List.map_cons]
    · rw [hnone, List.filter_cons_of_neg (by simpa using hother), ih hrest]

namespace Options

variable {o : Options}

/-- The arguments mean the naming that their last word for it asks for. -/
theorem naming_of_ofArguments {arguments : List Bytes} (h : ofArguments load arguments = .ok o) :
    o.naming = .ofWord (namingWord arguments) := by
  obtain ⟨htaken, hcheck⟩ := ofArguments_eq_ok_iff.mp h
  obtain ⟨mode, -, -, -, -, rfl⟩ := Draft.check_eq_ok_iff.mp hcheck
  have hvalue := Draft.value_changeAll {} (changesOf load arguments) .naming
  rw [Draft.lastChange, filter_changesOf_naming htaken, List.getLast?_map] at hvalue
  have hword : Change.naming (({} : Draft).changeAll (changesOf load arguments)).naming =
      .naming (namingWord arguments) := by
    refine hvalue.trans ?_
    rw [namingWord]
    cases (arguments.filterMap (behind? "--slug-mode=")).getLast? <;> rfl
  rw [Draft.options, Change.naming.inj hword]

/-- Every word but `basename` asks for a hash. That of the canonical path is for one word alone. -/
theorem slugOf_of_word {word : Bytes} (hnaming : o.naming = .ofWord word)
    (hword : word ≠ ascii "basename") (fs : FileSystem) (path : Bytes) :
    o.slugOf fs path =
      hashPrefix (if word = ascii "hashprefix" then fs.canonicalPath path else path)
        o.slugLength := by
  rw [slugOf, hnaming, Naming.ofWord]
  by_cases hhash : word = ascii "hashprefix"
  · rw [if_pos (beq_iff_eq.mpr hhash), if_pos hhash]
    rfl
  · rw [if_neg (mt beq_iff_eq.mp hhash), if_neg (mt beq_iff_eq.mp hword), if_neg hhash]
    rfl

/-! ## Runs -/

theorem conclude_stillLeads [Room] (o : Options) (timing : Timing) (fs : FileSystem)
    (config : Config) : fs.StillLeads (o.conclude timing fs config (o.read fs config)).2 := by
  cases hread : (o.read fs config).result with
  | error e =>
    rw [conclude, hread]
    exact .refl fs
  | ok s =>
    rw [conclude_files hread]
    split
    · exact .refl fs
    · exact (saves_saveReport _ _ _ _).stillLeads

theorem runInputs_stillLeads [Room] (o : Options) (timing : Timing) (fs : FileSystem)
    (configs : List Config) : fs.StillLeads (o.runInputs timing fs configs).2 := by
  induction configs generalizing fs with
  | nil => exact .refl fs
  | cons config rest ih =>
    rw [runInputs_cons]
    exact (o.conclude_stillLeads timing fs config).trans (ih _)

end Options

section Runs

variable [Room] [JsonReader]

theorem run_stillLeads (timing : Timing) (fs : FileSystem) (arguments : List Bytes) :
    fs.StillLeads (run timing fs arguments).2 := by
  rw [run]
  cases Options.ofArguments (Config.load fs) arguments with
  | error refusal => exact .refl fs
  | ok o => exact o.runInputs_stillLeads timing fs o.inputs

/-- The files after several runs, each with its arguments and the time that it takes. -/
def runAll (fs : FileSystem) (runs : List (Timing × List Bytes)) : FileSystem :=
  runs.foldl (fun fs r => (run r.1 fs r.2).2) fs

theorem runAll_stillLeads (fs : FileSystem) (runs : List (Timing × List Bytes)) :
    fs.StillLeads (runAll fs runs) := by
  induction runs generalizing fs with
  | nil => exact .refl fs
  | cons r runs ih => exact (run_stillLeads r.1 fs r.2).trans (ih _)

/-- What a run leaves that reads one file: its report in the directory with the name for it. -/
theorem run_files_of_single {arguments alone : List Bytes} {o : Options}
    (ho : Options.ofArguments load arguments = .ok o) (hroot : o.reportRoot ≠ [])
    (hsame : SameOptions arguments alone) (hnone : configFilesOf alone = []) {path : Bytes}
    (halone : filesOf alone = [path]) {fs : FileSystem} {s : Scan}
    (hread : (o.read fs (o.config path)).result = .ok s) (timing : Timing) :
    (run timing fs alone).2 = (saveReport fs o.reportRoot (o.slugOf fs path)
      (o.recordAfter timing fs (o.config path) s).text).2 := by
  let single : Options := { o with views := [], files := [path] }
  have haccepted := hsame.ofArguments ho (.inr (by rw [halone]; exact List.cons_ne_nil _ _))
  rw [hnone, halone] at haccepted
  have hsingle : Options.ofArguments (Config.load fs) alone = .ok single := by
    refine (Options.ofArguments_congr fun path hpath => ?_).trans haccepted
    rw [hnone] at hpath
    cases hpath
  have hconclude := single.conclude_files hread timing
  rw [Options.run_of_single hsingle rfl]
  refine hconclude.trans ?_
  rw [show single.reportRoot.isEmpty = false from List.isEmpty_eq_false_iff.mpr hroot,
    if_neg Bool.false_ne_true]
  rfl

end Runs

/-! ## Spellings -/

theorem head?_hashPrefix (key : Bytes) {length : Int} (hpos : 0 < length) :
    (hashPrefix key length).head? = (hex (Sha256.hash key)).head? := by
  by_cases hne : length = greatest32
  · rw [hne, hashPrefix_greatest32, List.head?_take, if_neg (by decide)]
  · rw [hashPrefix_eq_take hne, List.head?_take, if_neg (by omega)]

/-- Keys whose hashes begin differently have different names, however short these are. -/
theorem hashPrefix_ne_of_head? {key other : Bytes} {length : Int} (hpos : 0 < length)
    (h : (hex (Sha256.hash key)).head? ≠ (hex (Sha256.hash other)).head?) :
    hashPrefix key length ≠ hashPrefix other length := by
  intro heq
  rw [← head?_hashPrefix key hpos, heq, head?_hashPrefix other hpos] at h
  exact h rfl

/-- Two spellings of one path have their reports in one directory, with the name that is the hash of
the canonical path, whatever has been run in between, exactly if the word for the naming is
`hashprefix`. Any other word than that and `basename` is accepted as well, and it names the
directory by the hash of the path as it was given. -/
theorem reports_together_iff [Room] [JsonReader] {arguments : List Bytes} {o : Options}
    (ho : Options.ofArguments load arguments = .ok o) (hroot : o.reportRoot ≠ [])
    (hword : namingWord arguments ≠ ascii "basename") :
    (∀ (alone : List Bytes) (path : Bytes), SameOptions arguments alone →
      configFilesOf alone = [] → filesOf alone = [path] →
      ∀ (fs : FileSystem) (s : Scan) (timing : Timing),
        (o.read fs (o.config path)).result = .ok s →
          (run timing fs alone).2 = (saveReport fs o.reportRoot (o.slugOf fs path)
            (o.recordAfter timing fs (o.config path) s).text).2) ∧
    (∀ (fs : FileSystem) (path : Bytes), namingWord arguments ≠ ascii "hashprefix" →
      o.slugOf fs path = hashPrefix path o.slugLength) ∧
    ((∀ (fs : FileSystem) (path other : Bytes), fs.LeadAlike path other →
        o.slugOf fs path = hashPrefix (fs.canonicalPath path) o.slugLength ∧
        ∀ runs, o.slugOf (runAll fs runs) other = o.slugOf fs path) ↔
      namingWord arguments = ascii "hashprefix") := by
  have hslug := Options.slugOf_of_word (Options.naming_of_ofArguments ho) hword
  refine ⟨fun alone path hsame hnone halone fs s timing hread => ?runs,
    fun fs path hother => ?given, fun htogether => ?word,
    fun hhash fs path other halike => ?together⟩
  case runs => exact run_files_of_single ho hroot hsame hnone halone hread timing
  case given => rw [hslug, if_neg hother]
  case word =>
    -- One file with two spellings is enough, as their hashes differ in the first digit.
    by_contra hother
    let fs := FileSystem.single (ascii "f") []
    have halike : fs.LeadAlike (ascii "f") (ascii "./f") :=
      ⟨[ascii "f"], .file [], by cbv, by cbv⟩
    have hsame : o.slugOf fs (ascii "./f") = o.slugOf fs (ascii "f") :=
      (htogether fs _ _ halike).2 []
    rw [hslug, hslug, if_neg hother, if_neg hother] at hsame
    exact hashPrefix_ne_of_head? (Options.slugLength_pos ho) (by decide +kernel) hsame
  case together =>
    have hstill := runAll_stillLeads fs
    rw [hslug, if_pos hhash]
    refine ⟨rfl, fun runs => ?_⟩
    rw [hslug, if_pos hhash, halike.canonicalPath_still (hstill runs)]

/-- A file and a way to it through a link and back. The first word for the naming counts for
nothing. -/
theorem reports_together_through_link :
    let _ : Room := .ample
    let _ : JsonReader := .grammar
    let arguments := [ascii "--slug-mode=basename", ascii "d/f", ascii "--report-root=out",
      ascii "--slug-mode=hashprefix"]
    let fs : FileSystem := {
      tree := ((Files.Tree.empty.put [ascii "d"] .directory).put [ascii "d", ascii "f"]
        (.file (ascii "a\n"))).put [ascii "l"] (.link (ascii "./d"))
      workingDirectory := [ascii "d"] }
    ∃ o, Options.ofArguments (Config.load fs) arguments = .ok o ∧ o.reportRoot ≠ [] ∧
      namingWord arguments ≠ ascii "basename" ∧ fs.LeadAlike (ascii "f") (ascii "../l//./f") ∧
      ∀ runs, o.slugOf (runAll fs runs) (ascii "../l//./f") = hashPrefix (ascii "/d/f") 12 := by
  intro _ _ arguments fs
  let o : Options := {
    mode := .count, encoding := none, compressed := none, chunkBytes := 65536, maxLineBytes := 0,
    reportRoot := ascii "out", naming := .canonicalPath, slugLength := 12, files := [ascii "d/f"] }
  have ho : Options.ofArguments (Config.load fs) arguments = .ok o :=
    Options.ofArguments_of_no_config (by decide) rfl _
  have hword : namingWord arguments = ascii "hashprefix" := by decide
  have hroot : o.reportRoot ≠ [] := by decide
  have hne : namingWord arguments ≠ ascii "basename" := by decide
  have halike : fs.LeadAlike (ascii "f") (ascii "../l//./f") :=
    ⟨[ascii "d", ascii "f"], .file (ascii "a\n"), by cbv, by cbv⟩
  obtain ⟨-, -, htogether⟩ := reports_together_iff ho hroot hne
  obtain ⟨hcanonical, hsame⟩ := htogether.mpr hword fs _ _ halike
  refine ⟨o, ho, hroot, hne, halike, fun runs => (hsame runs).trans (hcanonical.trans ?_)⟩
  have hpath : fs.canonicalPath (ascii "f") = ascii "/d/f" := by cbv
  rw [hpath]

/-- With the word `hash` a file has its report in one directory if it is named `f`, and in another
if it is named `./f`. Neither is named by the hash of `/f`. -/
theorem reports_apart_hash :
    let _ : Room := .ample
    let _ : JsonReader := .grammar
    let options := [ascii "--report-root=out", ascii "--slug-mode=hash"]
    let fs := FileSystem.single (ascii "f") (ascii "a\n")
    ∃ o s s', Options.ofArguments (Config.load fs) (options ++ [ascii "f", ascii "./f"]) = .ok o ∧
      namingWord (options ++ [ascii "f", ascii "./f"]) ≠ ascii "basename" ∧
      fs.LeadAlike (ascii "f") (ascii "./f") ∧
      (∀ timing, (run timing fs (options ++ [ascii "f"])).2 =
        (saveReport fs (ascii "out") (ascii "252f10c83610")
          (o.recordAfter timing fs (o.config (ascii "f")) s).text).2) ∧
      (∀ timing, (run timing fs (options ++ [ascii "./f"])).2 =
        (saveReport fs (ascii "out") (ascii "163a8d279664")
          (o.recordAfter timing fs (o.config (ascii "./f")) s').text).2) ∧
      hashPrefix (fs.canonicalPath (ascii "f")) 12 = ascii "84ea6f6e20fe" := by
  intro _ _ options fs
  let o : Options := {
    mode := .count, encoding := none, compressed := none, chunkBytes := 65536, maxLineBytes := 0,
    reportRoot := ascii "out", naming := .givenPath, slugLength := 12,
    files := [ascii "f", ascii "./f"] }
  have ho : Options.ofArguments (Config.load fs) (options ++ [ascii "f", ascii "./f"]) = .ok o :=
    Options.ofArguments_of_no_config (by decide) rfl _
  have hread : ∀ path, fs.openFile path = .ok (.content (ascii "a\n")) →
      (o.config path).compressed = false → ∃ s, (o.read fs (o.config path)).result = .ok s := by
    intro path hopen hplain
    obtain ⟨source, hsource, hgives⟩ := Config.exists_source_of_plain hplain rfl hopen
    have hroom : (o.config path).chunkBytes < Room.limit := by
      show 65536 < Room.limit
      decide
    obtain ⟨s, -, hread⟩ := o.read_counts hsource hgives hroom fun _ _ => .inl rfl
    exact ⟨s, by rw [hread]⟩
  obtain ⟨s, hs⟩ := hread (ascii "f") (by cbv) rfl
  obtain ⟨s', hs'⟩ := hread (ascii "./f") (by cbv) rfl
  have hsame : ∀ path, isOption path = false →
      SameOptions (options ++ [ascii "f", ascii "./f"]) (options ++ [path]) := by
    intro path hpath
    refine sameOptions_of_filter ?_
    rw [List.filter_append, List.filter_cons_of_neg (Bool.eq_false_iff.mp hpath)]
    rfl
  refine ⟨o, s, s', ho, by decide, ⟨[ascii "f"], .file (ascii "a\n"), by cbv, by cbv⟩,
    fun timing => ?_, fun timing => ?_, ?_⟩
  · have hslug : o.slugOf fs (ascii "f") = ascii "252f10c83610" := by decide +kernel
    rw [← hslug]
    exact run_files_of_single ho (by decide) (hsame _ rfl) (by decide) rfl hs timing
  · have hslug : o.slugOf fs (ascii "./f") = ascii "163a8d279664" := by decide +kernel
    rw [← hslug]
    exact run_files_of_single ho (by decide) (hsame _ rfl) (by decide) rfl hs' timing
  · have hpath : fs.canonicalPath (ascii "f") = ascii "/f" := by cbv
    rw [hpath]
    decide +kernel

end TextLines

import Mathlib.Data.List.Induction
import TextLines.CommandLine.Options

/-!
# What arguments come to

An argument does the same to every draft: it changes one of the settings, it adds a file or the
configuration that a file gives, or it changes nothing (`Change.ofArgument`, `Draft.take_eq`). So a
list of arguments comes to a list of changes, and what is left of these is the last change of each
setting, and the configurations and the files in their order (`Draft.value_changeAll`,
`Draft.views_changeAll`, `Draft.files_changeAll`). How options and files are mixed, and what was
said before about a setting, makes no difference.

The files are the arguments that do not look like options (`Change.file?_of_ofArgument`), and the
configurations are given by those that begin with `--config=` (`Change.view?_of_ofArgument`).
Arguments are accepted if each of them is taken and what is left of them passes the checks
(`Draft.takeAll_eq_ok_iff`, `Draft.check_eq_ok_iff`).
-/

namespace TextLines

open Bytes

/-! ## One argument -/

/-- What can be set. -/
inductive Setting where
  | mode
  | encoding
  | compressed
  | chunkBytes
  | maxLineBytes
  | reportRoot
  | naming
  | slugLength
  deriving DecidableEq, Repr

/-- What an argument does to a draft. -/
inductive Change where
  | mode (word : Bytes)
  | encoding (name : Option Bytes)
  | compressed (value : Option Bool)
  | chunkBytes (n : Nat)
  | maxLineBytes (n : Nat)
  | reportRoot (root : Bytes)
  | naming (word : Bytes)
  | slugLength (n : Int)
  | view (config : Config)
  | file (path : Bytes)
  | nothing
  deriving DecidableEq, Repr

namespace Change

/-- The setting that is changed. -/
def setting? : Change → Option Setting
  | .mode _ => some .mode
  | .encoding _ => some .encoding
  | .compressed _ => some .compressed
  | .chunkBytes _ => some .chunkBytes
  | .maxLineBytes _ => some .maxLineBytes
  | .reportRoot _ => some .reportRoot
  | .naming _ => some .naming
  | .slugLength _ => some .slugLength
  | .view _ => none
  | .file _ => none
  | .nothing => none

/-- The file that is added. -/
def file? : Change → Option Bytes
  | .file path => some path
  | _ => none

/-- The configuration that is added. -/
def view? : Change → Option Config
  | .view config => some config
  | _ => none

/-- What sets something adds nothing. -/
theorem adds_nothing_of_setting? {c : Change} {s : Setting} (h : c.setting? = some s) :
    c.file? = none ∧ c.view? = none := by
  cases c <;> first | exact ⟨rfl, rfl⟩ | cases h

/-- Changes a draft. -/
def apply (d : Draft) : Change → Draft
  | .mode word => { d with mode := word }
  | .encoding name => { d with encoding := name }
  | .compressed value => { d with compressed := value }
  | .chunkBytes n => { d with chunkBytes := n }
  | .maxLineBytes n => { d with maxLineBytes := n }
  | .reportRoot root => { d with reportRoot := root }
  | .naming word => { d with naming := word }
  | .slugLength n => { d with slugLength := n }
  | .view config => { d with views := config :: d.views }
  | .file path => { d with files := path :: d.files }
  | .nothing => d

variable (load : (path : Bytes) → Except ConfigFault Config)

/-- What the options that have a value do with it. -/
def ofValue : List (String × ((argument value : Bytes) → Except Refusal Change)) := [
  ("--mode=", fun _ value => .ok (.mode value)),
  ("--encoding=", fun _ value => .ok (if value.isEmpty then .nothing else .encoding (some value))),
  ("--chunk-bytes=", fun argument value => (natural argument value).map .chunkBytes),
  ("--max-line-bytes=", fun argument value => (natural argument value).map .maxLineBytes),
  ("--config=", fun _ value => ((load value).mapError .badConfig).map .view),
  ("--report-root=", fun _ value => .ok (.reportRoot value)),
  ("--slug-mode=", fun _ value => .ok (.naming value)),
  ("--slug-len=", fun _ value =>
    match Number.signed? value with
    | some n => .ok (.slugLength n)
    | none => .error .badSigned)]

/-- What an argument without a value does. -/
def ofWord (argument : Bytes) : Except Refusal Change :=
  if argument == ascii "--gzip" then .ok (.compressed (some true))
  else if argument == ascii "--no-gzip" then .ok (.compressed (some false))
  else if argument == ascii "-h" || argument == ascii "--help" then .error .helpWanted
  else if (ascii "--").isPrefixOf argument then .error (.unknownOption argument)
  else .ok (.file argument)

/-- What an argument does, or why nothing is read. -/
def ofArgument (argument : Bytes) : Except Refusal Change :=
  match (ofValue load).findSome? fun o => (behind? o.1 argument).map (o.2 argument) with
  | some outcome => outcome
  | none => ofWord argument

end Change

variable {load : (path : Bytes) → Except ConfigFault Config}

namespace Draft

theorem takeWord_eq (d : Draft) (argument : Bytes) :
    d.takeWord argument = (Change.ofWord argument).map (Change.apply d) := by
  unfold takeWord Change.ofWord
  split
  · rfl
  split
  · rfl
  split
  · rfl
  split <;> rfl

/-- An option with a value does to every draft what its change does. -/
def DoesTo (option : String × (Draft → (argument value : Bytes) → Except Refusal Draft))
    (change : String × ((argument value : Bytes) → Except Refusal Change)) : Prop :=
  option.1 = change.1 ∧
    ∀ d argument value, option.2 d argument value = (change.2 argument value).map (Change.apply d)

theorem valueOptions_doTo : List.Forall₂ DoesTo (valueOptions load) (Change.ofValue load) := by
  have hnatural : ∀ (argument value : Bytes) (f : Nat → Draft) (change : Nat → Change) (d : Draft),
      (∀ n, f n = (change n).apply d) →
        (natural argument value).map f =
          ((natural argument value).map change).map (Change.apply d) := by
    intro argument value f change d hf
    cases natural argument value with
    | error refusal => rfl
    | ok n => exact congrArg Except.ok (hf n)
  refine .cons ⟨rfl, fun _ _ _ => rfl⟩ (.cons ⟨rfl, fun d _ value => ?encoding⟩
    (.cons ⟨rfl, fun d argument value => hnatural argument value _ _ d fun _ => rfl⟩
    (.cons ⟨rfl, fun d argument value => hnatural argument value _ _ d fun _ => rfl⟩
    (.cons ⟨rfl, fun d _ value => ?config⟩
    (.cons ⟨rfl, fun _ _ _ => rfl⟩ (.cons ⟨rfl, fun _ _ _ => rfl⟩
    (.cons ⟨rfl, fun d _ value => ?slugLength⟩ .nil)))))))
  case encoding =>
    dsimp only
    cases value.isEmpty <;> rfl
  case config =>
    dsimp only
    cases load value <;> rfl
  case slugLength =>
    dsimp only
    cases Number.signed? value <;> rfl

theorem findSome?_of_doTo
    {options : List (String × (Draft → (argument value : Bytes) → Except Refusal Draft))}
    {changes : List (String × ((argument value : Bytes) → Except Refusal Change))}
    (h : List.Forall₂ DoesTo options changes) (d : Draft) (argument : Bytes) :
    (options.findSome? fun o => (behind? o.1 argument).map (o.2 d argument)) =
      (changes.findSome? fun o => (behind? o.1 argument).map (o.2 argument)).map
        (Except.map (Change.apply d)) := by
  induction h with
  | nil => rfl
  | @cons option change options changes hdoes _ ih =>
    rw [List.findSome?_cons, List.findSome?_cons, hdoes.1]
    cases behind? change.1 argument with
    | none => exact ih
    | some value => exact congrArg some (hdoes.2 d argument value)

/-- An argument does the same to every draft. -/
theorem take_eq (d : Draft) (argument : Bytes) :
    d.take load argument = (Change.ofArgument load argument).map (Change.apply d) := by
  rw [take, Change.ofArgument, findSome?_of_doTo valueOptions_doTo]
  cases (Change.ofValue load).findSome? fun o => (behind? o.1 argument).map (o.2 argument) with
  | none => exact takeWord_eq d argument
  | some outcome => rfl

/-! ## Several changes -/

/-- Changes a draft several times. -/
def changeAll (d : Draft) (changes : List Change) : Draft :=
  changes.foldl Change.apply d

/-- The setting of a draft, as the change that sets it. -/
def value (d : Draft) : Setting → Change
  | .mode => .mode d.mode
  | .encoding => .encoding d.encoding
  | .compressed => .compressed d.compressed
  | .chunkBytes => .chunkBytes d.chunkBytes
  | .maxLineBytes => .maxLineBytes d.maxLineBytes
  | .reportRoot => .reportRoot d.reportRoot
  | .naming => .naming d.naming
  | .slugLength => .slugLength d.slugLength

/-- A change sets its own setting and leaves the others alone. -/
theorem value_apply (d : Draft) (c : Change) (s : Setting) :
    (c.apply d).value s = if c.setting? = some s then c else d.value s := by
  cases c <;> cases s <;> rfl

theorem files_apply (d : Draft) (c : Change) : (c.apply d).files = c.file?.toList ++ d.files := by
  cases c <;> rfl

theorem views_apply (d : Draft) (c : Change) : (c.apply d).views = c.view?.toList ++ d.views := by
  cases c <;> rfl

theorem value_inputs (d : Draft) (views : List Config) (files : List Bytes) (s : Setting) :
    ({ d with views := views, files := files } : Draft).value s = d.value s := by
  cases s <;> rfl

/-- A draft is its settings, its configurations and its files. -/
theorem ext_of_value {d d' : Draft} (h : ∀ s, d.value s = d'.value s)
    (hviews : d.views = d'.views) (hfiles : d.files = d'.files) : d = d' := by
  have hmode := Change.mode.inj (h .mode)
  have hencoding := Change.encoding.inj (h .encoding)
  have hcompressed := Change.compressed.inj (h .compressed)
  have hchunk := Change.chunkBytes.inj (h .chunkBytes)
  have hmax := Change.maxLineBytes.inj (h .maxLineBytes)
  have hroot := Change.reportRoot.inj (h .reportRoot)
  have hnaming := Change.naming.inj (h .naming)
  have hslug := Change.slugLength.inj (h .slugLength)
  cases d
  cases d'
  simp_all only

/-- The last change of a setting. -/
def lastChange (changes : List Change) (s : Setting) : Option Change :=
  (changes.filter fun c => c.setting? = some s).getLast?

/-- What counts of several changes is the last of each setting. -/
theorem value_changeAll (d : Draft) (changes : List Change) (s : Setting) :
    (d.changeAll changes).value s = (lastChange changes s).getD (d.value s) := by
  induction changes using List.reverseRecOn with
  | nil => rfl
  | append_singleton changes c ih =>
    rw [changeAll, List.foldl_append, List.foldl_cons, List.foldl_nil, value_apply, lastChange,
      List.filter_append]
    by_cases hc : c.setting? = some s
    · rw [if_pos hc, List.filter_cons_of_pos (by simpa using hc), List.getLast?_append]
      rfl
    · rw [if_neg hc, List.filter_cons_of_neg (by simpa using hc), List.filter_nil, List.append_nil]
      exact ih

/-- What changes add is gathered, the latest first. -/
theorem added_changeAll {α : Type} {gathered : Draft → List α} {added? : Change → Option α}
    (h : ∀ d (c : Change), gathered (c.apply d) = (added? c).toList ++ gathered d) (d : Draft)
    (changes : List Change) :
    gathered (d.changeAll changes) = (changes.filterMap added?).reverse ++ gathered d := by
  induction changes generalizing d with
  | nil => rfl
  | cons c changes ih =>
    rw [changeAll, List.foldl_cons]
    refine (ih (c.apply d)).trans ?_
    rw [h, List.filterMap_cons]
    cases added? c with
    | none => rfl
    | some a => simp

theorem files_changeAll (d : Draft) (changes : List Change) :
    (d.changeAll changes).files = (changes.filterMap Change.file?).reverse ++ d.files :=
  added_changeAll files_apply d changes

theorem views_changeAll (d : Draft) (changes : List Change) :
    (d.changeAll changes).views = (changes.filterMap Change.view?).reverse ++ d.views :=
  added_changeAll views_apply d changes

/-- Changes of different settings can be made in any order. -/
theorem apply_comm {c c' : Change} {s : Setting} (hc : c.setting? = some s)
    (hc' : c'.setting? ≠ some s) (d : Draft) : c'.apply (c.apply d) = c.apply (c'.apply d) := by
  obtain ⟨hfile, hview⟩ := Change.adds_nothing_of_setting? hc
  apply ext_of_value
  · intro t
    rw [value_apply, value_apply, value_apply, value_apply]
    by_cases ht : c.setting? = some t
    · have hne : c'.setting? ≠ some t := by rwa [← ht, hc]
      rw [if_neg hne, if_pos ht, if_pos ht]
    · rw [if_neg ht, if_neg ht]
  · rw [views_apply, views_apply, views_apply, views_apply, hview]
    rfl
  · rw [files_apply, files_apply, files_apply, files_apply, hfile]
    rfl

/-- A change can be made behind the later ones if none of these is of the same setting. -/
theorem changeAll_cons_eq {c : Change} {s : Setting} (hc : c.setting? = some s)
    {changes : List Change} (h : ∀ c' ∈ changes, c'.setting? ≠ some s) (d : Draft) :
    d.changeAll (c :: changes) = c.apply (d.changeAll changes) := by
  induction changes generalizing d with
  | nil => rfl
  | cons c' changes ih =>
    have hc' := h c' List.mem_cons_self
    have hcons : d.changeAll (c :: c' :: changes) = (c'.apply d).changeAll (c :: changes) :=
      congrArg (changeAll · changes) (apply_comm hc hc' d)
    rw [hcons]
    exact ih (fun c'' hmem => h c'' (List.mem_cons_of_mem _ hmem)) (c'.apply d)

end Draft

/-! ## All arguments -/

/-- Whether an argument looks like an option. -/
def isOption (argument : Bytes) : Bool :=
  (ascii "--").isPrefixOf argument || argument == ascii "-h"

/-- The arguments that are files. -/
def filesOf (arguments : List Bytes) : List Bytes :=
  arguments.filter (!isOption ·)

/-- The changes that arguments make. -/
def changesOf (load : (path : Bytes) → Except ConfigFault Config) (arguments : List Bytes) :
    List Change :=
  arguments.filterMap fun argument => (Change.ofArgument load argument).toOption

theorem changesOf_cons {a : Bytes} {c : Change} (h : Change.ofArgument load a = .ok c)
    (arguments : List Bytes) : changesOf load (a :: arguments) = c :: changesOf load arguments := by
  rw [changesOf, List.filterMap_cons, h]
  rfl

theorem mem_changesOf {arguments : List Bytes} {c : Change} :
    c ∈ changesOf load arguments ↔ ∃ a ∈ arguments, Change.ofArgument load a = .ok c := by
  have htaken : ∀ a, (Change.ofArgument load a).toOption = some c ↔
      Change.ofArgument load a = .ok c := by
    intro a
    cases Change.ofArgument load a with
    | error refusal => exact iff_of_false nofun nofun
    | ok c' => rw [Except.toOption, Option.some_inj, Except.ok.injEq]
  simp only [changesOf, List.mem_filterMap, htaken]

/-- The flag in front of the value of a setting. -/
def Setting.flag? : Setting → Option String
  | .mode => some "--mode="
  | .encoding => some "--encoding="
  | .compressed => none
  | .chunkBytes => some "--chunk-bytes="
  | .maxLineBytes => some "--max-line-bytes="
  | .reportRoot => some "--report-root="
  | .naming => some "--slug-mode="
  | .slugLength => some "--slug-len="

theorem behind?_eq_some_iff {beginning : String} {text rest : Bytes} :
    behind? beginning text = some rest ↔ text = ascii beginning ++ rest := by
  unfold behind?
  dsimp only
  constructor
  · intro h
    split at h
    · rename_i hprefix
      obtain ⟨back, rfl⟩ := List.isPrefixOf_iff_prefix.mp hprefix
      rw [List.drop_left, Option.some.injEq] at h
      rw [h]
    · cases h
  · rintro rfl
    rw [if_pos (List.isPrefixOf_iff_prefix.mpr (List.prefix_append _ _)), List.drop_left]

theorem map_eq_ok_iff {ε α β : Type} {f : α → β} {x : Except ε α} {b : β} :
    x.map f = .ok b ↔ ∃ a, x = .ok a ∧ f a = b := by
  cases x with
  | error e => exact iff_of_false nofun nofun
  | ok a => simp [Except.map]

namespace Change

/-- The flags in front of values. -/
def flags : List String :=
  ["--mode=", "--encoding=", "--chunk-bytes=", "--max-line-bytes=", "--config=", "--report-root=",
    "--slug-mode=", "--slug-len="]

theorem flag_mem_flags {o : String × ((argument value : Bytes) → Except Refusal Change)}
    (ho : o ∈ ofValue load) : o.1 ∈ flags := by
  have hmap : (ofValue load).map (·.1) = flags := rfl
  rw [← hmap]
  exact List.mem_map_of_mem ho

/-- No flag begins another. -/
def Apart (flag other : String) : Prop :=
  ¬ ascii flag <+: ascii other ∧ ¬ ascii other <+: ascii flag

instance (flag other : String) : Decidable (Apart flag other) :=
  inferInstanceAs (Decidable (_ ∧ _))

theorem flags_apart : flags.Pairwise Apart := by decide

theorem behind?_of_apart {flag other : String} (h : Apart flag other) (value : Bytes) :
    behind? flag (ascii other ++ value) = none := by
  refine Option.eq_none_iff_forall_ne_some.mpr fun rest hrest => ?_
  have hflag : ascii flag <+: ascii other ++ value := ⟨rest, (behind?_eq_some_iff.mp hrest).symm⟩
  exact (List.prefix_or_prefix_of_prefix hflag (List.prefix_append _ _)).elim h.1 h.2

/-- An option with a value is told by its flag. -/
theorem findSome?_of_apart
    {options : List (String × ((argument value : Bytes) → Except Refusal Change))}
    (h : options.Pairwise fun o o' => Apart o.1 o'.1)
    {o : String × ((argument value : Bytes) → Except Refusal Change)} (ho : o ∈ options)
    (argument value : Bytes) :
    (options.findSome? fun o' => (behind? o'.1 (ascii o.1 ++ value)).map (o'.2 argument)) =
      some (o.2 argument value) := by
  induction options with
  | nil => cases ho
  | cons first options ih =>
    obtain ⟨hfirst, hrest⟩ := List.pairwise_cons.mp h
    rw [List.findSome?_cons]
    rcases List.mem_cons.mp ho with rfl | hmem
    · rw [behind?_eq_some_iff.mpr rfl]
      rfl
    · rw [behind?_of_apart (hfirst o hmem)]
      exact ih hrest hmem

theorem ofArgument_of_mem {o : String × ((argument value : Bytes) → Except Refusal Change)}
    (ho : o ∈ ofValue load) (value : Bytes) :
    ofArgument load (ascii o.1 ++ value) = o.2 (ascii o.1 ++ value) value := by
  have hapart : (ofValue load).Pairwise fun o o' => Apart o.1 o'.1 :=
    List.pairwise_map.mp (flags_apart : ((ofValue load).map (·.1)).Pairwise Apart)
  rw [ofArgument, findSome?_of_apart hapart ho]

/-- An argument is a flag with a value, or it is a word. -/
theorem ofArgument_cases {argument : Bytes} {outcome : Except Refusal Change}
    (h : ofArgument load argument = outcome) :
    (∃ o ∈ ofValue load, ∃ value, argument = ascii o.1 ++ value ∧ o.2 argument value = outcome) ∨
      ofWord argument = outcome := by
  unfold ofArgument at h
  split at h
  · rename_i found hfound
    obtain ⟨o, ho, hsome⟩ := List.exists_of_findSome?_eq_some hfound
    obtain ⟨value, hvalue, houtcome⟩ := Option.map_eq_some_iff.mp hsome
    exact .inl ⟨o, ho, value, behind?_eq_some_iff.mp hvalue, houtcome.trans h⟩
  · exact .inr h

/-- What an option with a value does: nothing, or it changes the setting that has its flag, or it
adds the configuration that a file gives. -/
inductive Follows (flag : String) : Change → Prop where
  | nothing : Follows flag .nothing
  | sets {c : Change} {s : Setting} (hs : c.setting? = some s) (hflag : s.flag? = some flag) :
    Follows flag c
  | adds {config : Config} (hflag : flag = "--config=") : Follows flag (.view config)

theorem follows_of_ofValue {o : String × ((argument value : Bytes) → Except Refusal Change)}
    (ho : o ∈ ofValue load) {argument value : Bytes} {c : Change}
    (h : o.2 argument value = .ok c) : Follows o.1 c := by
  simp only [ofValue, List.mem_cons, List.not_mem_nil, or_false] at ho
  rcases ho with rfl | rfl | rfl | rfl | rfl | rfl | rfl | rfl
  · obtain rfl := Except.ok.inj h
    exact .sets (s := .mode) rfl rfl
  · obtain rfl := Except.ok.inj h
    by_cases hempty : value.isEmpty = true
    · rw [if_pos hempty]
      exact .nothing
    · rw [if_neg hempty]
      exact .sets (s := .encoding) rfl rfl
  · obtain ⟨n, -, rfl⟩ := map_eq_ok_iff.mp h
    exact .sets (s := .chunkBytes) rfl rfl
  · obtain ⟨n, -, rfl⟩ := map_eq_ok_iff.mp h
    exact .sets (s := .maxLineBytes) rfl rfl
  · obtain ⟨config, -, rfl⟩ := map_eq_ok_iff.mp h
    exact .adds rfl
  · obtain rfl := Except.ok.inj h
    exact .sets (s := .reportRoot) rfl rfl
  · obtain rfl := Except.ok.inj h
    exact .sets (s := .naming) rfl rfl
  · dsimp only at h
    split at h
    · obtain rfl := Except.ok.inj h
      exact .sets (s := .slugLength) rfl rfl
    · cases h

/-- No option with a value adds a file. -/
theorem Follows.file?_eq_none {flag : String} {c : Change} (h : Follows flag c) :
    c.file? = none := by
  cases h with
  | nothing => rfl
  | sets hs => exact (adds_nothing_of_setting? hs).1
  | adds => rfl

/-- A word is a switch, or it is a file and does not look like an option. -/
theorem ofWord_cases {argument : Bytes} {c : Change} (h : ofWord argument = .ok c) :
    isOption argument = true ∧ (∃ value, c = .compressed (some value)) ∨
      isOption argument = false ∧ c = .file argument := by
  unfold ofWord at h
  split at h
  · rename_i hgzip
    rw [beq_iff_eq.mp hgzip]
    exact .inl ⟨by decide, _, (Except.ok.inj h).symm⟩
  split at h
  · rename_i hgzip
    rw [beq_iff_eq.mp hgzip]
    exact .inl ⟨by decide, _, (Except.ok.inj h).symm⟩
  split at h
  · cases h
  split at h
  · cases h
  · rename_i hhelp hprefix
    refine .inr ⟨?_, (Except.ok.inj h).symm⟩
    rw [Bool.or_eq_true, not_or, Bool.not_eq_true] at hhelp
    rw [isOption, hhelp.1, Bool.or_false]
    exact Bool.eq_false_iff.mpr hprefix

theorem isOption_of_mem_ofValue {o : String × ((argument value : Bytes) → Except Refusal Change)}
    (ho : o ∈ ofValue load) (value : Bytes) : isOption (ascii o.1 ++ value) = true := by
  have hflags : ∀ flag ∈ flags, ascii "--" <+: ascii flag := by decide
  have hprefix : (ascii "--").isPrefixOf (ascii o.1 ++ value) = true :=
    List.isPrefixOf_iff_prefix.mpr
      ((hflags o.1 (flag_mem_flags ho)).trans (List.prefix_append _ _))
  rw [isOption, hprefix, Bool.true_or]

/-- The files are the arguments that do not look like options. -/
theorem file?_of_ofArgument {argument : Bytes} {c : Change}
    (h : ofArgument load argument = .ok c) :
    c.file? = if isOption argument then none else some argument := by
  rcases ofArgument_cases h with ⟨o, ho, value, rfl, hc⟩ | hword
  · rw [if_pos (isOption_of_mem_ofValue ho value)]
    exact (follows_of_ofValue ho hc).file?_eq_none
  · rcases ofWord_cases hword with ⟨hoption, value, rfl⟩ | ⟨hfile, rfl⟩
    · rw [if_pos hoption]
      rfl
    · rw [if_neg (Bool.eq_false_iff.mp hfile)]
      rfl

/-- What does not look like an option is taken for a file. -/
theorem ofArgument_of_file {argument : Bytes} (h : isOption argument = false) :
    ofArgument load argument = .ok (.file argument) := by
  rcases ofArgument_cases (rfl : ofArgument load argument = _) with
    ⟨o, ho, value, hvalue, -⟩ | hword
  · rw [hvalue, isOption_of_mem_ofValue ho value] at h
    cases h
  · rw [isOption, Bool.or_eq_false_iff] at h
    have hne : ∀ word : String, (ascii "--").isPrefixOf (ascii word) = true →
        (argument == ascii word) = false := by
      intro word hprefix
      refine beq_eq_false_iff_ne.mpr fun heq => ?_
      rw [heq, hprefix] at h
      cases h.1
    rw [← hword, ofWord, hne "--gzip" (by decide), hne "--no-gzip" (by decide),
      hne "--help" (by decide), h.2, h.1]
    rfl

/-- The configuration that a file gives is added, or there is none. -/
theorem ofArgument_config (path : Bytes) :
    ofArgument load (ascii "--config=" ++ path) =
      ((load path).mapError .badConfig).map .view :=
  ofArgument_of_mem
    (o := ("--config=", fun _ value => ((load value).mapError .badConfig).map .view))
    (by simp [ofValue]) path

theorem view?_of_ofArgument {argument : Bytes} {c : Change}
    (h : ofArgument load argument = .ok c) :
    c.view? = (behind? "--config=" argument).bind fun path => (load path).toOption := by
  cases hpath : behind? "--config=" argument with
  | some path =>
    rw [behind?_eq_some_iff.mp hpath, ofArgument_config] at h
    rw [Option.bind_some]
    cases hload : load path with
    | error fault =>
      rw [hload] at h
      cases h
    | ok config =>
      rw [hload] at h
      rw [← Except.ok.inj h]
      rfl
  | none =>
    rcases ofArgument_cases h with ⟨o, ho, value, rfl, hc⟩ | hword
    · cases follows_of_ofValue ho hc with
      | nothing => rfl
      | sets hs => exact (adds_nothing_of_setting? hs).2
      | adds hflag => cases hpath.symm.trans (behind?_eq_some_iff.mpr (by rw [hflag]))
    · rcases ofWord_cases hword with ⟨-, value, rfl⟩ | ⟨-, rfl⟩ <;> rfl

/-- What an argument does depends on the files with configurations only if it names one. -/
theorem ofArgument_congr {load' : (path : Bytes) → Except ConfigFault Config} {argument : Bytes}
    (h : ∀ path, behind? "--config=" argument = some path → load' path = load path) :
    ofArgument load' argument = ofArgument load argument := by
  cases hpath : behind? "--config=" argument with
  | some path =>
    rw [behind?_eq_some_iff.mp hpath, ofArgument_config, ofArgument_config, h path hpath]
  | none => simp only [ofArgument, ofValue, List.findSome?_cons, hpath, Option.map_none]

/-- The usage is shown if it was asked for. -/
theorem eq_of_helpWanted {argument : Bytes} (h : ofArgument load argument = .error .helpWanted) :
    argument = ascii "-h" ∨ argument = ascii "--help" := by
  have hnatural : ∀ (argument value : Bytes) (change : Nat → Change),
      (natural argument value).map change ≠ .error .helpWanted := by
    intro argument value change h
    unfold natural at h
    split at h
    · cases h
    split at h
    · cases h
    split at h <;> cases h
  rcases ofArgument_cases h with ⟨o, ho, value, -, hvalue⟩ | hword
  · exfalso
    simp only [ofValue, List.mem_cons, List.not_mem_nil, or_false] at ho
    rcases ho with rfl | rfl | rfl | rfl | rfl | rfl | rfl | rfl
    · cases hvalue
    · cases hvalue
    · exact hnatural _ _ _ hvalue
    · exact hnatural _ _ _ hvalue
    · dsimp only at hvalue
      cases hload : load value <;> rw [hload] at hvalue <;> cases hvalue
    · cases hvalue
    · cases hvalue
    · dsimp only at hvalue
      split at hvalue <;> cases hvalue
  · unfold ofWord at hword
    split at hword
    · cases hword
    split at hword
    · cases hword
    split at hword
    · rename_i hhelp
      rwa [Bool.or_eq_true, beq_iff_eq, beq_iff_eq] at hhelp
    split at hword <;> cases hword

/-- A setting with a flag is changed by an argument that begins with it. -/
theorem flag_prefix_of_ofArgument {argument : Bytes} {c : Change} {s : Setting} {flag : String}
    (h : ofArgument load argument = .ok c) (hs : c.setting? = some s)
    (hflag : s.flag? = some flag) :
    ascii flag <+: argument := by
  rcases ofArgument_cases h with ⟨o, ho, value, rfl, hc⟩ | hword
  · cases follows_of_ofValue ho hc with
    | nothing => cases hs
    | sets ht hoflag =>
      obtain rfl := Option.some.inj (hs.symm.trans ht)
      obtain rfl := Option.some.inj (hflag.symm.trans hoflag)
      exact List.prefix_append _ _
    | adds => cases hs
  · rcases ofWord_cases hword with ⟨-, value, rfl⟩ | ⟨-, rfl⟩
    · obtain rfl := Option.some.inj hs
      cases hflag
    · cases hs

end Change

namespace Draft

/-- Arguments none of which is refused come to their changes. -/
theorem takeAll_eq_ok_iff {d d' : Draft} {arguments : List Bytes} :
    d.takeAll load arguments = .ok d' ↔
      (∀ a ∈ arguments, ∃ c, Change.ofArgument load a = .ok c) ∧
        d' = d.changeAll (changesOf load arguments) := by
  induction arguments generalizing d with
  | nil => simp [takeAll, changesOf, changeAll, eq_comm]
  | cons a arguments ih =>
    rw [takeAll, take_eq]
    cases hc : Change.ofArgument load a with
    | error refusal =>
      constructor
      · intro h
        cases h
      · rintro ⟨hall, -⟩
        obtain ⟨c, hc'⟩ := hall a List.mem_cons_self
        cases hc.symm.trans hc'
    | ok c =>
      rw [changesOf_cons hc, List.forall_mem_cons, hc]
      refine (ih (d := c.apply d)).trans (and_congr_left' ?_)
      exact ⟨fun hall => ⟨⟨c, rfl⟩, hall⟩, fun hall => hall.2⟩

/-- Of the files with configurations those matter that are named. -/
theorem takeAll_congr {load' : (path : Bytes) → Except ConfigFault Config} {arguments : List Bytes}
    (h : ∀ path ∈ configFilesOf arguments, load' path = load path) (d : Draft) :
    d.takeAll load' arguments = d.takeAll load arguments := by
  induction arguments generalizing d with
  | nil => rfl
  | cons a arguments ih =>
    have hfirst : Change.ofArgument load' a = Change.ofArgument load a :=
      Change.ofArgument_congr fun path hpath =>
        h path (List.mem_filterMap.mpr ⟨a, List.mem_cons_self, hpath⟩)
    have hrest := ih fun path hpath => by
      obtain ⟨a', ha', hpath'⟩ := List.mem_filterMap.mp hpath
      exact h path (List.mem_filterMap.mpr ⟨a', List.mem_cons_of_mem _ ha', hpath'⟩)
    rw [takeAll, takeAll, take_eq, take_eq, hfirst]
    cases Change.ofArgument load a with
    | error refusal => rfl
    | ok c => exact hrest (c.apply d)

/-- Arguments are refused for what one of them is refused for. -/
theorem exists_of_takeAll_error {d : Draft} {arguments : List Bytes} {refusal : Refusal}
    (h : d.takeAll load arguments = .error refusal) :
    ∃ a ∈ arguments, Change.ofArgument load a = .error refusal := by
  induction arguments generalizing d with
  | nil => cases h
  | cons a arguments ih =>
    rw [takeAll, take_eq] at h
    cases hc : Change.ofArgument load a with
    | error refusal' =>
      rw [hc] at h
      obtain rfl := Except.error.inj h
      exact ⟨a, List.mem_cons_self, hc⟩
    | ok c =>
      rw [hc] at h
      obtain ⟨a', hmem, hrefused⟩ := ih h
      exact ⟨a', List.mem_cons_of_mem _ hmem, hrefused⟩

/-- The files of a draft in the end. -/
theorem files_of_taken {arguments : List Bytes}
    (h : ∀ a ∈ arguments, ∃ c, Change.ofArgument load a = .ok c) :
    (changesOf load arguments).filterMap Change.file? = filesOf arguments := by
  induction arguments with
  | nil => rfl
  | cons a arguments ih =>
    obtain ⟨⟨c, hc⟩, hrest⟩ := List.forall_mem_cons.mp h
    have hfile := Change.file?_of_ofArgument hc
    rw [changesOf_cons hc, filesOf, List.filter_cons, List.filterMap_cons, hfile]
    cases isOption a with
    | true => exact ih hrest
    | false => exact congrArg (a :: ·) (ih hrest)

/-- The configurations of a draft in the end. -/
theorem views_of_taken {arguments : List Bytes}
    (h : ∀ a ∈ arguments, ∃ c, Change.ofArgument load a = .ok c) :
    (changesOf load arguments).filterMap Change.view? =
      (configFilesOf arguments).filterMap fun path => (load path).toOption := by
  induction arguments with
  | nil => rfl
  | cons a arguments ih =>
    obtain ⟨⟨c, hc⟩, hrest⟩ := List.forall_mem_cons.mp h
    have hview := Change.view?_of_ofArgument hc
    rw [changesOf_cons hc, configFilesOf, List.filterMap_cons, List.filterMap_cons, hview]
    cases behind? "--config=" a with
    | none => exact ih hrest
    | some path =>
      rw [Option.bind_some, List.filterMap_cons]
      cases (load path).toOption with
      | none => exact ih hrest
      | some config => exact congrArg (config :: ·) (ih hrest)

/-- The options that a draft means, once it is known what its mode is. -/
def options (d : Draft) (mode : Mode) : Options where
  mode := mode
  encoding := d.encoding
  compressed := d.compressed
  chunkBytes := d.chunkBytes
  maxLineBytes := d.maxLineBytes
  reportRoot := d.reportRoot
  naming := .ofWord d.naming
  slugLength := d.slugLength
  views := d.views.reverse
  files := d.files.reverse

theorem check_eq_ok_iff {d : Draft} {o : Options} :
    d.check = .ok o ↔ ∃ mode, Mode.ofWord? d.mode = some mode ∧ d.chunkBytes ≠ 0 ∧
      0 < d.slugLength ∧ (d.views ≠ [] ∨ d.files ≠ []) ∧ d.options mode = o := by
  constructor
  · intro h
    unfold check at h
    split at h
    · cases h
    rename_i mode hmode
    split at h
    · cases h
    rename_i hchunk
    split at h
    · cases h
    rename_i hslug
    split at h
    · cases h
    rename_i hsome
    rw [Bool.and_eq_true, List.isEmpty_iff, List.isEmpty_iff, not_and_or] at hsome
    exact ⟨mode, hmode, hchunk, Int.not_le.mp hslug, hsome, Except.ok.inj h⟩
  · rintro ⟨mode, hmode, hchunk, hslug, hsome, rfl⟩
    rw [Ne, Ne, ← not_and_or, ← List.isEmpty_iff, ← List.isEmpty_iff, ← Bool.and_eq_true] at hsome
    simp only [check, hmode, if_neg hchunk, if_neg (Int.not_le.mpr hslug), if_neg hsome, options]

theorem check_ne_helpWanted (d : Draft) : d.check ≠ .error .helpWanted := by
  unfold check
  split
  · exact nofun
  split
  · exact nofun
  split
  · exact nofun
  split <;> exact nofun

end Draft

namespace Options

theorem ofArguments_eq_ok_iff {arguments : List Bytes} {o : Options} :
    ofArguments load arguments = .ok o ↔
      (∀ a ∈ arguments, ∃ c, Change.ofArgument load a = .ok c) ∧
        (({} : Draft).changeAll (changesOf load arguments)).check = .ok o := by
  rw [ofArguments]
  cases h : ({} : Draft).takeAll load arguments with
  | error refusal =>
    constructor
    · intro ho
      cases ho
    · rintro ⟨htaken, -⟩
      cases h.symm.trans (Draft.takeAll_eq_ok_iff.mpr ⟨htaken, rfl⟩)
  | ok d =>
    obtain ⟨htaken, rfl⟩ := Draft.takeAll_eq_ok_iff.mp h
    exact (and_iff_right htaken).symm

theorem ofArguments_congr {load' : (path : Bytes) → Except ConfigFault Config}
    {arguments : List Bytes} (h : ∀ path ∈ configFilesOf arguments, load' path = load path) :
    ofArguments load' arguments = ofArguments load arguments := by
  rw [ofArguments, ofArguments, Draft.takeAll_congr h]

/-- Without an option that names one, no file with a configuration matters. -/
theorem ofArguments_of_no_config {arguments : List Bytes} (hnone : configFilesOf arguments = [])
    {r : Except Refusal Options}
    (h : ofArguments (fun path => .error (.unreadable path [])) arguments = r)
    (load : (path : Bytes) → Except ConfigFault Config) : ofArguments load arguments = r := by
  rw [← h]
  refine ofArguments_congr fun path hpath => ?_
  rw [hnone] at hpath
  cases hpath

/-- The configurations and the files, of which there are some. -/
theorem inputs_of_ofArguments {arguments : List Bytes} {o : Options}
    (h : ofArguments load arguments = .ok o) :
    o.views = (configFilesOf arguments).filterMap (fun path => (load path).toOption) ∧
      o.files = filesOf arguments ∧ o.inputs ≠ [] := by
  obtain ⟨htaken, hcheck⟩ := ofArguments_eq_ok_iff.mp h
  obtain ⟨mode, -, -, -, hsome, rfl⟩ := Draft.check_eq_ok_iff.mp hcheck
  have hviews := Draft.views_changeAll {} (changesOf load arguments)
  have hfiles := Draft.files_changeAll {} (changesOf load arguments)
  rw [Draft.views_of_taken htaken, List.append_nil] at hviews
  rw [Draft.files_of_taken htaken, List.append_nil] at hfiles
  refine ⟨?_, ?_, fun hnil => ?_⟩
  · rw [Draft.options, hviews, List.reverse_reverse]
  · rw [Draft.options, hfiles, List.reverse_reverse]
  · obtain ⟨hnone, hnone'⟩ := List.append_eq_nil_iff.mp hnil
    exact hsome.elim (fun hne => hne (List.reverse_eq_nil_iff.mp hnone)) fun hne =>
      hne (List.reverse_eq_nil_iff.mp (List.map_eq_nil_iff.mp hnone'))

/-- The usage is not shown without a failure unless it was asked for. -/
theorem ne_helpWanted_of_refused {arguments : List Bytes} {refusal : Refusal}
    (h : ofArguments load arguments = .error refusal)
    (hhelp : ∀ a ∈ arguments, a ≠ ascii "-h" ∧ a ≠ ascii "--help") : refusal ≠ .helpWanted := by
  rintro rfl
  rw [ofArguments] at h
  cases htaken : ({} : Draft).takeAll load arguments with
  | error refusal =>
    rw [htaken] at h
    obtain ⟨a, ha, hrefused⟩ := Draft.exists_of_takeAll_error htaken
    rw [Except.error.inj h] at hrefused
    obtain ⟨hshort, hlong⟩ := hhelp a ha
    exact (Change.eq_of_helpWanted hrefused).elim hshort hlong
  | ok d =>
    rw [htaken] at h
    exact d.check_ne_helpWanted h

end Options

end TextLines

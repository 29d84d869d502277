import Mathlib
import TextLines.CommandLine.Run
import TextLines.Proofs.CommandLine.Arguments
import TextLines.Proofs.Report.Saving
import TextLines.Proofs.Report.Slugs

/-!
# The place of a report

A report belongs into a directory of its own below the report root, and it is there if the slug is
the name of a directory (`Path.IsName`). Digits of a hash always are. A file name that is cut can be
`.` or `..` instead: exactly when it begins with one dot or two and that is all that is left of it
(`Options.isName_slugOf_iff`). Then the report is written into the report root itself, or into the
directory above it.

`Options.report_place` says where the report on a file is afterwards, and that nothing else has
changed but for directories that have been made.
-/

namespace TextLines

open Bytes
open Files

/-! ## Slugs -/

theorem exists_digit_of_mem_hex {bytes : Bytes} {b : UInt8} (h : b ∈ hex bytes) :
    ∃ n < 16, b = digit n := by
  obtain ⟨byte, -, hb⟩ := List.mem_flatMap.mp h
  have hlt := byte.toNat_lt
  rcases List.mem_cons.mp hb with rfl | hb
  · exact ⟨_, by omega, rfl⟩
  · obtain rfl := List.mem_singleton.mp hb
    exact ⟨_, by omega, rfl⟩

theorem digit_ne : ∀ n < 16, digit n ≠ slash ∧ digit n ≠ dot ∧ digit n ≠ 0 := by
  decide

/-- The digits of a slug are digits of the hash. -/
theorem hashPrefix_prefix_hex (key : Bytes) (length : Int) :
    hashPrefix key length <+: hex ((Sha256.hash key).take (bytesFor length)) := by
  rw [hashPrefix]
  split
  · exact List.nil_prefix
  · rw [cutTo]
    split
    · exact List.take_prefix _ _
    · exact List.prefix_refl _

/-- Digits of a hash are a name. -/
theorem isName_hashPrefix (key : Bytes) {length : Int} (hpos : 0 < length)
    (hne : length ≠ greatest32) :
    Path.IsName (hashPrefix key length) ∧ 0 ∉ hashPrefix key length := by
  have hdigit : ∀ b ∈ hashPrefix key length, b ≠ slash ∧ b ≠ dot ∧ b ≠ 0 := by
    intro b hb
    obtain ⟨n, hn, rfl⟩ := exists_digit_of_mem_hex ((hashPrefix_prefix_hex key length).subset hb)
    exact digit_ne n hn
  refine ⟨⟨hashPrefix_ne_nil key hpos hne, ?_, fun h => (hdigit _ h).1 rfl⟩,
    fun h => (hdigit _ h).2.2 rfl⟩
  rw [Bool.eq_false_iff]
  intro hdots
  have hdot : dot ∈ hashPrefix key length := by
    rcases Path.isDots_eq_true_iff.mp hdots with h | h
    · rw [h]
      exact List.mem_cons_self
    · rw [h]
      exact List.mem_cons_self
  exact (hdigit _ hdot).2.1 rfl

namespace Options

variable {load : Bytes → Except ConfigFault Config} {o : Options} {path : Bytes}

/-- A name can only be as long as the arguments say if they say something positive. -/
theorem slugLength_pos {arguments : List Bytes} (h : ofArguments load arguments = .ok o) :
    0 < o.slugLength := by
  rw [ofArguments] at h
  split at h
  · cases h
  · rw [Draft.check] at h
    split at h
    · cases h
    · split at h
      · cases h
      · split at h
        · cases h
        · split at h
          · cases h
          · rename_i hpos _
            rw [← Except.ok.inj h]
            exact Int.not_le.mp hpos

/-- The name of a report directory is made of a hash, and the length asked for it overflows. -/
def Overflows (o : Options) : Prop :=
  o.naming ≠ .fileName ∧ o.slugLength = greatest32

instance (o : Options) : Decidable o.Overflows :=
  inferInstanceAs (Decidable (_ ∧ _))

/-- The name of a report directory is cut to one dot or to two. -/
def CutsToDots (o : Options) (path : Bytes) : Prop :=
  o.naming = .fileName ∧
    ((o.slugLength = 1 ∧ [dot] <+: Path.fileName path) ∨
      (o.slugLength = 2 ∧ [dot, dot] <+: Path.fileName path))

instance (o : Options) (path : Bytes) : Decidable (o.CutsToDots path) :=
  inferInstanceAs (Decidable (_ ∧ _))

/-- A text is cut to a word that it is not when its length is that of the word, and it begins with
the word. -/
theorem take_eq_iff {name word : Bytes} (hne : name ≠ word) {n : Nat} :
    name.take n = word ↔ n = word.length ∧ word <+: name := by
  constructor
  · rintro rfl
    refine ⟨?_, List.take_prefix n name⟩
    have hshort : n < name.length := Nat.lt_of_not_le fun h => hne (List.take_of_length_le h).symm
    rw [List.length_take, Nat.min_eq_left (Nat.le_of_lt hshort)]
  · rintro ⟨rfl, hword⟩
    exact (List.prefix_iff_eq_take.mp hword).symm

/-- A slug is digits of a hash or a file name, cut to length. -/
theorem slugOf_cases (o : Options) (fs : FileSystem) (path : Bytes) :
    (o.naming ≠ .fileName ∧ ∃ key, o.slugOf fs path = hashPrefix key o.slugLength) ∨
      (o.naming = .fileName ∧
        o.slugOf fs path = (Path.fileName path).take o.slugLength.toNat) := by
  rw [slugOf]
  cases o.naming with
  | canonicalPath => exact .inl ⟨Naming.noConfusion, _, rfl⟩
  | givenPath => exact .inl ⟨Naming.noConfusion, _, rfl⟩
  | fileName => exact .inr ⟨rfl, rfl⟩

/-- A slug is a single component, and it is seen as it is. -/
theorem slugOf_component (hpos : 0 < o.slugLength) (hlength : ¬ o.Overflows)
    (hne : Path.fileName path ≠ []) (fs : FileSystem) :
    o.slugOf fs path ≠ [] ∧ slash ∉ o.slugOf fs path ∧ (0 ∉ path → 0 ∉ o.slugOf fs path) := by
  rcases o.slugOf_cases fs path with ⟨hnaming, key, hslug⟩ | ⟨-, hslug⟩
  · obtain ⟨hdigits, h0⟩ := isName_hashPrefix key hpos (not_and.mp hlength hnaming)
    rw [hslug]
    exact ⟨hdigits.1, hdigits.2.2, fun _ => h0⟩
  · rw [hslug]
    refine ⟨?_, fun h => ?_, fun h0 h => h0 ?_⟩
    · rw [Ne, List.take_eq_nil_iff, not_or]
      exact ⟨by omega, hne⟩
    · exact Path.slash_notMem_fileName path (List.mem_of_mem_take h)
    · exact Path.mem_of_mem_fileName (List.mem_of_mem_take h)

/-- A slug is made of dots when the file name is cut to them. -/
theorem isDots_slugOf_iff (hpos : 0 < o.slugLength) (hlength : ¬ o.Overflows)
    (hname : Path.IsName (Path.fileName path)) (fs : FileSystem) :
    Path.isDots (o.slugOf fs path) = true ↔ o.CutsToDots path := by
  rw [CutsToDots]
  rcases o.slugOf_cases fs path with ⟨hnaming, key, hslug⟩ | ⟨hnaming, hslug⟩
  · rw [hslug, (isName_hashPrefix key hpos (not_and.mp hlength hnaming)).1.2.1]
    exact iff_of_false Bool.false_ne_true fun h => hnaming h.1
  · have hdots := hname.2.1
    have hone : Path.fileName path ≠ [dot] := fun h => by rw [h] at hdots; cases hdots
    have htwo : Path.fileName path ≠ [dot, dot] := fun h => by rw [h] at hdots; cases hdots
    have hlength : ∀ n : Nat, o.slugLength.toNat = n ↔ o.slugLength = n := fun n => by omega
    rw [hslug, Path.isDots_eq_true_iff, take_eq_iff hone, take_eq_iff htwo, hlength, hlength,
      and_iff_right hnaming]
    rfl

/-- The slug of a file is the name of a directory unless its file name is cut to dots. -/
theorem isName_slugOf_iff (hpos : 0 < o.slugLength) (hlength : ¬ o.Overflows)
    (hname : Path.IsName (Path.fileName path)) (fs : FileSystem) :
    Path.IsName (o.slugOf fs path) ↔ ¬ o.CutsToDots path := by
  obtain ⟨hne, hslash, -⟩ := slugOf_component hpos hlength hname.1 fs
  rw [← isDots_slugOf_iff hpos hlength hname fs, Bool.not_eq_true]
  exact ⟨fun h => h.2.1, fun h => ⟨hne, h, hslash⟩⟩

theorem slugOf_of_cutsToDots (h : o.CutsToDots path) (fs : FileSystem) :
    o.slugOf fs path = if o.slugLength = 1 then [dot] else [dot, dot] := by
  obtain ⟨hnaming, hcut⟩ := h
  obtain ⟨-, hslug⟩ := (o.slugOf_cases fs path).resolve_left fun h => h.1 hnaming
  rw [hslug]
  rcases hcut with ⟨hlength, hfront⟩ | ⟨hlength, hfront⟩
  · rw [hlength, if_pos rfl]
    exact (List.prefix_iff_eq_take.mp hfront).symm
  · rw [hlength, if_neg (by decide)]
    exact (List.prefix_iff_eq_take.mp hfront).symm

end Options

/-! ## Places -/

namespace Files

/-- The place that a name leads to from a directory. -/
def Place.enter (directory : Place) (name : Bytes) : Place :=
  if name = [dot] then directory
  else if name = [dot, dot] then directory.dropLast
  else directory ++ [name]

theorem Place.enter_of_isName {directory : Place} {name : Bytes} (h : Path.IsName name) :
    directory.enter name = directory ++ [name] := by
  have hdots := h.2.1
  rw [enter, if_neg (by rintro rfl; cases hdots), if_neg (by rintro rfl; cases hdots)]

namespace Tree

variable {t : Tree} {links : Nat} {directory : Place} {name file : Bytes} {spot : Spot}

/-- A single step comes to the place with that name. -/
theorem Walks.place_of_name (h : t.Walks links directory [file] spot)
    (hfile : Path.isDots file = false)
    (hlink : ∀ target, t.find? (directory ++ [file]) ≠ some (.link target)) :
    spot.place = directory ++ [file] := by
  cases h with
  | here => cases hfile
  | up => cases hfile
  | down _ _ _ hrest =>
    cases hrest
    rfl
  | link _ _ hentry => exact absurd hentry (hlink _)
  | vacant => rfl
  | stopped => rfl

/-- A step to a directory and one more come to the place with the last name in that directory. -/
theorem Walks.place_of_enter (h : t.Walks links directory [name, file] spot)
    (hfile : Path.isDots file = false)
    (hlink : ∀ target, t.find? (directory ++ [name]) ≠ some (.link target))
    (hlink' : ∀ target, t.find? (directory.enter name ++ [file]) ≠ some (.link target)) :
    spot.place = directory.enter name ++ [file] := by
  cases h with
  | here hrest => exact hrest.place_of_name hfile hlink'
  | up hrest => exact hrest.place_of_name hfile hlink'
  | down hname _ _ hrest =>
    have henter : directory.enter name = directory ++ [name] := by
      rw [Place.enter, if_neg (by rintro rfl; cases hname), if_neg (by rintro rfl; cases hname)]
    rw [henter] at hlink' ⊢
    exact hrest.place_of_name hfile hlink'
  | link _ _ hentry => exact absurd hentry (hlink _)

end Tree

end Files

/-! ## Saving reports -/

/-- The name of the file of a report. -/
def reportName : Bytes :=
  ascii "run.json"

/-- Nothing is in the way of a report in a directory: the slug is no link, and where the report is
to be there is nothing, or a file. -/
structure ClearFor (fs : FileSystem) (root : Place) (slug : Bytes) : Prop where
  noLink : ∀ target, fs.tree.find? (root ++ [slug]) ≠ some (.link target)
  free : ∀ entry, fs.tree.find? (root.enter slug ++ [reportName]) = some entry →
    ∃ old, entry = .file old

/-- A file with the text is at a place now. Whatever stood at other places still stands there, other
names of the same file apart, and what is new there are directories. -/
structure SavedAt (fs fs' : FileSystem) (place : Place) (text : Bytes) : Prop where
  file : fs'.tree.find? place = some (.file text)
  others : ∀ other, other ≠ place → other ∉ fs.otherNames place →
    fs'.tree.find? other = fs.tree.find? other ∨
      (fs.tree.find? other = none ∧ fs'.tree.find? other = some .directory)

section Saving

variable {fs fs' : FileSystem} {root slug text : Bytes}

/-- The names in the path of a report are those of the root and two more. -/
theorem names_reportPath (root : Bytes) (hslug : slug ≠ []) (hslash : slash ∉ slug) :
    Path.names (reportPath root slug) = Path.components [] root ++ [slug, reportName] := by
  rw [reportPath, Path.names_join _ (by decide) (by decide), Path.components_join root hslug hslash,
    List.append_assoc]
  rfl

theorem startOf_reportPath (fs : FileSystem) (root : Bytes) (hslash : slash ∉ slug) :
    fs.startOf (reportPath root slug) = fs.startOf root := by
  rw [FileSystem.startOf, FileSystem.startOf, reportPath, Path.isAbsolute_join (by decide),
    Path.isAbsolute_join hslash]

theorem zero_notMem_reportPath (hroot0 : 0 ∉ root) (hslug0 : 0 ∉ slug) (hslash : slash ∉ slug) :
    0 ∉ reportPath root slug :=
  Path.zero_notMem_join (Path.zero_notMem_join hroot0 hslug0 hslash) (by decide) (by decide)

/-- The path of a report leads through the report root. -/
theorem walks_of_reportPath {spot : Spot} (hroot : root ≠ []) (hroot0 : 0 ∉ root)
    (hslug : slug ≠ []) (hslash : slash ∉ slug) (hslug0 : 0 ∉ slug)
    (h : fs.lookUp (reportPath root slug) true = .ok spot) :
    ∃ (place : Place) (links : Nat), fs.lookUp root true = .ok (.found place .directory) ∧
      fs.tree.Walks links place [slug, reportName] spot := by
  have hshorter : root.length ≤ (reportPath root slug).length := by
    have hname : slash ∉ reportName := by decide
    obtain ⟨between, hbetween, -⟩ := Path.join_eq_append root hslash
    obtain ⟨between', hbetween', -⟩ := Path.join_eq_append (Path.join root slug) hname
    rw [show reportPath root slug = Path.join (Path.join root slug) reportName from rfl,
      hbetween', hbetween]
    simp only [List.length_append]
    omega
  rw [FileSystem.lookUp_eq_ok_iff (zero_notMem_reportPath hroot0 hslug0 hslash),
    startOf_reportPath fs root hslash, names_reportPath root hslug hslash] at h
  obtain ⟨-, hshort, habove, hwalks⟩ := h
  obtain ⟨links, place, hfront, hback⟩ := hwalks.exists_of_append (List.cons_ne_nil _ _)
  refine ⟨place, links, (FileSystem.lookUp_eq_ok_iff hroot0).mpr
    ⟨hroot, Nat.lt_of_le_of_lt hshorter hshort, habove, ?_⟩, hback⟩
  rw [Path.names]
  split
  · exact hfront.append_dot
  · exact hfront

/-- The path of a report leads through the report root to the directory that the slug leads to from
there, if nothing was in the way before directories were made. -/
theorem exists_root_of_lookUp {made : FileSystem} {spot : Spot} (hroot : root ≠ [])
    (hroot0 : 0 ∉ root) (hslug : slug ≠ []) (hslash : slash ∉ slug) (hslug0 : 0 ∉ slug)
    (hgrows : fs.Grows made) (hlook : made.lookUp (reportPath root slug) true = .ok spot) :
    ∃ place : Place, made.lookUp root true = .ok (.found place .directory) ∧
      (ClearFor fs place slug → spot.place = place.enter slug ++ [reportName] ∧
        ∀ entry, made.tree.find? (place.enter slug ++ [reportName]) = some entry →
          entry = .directory ∨ ∃ old, entry = .file old) := by
  obtain ⟨place, links, hplace, hwalks⟩ :=
    walks_of_reportPath hroot hroot0 hslug hslash hslug0 hlook
  refine ⟨place, hplace, fun hclear => ?_⟩
  -- The directories that have been made are not in the way either.
  have hmade : ∀ entry, made.tree.find? (place.enter slug ++ [reportName]) = some entry →
      entry = .directory ∨ ∃ old, entry = .file old := by
    intro entry hentry
    rcases hgrows.find? (place.enter slug ++ [reportName]) with hsame | ⟨-, hnew⟩
    · exact .inr (hclear.free entry (hsame.symm.trans hentry))
    · exact .inl (Option.some.inj (hentry.symm.trans hnew))
  refine ⟨hwalks.place_of_enter (by decide) (fun target hlink => ?_) fun target hlink => ?_, hmade⟩
  · rcases hgrows.find? (place ++ [slug]) with hsame | ⟨-, hnew⟩
    · exact hclear.noLink target (hsame.symm.trans hlink)
    · cases hnew.symm.trans hlink
  · rcases hmade _ hlink with hdirectory | ⟨old, hold⟩
    · cases hdirectory
    · cases hold

/-- What is written is where the path leads, and nothing else has changed since the directories were
made. -/
theorem SavedAt.of_puts {made : FileSystem} {path : Bytes} {spot : Spot} (hgrows : fs.Grows made)
    (hputs : made.Puts fs' path text spot) : SavedAt fs fs' spot.place text := by
  refine ⟨FileSystem.holds_of_lookUp hputs.holdsAt, fun other hother hnames => ?_⟩
  rw [hputs.others hother (hgrows.otherNames ▸ hnames)]
  exact hgrows.find? other

/-- What is written of a report is in the directory that the slug leads to from the report root, if
nothing was in the way. -/
theorem savedAt_of_puts {made : FileSystem} {content : Bytes} {spot : Spot} (hroot : root ≠ [])
    (hroot0 : 0 ∉ root) (hslug : slug ≠ []) (hslash : slash ∉ slug) (hslug0 : 0 ∉ slug)
    (hgrows : fs.Grows made) (hputs : made.Puts fs' (reportPath root slug) content spot) :
    ∃ place : Place, fs'.lookUp root true = .ok (.found place .directory) ∧
      (ClearFor fs place slug → SavedAt fs fs' (place.enter slug ++ [reportName]) content) := by
  obtain ⟨place, hplace, hspot⟩ :=
    exists_root_of_lookUp hroot hroot0 hslug hslash hslug0 hgrows hputs.lookUp
  have hstands := hputs.keeps.directory _ (FileSystem.holds_of_lookUp hplace)
  refine ⟨place, FileSystem.lookUp_keep hputs.workingDirectory hputs.keeps hstands hplace,
    fun hclear => ?_⟩
  rw [← (hspot hclear).1]
  exact .of_puts hgrows hputs

/-- A report that has been saved is in the directory that the slug leads to from the report root, if
nothing was in the way. -/
theorem savedAt_of_saveReport (hroot : root ≠ []) (hroot0 : 0 ∉ root) (hslug : slug ≠ [])
    (hslash : slash ∉ slug) (hslug0 : 0 ∉ slug)
    (h : saveReport fs root slug text = (.ok none, fs')) :
    ∃ place : Place, fs'.lookUp root true = .ok (.found place .directory) ∧
      (ClearFor fs place slug → SavedAt fs fs' (place.enter slug ++ [reportName]) text) := by
  obtain ⟨made, hmakes, hwrites⟩ := (saves_saveReport fs root slug text).of_saved
    (congrArg Prod.fst h)
  rw [h] at hwrites
  rcases hwrites.of_written with ⟨spot, hputs⟩ | ⟨hafter, goal, entry, hlook, hdevice⟩
  · exact savedAt_of_puts hroot hroot0 hslug hslash hslug0 hmakes.grows hputs
  · obtain rfl : fs' = made := hafter
    obtain ⟨place, hplace, hspot⟩ :=
      exists_root_of_lookUp hroot hroot0 hslug hslash hslug0 hmakes.grows hlook
    refine ⟨place, hplace, fun hclear => ?_⟩
    -- A device would have been in the way.
    obtain ⟨hgoal, hmade⟩ := hspot hclear
    have hthere : fs'.tree.find? goal = some entry := FileSystem.holds_of_lookUp hlook
    rcases hmade entry ((congrArg fs'.tree.find? hgoal).symm.trans hthere) with rfl | ⟨old, rfl⟩
    · cases hdevice
    · cases hdevice

end Saving

/-! ## Reports on files -/

namespace Options

variable {load : Bytes → Except ConfigFault Config} {o : Options} {path : Bytes} {config : Config}

/-- Working on a report fails when the report is not saved, and does nothing else. -/
theorem report_eq (o : Options) (fs : FileSystem) (config : Config) (summary : Summary)
    (digest : LineDigest) (hroot : o.reportRoot ≠ []) :
    let saved := saveReport fs o.reportRoot (o.slugOf fs config.path)
      (o.recordOf fs config summary digest).text
    (o.report fs config summary digest).2 = saved.2 ∧
      ((o.report fs config summary digest).1.failed = false ↔ saved.1 = .ok none) := by
  intro saved
  rw [report, List.isEmpty_eq_false_iff.mpr hroot, if_neg Bool.false_ne_true]
  dsimp only
  rcases hsaved : saveReport fs o.reportRoot (o.slugOf fs config.path)
    (o.recordOf fs config summary digest).text with ⟨e | (_ | fault), fs'⟩
  · simp [saved, hsaved]
  · simp [saved, hsaved]
  · simp [saved, hsaved]

/-- The content is the report on a file, in the directory for it: of its own below the place that
the report root leads to, or that place, or the directory above, if the name is cut to dots. Nothing
else has changed, if nothing was in the way. -/
def PutsReport (o : Options) (path : Bytes) (fs after : FileSystem) (content : Bytes) : Prop :=
  ∃ root directory : Place, after.lookUp o.reportRoot true = .ok (.found root .directory) ∧
    (¬ o.CutsToDots path → directory = root ++ [o.slugOf fs path]) ∧
    (o.CutsToDots path → directory = if o.slugLength = 1 then root else root.dropLast) ∧
    (ClearFor fs root (o.slugOf fs path) → SavedAt fs after (directory ++ [reportName]) content)

theorem PutsReport.of_enter {fs after : FileSystem} {content : Bytes} {root : Place}
    (hpos : 0 < o.slugLength) (hlength : ¬ o.Overflows)
    (hname : Path.IsName (Path.fileName path))
    (hroot : after.lookUp o.reportRoot true = .ok (.found root .directory))
    (hsaved : ClearFor fs root (o.slugOf fs path) →
      SavedAt fs after (root.enter (o.slugOf fs path) ++ [reportName]) content) :
    o.PutsReport path fs after content := by
  refine ⟨root, root.enter (o.slugOf fs path), hroot, fun hkept => ?_, fun hcuts => ?_, hsaved⟩
  · exact Place.enter_of_isName ((isName_slugOf_iff hpos hlength hname fs).mpr hkept)
  · rw [slugOf_of_cutsToDots hcuts fs]
    split <;> rfl

/-- The report on a file whose name is not made of dots is in a directory of its own below the
report root, exactly unless the name is cut to dots. If it is, the report is in the report root or
in the directory above. A report that is not saved leaves nothing but directories, or it has been
begun in its place. -/
theorem report_place {arguments : List Bytes} (ho : ofArguments load arguments = .ok o)
    (hlength : ¬ o.Overflows) (hroot0 : 0 ∉ o.reportRoot) (hpath0 : 0 ∉ config.path)
    (hname : Path.IsName (Path.fileName config.path)) (fs : FileSystem) :
    let slug := o.slugOf fs config.path
    slug ≠ [] ∧ slash ∉ slug ∧ (Path.IsName slug ↔ ¬ o.CutsToDots config.path) ∧
      ∀ (summary : Summary) (digest : LineDigest), o.reportRoot ≠ [] →
        let after := (o.report fs config summary digest).2
        let text := (o.recordOf fs config summary digest).text
        ((o.report fs config summary digest).1.failed = true →
          fs.Grows after ∨ ∃ count, o.PutsReport config.path fs after (text.take count)) ∧
        ((o.report fs config summary digest).1.failed = false →
          o.PutsReport config.path fs after text) := by
  intro slug
  have hpos := slugLength_pos ho
  obtain ⟨hne, hslash, hslug0⟩ := slugOf_component hpos hlength hname.1 fs
  refine ⟨hne, hslash, isName_slugOf_iff hpos hlength hname fs, fun summary digest hroot => ?_⟩
  intro after text
  obtain ⟨hafter, hfailed⟩ := o.report_eq fs config summary digest hroot
  refine ⟨fun h => ?_, fun h => ?_⟩
  · rw [h, Bool.true_eq_false, false_iff] at hfailed
    rcases (saves_saveReport _ _ _ _).of_not_saved hfailed with
      hgrows | ⟨-, made, spot, count, hgrows, hputs⟩
    · rw [← hafter] at hgrows
      exact .inl hgrows.grows
    · rw [← hafter] at hputs
      obtain ⟨root, hplace, hsaved⟩ :=
        savedAt_of_puts hroot hroot0 hne hslash (hslug0 hpath0) hgrows.grows hputs
      exact .inr ⟨count, .of_enter hpos hlength hname hplace hsaved⟩
  · obtain ⟨root, hplace, hsaved⟩ := savedAt_of_saveReport hroot hroot0 hne hslash (hslug0 hpath0)
      (Prod.ext (hfailed.mp h) hafter.symm)
    exact .of_enter hpos hlength hname hplace hsaved

/-- A file whose name begins with a single dot, in a directory that has no report root yet. -/
theorem report_place_profile :
    let path := ascii "home/.profile"
    let arguments := [ascii "--report-root=out", ascii "--slug-mode=basename",
      ascii "--slug-len=2", path]
    let fs : FileSystem := {
      tree := (Tree.empty.put [ascii "home"] .directory).put [ascii "home", ascii ".profile"]
        (.file (ascii "x\n"))
      workingDirectory := [] }
    ∃ o, (∀ load, ofArguments load arguments = .ok o) ∧ ¬ o.Overflows ∧
      0 ∉ o.reportRoot ∧ 0 ∉ path ∧
      Path.IsName (Path.fileName path) ∧ Path.IsName (o.slugOf fs path) ∧
      ∀ (summary : Summary) (digest : LineDigest),
        SavedAt fs (o.report fs (o.config path) summary digest).2
          [ascii "out", ascii ".p", reportName]
          (o.recordOf fs (o.config path) summary digest).text := by
  intro path arguments fs
  let o : Options := {
    mode := .count, encoding := none, compressed := none, chunkBytes := 65536, maxLineBytes := 0,
    reportRoot := ascii "out", naming := .fileName, slugLength := 2, files := [path] }
  have ho : ∀ load, ofArguments load arguments = .ok o :=
    ofArguments_of_no_config (by decide) rfl
  have hlength : ¬ o.Overflows := by decide
  have hname : Path.IsName (Path.fileName path) := by decide
  have hcuts : ¬ o.CutsToDots path := by decide
  have hslug : o.slugOf fs (o.config path).path = ascii ".p" := by decide
  let after (text : Bytes) : FileSystem := { fs with
    tree := ((fs.tree.put [ascii "out"] .directory).put [ascii "out", ascii ".p"] .directory).put
      [ascii "out", ascii ".p", reportName] (.file text) }
  have hsaved : ∀ text, saveReport fs (ascii "out") (ascii ".p") text = (.ok none, after text) :=
    fun text => by cbv
  have hlook : ∀ text, (after text).lookUp (ascii "out") true =
      .ok (.found [ascii "out"] .directory) := fun text => by cbv
  have hpath0 : 0 ∉ (o.config path).path := by decide
  obtain ⟨-, -, hisName, hreport⟩ := report_place (ho fun path => .error (.unreadable path []))
    hlength (by decide) hpath0 hname fs
  refine ⟨o, ho, hlength, by decide, by decide, hname, hisName.mpr hcuts, fun summary digest => ?_⟩
  obtain ⟨-, hplace⟩ := hreport summary digest (by decide)
  obtain ⟨hafter, hfailed⟩ := o.report_eq fs (o.config path) summary digest (by decide)
  have hroot' : o.reportRoot = ascii "out" := rfl
  rw [hslug, hroot', hsaved] at hafter hfailed
  obtain ⟨root, directory, hroot, hdirectory, -, hclear⟩ := hplace (hfailed.mpr rfl)
  rw [hafter] at hroot
  obtain ⟨rfl, -⟩ := Spot.found.inj (Except.ok.inj (hroot.symm.trans (hlook _)))
  rw [hdirectory hcuts, hslug] at hclear
  refine hclear ⟨fun target h => ?_, fun entry h => ?_⟩
  · cases h
  · cases h

/-- Cutting `.x` to one byte leaves the name of the directory itself, and the report is there. -/
theorem report_in_root :
    let path := ascii ".x"
    let arguments := [ascii "--report-root=out", ascii "--slug-mode=basename",
      ascii "--slug-len=1", path]
    let fs : FileSystem := {
      tree := Tree.empty.put [path] (.file (ascii "a\n"))
      workingDirectory := [] }
    ∃ o, (∀ load, ofArguments load arguments = .ok o) ∧ Path.IsName (Path.fileName path) ∧
      ¬ Path.IsName (o.slugOf fs path) ∧
      ∀ (summary : Summary) (digest : LineDigest),
        let after := (o.report fs (o.config path) summary digest).2
        (o.report fs (o.config path) summary digest).1.failed = false ∧
          after.lookUp (ascii "out") true = .ok (.found [ascii "out"] .directory) ∧
          after.tree.find? [ascii "out", reportName] =
            some (.file (o.recordOf fs (o.config path) summary digest).text) := by
  intro path arguments fs
  let o : Options := {
    mode := .count, encoding := none, compressed := none, chunkBytes := 65536, maxLineBytes := 0,
    reportRoot := ascii "out", naming := .fileName, slugLength := 1, files := [path] }
  have ho : ∀ load, ofArguments load arguments = .ok o :=
    ofArguments_of_no_config (by decide) rfl
  have hslug : o.slugOf fs (o.config path).path = ascii "." := by decide
  let after (text : Bytes) : FileSystem := { fs with
    tree := (fs.tree.put [ascii "out"] .directory).put [ascii "out", reportName] (.file text) }
  have hsaved : ∀ text, saveReport fs (ascii "out") (ascii ".") text = (.ok none, after text) :=
    fun text => by cbv
  have hlook : ∀ text, (after text).lookUp (ascii "out") true =
      .ok (.found [ascii "out"] .directory) := fun text => by cbv
  refine ⟨o, ho, by decide, by decide, fun summary digest => ?_⟩
  obtain ⟨hafter, hfailed⟩ := o.report_eq fs (o.config path) summary digest (by decide)
  have hroot : o.reportRoot = ascii "out" := rfl
  rw [hslug, hroot, hsaved] at hafter hfailed
  rw [hafter]
  exact ⟨hfailed.mpr rfl, hlook _, rfl⟩

end Options

end TextLines

import TextLines.Proofs.Report.Placing

/-!
# Reports that are saved one after another

Saving a report changes one file, and makes no directories but those on the way to it
(`touches_saveReport`), so one report is not disturbed by another in a different place. In a tree
without links the places of reports below one root differ by their slugs (`reportPlace_inj`), and
whatever has been saved in a sequence of calls, every slug has the text that was saved last for it
(`Reports.saveAll_apart`). A report is emptied before it is written, so it is lost if a later report
for the same slug is being written and this breaks off; the beginning of that one is there then. It
is lost to the report of another slug if both are one file (`Reports.saveAll_loses`).
-/

namespace TextLines

open Bytes
open Files

/-! ## Trees without links -/

namespace Files

/-- Nothing in the tree is a link. -/
def Tree.NoLinks (t : Tree) : Prop :=
  ∀ place target, t.find? place ≠ some (.link target)

theorem Tree.find?_empty {place : Place} (h : place ≠ []) : Tree.empty.find? place = none := by
  cases place with
  | nil => exact absurd rfl h
  | cons name rest => exact congrArg Node.entry (Tree.reach_nothing rest)

theorem Tree.noLinks_empty : Tree.empty.NoLinks := by
  intro place target h
  by_cases hplace : place = []
  · rw [hplace, Tree.find?_nil] at h
    cases h
  · cases (Tree.find?_empty hplace).symm.trans h

theorem Tree.NoLinks.put {t : Tree} (h : t.NoLinks) (place : Place) {entry : Entry}
    (hentry : ∀ target, entry ≠ .link target) : (t.put place entry).NoLinks := by
  intro other target hlink
  by_cases hother : other = []
  · rw [hother, Tree.find?_nil] at hlink
    cases hlink
  · rw [Tree.find?_put t entry hother] at hlink
    split at hlink
    · exact hentry target (Option.some.inj hlink)
    · exact h other target hlink

theorem FileSystem.Grows.noLinks {fs fs' : FileSystem} (hgrows : fs.Grows fs')
    (h : fs.tree.NoLinks) : fs'.tree.NoLinks := by
  intro place target hlink
  rcases hgrows.find? place with hsame | ⟨-, hnew⟩
  · exact h place target (hsame.symm.trans hlink)
  · cases hnew.symm.trans hlink

theorem FileSystem.Puts.noLinks {fs fs' : FileSystem} {path content : Bytes} {spot : Spot}
    (hputs : fs.Puts fs' path content spot) (h : fs.tree.NoLinks) : fs'.tree.NoLinks := by
  intro place target hlink
  rw [hputs.find?] at hlink
  split at hlink
  · cases hlink
  · exact h place target hlink

/-- Without links every step of a walk enters the name it takes. -/
theorem Tree.Walks.place_eq {t : Tree} {links : Nat} {start : Place} {names : List Bytes}
    {spot : Spot} (h : t.Walks links start names spot) (hlinks : t.NoLinks) :
    spot.place = names.foldl Place.enter start := by
  have henter : ∀ {directory : Place} {name : Bytes}, Path.isDots name = false →
      directory.enter name = directory ++ [name] := fun {directory name} hname => by
    rw [Place.enter, if_neg (by rintro rfl; cases hname), if_neg (by rintro rfl; cases hname)]
  induction h with
  | arrived => rfl
  | here _ ih => exact ih
  | up _ ih => exact ih
  | down hname _ _ _ ih =>
    rw [List.foldl_cons, henter hname]
    exact ih
  | link _ _ hentry => exact absurd hentry (hlinks _ _)
  | vacant hname => exact (henter hname).symm
  | stopped hname => exact (henter hname).symm

end Files

/-! ## The places of reports -/

/-- The slug is a component of a path as any other. -/
def IsOrdinary (slug : Bytes) : Prop :=
  Path.IsName slug ∧ 0 ∉ slug

instance : DecidablePred IsOrdinary := fun _ => inferInstanceAs (Decidable (_ ∧ _))

/-- The place of a report in a tree without links. -/
def reportPlace (fs : FileSystem) (root slug : Bytes) : Place :=
  (Path.components [] root).foldl Place.enter (fs.startOf root) ++ [slug, reportName]

theorem reportPlace_inj {fs : FileSystem} {root slug slug' : Bytes} :
    reportPlace fs root slug = reportPlace fs root slug' ↔ slug = slug' := by
  rw [reportPlace, reportPlace, List.append_cancel_left_eq, List.cons.injEq, and_iff_left rfl]

theorem reportPlace_congr {fs fs' : FileSystem} {root slug : Bytes}
    (h : fs'.workingDirectory = fs.workingDirectory) :
    reportPlace fs' root slug = reportPlace fs root slug := by
  rw [reportPlace, reportPlace, FileSystem.startOf, FileSystem.startOf, h]

section Places

variable {fs : FileSystem} {root slug text : Bytes}

theorem place_of_reportPath {spot : Spot} (hlinks : fs.tree.NoLinks) (hroot0 : 0 ∉ root)
    (hslug : IsOrdinary slug) (h : fs.lookUp (reportPath root slug) true = .ok spot) :
    spot.place = reportPlace fs root slug := by
  obtain ⟨hname, hslug0⟩ := hslug
  have hslash := hname.2.2
  rw [FileSystem.lookUp_eq_ok_iff (zero_notMem_reportPath hroot0 hslug0 hslash),
    startOf_reportPath fs root hslash, names_reportPath root hname.1 hslash] at h
  obtain ⟨-, -, -, hwalks⟩ := h
  rw [hwalks.place_eq hlinks, List.foldl_append, List.foldl_cons, List.foldl_cons, List.foldl_nil,
    Place.enter_of_isName hname, Place.enter_of_isName (by decide), List.append_assoc]
  rfl

theorem reportDirectory_eq (root : Bytes) (hslug : Path.IsName slug) :
    reportDirectory root slug = Path.join root slug := by
  refine Path.parent_join ?_ (by decide) (by decide)
  rw [Path.fileName_join root hslug.2.2]
  exact hslug.1

/-- The directories that are made for a report are those on the way to it. -/
theorem directoriesTo_reportDirectory (root : Bytes) (hslug : Path.IsName slug) :
    Path.directoriesTo (reportDirectory root slug) = Path.upwards (Path.join root slug) := by
  rw [reportDirectory_eq root hslug, Path.directoriesTo, Path.fileName_join root hslug.2.2,
    List.isEmpty_eq_false_iff.mpr hslug.1, if_neg Bool.false_ne_true]

end Places

/-! ## A single report -/

/-- A report that is to be saved. -/
structure ReportCall where
  /-- The name of its directory. -/
  slug : Bytes
  /-- Its text. -/
  text : Bytes

/-- What may come of a call. Besides the directories on the way to the report, which are made where
nothing was, at most one file changes: the report, whose whole content is the text afterwards if the
answer says so, or the beginning of the text if it says that this was not written. No file changes
if a device stands in the place of the report. -/
inductive Touches (before : FileSystem) (root : Bytes) (call : ReportCall) :
    Except Error (Option SaveFault) → FileSystem → Prop where
  | saved {after : FileSystem} {place : Place}
      (hreport : after.HoldsAt (reportPath root call.slug) call.text place)
      (hothers : ∀ other, other ≠ place → other ∉ before.otherNames place →
        before.StaysAlong after (Path.upwards (Path.join root call.slug)) other) :
      Touches before root call (.ok none) after
  | broken {after : FileSystem} {place : Place} {count : Nat}
      (hreport : after.HoldsAt (reportPath root call.slug) (call.text.take count) place)
      (hothers : ∀ other, other ≠ place → other ∉ before.otherNames place →
        before.StaysAlong after (Path.upwards (Path.join root call.slug)) other) :
      Touches before root call (.ok (some (.notWritten (reportPath root call.slug)))) after
  | left {answer : Except Error (Option SaveFault)} {after : FileSystem}
      (hdevice : answer = .ok none → ∃ place, after.DeviceAt (reportPath root call.slug) place)
      (hstays : ∀ place, before.StaysAlong after (Path.upwards (Path.join root call.slug)) place) :
      Touches before root call answer after

/-- What stands at other places than that of a report stays where it is while the report is
written. -/
theorem staysAlong_of_puts {fs made after : FileSystem} {path content : Bytes} {paths : List Bytes}
    {spot : Spot} (hgrows : fs.GrowsAlong made paths) (hputs : made.Puts after path content spot) :
    ∀ other, other ≠ spot.place → other ∉ fs.otherNames spot.place →
      fs.StaysAlong after paths other := by
  intro other hother hnames
  exact (hgrows.stays other).keep hputs.workingDirectory hputs.keeps
    (hputs.others hother (hgrows.otherNames ▸ hnames))

theorem touches_saveReport (fs : FileSystem) (root : Bytes) (call : ReportCall)
    (hslug : Path.IsName call.slug) :
    Touches fs root call (saveReport fs root call.slug call.text).1
      (saveReport fs root call.slug call.text).2 := by
  have hsaves := saves_saveReport fs root call.slug call.text
  have hdirectories := directoriesTo_reportDirectory root hslug
  by_cases hsaved : (saveReport fs root call.slug call.text).1 = .ok none
  · obtain ⟨made, hgrows, hwrites⟩ := hsaves.of_saved hsaved
    rw [hdirectories] at hgrows
    rw [hsaved]
    rcases hwrites.of_written with ⟨spot, hputs⟩ | ⟨hafter, place, hdevice⟩
    · exact .saved hputs.holdsAt (staysAlong_of_puts hgrows hputs)
    · rw [hafter]
      exact .left (fun _ => ⟨place, hdevice⟩) hgrows.stays
  · rcases hsaves.of_not_saved hsaved with hgrows | ⟨hanswer, made, spot, count, hgrows, hputs⟩
    · rw [hdirectories] at hgrows
      exact .left (fun h => absurd h hsaved) hgrows.stays
    · rw [hdirectories] at hgrows
      rw [hanswer]
      exact .broken hputs.holdsAt (staysAlong_of_puts hgrows hputs)

/-! ## Sequences of reports -/

/-- Every report below the root has a file of its own: no device stands in its place, and none of
the other names of the file is the place of another report. -/
structure OwnFiles (fs : FileSystem) (root : Bytes) : Prop where
  noDevice : ∀ slug entry, fs.tree.find? (reportPlace fs root slug) = some entry →
    entry.isDevice = false
  apart : ∀ slug other, other ≠ slug →
    reportPlace fs root other ∉ fs.otherNames (reportPlace fs root slug)

/-- What a sequence of calls has come to. -/
structure Reports where
  /-- The files. -/
  files : FileSystem
  /-- The text that was saved last for a slug, if any was. -/
  saved : Bytes → Option Bytes := fun _ => none
  /-- The text for a slug that was being written when this broke off, if no text has been saved for
  the slug since. -/
  broken : Bytes → Option Bytes := fun _ => none

namespace Reports

/-- A call. Only a report that is saved counts as such. -/
def save (root : Bytes) (r : Reports) (call : ReportCall) : Reports :=
  match saveReport r.files root call.slug call.text with
  | (.ok none, files) =>
    { files, saved := Function.update r.saved call.slug (some call.text),
      broken := Function.update r.broken call.slug none }
  | (.ok (some (.notWritten _)), files) =>
    { r with files, broken := Function.update r.broken call.slug (some call.text) }
  | (_, files) => { r with files }

/-- The calls one after another. -/
def saveAll (root : Bytes) (r : Reports) (calls : List ReportCall) : Reports :=
  calls.foldl (save root) r

/-- What the report of a slug is to be: the text that was saved last, or if writing has broken off
since, the beginning of what was being written. -/
def Expects (r : Reports) (slug content : Bytes) : Prop :=
  match r.broken slug with
  | none => r.saved slug = some content
  | some text => content <+: text

variable {fs : FileSystem} {root : Bytes} {r r' : Reports} {call : ReportCall}

theorem files_save (root : Bytes) (r : Reports) (call : ReportCall) :
    (r.save root call).files = (saveReport r.files root call.slug call.text).2 := by
  rw [save]
  rcases saveReport r.files root call.slug call.text with ⟨e | (_ | fault), files⟩
  · rfl
  · rfl
  · cases fault <;> rfl

theorem save_of_saved {files files' : FileSystem} {slug text : Bytes}
    {saved broken : Bytes → Option Bytes}
    (h : saveReport files root slug text = (.ok none, files')) :
    save root { files, saved, broken } { slug, text } =
      { files := files', saved := Function.update saved slug (some text),
        broken := Function.update broken slug none } := by
  rw [save, h]

theorem save_of_broken {files files' : FileSystem} {slug text file : Bytes}
    {saved broken : Bytes → Option Bytes}
    (h : saveReport files root slug text = (.ok (some (.notWritten file)), files')) :
    save root { files, saved, broken } { slug, text } =
      { files := files', saved, broken := Function.update broken slug (some text) } := by
  rw [save, h]

theorem saveAll_cons (root : Bytes) (r : Reports) (call : ReportCall) (calls : List ReportCall) :
    r.saveAll root (call :: calls) = (r.save root call).saveAll root calls := rfl

/-- All reports that have been written are in their places, which are no places of devices. -/
structure Intact (fs : FileSystem) (root : Bytes) (r : Reports) : Prop where
  noLinks : r.files.tree.NoLinks
  workingDirectory : r.files.workingDirectory = fs.workingDirectory
  otherNames : r.files.otherNames = fs.otherNames
  noDevice : ∀ slug entry, r.files.tree.find? (reportPlace fs root slug) = some entry →
    entry.isDevice = false
  inPlace : ∀ slug, r.saved slug ≠ none ∨ r.broken slug ≠ none →
    ∃ content, r.Expects slug content ∧
      r.files.HoldsAt (reportPath root slug) content (reportPlace fs root slug)

/-- A call that writes nothing changes nothing for the reports. -/
theorem Intact.of_grows (h : r.Intact fs root) (hgrows : r.files.Grows r'.files)
    (hsaved : r'.saved = r.saved) (hbroken : r'.broken = r.broken) : r'.Intact fs root := by
  refine ⟨hgrows.noLinks h.noLinks, hgrows.workingDirectory.trans h.workingDirectory,
    hgrows.otherNames.trans h.otherNames, fun slug entry hentry => ?_, fun slug hslug => ?_⟩
  · rcases hgrows.find? (reportPlace fs root slug) with hsame | ⟨-, hnew⟩
    · exact h.noDevice slug entry (hsame.symm.trans hentry)
    · obtain rfl := Option.some.inj (hnew.symm.trans hentry)
      rfl
  · rw [hsaved, hbroken] at hslug
    obtain ⟨content, hexpects, hholds⟩ := h.inPlace slug hslug
    rw [Expects, ← hsaved, ← hbroken] at hexpects
    exact ⟨content, hexpects, hholds.grows hgrows⟩

/-- A call that writes a report, or the beginning of it, changes nothing for the reports of other
slugs. -/
theorem Intact.of_puts {spot : Spot} {content : Bytes} (h : r.Intact fs root)
    (hown : OwnFiles fs root) (hroot0 : 0 ∉ root) (hcall : IsOrdinary call.slug)
    (hputs : r.files.Puts r'.files (reportPath root call.slug) content spot)
    (hexpects : r'.Expects call.slug content)
    (hsame : ∀ slug, slug ≠ call.slug →
      r'.saved slug = r.saved slug ∧ r'.broken slug = r.broken slug) : r'.Intact fs root := by
  have hplace : spot.place = reportPlace fs root call.slug := by
    rw [place_of_reportPath h.noLinks hroot0 hcall hputs.lookUp,
      reportPlace_congr h.workingDirectory]
  refine ⟨hputs.noLinks h.noLinks, hputs.workingDirectory.trans h.workingDirectory,
    hputs.otherNames.trans h.otherNames, fun slug entry hentry => ?_, fun slug hslug => ?_⟩
  · rw [hputs.find?] at hentry
    split at hentry
    · obtain rfl := Option.some.inj hentry
      rfl
    · exact h.noDevice slug entry hentry
  · by_cases hne : slug = call.slug
    · subst hne
      exact ⟨content, hexpects, hplace ▸ hputs.holdsAt⟩
    · obtain ⟨hsaved, hbroken⟩ := hsame slug hne
      rw [hsaved, hbroken] at hslug
      obtain ⟨old, hexpects', hholds⟩ := h.inPlace slug hslug
      rw [Expects, ← hsaved, ← hbroken] at hexpects'
      refine ⟨old, hexpects', hholds.puts hputs ?_ ?_⟩
      · rw [hplace]
        exact mt reportPlace_inj.mp hne
      · rw [hplace, h.otherNames]
        exact hown.apart call.slug slug hne

theorem Intact.save (h : r.Intact fs root) (hown : OwnFiles fs root) (hroot0 : 0 ∉ root)
    (hcall : IsOrdinary call.slug) : (r.save root call).Intact fs root := by
  have hsaves := saves_saveReport r.files root call.slug call.text
  rw [← files_save] at hsaves
  rw [Reports.save] at hsaves ⊢
  generalize saveReport r.files root call.slug call.text = result at hsaves ⊢
  obtain ⟨answer, after⟩ := result
  have hothers : ∀ (f : Bytes → Option Bytes) (value : Option Bytes) (slug : Bytes),
      slug ≠ call.slug → Function.update f call.slug value slug = f slug :=
    fun f value slug hne => Function.update_of_ne hne value f
  -- Directories are made first, whatever the answer is.
  have hmade : ∀ {made : FileSystem}, r.files.Grows made →
      ({ r with files := made } : Reports).Intact fs root :=
    fun hgrows => h.of_grows hgrows rfl rfl
  cases hsaves with
  | raised => exact h.of_grows ⟨rfl, rfl, fun _ => .inl rfl⟩ rfl rfl
  | refused _ hgrows => exact hmade hgrows.grows
  | @wrote made _ outcome _ hgrows hwrites =>
    have hintact := hmade hgrows.grows
    cases hwrites with
    | put hputs =>
      refine hintact.of_puts hown hroot0 hcall hputs ?_ fun slug hne =>
        ⟨hothers _ _ slug hne, hothers _ _ slug hne⟩
      simp [Expects, SaveFault.ofOutcome?]
    | cut hputs =>
      refine hintact.of_puts hown hroot0 hcall hputs ?_ fun slug hne => ⟨rfl, hothers _ _ slug hne⟩
      simp [Expects, SaveFault.ofOutcome?, List.take_prefix]
    | device hdevice =>
      obtain ⟨entry, hlook, hdevice⟩ := hdevice
      have hplace := place_of_reportPath hintact.noLinks hroot0 hcall hlook
      rw [reportPlace_congr hintact.workingDirectory] at hplace
      have hthere := FileSystem.holds_of_lookUp hlook
      rw [hintact.noDevice call.slug entry (hplace ▸ hthere)] at hdevice
      cases hdevice
    | refused hsame => exact hmade (hgrows.sameFiles hsame).grows

theorem Intact.saveAll {calls : List ReportCall} (h : r.Intact fs root) (hown : OwnFiles fs root)
    (hroot0 : 0 ∉ root) (hcalls : ∀ call ∈ calls, IsOrdinary call.slug) :
    (r.saveAll root calls).Intact fs root := by
  induction calls generalizing r with
  | nil => exact h
  | cons call calls ih =>
    obtain ⟨hcall, hrest⟩ := List.forall_mem_cons.mp hcalls
    exact ih (h.save hown hroot0 hcall) hrest

/-- However many reports are saved below one root, and whatever becomes of them, each call touches
only its own report and the directories on the way to it. In a tree without links, in which each
report has a file of its own, the file of a slug has in the end the text as its whole content that
was saved last for it. If writing another text for the same slug has broken off since, the beginning
of that text is its content. (A root with a zero byte is no path: the system reads no further than
to the byte, and takes all reports below such a root for one file.) -/
theorem saveAll_apart {fs : FileSystem} (hlinks : fs.tree.NoLinks) (root : Bytes)
    {calls : List ReportCall} (hcalls : ∀ call ∈ calls, IsOrdinary call.slug) :
    let start : Reports := { files := fs }
    let done := start.saveAll root calls
    (∀ front call, front ++ [call] <+: calls →
      Touches (start.saveAll root front).files root call
        (saveReport (start.saveAll root front).files root call.slug call.text).1
        (start.saveAll root (front ++ [call])).files) ∧
    (0 ∉ root → OwnFiles fs root → ∀ slug text,
      (done.saved slug = some text → done.broken slug = none →
        done.files.HoldsAt (reportPath root slug) text (reportPlace fs root slug)) ∧
      (done.broken slug = some text → ∃ content, content <+: text ∧
        done.files.HoldsAt (reportPath root slug) content (reportPlace fs root slug))) := by
  intro start done
  refine ⟨fun front call hfront => ?_, fun hroot0 hown slug text => ?_⟩
  · have hcall : call ∈ calls := hfront.subset (by simp)
    have hfiles : (start.saveAll root (front ++ [call])).files =
        (saveReport (start.saveAll root front).files root call.slug call.text).2 := by
      rw [saveAll, List.foldl_append]
      exact files_save root _ call
    rw [hfiles]
    exact touches_saveReport _ root call (hcalls call hcall).1
  · have hstart : start.Intact fs root :=
      ⟨hlinks, rfl, rfl, hown.noDevice, fun _ h => h.elim (absurd rfl) (absurd rfl)⟩
    have hinPlace := (hstart.saveAll hown hroot0 hcalls).inPlace slug
    refine ⟨fun hsaved hbroken => ?_, fun hbroken => ?_⟩
    · obtain ⟨content, hexpects, hholds⟩ := hinPlace (.inl (hsaved ▸ Option.some_ne_none text))
      rw [Expects, hbroken] at hexpects
      obtain rfl := Option.some.inj (hsaved.symm.trans hexpects)
      exact hholds
    · obtain ⟨content, hexpects, hholds⟩ := hinPlace (.inr (hbroken ▸ Option.some_ne_none text))
      rw [Expects, hbroken] at hexpects
      exact ⟨content, hexpects, hholds⟩

/-- Two reports that are saved by turns, the first of them over a longer text. The disk is full when
the second of them is to be written once more. -/
theorem saveAll_apart_by_turns :
    let fs : FileSystem := {
      tree := ((Tree.empty.put [ascii "r"] .directory).put [ascii "r", ascii "a"] .directory).put
        [ascii "r", ascii "a", reportName] (.file (ascii "old and longer"))
      workingDirectory := []
      fates := [.done, .done, .done, .done, .cut 1] }
    let calls : List ReportCall := [
      { slug := ascii "a", text := ascii "1" }, { slug := ascii "b", text := ascii "2" },
      { slug := ascii "a", text := ascii "3" }, { slug := ascii "b", text := ascii "45" }]
    let done := saveAll (ascii "r") { files := fs } calls
    fs.tree.NoLinks ∧ (∀ call ∈ calls, IsOrdinary call.slug) ∧ OwnFiles fs (ascii "r") ∧
      done.files.HoldsAt (reportPath (ascii "r") (ascii "a")) (ascii "3")
        (reportPlace fs (ascii "r") (ascii "a")) ∧
      ∃ content, content <+: ascii "45" ∧
        done.files.HoldsAt (reportPath (ascii "r") (ascii "b")) content
          (reportPlace fs (ascii "r") (ascii "b")) := by
  intro fs calls
  have hlinks : fs.tree.NoLinks :=
    ((Tree.noLinks_empty.put _ fun _ => Entry.noConfusion).put _ fun _ => Entry.noConfusion).put _
      fun _ => Entry.noConfusion
  have hcalls : ∀ call ∈ calls, IsOrdinary call.slug := by
    simp only [calls, List.forall_mem_cons]
    decide
  have hown : OwnFiles fs (ascii "r") := by
    refine ⟨fun slug entry hentry => ?_, fun _ _ _ => List.not_mem_nil⟩
    have hplace : reportPlace fs (ascii "r") slug ≠ [] :=
      List.append_ne_nil_of_right_ne_nil _ (List.cons_ne_nil _ _)
    simp only [fs, Tree.find?_put _ _ hplace, Tree.find?_empty hplace] at hentry
    split_ifs at hentry
    all_goals
      obtain rfl := Option.some.inj hentry
      rfl
  let written (fs : FileSystem) (slug text : Bytes) : FileSystem :=
    fs.goOn.put [ascii "r", slug, reportName] (.file text)
  let first := written fs (ascii "a") (ascii "1")
  let second := written (first.goOn.put [ascii "r", ascii "b"] .directory) (ascii "b") (ascii "2")
  let third := written second (ascii "a") (ascii "3")
  let fourth := written third (ascii "b") (ascii "4")
  have hfirst : saveReport fs (ascii "r") (ascii "a") (ascii "1") = (.ok none, first) := by cbv
  have hsecond : saveReport first (ascii "r") (ascii "b") (ascii "2") = (.ok none, second) := by cbv
  have hthird : saveReport second (ascii "r") (ascii "a") (ascii "3") = (.ok none, third) := by cbv
  have hfourth : saveReport third (ascii "r") (ascii "b") (ascii "45") =
      (.ok (some (.notWritten (ascii "r/b/run.json"))), fourth) := by cbv
  have hdone : (saveAll (ascii "r") { files := fs } calls).saved (ascii "a") = some (ascii "3") ∧
      (saveAll (ascii "r") { files := fs } calls).broken (ascii "a") = none ∧
      (saveAll (ascii "r") { files := fs } calls).broken (ascii "b") = some (ascii "45") := by
    rw [saveAll_cons, save_of_saved hfirst, saveAll_cons, save_of_saved hsecond, saveAll_cons,
      save_of_saved hthird, saveAll_cons, save_of_broken hfourth]
    simp [saveAll, Function.update_of_ne (show ascii "a" ≠ ascii "b" by decide)]
  obtain ⟨hsaved, hwhole, hbroken⟩ := hdone
  obtain ⟨-, hreports⟩ := saveAll_apart hlinks (ascii "r") hcalls
  have hfirst := (hreports (by decide) hown (ascii "a") (ascii "3")).1 hsaved hwhole
  have hsecond := (hreports (by decide) hown (ascii "b") (ascii "45")).2 hbroken
  exact ⟨hlinks, hcalls, hown, hfirst, hsecond⟩

/-! ## Reports that are lost -/

/-- In a tree without links, the report of an ordinary slug does not hold in the end what was saved
last for the slug. -/
structure Loses (fs : FileSystem) (root : Bytes) (calls : List ReportCall) (slug : Bytes) :
    Prop where
  noLinks : fs.tree.NoLinks
  ordinary : ∀ call ∈ calls, IsOrdinary call.slug
  lost : ∃ text content, (saveAll root { files := fs } calls).saved slug = some text ∧
    (saveAll root { files := fs } calls).files.openFile (reportPath root slug) =
      .ok (.content content) ∧ content ≠ text

/-- A text counts as saved for its slug until another is saved for it. -/
theorem saveAll_of_two {fs first second : FileSystem} {root slug slug' text text' : Bytes}
    (hfirst : saveReport fs root slug text = (.ok none, first))
    (hsecond : slug ≠ slug' ∧ saveReport first root slug' text' = (.ok none, second) ∨
      ∃ file, saveReport first root slug' text' = (.ok (some (.notWritten file)), second)) :
    (saveAll root { files := fs } [{ slug, text }, { slug := slug', text := text' }]).saved slug =
        some text ∧
      (saveAll root { files := fs } [{ slug, text }, { slug := slug', text := text' }]).files =
        second := by
  rw [saveAll_cons, save_of_saved hfirst, saveAll_cons]
  rcases hsecond with ⟨hother, hsecond⟩ | ⟨file, hsecond⟩
  · rw [save_of_saved hsecond]
    refine ⟨?_, rfl⟩
    show Function.update (Function.update (fun _ => none) slug (some text)) slug' (some text')
      slug = some text
    rw [Function.update_of_ne hother, Function.update_self]
  · rw [save_of_broken hsecond]
    refine ⟨?_, rfl⟩
    show Function.update (fun _ => none) slug (some text) slug = some text
    rw [Function.update_self]

/-- A directory for one report, a text of which is cut after a byte when it is written again. -/
def cutShort : FileSystem where
  tree := (Tree.empty.put [ascii "r"] .directory).put [ascii "r", ascii "a"] .directory
  workingDirectory := []
  fates := [.done, .cut 1]

/-- One file that is the report of two slugs. -/
def twoNames (content : Bytes) : FileSystem where
  tree := ((((Tree.empty.put [ascii "r"] .directory).put [ascii "r", ascii "a"] .directory).put
    [ascii "r", ascii "b"] .directory).put [ascii "r", ascii "a", reportName] (.file content)).put
      [ascii "r", ascii "b", reportName] (.file content)
  workingDirectory := []
  otherNames place :=
    if place = [ascii "r", ascii "a", reportName] then [[ascii "r", ascii "b", reportName]]
    else if place = [ascii "r", ascii "b", reportName] then [[ascii "r", ascii "a", reportName]]
    else []

/-- There are three ways to lose the text that was saved last for a slug, which is the text `1`
here. A root with a zero byte is the file `f` for the system, whatever the slug. Writing the text
`23` for the same slug breaks off. And the reports of two slugs are one file. -/
theorem saveAll_loses :
    let calls : List ReportCall :=
      [{ slug := ascii "a", text := ascii "1" }, { slug := ascii "b", text := ascii "2" }]
    let again : List ReportCall :=
      [{ slug := ascii "a", text := ascii "1" }, { slug := ascii "a", text := ascii "23" }]
    let fs : FileSystem :=
      { tree := Tree.empty.put [ascii "f"] (.file (ascii "x")), workingDirectory := [] }
    Loses fs (ascii "f" ++ [0]) calls (ascii "a") ∧
      Loses cutShort (ascii "r") again (ascii "a") ∧
      Loses (twoNames []) (ascii "r") calls (ascii "a") := by
  intro calls again fs
  have hcalls : ∀ call ∈ calls, IsOrdinary call.slug := by
    simp only [calls, List.forall_mem_cons]
    decide
  have hagain : ∀ call ∈ again, IsOrdinary call.slug := by
    simp only [again, List.forall_mem_cons]
    decide
  have hput : ∀ {t : Tree} (place : Place) (content : Bytes), t.NoLinks →
      (t.put place (.file content)).NoLinks :=
    fun place _ h => h.put place fun _ => Entry.noConfusion
  have hmade : ∀ {t : Tree} (place : Place), t.NoLinks →
      (t.put place .directory).NoLinks := fun place h => h.put place fun _ => Entry.noConfusion
  have hroot := hmade [ascii "r", ascii "a"] (hmade [ascii "r"] Tree.noLinks_empty)
  refine ⟨⟨hput _ _ Tree.noLinks_empty, hcalls, ?_⟩, ⟨hroot, hagain, ?_⟩,
    ⟨hput _ _ (hput _ _ (hmade _ hroot)), hcalls, ?_⟩⟩
  · let first := fs.putFile [ascii "f"] (ascii "1")
    let second := first.putFile [ascii "f"] (ascii "2")
    have hfirst : saveReport fs (ascii "f" ++ [0]) (ascii "a") (ascii "1") = (.ok none, first) := by
      cbv
    have hsecond : saveReport first (ascii "f" ++ [0]) (ascii "b") (ascii "2") =
        (.ok none, second) := by cbv
    have hopen : second.openFile (reportPath (ascii "f" ++ [0]) (ascii "a")) =
        .ok (.content (ascii "2")) := by cbv
    obtain ⟨hsaved, hfiles⟩ := saveAll_of_two hfirst (.inl ⟨by decide, hsecond⟩)
    exact ⟨_, _, hsaved, hfiles ▸ hopen, by decide⟩
  · let first := cutShort.goOn.putFile [ascii "r", ascii "a", reportName] (ascii "1")
    let second := first.goOn.putFile [ascii "r", ascii "a", reportName] (ascii "2")
    have hfirst : saveReport cutShort (ascii "r") (ascii "a") (ascii "1") = (.ok none, first) := by
      cbv
    have hsecond : saveReport first (ascii "r") (ascii "a") (ascii "23") =
        (.ok (some (.notWritten (reportPath (ascii "r") (ascii "a")))), second) := by cbv
    have hopen : second.openFile (reportPath (ascii "r") (ascii "a")) =
        .ok (.content (ascii "2")) := by cbv
    obtain ⟨hsaved, hfiles⟩ := saveAll_of_two hfirst (.inr ⟨_, hsecond⟩)
    exact ⟨_, _, hsaved, hfiles ▸ hopen, by decide⟩
  · have hfirst : saveReport (twoNames []) (ascii "r") (ascii "a") (ascii "1") =
        (.ok none, twoNames (ascii "1")) := by cbv
    have hsecond : saveReport (twoNames (ascii "1")) (ascii "r") (ascii "b") (ascii "2") =
        (.ok none, twoNames (ascii "2")) := by cbv
    have hopen : (twoNames (ascii "2")).openFile (reportPath (ascii "r") (ascii "a")) =
        .ok (.content (ascii "2")) := by cbv
    obtain ⟨hsaved, hfiles⟩ := saveAll_of_two hfirst (.inl ⟨by decide, hsecond⟩)
    exact ⟨_, _, hsaved, hfiles ▸ hopen, by decide⟩

end Reports

end TextLines

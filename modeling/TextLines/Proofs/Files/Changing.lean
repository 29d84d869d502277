import TextLines.Files.Change
import TextLines.Proofs.Files.Walking

/-!
# What changes in a file system

Making directories only adds to a file system: whatever stood somewhere still stands there, and what
is new are directories (`FileSystem.Grows`) to which the paths that they are made for lead
(`FileSystem.GrowsAlong`). Writing changes one file, which has the whole content afterwards, or the
beginning of it if the write has broken off (`FileSystem.writes_writeFile`). Neither takes away a
directory or a link, so a path goes on leading to what stays there (`FileSystem.lookUp_keep`), and
it leads to what has been put where it led to nothing or to a file (`FileSystem.lookUp_put`).
-/

namespace TextLines.Files

open Bytes

/-- Whether the entry is a device. Devices take what is written, and do not keep it. -/
def Entry.isDevice : Entry → Bool
  | .nullDevice => true
  | .zeroDevice => true
  | .fullDevice => true
  | _ => false

/-- The place a spot is about. -/
def Spot.place : Spot → Place
  | .found place _ => place
  | .vacant directory name => directory ++ [name]

/-- The directories that are made for a path. A slash at the end is left out of account. -/
def Path.directoriesTo (path : Bytes) : List Bytes :=
  upwards (if (fileName path).isEmpty then parent path else path)

namespace FileSystem

variable {fs fs' fs'' : FileSystem} {path content : Bytes} {paths : List Bytes} {place : Place}
  {entry : Entry} {spot : Spot}

/-! ## What stays -/

/-- What stands at other places than the one that has been written stays. -/
theorem find?_put_of_ne {place other : Place} (fs : FileSystem) (entry : Entry)
    (h : other ≠ place) : (fs.put place entry).tree.find? other = fs.tree.find? other := by
  by_cases hother : other = []
  · rw [hother]
    rfl
  · rw [put, Tree.find?_put fs.tree entry hother, if_neg h]

theorem find?_put_self (fs : FileSystem) (directory : Place) (name : Bytes) :
    (fs.put (directory ++ [name]) entry).tree.find? (directory ++ [name]) = some entry := by
  rw [put, Tree.find?_put fs.tree entry (List.append_ne_nil_of_right_ne_nil _
    (List.cons_ne_nil _ _)), if_pos rfl]

theorem keeps_put {place : Place}
    (hfree : ∀ entry, fs.tree.find? place = some entry → ∃ old, entry = .file old) (entry : Entry) :
    fs.tree.Keeps (fs.put place entry).tree := by
  have hkept : ∀ {spare : Place} {other : Entry}, fs.tree.find? spare = some other →
      (∀ old, other ≠ .file old) → (fs.put place entry).tree.find? spare = some other := by
    intro spare other hentry hother
    have hne : spare ≠ place := by
      rintro rfl
      obtain ⟨old, hold⟩ := hfree other hentry
      exact hother old hold
    rw [find?_put_of_ne fs entry hne, hentry]
  exact ⟨fun _ h => hkept h fun _ => Entry.noConfusion,
    fun _ _ h => hkept h fun _ => Entry.noConfusion⟩

/-- A path that leads to something leads there as long as it stays with the directories and
links. -/
theorem lookUp_keep (hworking : fs'.workingDirectory = fs.workingDirectory)
    (hkeeps : fs.tree.Keeps fs'.tree) (hentry : fs'.tree.find? place = some entry)
    (h : fs.lookUp path true = .ok (.found place entry)) :
    fs'.lookUp path true = .ok (.found place entry) := by
  have hstart : ∀ path, fs'.startOf path = fs.startOf path := fun path => by
    rw [startOf, startOf, hworking]
  rw [← lookUp_untilNul, lookUp_eq_ok_iff (Path.zero_notMem_untilNul path)] at h ⊢
  obtain ⟨hne, hshort, habove, hwalks⟩ := h
  rw [hstart]
  exact ⟨hne, hshort, fun front hfront => hkeeps.directory _ (habove front hfront),
    hwalks.keep hkeeps hentry⟩

/-! ## What is put -/

/-- A single step leads to what stands at its end, if that is not a link. -/
theorem walks_name {t : Tree} {links : Nat} {name : Bytes} (hname : Path.isDots name = false)
    (hshort : name.length ≤ maxNameLength) (hentry : t.find? (place ++ [name]) = some entry)
    (hlink : ∀ target, entry ≠ .link target) :
    t.Walks links place [name] (.found (place ++ [name]) entry) := by
  by_cases hdirectory : entry = .directory
  · rw [hdirectory] at hentry ⊢
    exact .down hname hshort hentry .arrived
  · exact .stopped hname hshort hentry hdirectory hlink

/-- A walk that led to nothing or to a file leads to what is there as soon as something is. -/
theorem walks_put {links : Nat} {start : Place} {names : List Bytes}
    (h : fs.tree.Walks links start names spot) (hholds : spot.Holds fs.tree)
    (hfree : ∀ old, fs.tree.find? spot.place = some old → ∃ content, old = .file content)
    (hkeeps : fs.tree.Keeps fs'.tree) (hput : fs'.tree.find? spot.place = some entry)
    (hlink : ∀ target, entry ≠ .link target) :
    fs'.tree.Walks links start names (.found spot.place entry) := by
  induction h with
  | arrived =>
    obtain ⟨content, hfile⟩ := hfree .directory hholds
    cases hfile
  | here _ ih => exact .here (ih hholds hfree hput)
  | up _ ih => exact .up (ih hholds hfree hput)
  | down hname hshort hentry _ ih =>
    exact .down hname hshort (hkeeps.directory _ hentry) (ih hholds hfree hput)
  | link hname hshort hentry _ ih =>
    exact .link hname hshort (hkeeps.link _ _ hentry) (ih hholds hfree hput)
  | vacant hname hshort => exact walks_name hname hshort hput hlink
  | stopped hname hshort => exact walks_name hname hshort hput hlink

/-- A path that led to nothing or to a file leads to what is there as soon as something is. -/
theorem lookUp_put (h : fs.lookUp path true = .ok spot)
    (hfree : ∀ old, fs.tree.find? spot.place = some old → ∃ content, old = .file content)
    (hworking : fs'.workingDirectory = fs.workingDirectory) (hkeeps : fs.tree.Keeps fs'.tree)
    (hput : fs'.tree.find? spot.place = some entry) (hlink : ∀ target, entry ≠ .link target) :
    fs'.lookUp path true = .ok (.found spot.place entry) := by
  have hholds := holds_of_lookUp h
  have hstart : ∀ path, fs'.startOf path = fs.startOf path := fun path => by
    rw [startOf, startOf, hworking]
  rw [← lookUp_untilNul, lookUp_eq_ok_iff (Path.zero_notMem_untilNul path)] at h ⊢
  obtain ⟨hne, hshort, habove, hwalks⟩ := h
  rw [hstart]
  exact ⟨hne, hshort, fun front hfront => hkeeps.directory _ (habove front hfront),
    walks_put hwalks hholds hfree hkeeps hput hlink⟩

/-! ## Growing -/

/-- Nothing has changed but that there are new directories. -/
structure Grows (fs fs' : FileSystem) : Prop where
  workingDirectory : fs'.workingDirectory = fs.workingDirectory
  otherNames : fs'.otherNames = fs.otherNames
  find? : ∀ place, fs'.tree.find? place = fs.tree.find? place ∨
    (fs.tree.find? place = none ∧ fs'.tree.find? place = some .directory)

theorem Grows.keeps (h : fs.Grows fs') : fs.tree.Keeps fs'.tree where
  directory place hentry := by
    rcases h.find? place with hsame | ⟨hnone, -⟩
    · exact hsame.trans hentry
    · cases hnone.symm.trans hentry
  link place target hentry := by
    rcases h.find? place with hsame | ⟨hnone, -⟩
    · exact hsame.trans hentry
    · cases hnone.symm.trans hentry

/-- A place is as it was, or there is a directory now where nothing was, and one of the paths leads
to it. -/
def StaysAlong (fs fs' : FileSystem) (paths : List Bytes) (place : Place) : Prop :=
  fs'.tree.find? place = fs.tree.find? place ∨
    (fs.tree.find? place = none ∧
      ∃ path ∈ paths, fs'.lookUp path true = .ok (.found place .directory))

/-- Nothing has changed but that there are new directories, to which some of the paths lead. -/
structure GrowsAlong (fs fs' : FileSystem) (paths : List Bytes) : Prop where
  workingDirectory : fs'.workingDirectory = fs.workingDirectory
  otherNames : fs'.otherNames = fs.otherNames
  stays : ∀ place, fs.StaysAlong fs' paths place

theorem GrowsAlong.grows (h : fs.GrowsAlong fs' paths) : fs.Grows fs' := by
  refine ⟨h.workingDirectory, h.otherNames, fun place => ?_⟩
  rcases h.stays place with hsame | ⟨hnone, path, -, hlook⟩
  · exact .inl hsame
  · exact .inr ⟨hnone, holds_of_lookUp hlook⟩

theorem GrowsAlong.refl (fs : FileSystem) (paths : List Bytes) : fs.GrowsAlong fs paths :=
  ⟨rfl, rfl, fun _ => .inl rfl⟩

theorem GrowsAlong.mono {more : List Bytes} (h : fs.GrowsAlong fs' paths) (hmore : paths ⊆ more) :
    fs.GrowsAlong fs' more := by
  refine ⟨h.workingDirectory, h.otherNames, fun place => ?_⟩
  rcases h.stays place with hsame | ⟨hnone, path, hpath, hlook⟩
  · exact .inl hsame
  · exact .inr ⟨hnone, path, hmore hpath, hlook⟩

/-- What stays stays when directories and links are kept, and the place itself. -/
theorem StaysAlong.keep (h : fs.StaysAlong fs' paths place)
    (hworking : fs''.workingDirectory = fs'.workingDirectory) (hkeeps : fs'.tree.Keeps fs''.tree)
    (hsame : fs''.tree.find? place = fs'.tree.find? place) : fs.StaysAlong fs'' paths place := by
  rcases h with hfirst | ⟨hnone, path, hpath, hlook⟩
  · exact .inl (hsame.trans hfirst)
  · exact .inr ⟨hnone, path, hpath,
      lookUp_keep hworking hkeeps (hkeeps.directory _ (holds_of_lookUp hlook)) hlook⟩

theorem GrowsAlong.trans (h : fs.GrowsAlong fs' paths) (h' : fs'.GrowsAlong fs'' paths) :
    fs.GrowsAlong fs'' paths := by
  refine ⟨h'.workingDirectory.trans h.workingDirectory, h'.otherNames.trans h.otherNames,
    fun place => ?_⟩
  rcases h'.stays place with hsame | ⟨hnone, hmade⟩
  · exact (h.stays place).keep h'.workingDirectory h'.grows.keeps hsame
  · rcases h.stays place with hsame | ⟨-, path, -, hlook⟩
    · exact .inr ⟨hsame ▸ hnone, hmade⟩
    · have hthere : fs'.tree.find? place = some .directory := holds_of_lookUp hlook
      cases hnone.symm.trans hthere

theorem makeDirectory_grows (fs : FileSystem) (path : Bytes) :
    fs.GrowsAlong (fs.makeDirectory path).2 [path] := by
  rw [makeDirectory]
  rcases hlook : fs.lookUp path false with e | (_ | ⟨directory, name⟩)
  · exact .refl fs _
  · exact .refl fs _
  · have hvacant := holds_of_lookUp hlook
    dsimp only
    cases fs.nextFate with
    | refused => exact ⟨rfl, rfl, fun _ => .inl rfl⟩
    | cut count => exact ⟨rfl, rfl, fun _ => .inl rfl⟩
    | done =>
      refine ⟨rfl, rfl, fun place => ?_⟩
      by_cases hplace : place = directory ++ [name]
      · have hfree : ∀ old, fs.tree.find? (directory ++ [name]) = some old →
            ∃ content, old = .file content := fun old hold => by cases hvacant.2.symm.trans hold
        refine .inr ⟨hplace ▸ hvacant.2, path, List.mem_singleton_self path, ?_⟩
        rw [hplace]
        exact lookUp_put (lookUp_vacant hlook) hfree rfl (keeps_put hfree .directory)
          (find?_put_self fs.goOn _ _) fun _ => Entry.noConfusion
      · exact .inl (find?_put_of_ne fs.goOn .directory hplace)

theorem makeEach_grows (fs : FileSystem) (paths : List Bytes) :
    fs.GrowsAlong (fs.makeEach paths).2 paths := by
  induction paths generalizing fs with
  | nil => exact .refl fs _
  | cons path paths ih =>
    have hstep := (fs.makeDirectory_grows path).mono
      (List.cons_subset_cons path (List.nil_subset paths))
    rw [makeEach]
    rcases hmake : fs.makeDirectory path with ⟨_ | _, fs'⟩
    · rw [hmake] at hstep
      exact hstep
    · rw [hmake] at hstep
      exact hstep.trans ((ih fs').mono (List.subset_cons_self path paths))

/-- Only directories on the way are found to be missing. -/
theorem mem_of_missing {above found missed : List Bytes}
    (h : fs.missing above found = some missed) : ∀ path ∈ missed, path ∈ above ∨ path ∈ found := by
  induction above generalizing found with
  | nil =>
    obtain rfl := Option.some.inj h
    exact fun path hpath => .inr hpath
  | cons first above ih =>
    have hfound : ∀ path ∈ (if Path.isDots (Path.fileName first) then found else first :: found),
        path ∈ first :: above ∨ path ∈ found := by
      intro path hpath
      split at hpath
      · exact .inr hpath
      · rcases List.mem_cons.mp hpath with rfl | hpath
        · exact .inl List.mem_cons_self
        · exact .inr hpath
    rw [missing] at h
    generalize (if Path.isDots (Path.fileName first) then found else first :: found) = next
      at h hfound
    split at h
    · cases h
    · split at h
      · exact Option.some.inj h ▸ hfound
      · split at h
        · intro path hpath
          exact (ih h path hpath).elim (fun habove => .inl (List.mem_cons_of_mem _ habove))
            (hfound path)
        · split at h
          · exact Option.some.inj h ▸ hfound
          · cases h
        · exact Option.some.inj h ▸ hfound

theorem makeDirectories_grows (fs : FileSystem) (path : Bytes) :
    fs.GrowsAlong (fs.makeDirectories path).2 (Path.directoriesTo path) := by
  rw [makeDirectories]
  rcases hmissing : fs.missing (Path.directoriesTo path) [] with _ | missed
  · rw [Path.directoriesTo] at hmissing
    rw [hmissing]
    exact .refl fs _
  · have hmem := mem_of_missing hmissing
    rw [Path.directoriesTo] at hmissing
    rw [hmissing]
    exact (fs.makeEach_grows missed).mono fun path hpath =>
      (hmem path hpath).resolve_right List.not_mem_nil

theorem makeParents_grows (fs : FileSystem) (path : Bytes) :
    fs.GrowsAlong (fs.makeParents path).2 (Path.directoriesTo (Path.parent path)) := by
  unfold makeParents
  dsimp only
  split
  · exact .refl fs _
  · split
    · exact .refl fs _
    · exact fs.makeDirectories_grows _
    · exact .refl fs _

/-! ## Writing -/

/-- Nothing has changed but what is to become of further changes. -/
def SameFiles (fs fs' : FileSystem) : Prop :=
  ∃ fates, fs' = { fs with fates }

theorem GrowsAlong.sameFiles (h : fs.GrowsAlong fs' paths) (hsame : fs'.SameFiles fs'') :
    fs.GrowsAlong fs'' paths := by
  obtain ⟨fates, rfl⟩ := hsame
  exact ⟨h.workingDirectory, h.otherNames, h.stays⟩

/-- The path leads to a file at the place, with the content. -/
def HoldsAt (fs : FileSystem) (path content : Bytes) (place : Place) : Prop :=
  fs.lookUp path true = .ok (.found place (.file content))

/-- The path leads to a device at the place. -/
def DeviceAt (fs : FileSystem) (path : Bytes) (place : Place) : Prop :=
  ∃ entry, fs.lookUp path true = .ok (.found place entry) ∧ entry.isDevice = true

theorem HoldsAt.grows (h : fs.HoldsAt path content place) (hgrows : fs.Grows fs') :
    fs'.HoldsAt path content place := by
  have hthere : fs.tree.find? place = some (.file content) := holds_of_lookUp h
  refine lookUp_keep hgrows.workingDirectory hgrows.keeps ?_ h
  rcases hgrows.find? place with hsame | ⟨hnone, -⟩
  · exact hsame.trans hthere
  · cases hnone.symm.trans hthere

/-- The content has been put into the file that the path leads to, or into a new one. -/
structure Puts (fs fs' : FileSystem) (path content : Bytes) (spot : Spot) : Prop where
  lookUp : fs.lookUp path true = .ok spot
  free : ∀ entry, fs.tree.find? spot.place = some entry → ∃ old, entry = .file old
  after : fs' = fs.goOn.putFile spot.place content

theorem find?_putAll (fs : FileSystem) {places : List Place} (entry : Entry)
    (hplaces : [] ∉ places) (other : Place) :
    (fs.putAll places entry).tree.find? other =
      if other ∈ places then some entry else fs.tree.find? other := by
  induction places generalizing fs with
  | nil => rfl
  | cons place rest ih =>
    obtain ⟨hplace, hrest⟩ := not_or.mp (mt List.mem_cons.mpr hplaces)
    rw [putAll, List.foldl_cons, ← putAll, ih _ hrest]
    by_cases hother : other = []
    · rw [hother, if_neg hrest, if_neg hplaces]
      rfl
    · rw [put, Tree.find?_put fs.tree entry hother]
      by_cases hsame : other = place <;> simp [hsame]

theorem putAll_eq (fs : FileSystem) (places : List Place) (entry : Entry) :
    fs.putAll places entry = { fs with tree := (fs.putAll places entry).tree } := by
  induction places generalizing fs with
  | nil => rfl
  | cons place rest ih => exact ih (fs.put place entry)

namespace Puts

/-- What is put into a file is seen under its names, and nowhere else. -/
theorem find? (h : fs.Puts fs' path content spot) (other : Place) :
    fs'.tree.find? other =
      if other = spot.place ∨ other ∈ fs.otherNames spot.place ∧ fs.hasFile other = true then
        some (.file content)
      else fs.tree.find? other := by
  have hnames : [] ∉ spot.place :: (fs.otherNames spot.place).filter fs.hasFile := by
    rw [List.mem_cons, List.mem_filter, not_or]
    refine ⟨fun hroot => ?_, fun hroot => ?_⟩
    · obtain ⟨old, hold⟩ := h.free .directory (hroot ▸ Tree.find?_nil fs.tree)
      cases hold
    · cases hroot.2
  have hput := fs.goOn.find?_putAll (.file content) hnames other
  simp only [List.mem_cons, List.mem_filter] at hput
  rw [h.after]
  exact hput

theorem workingDirectory (h : fs.Puts fs' path content spot) :
    fs'.workingDirectory = fs.workingDirectory := by
  rw [h.after, putFile, putAll_eq]
  rfl

theorem otherNames (h : fs.Puts fs' path content spot) : fs'.otherNames = fs.otherNames := by
  rw [h.after, putFile, putAll_eq]
  rfl

/-- What is no file stays, and so does every other file. -/
theorem others (h : fs.Puts fs' path content spot) {other : Place} (hother : other ≠ spot.place)
    (hnames : other ∉ fs.otherNames spot.place) :
    fs'.tree.find? other = fs.tree.find? other := by
  rw [h.find?, if_neg fun hplace => hplace.elim hother fun hname => hnames hname.1]

theorem keeps (h : fs.Puts fs' path content spot) : fs.tree.Keeps fs'.tree := by
  have hkept : ∀ {other : Place} {entry : Entry}, fs.tree.find? other = some entry →
      (∀ old, entry ≠ .file old) → fs'.tree.find? other = some entry := by
    intro other entry hentry hnofile
    rw [h.find?, if_neg ?_, hentry]
    rintro (rfl | ⟨-, hfile⟩)
    · obtain ⟨old, hold⟩ := h.free entry hentry
      exact hnofile old hold
    · rw [hasFile, hentry] at hfile
      cases entry with
      | file old => exact hnofile old rfl
      | _ => cases hfile
  exact ⟨fun _ h => hkept h fun _ => Entry.noConfusion,
    fun _ _ h => hkept h fun _ => Entry.noConfusion⟩

theorem holdsAt (h : fs.Puts fs' path content spot) : fs'.HoldsAt path content spot.place :=
  lookUp_put h.lookUp h.free h.workingDirectory h.keeps (by rw [h.find?, if_pos (.inl rfl)])
    fun _ => Entry.noConfusion

end Puts

/-- What is put into another file does not change this one. -/
theorem HoldsAt.puts {other otherContent : Bytes} (h : fs.HoldsAt path content place)
    (hputs : fs.Puts fs' other otherContent spot) (hplace : place ≠ spot.place)
    (hnames : place ∉ fs.otherNames spot.place) : fs'.HoldsAt path content place := by
  have hthere : fs.tree.find? place = some (.file content) := holds_of_lookUp h
  exact lookUp_keep hputs.workingDirectory hputs.keeps ((hputs.others hplace hnames).trans hthere) h

/-- What writing a file does: it puts the content where the path leads, or only the beginning of it.
A device stays as it is. If the path is not opened nothing is changed. -/
inductive Writes (fs fs' : FileSystem) (path content : Bytes) : WriteOutcome → Prop where
  | put {spot : Spot} (h : fs.Puts fs' path content spot) : Writes fs fs' path content .written
  | cut {spot : Spot} {count : Nat} (h : fs.Puts fs' path (content.take count) spot) :
      Writes fs fs' path content .notWritten
  | device {place : Place} {outcome : WriteOutcome} (h : fs.DeviceAt path place)
      (hopened : outcome ≠ .notOpened) (hafter : fs' = fs) : Writes fs fs' path content outcome
  | refused (hsame : fs.SameFiles fs') : Writes fs fs' path content .notOpened

theorem writes_writeAt (hlook : fs.lookUp path true = .ok spot)
    (hfree : ∀ entry, fs.tree.find? spot.place = some entry → ∃ old, entry = .file old) :
    fs.Writes (fs.writeAt spot.place content).2 path content (fs.writeAt spot.place content).1 := by
  rw [writeAt]
  cases fs.nextFate with
  | done => exact .put ⟨hlook, hfree, rfl⟩
  | refused => exact .refused ⟨_, rfl⟩
  | cut count => exact .cut ⟨hlook, hfree, rfl⟩

theorem writes_writeFile (fs : FileSystem) (path content : Bytes) :
    fs.Writes (fs.writeFile path content).2 path content (fs.writeFile path content).1 := by
  unfold writeFile
  rcases hlook : fs.lookUp path true with e | (⟨place, entry⟩ | ⟨directory, name⟩)
  · exact .refused ⟨_, rfl⟩
  · have hthere : fs.tree.find? place = some entry := holds_of_lookUp hlook
    cases entry with
    | file old =>
      refine writes_writeAt hlook fun entry hentry => ⟨old, ?_⟩
      exact (Option.some.inj (hthere.symm.trans hentry)).symm
    | nullDevice => exact .device ⟨_, hlook, rfl⟩ WriteOutcome.noConfusion rfl
    | zeroDevice => exact .device ⟨_, hlook, rfl⟩ WriteOutcome.noConfusion rfl
    | fullDevice =>
      refine .device ⟨_, hlook, rfl⟩ ?_ rfl
      dsimp only
      split <;> exact WriteOutcome.noConfusion
    | _ => exact .refused ⟨_, rfl⟩
  · have hfree := holds_of_lookUp hlook
    exact writes_writeAt hlook fun entry hentry => by cases hfree.2.symm.trans hentry

namespace Writes

variable {outcome : WriteOutcome}

/-- Writing a file takes away no directory and no link. -/
theorem keeps (h : fs.Writes fs' path content outcome) :
    fs.tree.Keeps fs'.tree ∧ fs'.workingDirectory = fs.workingDirectory := by
  have hsame : ∀ fs' : FileSystem, fs.SameFiles fs' →
      fs.tree.Keeps fs'.tree ∧ fs'.workingDirectory = fs.workingDirectory := by
    rintro _ ⟨fates, rfl⟩
    exact ⟨⟨fun _ => id, fun _ _ => id⟩, rfl⟩
  cases h with
  | put h => exact ⟨h.keeps, h.workingDirectory⟩
  | cut h => exact ⟨h.keeps, h.workingDirectory⟩
  | device _ _ hafter => exact hsame fs' ⟨fs.fates, hafter⟩
  | refused h => exact hsame fs' h

/-- What has been written is in the file, unless a device has taken it. -/
theorem of_written (h : fs.Writes fs' path content .written) :
    (∃ spot, fs.Puts fs' path content spot) ∨ fs' = fs ∧ ∃ place, fs.DeviceAt path place := by
  cases h with
  | put h => exact .inl ⟨_, h⟩
  | device h _ hafter => exact .inr ⟨hafter, _, h⟩

/-- What has not been written is not in the file, or only the beginning of it. -/
theorem of_not_written (h : fs.Writes fs' path content outcome) (hfailed : outcome ≠ .written) :
    fs.SameFiles fs' ∨
      outcome = .notWritten ∧ ∃ spot count, fs.Puts fs' path (content.take count) spot := by
  cases h with
  | put => exact absurd rfl hfailed
  | cut h => exact .inr ⟨rfl, _, _, h⟩
  | device _ _ hafter => exact .inl ⟨fs.fates, hafter⟩
  | refused h => exact .inl h

end Writes

end FileSystem

end TextLines.Files

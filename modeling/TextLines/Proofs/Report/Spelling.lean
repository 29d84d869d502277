import TextLines.Proofs.Report.Saving

/-!
# Spellings of one path

Paths that lead to the same thing, by whatever detours and links, are spellings of one path
(`FileSystem.LeadAlike`), and the canonical path is the same for all of them
(`LeadAlike.canonicalPath_eq`).

Saving a report keeps this up: directories are made and one file is written, so that whatever a path
led to, it leads to the same place afterwards (`Saves.stillLeads`), even if the file there is the
one that has been written.
-/

namespace TextLines

open Bytes
open Files

namespace Files.FileSystem

variable {fs fs' fs'' : FileSystem} {path other content : Bytes} {place : Place} {entry : Entry}

/-- Both paths lead to the same thing. -/
def LeadAlike (fs : FileSystem) (path other : Bytes) : Prop :=
  ∃ place entry, fs.lookUp path true = .ok (.found place entry) ∧
    fs.lookUp other true = .ok (.found place entry)

theorem canonicalPath_of_lookUp (h : fs.lookUp path true = .ok (.found place entry)) :
    fs.canonicalPath path = slash :: Bytes.join [slash] place := by
  rw [canonicalPath, h]

theorem LeadAlike.canonicalPath_eq (h : fs.LeadAlike path other) :
    fs.canonicalPath other = fs.canonicalPath path := by
  obtain ⟨place, entry, hpath, hother⟩ := h
  rw [canonicalPath_of_lookUp hpath, canonicalPath_of_lookUp hother]

/-! ## Paths that go on leading to a place -/

/-- What a path led to is replaced at most: the path leads to something at the same place. -/
def StillLeads (fs fs' : FileSystem) : Prop :=
  ∀ path place entry, fs.lookUp path true = .ok (.found place entry) →
    ∃ entry', fs'.lookUp path true = .ok (.found place entry')

theorem StillLeads.refl (fs : FileSystem) : fs.StillLeads fs :=
  fun _ _ entry h => ⟨entry, h⟩

theorem StillLeads.trans (h : fs.StillLeads fs') (h' : fs'.StillLeads fs'') :
    fs.StillLeads fs'' := by
  intro path place entry hlook
  obtain ⟨entry', hlook'⟩ := h path place entry hlook
  exact h' path place entry' hlook'

theorem LeadAlike.still (halike : fs.LeadAlike path other) (h : fs.StillLeads fs') :
    fs'.LeadAlike path other := by
  obtain ⟨place, entry, hpath, hother⟩ := halike
  obtain ⟨entry', hpath'⟩ := h path place entry hpath
  obtain ⟨entry'', hother'⟩ := h other place entry hother
  have hthere : fs'.tree.find? place = some entry' := holds_of_lookUp hpath'
  have hthere' : fs'.tree.find? place = some entry'' := holds_of_lookUp hother'
  obtain rfl := Option.some.inj (hthere.symm.trans hthere')
  exact ⟨place, entry', hpath', hother'⟩

theorem LeadAlike.canonicalPath_still (halike : fs.LeadAlike path other) (h : fs.StillLeads fs') :
    fs'.canonicalPath other = fs.canonicalPath path := by
  obtain ⟨place, entry, hpath, hother⟩ := halike
  obtain ⟨entry', hother'⟩ := h other place entry hother
  rw [canonicalPath_of_lookUp hpath, canonicalPath_of_lookUp hother']

theorem Grows.stillLeads (h : fs.Grows fs') : fs.StillLeads fs' := by
  intro path place entry hlook
  have hthere : fs.tree.find? place = some entry := holds_of_lookUp hlook
  rcases h.find? place with hsame | ⟨hnone, -⟩
  · exact ⟨entry, lookUp_keep h.workingDirectory h.keeps (hsame.trans hthere) hlook⟩
  · cases hnone.symm.trans hthere

theorem SameFiles.stillLeads (h : fs.SameFiles fs') : fs.StillLeads fs' := by
  obtain ⟨fates, rfl⟩ := h
  exact fun path place entry hlook => ⟨entry, hlook⟩

theorem Puts.stillLeads {spot : Spot} (h : fs.Puts fs' path content spot) : fs.StillLeads fs' := by
  intro other place entry hlook
  have hthere : fs.tree.find? place = some entry := holds_of_lookUp hlook
  by_cases hfile : ∃ old, entry = .file old
  · -- A file is a file afterwards, the one that is written included.
    obtain ⟨old, rfl⟩ := hfile
    have hafter : ∃ content', fs'.tree.find? place = some (.file content') := by
      rw [h.find?]
      split
      · exact ⟨content, rfl⟩
      · exact ⟨old, hthere⟩
    obtain ⟨content', hafter⟩ := hafter
    refine ⟨.file content', lookUp_put hlook (fun entry hentry => ⟨old, ?_⟩) h.workingDirectory
      h.keeps hafter fun _ => Entry.noConfusion⟩
    exact (Option.some.inj (hthere.symm.trans hentry)).symm
  · have hsame : fs'.tree.find? place = some entry := by
      rw [h.find?, if_neg ?_, hthere]
      rintro (rfl | ⟨-, hname⟩)
      · exact hfile (h.free entry hthere)
      · rw [hasFile, hthere] at hname
        cases entry with
        | file old => exact hfile ⟨old, rfl⟩
        | _ => cases hname
    exact ⟨entry, lookUp_keep h.workingDirectory h.keeps hsame hlook⟩

theorem Writes.stillLeads {outcome : WriteOutcome} (h : fs.Writes fs' path content outcome) :
    fs.StillLeads fs' := by
  cases h with
  | put h => exact h.stillLeads
  | cut h => exact h.stillLeads
  | device _ _ hafter => exact hafter ▸ .refl fs
  | refused h => exact h.stillLeads

end Files.FileSystem

/-- A report that is saved, or not, leaves all paths leading to the places that they led to. -/
theorem Saves.stillLeads {fs after : FileSystem} {root slug text : Bytes}
    {answer : Except Error (Option SaveFault)} (h : Saves fs root slug text answer after) :
    fs.StillLeads after := by
  cases h with
  | raised => exact .refl fs
  | refused _ hgrows => exact hgrows.grows.stillLeads
  | wrote _ hgrows hwrites => exact hgrows.grows.stillLeads.trans hwrites.stillLeads

end TextLines

import Mathlib
import TextLines.Report.Save
import TextLines.Proofs.Files.Changing

/-!
# What comes of saving a report

Saving a report makes directories and then writes a file (`Saves`). The caller has an answer to it
unless the directory of the report cannot be looked up (`saveReport_answers`): it is below a
directory that may not be entered, its path or a name in it is too long, or it leads through too
many links. An answer can be relied upon: without a fault the report is where its path leads, and a
fault has a text.
-/

namespace TextLines

open Bytes
open Files

variable {fs : FileSystem}

/-! ## The directories above a path -/

theorem status_nil (fs : FileSystem) : fs.status [] = .ok none := rfl

/-- Making the directories above a path is an error if looking them up is one, and then does
nothing. Otherwise there is an answer, and nothing is made but directories. -/
theorem ensureParents_cases (fs : FileSystem) (path : Bytes) :
    (∃ errno, fs.status (Path.parent path) = .error errno ∧
      ensureParents fs path = (.error (.pathStatus (Path.parent path) errno), fs)) ∨
    ((∀ errno, fs.status (Path.parent path) ≠ .error errno) ∧
      fs.GrowsAlong (ensureParents fs path).2 (Path.directoriesTo (Path.parent path)) ∧
      ∃ made, (ensureParents fs path).1 = .ok made) := by
  have hgrows := fs.makeParents_grows path
  unfold ensureParents FileSystem.makeParents at *
  dsimp only at *
  by_cases hempty : (Path.parent path).isEmpty = true
  · rw [if_pos hempty] at hgrows ⊢
    refine .inr ⟨fun errno h => ?_, hgrows, true, rfl⟩
    rw [List.isEmpty_iff.mp hempty, status_nil] at h
    cases h
  · rw [if_neg hempty] at hgrows ⊢
    rcases hstatus : fs.status (Path.parent path) with errno | (_ | entry)
    · exact .inl ⟨errno, rfl, rfl⟩
    · rw [hstatus] at hgrows
      exact .inr ⟨fun _ h => (by cases h), hgrows, _, rfl⟩
    · rw [hstatus] at hgrows
      exact .inr ⟨fun _ h => (by cases h), hgrows, true, rfl⟩

/-! ## Reports -/

/-- The path of the directory of a report. -/
def reportDirectory (root slug : Bytes) : Bytes :=
  Path.parent (reportPath root slug)

/-- The path that a fault is about. -/
def SaveFault.path : SaveFault → Bytes
  | .directoryRefused directory => directory
  | .notOpened file => file
  | .notWritten file => file

theorem SaveFault.message_ne_nil (fault : SaveFault) : fault.message ≠ [] := by
  cases fault <;> exact List.append_ne_nil_of_left_ne_nil (by decide) _

/-- The text for a fault ends with the path. -/
theorem SaveFault.path_suffix_message (fault : SaveFault) : fault.path <:+ fault.message := by
  cases fault <;> exact List.suffix_append _ _

/-- The answer that comes of writing the file of a report. -/
def SaveFault.ofOutcome? (file : Bytes) : Files.WriteOutcome → Option SaveFault
  | .written => none
  | .notOpened => some (.notOpened file)
  | .notWritten => some (.notWritten file)

/-- All that can come of saving a report: the answer and the files afterwards. -/
inductive Saves (fs : FileSystem) (root slug text : Bytes) :
    Except Error (Option SaveFault) → FileSystem → Prop where
  | raised {errno : Errno} (h : fs.status (reportDirectory root slug) = .error errno) :
      Saves fs root slug text (.error (.pathStatus (reportDirectory root slug) errno)) fs
  | refused {made : FileSystem}
      (hstatus : ∀ errno, fs.status (reportDirectory root slug) ≠ .error errno)
      (hgrows : fs.GrowsAlong made (Path.directoriesTo (reportDirectory root slug))) :
      Saves fs root slug text (.ok (some (.directoryRefused (reportDirectory root slug)))) made
  | wrote {made after : FileSystem} {outcome : WriteOutcome}
      (hstatus : ∀ errno, fs.status (reportDirectory root slug) ≠ .error errno)
      (hgrows : fs.GrowsAlong made (Path.directoriesTo (reportDirectory root slug)))
      (hwrites : made.Writes after (reportPath root slug) text outcome) :
      Saves fs root slug text (.ok (SaveFault.ofOutcome? (reportPath root slug) outcome)) after

theorem saves_saveReport (fs : FileSystem) (root slug text : Bytes) :
    Saves fs root slug text (saveReport fs root slug text).1 (saveReport fs root slug text).2 := by
  unfold saveReport
  dsimp only
  rcases ensureParents_cases fs (reportPath root slug) with
    ⟨errno, hstatus, hmake⟩ | ⟨hstatus, hgrows, made, hmake⟩
  · rw [hmake]
    exact .raised hstatus
  · rcases hensure : ensureParents fs (reportPath root slug) with ⟨answer, fs'⟩
    rw [hensure] at hgrows hmake
    obtain rfl : answer = .ok made := hmake
    cases made with
    | false => exact .refused hstatus hgrows
    | true =>
      have hwrites := fs'.writes_writeFile (reportPath root slug) text
      dsimp only at hgrows ⊢
      rcases hwrite : fs'.writeFile (reportPath root slug) text with ⟨outcome, after⟩
      rw [hwrite] at hwrites
      cases outcome <;> exact .wrote hstatus hgrows hwrites

namespace Saves

variable {root slug text : Bytes} {answer : Except Error (Option SaveFault)} {after : FileSystem}

theorem answer_iff (h : Saves fs root slug text answer after) :
    (∃ fault, answer = .ok fault) ↔
      ∀ errno, fs.status (reportDirectory root slug) ≠ .error errno := by
  cases h with
  | raised h => exact iff_of_false (fun ⟨_, h⟩ => by cases h) fun hstatus => hstatus _ h
  | refused hstatus => exact iff_of_true ⟨_, rfl⟩ hstatus
  | wrote hstatus => exact iff_of_true ⟨_, rfl⟩ hstatus

theorem of_error {e : Error} (h : Saves fs root slug text answer after) (he : answer = .error e) :
    after = fs ∧ ∃ errno, (errno = .accessDenied ∨ errno = .nameTooLong ∨ errno = .linkLoop) ∧
      fs.status (reportDirectory root slug) = .error errno ∧
      e = .pathStatus (reportDirectory root slug) errno := by
  cases h with
  | raised h => exact ⟨rfl, _, FileSystem.status_error h, h, (Except.error.inj he).symm⟩
  | refused => cases he
  | wrote => cases he

/-- A fault has a text, which ends with the path of the report or of its directory. -/
theorem of_fault {fault : SaveFault} (h : Saves fs root slug text answer after)
    (hfault : answer = .ok (some fault)) :
    fault.message ≠ [] ∧
      (reportDirectory root slug <:+ fault.message ∨ reportPath root slug <:+ fault.message) := by
  have hsuffix := fault.path_suffix_message
  refine ⟨fault.message_ne_nil, ?_⟩
  cases h with
  | raised => cases hfault
  | refused =>
    obtain rfl := Option.some.inj (Except.ok.inj hfault)
    exact .inl hsuffix
  | @wrote _ _ outcome =>
    have hfault' := Except.ok.inj hfault
    cases outcome with
    | written => cases hfault'
    | notOpened => exact .inr (Option.some.inj hfault' ▸ hsuffix)
    | notWritten => exact .inr (Option.some.inj hfault' ▸ hsuffix)

/-- A report that is saved is written when the directories have been made. -/
theorem of_saved (h : Saves fs root slug text answer after) (hsaved : answer = .ok none) :
    ∃ made, fs.GrowsAlong made (Path.directoriesTo (reportDirectory root slug)) ∧
      made.Writes after (reportPath root slug) text .written := by
  cases h with
  | raised => cases hsaved
  | refused => cases hsaved
  | @wrote made _ outcome _ hgrows hwrites =>
    cases outcome with
    | written => exact ⟨made, hgrows, hwrites⟩
    | notOpened => cases hsaved
    | notWritten => cases hsaved

/-- A report that is not saved leaves nothing but directories, and the beginning of it if writing
has broken off. -/
theorem of_not_saved (h : Saves fs root slug text answer after) (hfailed : answer ≠ .ok none) :
    fs.GrowsAlong after (Path.directoriesTo (reportDirectory root slug)) ∨
      answer = .ok (some (.notWritten (reportPath root slug))) ∧
        ∃ made spot count, fs.GrowsAlong made (Path.directoriesTo (reportDirectory root slug)) ∧
          made.Puts after (reportPath root slug) (text.take count) spot := by
  cases h with
  | raised => exact .inl (.refl fs _)
  | refused _ hgrows => exact .inl hgrows
  | @wrote made _ outcome _ hgrows hwrites =>
    have hnot : outcome ≠ .written := by
      rintro rfl
      exact hfailed rfl
    rcases hwrites.of_not_written hnot with hsame | ⟨rfl, spot, count, hputs⟩
    · exact .inl (hgrows.sameFiles hsame)
    · exact .inr ⟨rfl, made, spot, count, hgrows, hputs⟩

end Saves

/-- Making the directories above a path, and saving a report, come to an answer exactly if the
directory can be looked up as far as it is there; otherwise nothing has been done. A report that is
said to be saved is the whole content of the file where its path leads, unless a device stands
there, which has taken it. Anything else comes with a text, which names the file or its
directory. -/
theorem saveReport_answers (fs : FileSystem) (root slug text : Bytes) :
    let answer := (saveReport fs root slug text).1
    let after := (saveReport fs root slug text).2
    let directory := reportDirectory root slug
    (∀ path, (∃ made, (ensureParents fs path).1 = .ok made) ↔
      ∀ errno, fs.status (Path.parent path) ≠ .error errno) ∧
    ((∃ fault, answer = .ok fault) ↔ ∀ errno, fs.status directory ≠ .error errno) ∧
    (∀ e, answer = .error e → after = fs ∧
      ∃ errno, (errno = .accessDenied ∨ errno = .nameTooLong ∨ errno = .linkLoop) ∧
        fs.status directory = .error errno ∧ e = .pathStatus directory errno) ∧
    (answer = .ok none → ∃ place, after.HoldsAt (reportPath root slug) text place ∨
      after.DeviceAt (reportPath root slug) place) ∧
    ∀ fault, answer = .ok (some fault) → fault.message ≠ [] ∧
      (directory <:+ fault.message ∨ reportPath root slug <:+ fault.message) := by
  intro answer after directory
  have hsaves := saves_saveReport fs root slug text
  refine ⟨fun path => ?_, hsaves.answer_iff, fun _ => hsaves.of_error, fun hsaved => ?_,
    fun _ => hsaves.of_fault⟩
  · rcases ensureParents_cases fs path with ⟨errno, hstatus, hmake⟩ | ⟨hstatus, -, made, hmake⟩
    · rw [hmake]
      exact iff_of_false (fun ⟨_, h⟩ => by cases h) fun h => h errno hstatus
    · exact iff_of_true ⟨made, hmake⟩ hstatus
  · obtain ⟨made, -, hwrites⟩ := hsaves.of_saved hsaved
    rcases hwrites.of_written with ⟨spot, hputs⟩ | ⟨hafter, place, hdevice⟩
    · exact ⟨spot.place, .inl hputs.holdsAt⟩
    · rw [← hafter] at hdevice
      exact ⟨place, .inr hdevice⟩

/-- A report root that is a link to itself. -/
theorem saveReport_through_loop :
    let fs : FileSystem := {
      tree := Tree.empty.put [ascii "l"] (.link (ascii "l"))
      workingDirectory := [] }
    saveReport fs (ascii "l") (ascii "s") (ascii "x") =
      (.error (.pathStatus (ascii "l/s") .linkLoop), fs) ∧
    ensureParents fs (ascii "l/s/run.json") =
      (.error (.pathStatus (ascii "l/s") .linkLoop), fs) := by
  intro fs
  constructor
  · cbv
  · cbv

end TextLines

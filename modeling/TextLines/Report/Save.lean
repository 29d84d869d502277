import TextLines.Error
import TextLines.Files.Change

/-!
# Saving reports

The report of a slug is the file `run.json` in the directory of that name below the report root.
`saveReport` makes the directories that are missing and replaces the file. It gives the file system
afterwards, also when it fails.

A refusal is a `SaveFault`. One obstacle is none of them: if the directory cannot even be looked up,
for another reason than that it is missing, an `Error` is raised.
-/

namespace TextLines

open Bytes
open Files (FileSystem Path.join Path.parent)

/-- Why a report was not saved. -/
inductive SaveFault where
  /-- A directory could not be made. -/
  | directoryRefused (directory : Bytes)
  /-- The file could not be opened for writing. -/
  | notOpened (file : Bytes)
  /-- The text could not be written. -/
  | notWritten (file : Bytes)
  deriving DecidableEq, Repr

/-- The text for a report that was not saved. -/
def SaveFault.message : SaveFault → Bytes
  | .directoryRefused directory => ascii "cannot create " ++ directory
  | .notOpened file => ascii "failed to open " ++ file
  | .notWritten file => ascii "failed to write " ++ file

/-- The file of a report. -/
def reportPath (root slug : Bytes) : Bytes :=
  Path.join (Path.join root slug) (ascii "run.json")

/-- Makes the directories above a path; the answer is whether they are there. -/
def ensureParents (fs : FileSystem) (path : Bytes) : Except Error Bool × FileSystem :=
  match fs.makeParents path with
  | (.ok made, fs') => (.ok made, fs')
  | (.error (errno, directory), fs') => (.error (.pathStatus directory errno), fs')

/-- Saves a report: nothing if it is saved, or else the reason why it is not. -/
def saveReport (fs : FileSystem) (root slug text : Bytes) :
    Except Error (Option SaveFault) × FileSystem :=
  let file := reportPath root slug
  match ensureParents fs file with
  | (.error e, fs) => (.error e, fs)
  | (.ok false, fs) => (.ok (some (.directoryRefused (Path.parent file))), fs)
  | (.ok true, fs) =>
    match fs.writeFile file text with
    | (.written, fs) => (.ok none, fs)
    | (.notOpened, fs) => (.ok (some (.notOpened file)), fs)
    | (.notWritten, fs) => (.ok (some (.notWritten file)), fs)

end TextLines

import TextLines.Files.LookUp

/-!
# Changing files

Making directories and writing files. Every operation gives the file system afterwards, also when
it fails: a directory made before a later one is refused stays, and a file that is opened for
writing is emptied even if less is written then than it held.
-/

namespace TextLines.Files

open Bytes

/-- How writing a whole file went. -/
inductive WriteOutcome where
  /-- The file holds the text. -/
  | written
  /-- The path could not be opened for writing. -/
  | notOpened
  /-- The path was opened, and the text did not go through. -/
  | notWritten
  deriving DecidableEq, Repr

namespace FileSystem

/-- Puts an entry at a place. -/
def put (fs : FileSystem) (place : Place) (entry : Entry) : FileSystem :=
  { fs with tree := fs.tree.put place entry }

/-- The fate of the next change. -/
def nextFate (fs : FileSystem) : Fate :=
  fs.fates.headD .done

/-- The fate of the next change has been met. -/
def goOn (fs : FileSystem) : FileSystem :=
  { fs with fates := fs.fates.tail }

/-- Whether there is a file at a place. -/
def hasFile (fs : FileSystem) (place : Place) : Bool :=
  fs.tree.find? place matches some (.file _)

/-- Puts an entry at several places. -/
def putAll (fs : FileSystem) (places : List Place) (entry : Entry) : FileSystem :=
  places.foldl (fun fs place => fs.put place entry) fs

/-- Gives the file at a place its content, which is seen under the other names of the file too. -/
def putFile (fs : FileSystem) (place : Place) (content : Bytes) : FileSystem :=
  fs.putAll (place :: (fs.otherNames place).filter fs.hasFile) (.file content)

/-- Whether a path leads to a directory. -/
def isDirectory (fs : FileSystem) (path : Bytes) : Bool :=
  match fs.status path with
  | .ok (some entry) => entry.isDirectory
  | _ => false

/-- Makes one directory. A directory that is there already is as good; anything else in its place,
a link that leads nowhere included, is not. -/
def makeDirectory (fs : FileSystem) (path : Bytes) : Bool × FileSystem :=
  match fs.lookUp path false with
  | .ok (.vacant directory name) =>
    match fs.nextFate with
    | .done => (true, fs.goOn.put (directory ++ [name]) .directory)
    | .refused => (false, fs.goOn)
    | .cut _ => (false, fs.goOn)
  | .ok (.found _ _) => (fs.isDirectory path, fs)
  | .error _ => (false, fs)

/-- Makes directories one after another until one cannot be made. -/
def makeEach (fs : FileSystem) : List Bytes → Bool × FileSystem
  | [] => (true, fs)
  | path :: rest =>
    match fs.makeDirectory path with
    | (true, fs') => fs'.makeEach rest
    | (false, fs') => (false, fs')

/-- The most directories that are made for one path. -/
def maxMissing : Nat := 1000

/-- Of a path and the directories above it, the ones to be made before the path exists, outermost
first and in front of those in `found`: all up to the first that is there. A last component `.` or
`..` is passed over. There is no answer if something else stands where a directory is needed, or
if too many are missing. -/
def missing (fs : FileSystem) : List Bytes → List Bytes → Option (List Bytes)
  | [], found => some found
  | path :: above, found =>
    let found := if Path.isDots (Path.fileName path) then found else path :: found
    if maxMissing < found.length then none
    else
      match above.head? with
      | none => some found
      | some directory =>
        match fs.status directory with
        | .ok none => fs.missing above found
        | .ok (some entry) => if entry.isDirectory then some found else none
        | .error _ => some found

/-- Makes the directory `path`, of which it is known that it does not exist, with the directories
above it that are missing. -/
def makeDirectories (fs : FileSystem) (path : Bytes) : Bool × FileSystem :=
  let start := if (Path.fileName path).isEmpty then Path.parent path else path
  match fs.missing (Path.upwards start) [] with
  | some paths => fs.makeEach paths
  | none => (false, fs)

/-- Makes the directories above `path`. A parent that exists is taken as it is, whatever it is; one
whose look-up fails otherwise than by absence is an error of its own. -/
def makeParents (fs : FileSystem) (path : Bytes) : Except (Errno × Bytes) Bool × FileSystem :=
  let above := Path.parent path
  if above.isEmpty then (.ok true, fs)
  else
    match fs.status above with
    | .ok (some _) => (.ok true, fs)
    | .ok none =>
      let (made, fs') := fs.makeDirectories above
      (.ok made, fs')
    | .error e => (.error (e, above), fs)

/-- Opens the file at a place for writing, which empties it or makes it, and writes `content`. -/
def writeAt (fs : FileSystem) (place : Place) (content : Bytes) : WriteOutcome × FileSystem :=
  match fs.nextFate with
  | .done => (.written, fs.goOn.putFile place content)
  | .refused => (.notOpened, fs.goOn)
  | .cut count => (.notWritten, fs.goOn.putFile place (content.take count))

/-- Opens a path for writing and writes `content`. -/
def writeFile (fs : FileSystem) (path content : Bytes) : WriteOutcome × FileSystem :=
  match fs.lookUp path true with
  | .ok (.found place (.file _)) => fs.writeAt place content
  | .ok (.vacant directory name) => fs.writeAt (directory ++ [name]) content
  | .ok (.found _ .nullDevice) => (.written, fs)
  | .ok (.found _ .zeroDevice) => (.written, fs)
  | .ok (.found _ .fullDevice) => (if content.isEmpty then .written else .notWritten, fs)
  | .ok (.found _ _) => (.notOpened, fs)
  | .error _ => (.notOpened, fs)

end FileSystem

end TextLines.Files

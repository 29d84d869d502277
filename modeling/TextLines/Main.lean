import TextLines.CommandLine.Run
import TextLines.Proofs.Document.ConfigFile

/-!
# The program

What the arguments name is read from the disk into a `FileSystem`, the run is worked out on that
value, and what the run has changed in it is written back. Files are taken one at a time, so each
sees what was written for the ones in front of it. Configurations are read by the reader that is
proved to read the grammar.
-/

open TextLines
open TextLines.Files

namespace TextLines.Main

/-- Bytes as the text that the system's functions take. -/
def textOf (bytes : Bytes) : String :=
  let array := ByteArray.mk bytes.toArray
  (String.fromUTF8? array).getD (String.ofList (bytes.map fun b => Char.ofNat b.toNat))

/-- The absolute path of a place. -/
def pathOf (place : Place) : Bytes :=
  Bytes.slash :: Bytes.join [Bytes.slash] place

/-- The text of a path as bytes. -/
def bytesOf (text : String) : Bytes :=
  text.toUTF8.toList

/-- Puts an entry at a place, and directories above it. -/
def insert (fs : FileSystem) (place : Place) (entry : Entry) : FileSystem :=
  let above := (List.range (place.length - 1)).map fun i => place.take (i + 1)
  let fs := above.foldl (fun fs p =>
    if (fs.tree.find? p).isNone then fs.put p .directory else fs) fs
  if place.isEmpty then fs else fs.put place entry

/-- Reads what stands at a path, if anything does. -/
def loadOne (fs : FileSystem) (path : Bytes) : IO FileSystem := do
  try
    let real ← IO.FS.realPath (textOf path)
    let place := Path.components [] (bytesOf real.toString)
    let kind := (← real.metadata).type
    let entry ← match kind with
      | .dir => pure Entry.directory
      | .file => do
        let content ← IO.FS.readBinFile real
        pure (Entry.file content.toList)
      | _ => pure Entry.nullDevice
    let fs := insert fs place entry
    let names := Path.components [] path
    let given := (if Path.isAbsolute path then [] else fs.workingDirectory) ++ names
    if given == place || names.any Path.isDots then return fs
    else return insert fs given (.link (pathOf place))
  catch _ => return fs

/-- Reads what stands at a path and at the directories above it. -/
def load (fs : FileSystem) (path : Bytes) : IO FileSystem :=
  (Path.upwards path).reverse.foldlM loadOne fs

/-- Writes the directories and files that are new or have changed. -/
def store (before after : FileSystem) : IO Unit :=
  after.tree.entries.forM fun (place, entry) => do
    if before.tree.find? place != some entry then
      match entry with
      | .directory => IO.FS.createDirAll (textOf (pathOf place))
      | .file content =>
        IO.FS.writeBinFile (textOf (pathOf place)) (ByteArray.mk content.toArray)
      | _ => pure ()

/-- Prints what a run leaves behind. -/
def print (output : Output) : IO Unit := do
  let out ← IO.getStdout
  out.write (ByteArray.mk output.out.toArray)
  out.flush
  let err ← IO.getStderr
  err.write (ByteArray.mk output.err.toArray)
  err.flush

/-- The directory that the program runs in. -/
def here : IO FileSystem := do
  let place := Path.components [] (bytesOf (← IO.currentDir).toString)
  return insert { tree := .empty, workingDirectory := place } place .directory

/-- Works on one file; the answer is whether that failed. -/
def runFile [Room] (o : Options) (config : Config) : IO Bool := do
  let start ← IO.monoMsNow
  let fs ← load (← here) config.path
  let reading ← IO.lazyPure fun _ => o.read fs config
  let done ← IO.monoMsNow
  let fs ←
    if o.reportRoot.isEmpty then pure fs
    else load fs (reportPath o.reportRoot (o.slugOf fs config.path))
  let timing : Timing :=
    { wall := (done - start).toFloat, scan := (start, done), digest := (done, done) }
  let (output, changed) := o.conclude timing fs config reading
  store fs changed
  print output
  return output.failed

end TextLines.Main

/-- Runs the program; the answer is its exit status. -/
def main (arguments : List String) : IO UInt32 := do
  let _ : Room := .ample
  let _ : JsonReader := .grammar
  let arguments := arguments.map TextLines.Main.bytesOf
  let fs ← (configFilesOf arguments).foldlM TextLines.Main.load (← TextLines.Main.here)
  match Options.ofArguments (Config.load fs) arguments with
  | .error refusal =>
    TextLines.Main.print refusal.output
    return UInt32.ofNat refusal.output.status
  | .ok o =>
    let failures ← o.inputs.mapM (TextLines.Main.runFile o)
    let output : Output := { failed := failures.any id }
    return UInt32.ofNat output.status

import TextLines.CommandLine.Options
import TextLines.Digest.Lines
import TextLines.Document.Pass
import TextLines.Report.Record
import TextLines.Report.Save

/-!
# A run over files

What is to be read is taken one after another, first what configurations in files say and then the
files that were named, and a failure of one does not keep the others from being read. Each goes
through two steps: `Options.read` reads its lines, and `Options.conclude` says what is printed about
it and saves its report.

Lines are printed while they are read, so those in front of a failure have been printed. When
lines are collected nothing is printed before all of them have been read.

How long things take is not for the steps to say: the times are given to the second step from
outside (`Timing`).
-/

namespace TextLines

open Bytes
open Files (FileSystem)

/-! ## Reading the lines of a file -/

/-- What is made of the lines as they come. -/
structure Scan where
  /-- Their digest. -/
  digest : LineDigest := {}
  /-- Their number, and that of their bytes. -/
  tally : Tally := {}
  /-- The lines that are printed, the latest first. -/
  printed : List Bytes := []

/-- Takes notice of a line. -/
def Scan.see (s : Scan) (line : Bytes) : Scan :=
  { s with digest := s.digest.add line, tally := s.tally.record (.line (.ofNat line.length)) }

/-- Takes notice of a line, and prints it if that is wanted. -/
def Scan.visit (mode : Mode) (s : Scan) (line : Bytes) : Scan :=
  if mode = .print then { s.see line with printed := line :: s.printed } else s.see line

/-- What reading a file came to. -/
structure Reading where
  /-- What was printed on the way. -/
  printed : Bytes
  /-- What has been made of the lines, or why they could not be read. -/
  result : Except Error Scan
  /-- A failure to close the file behind that. -/
  unreported : Option Error

/-- The text of lines that are printed one after another. -/
def printLines (lines : List Bytes) : Bytes :=
  lines.flatMap (· ++ [lf])

/-- Takes notice of the bytes that were consumed. -/
def Scan.consumed (s : Scan) (bytes : Nat) : Scan :=
  { s with tally := s.tally.record (.bytes (.ofNat bytes)) }

variable {σ : Type} [Source σ]

/-- Collects the lines and takes notice of them afterwards. -/
def readCollected (c : Cursor σ) : Reading :=
  let p := Pass.collect c
  { printed := []
    result := p.result.map fun lines =>
      lines.foldl Scan.see (Scan.consumed {} p.cursor.bytesRead)
    unreported := p.unreported }

/-- Takes notice of the lines while they come. -/
def readStreamed (mode : Mode) (c : Cursor σ) : Reading :=
  let w := c.walk (fun line s => .goOn (s.visit mode line)) ({} : Scan)
  let p := Pass.finish w.result w.cursor
  { printed := printLines w.value.printed.reverse
    result := p.result.map fun s => s.consumed p.cursor.bytesRead
    unreported := p.unreported }

/-- Reads the lines of a file. -/
def Options.read [Room] (o : Options) (fs : FileSystem) (config : Config) : Reading :=
  match config.cursor ((config.openSource fs).map some) with
  | .error e => { printed := [], result := .error e, unreported := none }
  | .ok c => if o.mode = .collect then readCollected c else readStreamed o.mode c

/-! ## What is said about a file -/

/-- When things happened, in milliseconds of a clock. -/
structure Timing where
  /-- The time for the file altogether. -/
  wall : Float := 0
  /-- The beginning and the end of the reading. -/
  scan : Nat × Nat := (0, 0)
  /-- The beginning and the end of the digesting. -/
  digest : Nat × Nat := (0, 0)

/-- The stages of working on a file. When lines are collected they are digested afterwards. -/
def Mode.stages (mode : Mode) (timing : Timing) : List Event :=
  let stage (name : String) (span : Nat × Nat) : List Event :=
    [.begin (ascii name) span.1, .finish (ascii name) span.2]
  stage "scan" timing.scan ++ if mode = .collect then stage "digest" timing.digest else []

/-- What a program leaves behind. -/
structure Output where
  /-- Its standard output. -/
  out : Bytes := []
  /-- What it says about itself. -/
  err : Bytes := []
  /-- Whether something failed. -/
  failed : Bool := false
  deriving DecidableEq, Repr

/-- What one program and then another leave behind. -/
def Output.append (a b : Output) : Output where
  out := a.out ++ b.out
  err := a.err ++ b.err
  failed := a.failed || b.failed

theorem Output.append_assoc (a b c : Output) : (a.append b).append c = a.append (b.append c) := by
  simp [append, Bool.or_assoc]

theorem Output.empty_append (a : Output) : Output.append {} a = a := by
  simp [append]

theorem Output.append_empty (a : Output) : a.append {} = a := by
  simp [append]

/-- The status with which the program ends. -/
def Output.status (output : Output) : Nat :=
  if output.failed then 2 else 0

/-- What is said about a file that could not be read, or whose report could not be made. -/
def failureLine (path : Bytes) (e : Error) : Bytes :=
  (match e with
    | .opening _ _ => ascii "[lines] open failed: "
    | _ => ascii "[lines] " ++ path ++ ascii ": ") ++ e.message ++ [lf]

/-- What is said about a failure that nobody was told of. -/
def unreportedLine (e : Error) : Bytes :=
  ascii "[lines] close on destruction failed: " ++ e.message ++ [lf]

/-- What is printed about a file. -/
def Mode.summaryLine (mode : Mode) (path : Bytes) (s : Summary) : Bytes :=
  let number (n : UInt64) : Bytes := decimal n.toNat ++ ascii "\t"
  match mode with
  | .count => number s.lines ++ path ++ [lf]
  | .print => []
  | .collect => number s.lines ++ number s.chars ++ path ++ [lf]

/-! ## Reports -/

/-- The name of the report directory of a file. -/
def Options.slugOf (o : Options) (fs : FileSystem) (path : Bytes) : Bytes :=
  match o.naming with
  | .canonicalPath => slug .hashPrefix (fs.canonicalPath path) o.slugLength
  | .givenPath => slug .hashPrefix path o.slugLength
  | .fileName => slug .fileName path o.slugLength

/-- The size that stands for an unknown one. -/
def unknownSize : UInt64 := 0xffffffffffffffff

/-- The record of reading a file. -/
def Options.recordOf (o : Options) (fs : FileSystem) (config : Config) (summary : Summary)
    (digest : LineDigest) : RunRecord where
  summary := summary
  fileName := config.path
  encoding := config.encoding.getD []
  compressed := config.compressed
  mode := o.mode.word
  digest := digest.hex.1
  fileSize := (fs.fileSize? config.path).elim unknownSize UInt64.ofNat

/-- Saves the report on a file, if reports are wanted. -/
def Options.report (o : Options) (fs : FileSystem) (config : Config) (summary : Summary)
    (digest : LineDigest) : Output × FileSystem :=
  if o.reportRoot.isEmpty then ({}, fs)
  else
    let slug := o.slugOf fs config.path
    match saveReport fs o.reportRoot slug (o.recordOf fs config summary digest).text with
    | (.error e, fs) => ({ err := failureLine config.path e, failed := true }, fs)
    | (.ok (some fault), fs) =>
      ({ err := ascii "[report] write_report_dir failed: " ++ fault.message ++ [lf]
         failed := true }, fs)
    | (.ok none, fs) =>
      ({ err := ascii "[report] ok: " ++ config.path ++ ascii " -> " ++
          reportPath o.reportRoot slug ++ [lf] }, fs)

/-! ## All files -/

/-- What is left to do once a file has been read. -/
def Options.conclude (o : Options) (timing : Timing) (fs : FileSystem) (config : Config)
    (r : Reading) : Output × FileSystem :=
  let before : Output :=
    { out := r.printed, err := (r.unreported.map unreportedLine).getD [] }
  match r.result with
  | .error e => (before.append { err := failureLine config.path e, failed := true }, fs)
  | .ok s =>
    let summary := (s.tally.recordAll (o.mode.stages timing)).summary timing.wall
    let (report, fs) := o.report fs config summary s.digest
    ((before.append { out := o.mode.summaryLine config.path summary }).append report, fs)

/-- Works on files one after another, each of which takes as long as `timing` says. -/
def Options.runInputs [Room] (o : Options) (timing : Timing) (fs : FileSystem) :
    List Config → Output × FileSystem
  | [] => ({}, fs)
  | config :: rest =>
    let (first, fs) := o.conclude timing fs config (o.read fs config)
    let (others, fs) := o.runInputs timing fs rest
    (first.append others, fs)

/-- What the program says when it does nothing. -/
def Refusal.output (refusal : Refusal) : Output where
  out := if refusal.showsUsage then usage else []
  err := refusal.message
  failed := refusal.isFailure

/-- Runs the program with these arguments. -/
def run [Room] [JsonReader] (timing : Timing) (fs : FileSystem) (arguments : List Bytes) :
    Output × FileSystem :=
  match Options.ofArguments (Config.load fs) arguments with
  | .error refusal => (refusal.output, fs)
  | .ok o => o.runInputs timing fs o.inputs

end TextLines

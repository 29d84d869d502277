import TextLines.CommandLine.Number
import TextLines.Document.ConfigFile
import TextLines.Report.Slug

/-!
# Arguments

The arguments are read one by one into a `Draft`, so an option that is given twice counts as it was
given last. What is wrong with a single argument is found at once, before the arguments that follow
are looked at. What only matters in the end, such as an unknown mode, is checked when all arguments
have been read; the outcome is then a set of `Options`.

What is to be read are the files that are named, and those for which an argument names a file with a
configuration. Such a file is read at once, by `load`, and what it says is not touched by the other
options.

`Refusal` lists the reasons for which nothing is read at all.
-/

namespace TextLines

open Bytes

/-- What is to be done with the lines of each file. -/
inductive Mode where
  /-- Count them. -/
  | count
  /-- Print them. -/
  | print
  /-- Collect them all, and then count them and their bytes. -/
  | collect
  deriving DecidableEq, Repr

/-- The word for a mode. -/
def Mode.word : Mode → Bytes
  | .count => ascii "count"
  | .print => ascii "cat"
  | .collect => ascii "collect"

/-- The mode for a word. -/
def Mode.ofWord? (word : Bytes) : Option Mode :=
  [Mode.count, Mode.print, Mode.collect].find? (·.word == word)

/-- How the directory of a report gets its name. -/
inductive Naming where
  /-- From the hash of the canonical path. -/
  | canonicalPath
  /-- From the hash of the path as it was given. -/
  | givenPath
  /-- From the file name. -/
  | fileName
  deriving DecidableEq, Repr

/-- The naming that a word asks for. Every word is accepted. -/
def Naming.ofWord (word : Bytes) : Naming :=
  if word == ascii "hashprefix" then .canonicalPath
  else if word == ascii "basename" then .fileName
  else .givenPath

/-- What a run is to do. -/
structure Options where
  /-- What is to be done with the lines. -/
  mode : Mode
  /-- The declared encoding. -/
  encoding : Option Bytes
  /-- Whether the files are gzip files; if nothing is said their names decide. -/
  compressed : Option Bool
  /-- How many bytes to ask for at a time. -/
  chunkBytes : Nat
  /-- The longest line that is accepted; zero accepts all. -/
  maxLineBytes : Nat
  /-- The directory for reports; none are written if it is empty. -/
  reportRoot : Bytes
  /-- How the directory of a report gets its name. -/
  naming : Naming
  /-- How long that name may be. -/
  slugLength : Int
  /-- The configurations that were read from files. -/
  views : List Config := []
  /-- The files. -/
  files : List Bytes
  deriving DecidableEq, Repr

/-- Why nothing is read. -/
inductive Refusal where
  /-- The usage was asked for. -/
  | helpWanted
  /-- An option that takes a number has none, or one with a sign. -/
  | notNatural (argument : Bytes)
  /-- The number of an option is none, or it does not fit into 64 bits. -/
  | badUnsigned
  /-- The number of an option is none, or it does not fit into 32 bits. -/
  | badSigned
  /-- A file gives no configuration. -/
  | badConfig (fault : ConfigFault)
  /-- There is no such option. -/
  | unknownOption (argument : Bytes)
  /-- There is no such mode. -/
  | unknownMode (word : Bytes)
  /-- Reading nothing at a time leads nowhere. -/
  | emptyChunk
  /-- A directory needs a name. -/
  | emptySlug
  /-- There is no file to read. -/
  | noFiles
  deriving DecidableEq, Repr

/-- What is said about a refusal. -/
def Refusal.message : Refusal → Bytes
  | .helpWanted => []
  | .notNatural argument =>
    ascii "[cli] expected a non-negative number: " ++ argument ++ ascii "\n"
  | .badUnsigned => ascii "[cli] stoull\n"
  | .badSigned => ascii "[cli] stoi\n"
  | .badConfig fault => ascii "[cli] " ++ untilNul fault.text ++ ascii "\n"
  | .unknownOption argument => ascii "[cli] unknown option: " ++ argument ++ ascii "\n"
  | .unknownMode word => ascii "[cli] unknown mode: " ++ word ++ ascii "\n"
  | .emptyChunk => ascii "[cli] --chunk-bytes must be > 0\n"
  | .emptySlug => ascii "[cli] --slug-len must be > 0\n"
  | .noFiles => []

/-- Whether the usage is shown with a refusal. -/
def Refusal.showsUsage : Refusal → Bool
  | .badUnsigned => false
  | .badSigned => false
  | .badConfig _ => false
  | _ => true

/-- Whether a refusal is a failure. -/
def Refusal.isFailure : Refusal → Bool
  | .helpWanted => false
  | _ => true

/-- The usage. -/
def usage : Bytes :=
  ascii (
    "Usage: file-lines [--mode=count|cat|collect] [--encoding=NAME]\n" ++
    "                  [--gzip|--no-gzip] [--chunk-bytes=N] [--max-line-bytes=N]\n" ++
    "                  [--config=view.json] [--report-root=DIR]\n" ++
    "                  [--slug-mode=hashprefix|basename] [--slug-len=N] FILE...\n")

/-! ## Reading arguments -/

/-- What has been read so far, with the words as they were given. -/
structure Draft where
  /-- The word for the mode. -/
  mode : Bytes := Mode.count.word
  /-- The declared encoding. -/
  encoding : Option Bytes := none
  /-- Whether the files are gzip files. -/
  compressed : Option Bool := none
  /-- How many bytes to ask for at a time. -/
  chunkBytes : Nat := 65536
  /-- The longest line that is accepted. -/
  maxLineBytes : Nat := 0
  /-- The directory for reports. -/
  reportRoot : Bytes := []
  /-- The word for the naming. -/
  naming : Bytes := ascii "hashprefix"
  /-- How long the name of a report's directory may be. -/
  slugLength : Int := 12
  /-- The configurations that were read from files, the latest first. -/
  views : List Config := []
  /-- The files, the latest first. -/
  files : List Bytes := []
  deriving DecidableEq, Repr

/-- The rest of a text behind a given beginning. -/
def behind? (beginning : String) (text : Bytes) : Option Bytes :=
  let front := ascii beginning
  if front.isPrefixOf text then some (text.drop front.length) else none

/-- The value of an option that takes a natural number. -/
def natural (argument value : Bytes) : Except Refusal Nat :=
  match value with
  | [] => .error (.notNatural argument)
  | first :: _ =>
    if first == 45 || first == 43 then .error (.notNatural argument)
    else
      match Number.unsigned? value with
      | some n => .ok n
      | none => .error .badUnsigned

variable (load : (path : Bytes) → Except ConfigFault Config)

/-- The options that have a value, each with what it does to a draft. They are told apart by what
they begin with, and no beginning is the beginning of another. -/
def valueOptions :
    List (String × (Draft → (argument value : Bytes) → Except Refusal Draft)) := [
  ("--mode=", fun d _ value => .ok { d with mode := value }),
  ("--encoding=", fun d _ value =>
    .ok (if value.isEmpty then d else { d with encoding := some value })),
  ("--chunk-bytes=", fun d argument value =>
    (natural argument value).map fun n => { d with chunkBytes := n }),
  ("--max-line-bytes=", fun d argument value =>
    (natural argument value).map fun n => { d with maxLineBytes := n }),
  ("--config=", fun d _ value =>
    ((load value).mapError .badConfig).map fun config => { d with views := config :: d.views }),
  ("--report-root=", fun d _ value => .ok { d with reportRoot := value }),
  ("--slug-mode=", fun d _ value => .ok { d with naming := value }),
  ("--slug-len=", fun d _ value =>
    match Number.signed? value with
    | some n => .ok { d with slugLength := n }
    | none => .error .badSigned)]

/-- Reads an argument without a value: a switch, or a file. -/
def Draft.takeWord (d : Draft) (argument : Bytes) : Except Refusal Draft :=
  if argument == ascii "--gzip" then .ok { d with compressed := some true }
  else if argument == ascii "--no-gzip" then .ok { d with compressed := some false }
  else if argument == ascii "-h" || argument == ascii "--help" then .error .helpWanted
  else if (ascii "--").isPrefixOf argument then .error (.unknownOption argument)
  else .ok { d with files := argument :: d.files }

/-- Reads an argument. -/
def Draft.take (d : Draft) (argument : Bytes) : Except Refusal Draft :=
  match (valueOptions load).findSome? fun o => (behind? o.1 argument).map (o.2 d argument) with
  | some outcome => outcome
  | none => d.takeWord argument

/-- Checks what has been read. -/
def Draft.check (d : Draft) : Except Refusal Options :=
  match Mode.ofWord? d.mode with
  | none => .error (.unknownMode d.mode)
  | some mode =>
    if d.chunkBytes = 0 then .error .emptyChunk
    else if d.slugLength ≤ 0 then .error .emptySlug
    else if d.views.isEmpty && d.files.isEmpty then .error .noFiles
    else
      .ok {
        mode
        encoding := d.encoding
        compressed := d.compressed
        chunkBytes := d.chunkBytes
        maxLineBytes := d.maxLineBytes
        reportRoot := d.reportRoot
        naming := .ofWord d.naming
        slugLength := d.slugLength
        views := d.views.reverse
        files := d.files.reverse }

/-- Reads arguments one after another. -/
def Draft.takeAll (d : Draft) : List Bytes → Except Refusal Draft
  | [] => .ok d
  | argument :: rest =>
    match d.take load argument with
    | .error refusal => .error refusal
    | .ok d => d.takeAll rest

/-- The options that the arguments ask for. -/
def Options.ofArguments (arguments : List Bytes) : Except Refusal Options :=
  match Draft.takeAll load {} arguments with
  | .error refusal => .error refusal
  | .ok d => d.check

/-- The files with configurations that are named. -/
def configFilesOf (arguments : List Bytes) : List Bytes :=
  arguments.filterMap (behind? "--config=")

/-- What to read for a file, and how. -/
def Options.config (o : Options) (path : Bytes) : Config where
  path := path
  encoding := o.encoding
  compressed := o.compressed.getD (looksCompressed path)
  chunkBytes := o.chunkBytes
  maxLineBytes := o.maxLineBytes

/-- All that is to be read. -/
def Options.inputs (o : Options) : List Config :=
  o.views ++ o.files.map o.config

end TextLines

import TextLines.Proofs.CommandLine.Modes
import TextLines.Proofs.Document.Metering
import TextLines.Proofs.Document.Opening
import TextLines.Proofs.Document.Rendering

/-!
# The number of bytes that is told

How many bytes of a file have been consumed is asked of a stream, handed out with the lines when all
of them are collected, and recorded by the program. It is one number. Collecting tells what a cursor
shows that has handed out all lines (`Config.collectsWith_of_hands`), and the program records the
same in all modes (`Config.recordsWith_of_hands`). For a file that is consumed as a whole that is
its size (`Config.metered_of_file`).
-/

namespace TextLines

open Bytes
open Files (FileSystem)

variable [Room] {o : Options} {config : Config} {fs : FileSystem} {content : Bytes}
  {lines : List Bytes} {failure : Option Error} {taken : Nat}

namespace Config

/-- Whoever collects all lines is told this number, or fails for this reason, whatever has been done
with the document before. -/
def CollectsWith (config : Config) (fs : FileSystem) (lines : List Bytes) (failure : Option Error)
    (taken : Nat) : Prop :=
  ∀ start ops, ((Session.ofFile config start).run ops).world = fs →
    (((Session.ofFile config start).run ops).step .collect).1 =
      match failure with
      | some e => .failed e
      | none => .collected lines taken

/-- A run of the program that comes to the file records this number, also in the report on the file,
or fails, in whatever mode. -/
def RecordsWith [JsonReader] (config : Config) (fs : FileSystem) (failure : Option Error)
    (taken : Nat) : Prop :=
  ∀ (o : Options) (timing : Timing) (start : FileSystem) (before after : List Config),
    o.inputs = before ++ config :: after → (o.runInputs timing start before).2 = fs →
      ∀ arguments, Options.ofArguments (Config.load start) arguments = .ok o →
        match failure with
        | some _ => (run timing start arguments).1.status = 2 ∧
            (run timing start arguments).2 = (o.runInputs timing fs after).2
        | none => ∃ s summary, (o.read fs config).result = .ok s ∧
            s.tally.bytes = UInt64.ofNat taken ∧ summary.bytes = UInt64.ofNat taken ∧
            let saved :=
              if o.reportRoot.isEmpty then fs
              else (saveReport fs o.reportRoot (o.slugOf fs config.path)
                (o.recordOf fs config summary s.digest).text).2
            (run timing start arguments).2 = (o.runInputs timing saved after).2

/-- What is told of the bytes that are consumed of a file. -/
structure Metered [JsonReader] (config : Config) (fs : FileSystem) (content : Bytes) : Prop where
  /-- By its streams. -/
  streams : config.StreamsMetered fs content.length (config.IsWhole content)
  /-- By a stream that has been looped over, with all lines, and by the program. -/
  views : ∃ lines failure taken, config.Hands fs lines failure taken ∧ taken ≤ content.length ∧
    (failure = none → config.IsWhole content → taken = content.length) ∧
    (config.chunkBytes < Room.limit → ∀ source, config.openSource fs = .ok source → ∀ number,
      ((Consumer.ofSource source config.chunkBytes config.maxLineBytes).step
        (number, .range none)).2.bytesRead = taken) ∧
    config.CollectsWith fs lines failure taken ∧ config.RecordsWith fs failure taken

end Config

end TextLines

import Std.Data.HashMap
import TextLines.Bytes

/-!
# What a run has done

A `Tally` counts what a run reads and how long its stages take. It is told of every event: a line
read, the bytes consumed so far, a stage begun or ended. Counters have 64 bits and wrap around.

The stages are kept in three places: their names in the order in which they were first begun, each
once; the times that have been spent in those that have ended; and when those began that are
running. A stage may be begun again: its times add up, and a second beginning without an end in
between starts the clock anew. Ending a stage that is not running changes nothing.

A `Summary` is what a tally shows after a given time: the counters, the stages, and how much was
done in a second.
-/

namespace TextLines

/-- Something that happens in a run. Times are milliseconds of a clock that only goes forward. -/
inductive Event where
  /-- A line of that many bytes was read. -/
  | line (length : UInt64)
  /-- So many lines were read. -/
  | lines (number : UInt64)
  /-- That many bytes have been consumed altogether. -/
  | bytes (total : UInt64)
  /-- A stage begins. -/
  | begin (stage : Bytes) (now : Nat)
  /-- A stage ends. -/
  | finish (stage : Bytes) (now : Nat)
  /-- All is forgotten. -/
  | reset
  deriving DecidableEq, Repr

/-- What a run has done so far. -/
structure Tally where
  /-- The lines read. -/
  lines : UInt64 := 0
  /-- The bytes consumed. -/
  bytes : UInt64 := 0
  /-- The bytes of the lines, without what ends them. -/
  chars : UInt64 := 0
  /-- The names of the stages in the order of their first beginning. -/
  order : List Bytes := []
  /-- The milliseconds that have been spent in a stage, if it has ended. -/
  spent : Std.HashMap Bytes UInt64 := {}
  /-- Since when a stage has been running, if it is. -/
  since : Std.HashMap Bytes Nat := {}

namespace Tally

/-- Starts the clock of the stage of that name, which comes last if it is new. -/
def begin (t : Tally) (name : Bytes) (now : Nat) : Tally :=
  { t with
    order := if name ∈ t.order then t.order else t.order ++ [name]
    since := t.since.insert name now }

/-- Stops the clock of the stage of that name, if it is running. -/
def finish (t : Tally) (name : Bytes) (now : Nat) : Tally :=
  match t.since[name]? with
  | some before =>
    { t with
      spent := t.spent.insert name (t.spent.getD name 0 + UInt64.ofNat (now - before))
      since := t.since.erase name }
  | none => t

/-- The end of a stage does not change which stages are listed. -/
theorem order_finish (t : Tally) (name : Bytes) (now : Nat) :
    (t.finish name now).order = t.order := by
  rw [finish]
  split <;> rfl

/-- Takes notice of an event. -/
def record (t : Tally) : Event → Tally
  | .line length => { t with lines := t.lines + 1, chars := t.chars + length }
  | .lines number => { t with lines := t.lines + number }
  | .bytes total => { t with bytes := total }
  | .begin name now => t.begin name now
  | .finish name now => t.finish name now
  | .reset => {}

/-- Takes notice of many events. -/
def recordAll (t : Tally) (events : List Event) : Tally :=
  events.foldl record t

theorem recordAll_append (t : Tally) (front back : List Event) :
    t.recordAll (front ++ back) = (t.recordAll front).recordAll back :=
  List.foldl_append

end Tally

/-- What a tally shows. -/
structure Summary where
  /-- The lines read. -/
  lines : UInt64
  /-- The bytes consumed. -/
  bytes : UInt64
  /-- The bytes of the lines, without what ends them. -/
  chars : UInt64
  /-- How long the run has taken, in milliseconds. -/
  wallTime : Float
  /-- The megabytes consumed in a second. -/
  throughput : Float
  /-- The lines read in a second. -/
  lineRate : Float
  /-- The names of the stages, each with its milliseconds. -/
  stages : List (Bytes × UInt64)

/-- So much in a second, if a time has passed at all. -/
def perSecond (amount seconds : Float) : Float :=
  if seconds > 0 then amount / seconds else 0

/-- What a tally shows when the run has taken `wallTime` milliseconds. -/
def Tally.summary (t : Tally) (wallTime : Float) : Summary :=
  let seconds := wallTime / 1000
  { lines := t.lines
    bytes := t.bytes
    chars := t.chars
    wallTime
    throughput := perSecond (t.bytes.toFloat / (1024 * 1024)) seconds
    lineRate := perSecond t.lines.toFloat seconds
    stages := t.order.map fun name => (name, t.spent.getD name 0) }

end TextLines

import TextLines.Document.Config
import TextLines.Line.Cursor

/-!
# Passes over a document

Every question about the lines of a document is answered by a pass: open the source, walk over the
lines as far as needed, release the source. A `Pass` is what such a pass came to, with the cursor it
leaves behind. That cursor is always closed: if closing is the first thing to fail the pass fails
with it, and if the pass has failed already the failure to close is only reported.

The passes differ in the visitor alone: `countLines`, `collect`, `render`, `contains`, `isEmpty`
and `visitLines`.
-/

namespace TextLines

/-- The chunk size from which on no buffer can exist. -/
def maxChunk : Nat := 0x8000000000000000

/-- The memory that a run finds. How much there is is a fact of the machine and of the moment: a
buffer is filled with zeros when it is made, so that addresses alone are not enough. -/
class Room where
  /-- The chunk size from which on there is no memory for a buffer. -/
  limit : Nat
  limit_le : limit ≤ maxChunk

/-- Room for every buffer that can exist. -/
@[reducible] def Room.ample : Room := ⟨maxChunk, Nat.le_refl maxChunk⟩

/-- A cursor over a source that was opened as a configuration asks, or why there is none. -/
def Config.cursor [Room] {σ : Type} (config : Config) (opened : Except Error (Option σ)) :
    Except Error (Cursor σ) :=
  match opened with
  | .error e => .error e
  | .ok none => .error (.opening config.path .noSource)
  | .ok (some source) =>
    if maxChunk ≤ config.chunkBytes then .error .chunkTooLarge
    else if Room.limit ≤ config.chunkBytes then .error .outOfMemory
    else
      .ok { splitter := {
        handle := .held source
        chunkBytes := config.chunkBytes
        maxLineBytes := config.maxLineBytes } }

/-- What a pass came to. -/
structure Pass (α σ : Type) where
  /-- The answer, or why there is none. -/
  result : Except Error α
  /-- The cursor it leaves behind. -/
  cursor : Cursor σ
  /-- A failure to close behind another failure. -/
  unreported : Option Error

namespace Pass

variable {σ : Type} [Source σ]

/-- Ends a pass with the answer found so far. -/
def finish {α : Type} (result : Except Error α) (c : Cursor σ) : Pass α σ :=
  let (e, closed) := c.close
  match result, e with
  | .error first, e => ⟨.error first, closed, e⟩
  | .ok _, some e => ⟨.error e, closed, none⟩
  | .ok a, none => ⟨.ok a, closed, none⟩

/-- Turns the answer into another. -/
def map {α β : Type} (f : α → β) (p : Pass α σ) : Pass β σ :=
  { p with result := p.result.map f }

/-- The number of lines. -/
def countLines (c : Cursor σ) : Pass Nat σ :=
  let w := c.walk (fun _ n => .goOn (n + 1)) 0
  finish w.result w.cursor

/-- All lines in order. -/
def collect (c : Cursor σ) : Pass (List Bytes) σ :=
  let w := c.walk (fun line lines => .goOn (line :: lines)) []
  (finish w.result w.cursor).map List.reverse

/-- All lines with a line feed between neighbours. -/
def render (c : Cursor σ) : Pass Bytes σ :=
  let w := c.walk (fun line lines => .goOn (line :: lines)) []
  (finish w.result w.cursor).map fun lines => List.intercalate [Bytes.lf] lines.reverse

/-- Whether a line is among the lines. The pass ends at the first that equals it. -/
def contains (wanted : Bytes) (c : Cursor σ) : Pass Bool σ :=
  let w := c.walk (fun line found => if line == wanted then .stop true else .goOn found) false
  finish w.result w.cursor

/-- Whether there are no lines at all. -/
def isEmpty (c : Cursor σ) : Pass Bool σ :=
  let (more, c) := c.hasMore
  (finish more c).map not

/-- Hands every line to `visit`, with a state that it may change and a way to give up. The answer is
the number of lines visited, and the state is given beside the pass. -/
def visitLines {α : Type} (visit : Bytes → α → Option Error × α) (a : α) (c : Cursor σ) :
    Pass Nat σ × α :=
  let w := c.walk (a := (a, 0, none)) fun line (state : α × Nat × Option Error) =>
    match visit line state.1 with
    | (none, a) => .goOn (a, state.2.1 + 1, none)
    | (some e, a) => .stop (a, state.2.1, some e)
  let result : Except Error Nat := match w.result with
    | .error e => .error e
    | .ok (_, n, none) => .ok n
    | .ok (_, _, some e) => .error e
  (finish result w.cursor, w.value.1)

end Pass

end TextLines

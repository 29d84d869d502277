import TextLines.Document.Pass

/-!
# A document in use

A `Session` is a document together with everything that is going on around it: the world its source
is opened from, which may change under it, the streams of lines that have been opened, and the
number of lines once it is known. The operations are data (`Op`), and so are their answers, so
that any history of a document is a list and a `Session` is what it leads to.

The number of lines is the only thing the operations share. It is set when counting has gone
through to the end without a failure, and it is never computed again after that.

Released sources are kept in `retired`, and `opens` counts the openings, so that a session shows
what has been asked of every source it ever had.
-/

namespace TextLines

/-- How far an iterator over a stream has come. -/
inductive Iterator where
  /-- There is none. -/
  | absent
  /-- It stands on the line that the stream's buffer shows. -/
  | onLine
  /-- It has passed the last line. -/
  | atEnd
  deriving DecidableEq, Repr

/-- A stream of lines that is in use. -/
structure Stream (σ : Type) where
  /-- The cursor that reads the lines. -/
  cursor : Cursor σ
  /-- Whether a line of the buffer has been lent out. -/
  lent : Bool := false
  /-- The iterator that is kept on the stream. -/
  iterator : Iterator := .absent

/-- An operation on one stream. -/
inductive StreamOp where
  /-- Is there another line? -/
  | hasMore
  /-- The next line, lent from the buffer. -/
  | borrow
  /-- The next line. -/
  | take
  /-- What the lent line shows now. -/
  | lentLine
  /-- Ends the stream. -/
  | close
  /-- Has the stream ended? -/
  | isClosed
  /-- How many bytes of the file have been consumed? -/
  | bytesRead
  /-- Gives the stream up. -/
  | drop
  /-- Iterates over the lines, up to so many of them. -/
  | range (limit : Option Nat)
  /-- Starts an iterator, which takes a line. -/
  | start
  /-- Moves the iterator to the next line. -/
  | advance
  /-- What the iterator shows. -/
  | current

/-- An operation on a document. -/
inductive Op (ω : Type) where
  /-- Opens a stream. -/
  | stream
  /-- Makes a stream that has nothing to read from. -/
  | emptyStream
  /-- The number of lines. -/
  | count
  /-- The number of lines, if it is known. -/
  | knownCount
  /-- Are there no lines? -/
  | isEmpty
  /-- All lines, joined. -/
  | render
  /-- Is this one of the lines? -/
  | contains (line : Bytes)
  /-- All lines, and the bytes consumed for them. -/
  | collect
  /-- Hands out the lines to a visitor that gives up at one of them for a reason, if it is told to,
  and that counts the lines of the document each time, if it is told to. -/
  | visit (giveUp : Option (Nat × Error)) (counting : Bool)
  /-- The world changes. -/
  | change (world : ω)
  /-- An operation on the stream with a number. -/
  | on (number : Nat) (op : StreamOp)

/-- What an operation answers. -/
inductive Answer where
  /-- It is done. -/
  | done
  /-- The number of the new stream. -/
  | opened (number : Nat)
  /-- Yes or no. -/
  | truth (b : Bool)
  /-- A number of lines or of bytes. -/
  | number (n : Nat)
  /-- The number of lines, if it is known. -/
  | known (n : Option Nat)
  /-- A line. -/
  | line (line : Bytes)
  /-- What the line shows that was lent out, if one was. -/
  | lent (line : Option Bytes)
  /-- All lines, joined. -/
  | text (text : Bytes)
  /-- The lines up to the end, to a limit, or to a failure. -/
  | lines (lines : List Bytes) (failure : Option Error)
  /-- All lines, and the bytes consumed for them. -/
  | collected (lines : List Bytes) (bytesRead : Nat)
  /-- The lines a visitor has seen, their number or why it is not known, and the last count. -/
  | visited (seen : List Bytes) (result : Except Error Nat) (counted : Option Nat)
  /-- Whether the iterator has passed the last line. -/
  | iterator (atEnd : Bool)
  /-- It failed. -/
  | failed (e : Error)
  /-- There is no such stream. -/
  | noStream

/-- A document in use. -/
structure Session (ω σ : Type) where
  /-- What the document is. -/
  config : Config
  /-- How its source is opened. -/
  opener : Config → ω → Except Error (Option σ)
  /-- What it is opened from. -/
  world : ω
  /-- The number of lines, once it is known. -/
  lineCount : Option Nat := none
  /-- The streams by number; a stream that was given up leaves a gap. -/
  streams : List (Option (Stream σ)) := []
  /-- How often the source was opened. -/
  opens : Nat := 0
  /-- The sources of finished passes and of streams that were given up, the latest first. -/
  retired : List σ := []
  /-- Failures that were not part of an answer, the latest first. -/
  unreported : List Error := []

namespace Session

variable [Room] {ω σ : Type} [Source σ]

/-- Opens the source for a new cursor. -/
def openCursor (s : Session ω σ) : Except Error (Cursor σ) × Session ω σ :=
  (s.config.cursor (s.opener s.config s.world), { s with opens := s.opens + 1 })

/-- Keeps what a pass leaves behind. -/
def retire {α : Type} (s : Session ω σ) (p : Pass α σ) : Session ω σ :=
  { s with
    retired := p.cursor.source?.toList ++ s.retired
    unreported := p.unreported.toList ++ s.unreported }

/-- Makes a pass over the document. -/
def runPass {α : Type} (s : Session ω σ) (pass : Cursor σ → Pass α σ) :
    Except Error α × Session ω σ :=
  match s.openCursor with
  | (.error e, s) => (.error e, s)
  | (.ok c, s) =>
    let p := pass c
    (p.result, s.retire p)

/-- The number of lines: the known one, or else that of a pass, which is known from then on. -/
def count (s : Session ω σ) : Except Error Nat × Session ω σ :=
  match s.lineCount with
  | some n => (.ok n, s)
  | none =>
    match s.runPass Pass.countLines with
    | (.ok n, s) => (.ok n, { s with lineCount := some n })
    | (.error e, s) => (.error e, s)

/-- Whether there are no lines. -/
def isEmpty (s : Session ω σ) : Except Error Bool × Session ω σ :=
  match s.lineCount with
  | some n => (.ok (n == 0), s)
  | none => s.runPass Pass.isEmpty

/-- What a visitor has seen of a document. -/
structure Visitor (ω σ : Type) where
  /-- The document, apart from the pass the visitor is part of. -/
  session : Session ω σ
  /-- The lines so far, the latest first. -/
  seen : List Bytes := []
  /-- How many they are. -/
  number : Nat := 0
  /-- The number of lines of the document as it was counted last. -/
  counted : Option Nat := none

/-- Counts the lines of the document if the visitor is to. -/
def Visitor.recount (counting : Bool) (v : Visitor ω σ) : Option Error × Visitor ω σ :=
  if counting then
    match v.session.count with
    | (.ok n, session) => (none, { v with session, counted := some n })
    | (.error e, session) => (some e, { v with session })
  else (none, v)

/-- Visits a line: notes it, counts if it is asked to, and gives up if it is time to. -/
def Visitor.see (giveUp : Option (Nat × Error)) (counting : Bool) (line : Bytes)
    (v : Visitor ω σ) : Option Error × Visitor ω σ :=
  let v := { v with seen := line :: v.seen, number := v.number + 1 }
  match v.recount counting with
  | (some e, v) => (some e, v)
  | (none, v) => (giveUp.bind fun (n, e) => if n = v.number then some e else none, v)

/-- Hands the lines to a visitor. -/
def visit (s : Session ω σ) (giveUp : Option (Nat × Error)) (counting : Bool) :
    Answer × Session ω σ :=
  match s.openCursor with
  | (.error e, s) => (.visited [] (.error e) none, s)
  | (.ok c, s) =>
    let (p, v) := Pass.visitLines (Visitor.see giveUp counting) ({ session := s } : Visitor ω σ) c
    (.visited v.seen.reverse p.result v.counted, v.session.retire p)

/-! ## Streams -/

/-- The answer that is a value or a failure. -/
def answer {α : Type} (f : α → Answer) : Except Error α → Answer
  | .ok a => f a
  | .error e => .failed e

/-- Takes the next line for an iterator. -/
def moveIterator (st : Stream σ) : Answer × Stream σ :=
  match st.cursor.hasMore with
  | (.error e, cursor) => (.failed e, { st with cursor })
  | (.ok false, cursor) => (.iterator true, { st with cursor, iterator := .atEnd })
  | (.ok true, cursor) =>
    (.iterator false, { st with cursor := { cursor with mustRead := true }, iterator := .onLine })

/-- Takes lines until there are none or `limit` has been reached. -/
def range (limit : Option Nat) (c : Cursor σ) : Cursor.Walk (List Bytes × Nat) σ :=
  c.walk (a := ([], 0)) fun line (lines, n) =>
    match limit with
    | some most =>
      if most ≤ n + 1 then .stop (line :: lines, n + 1) else .goOn (line :: lines, n + 1)
    | none => .goOn (line :: lines, n + 1)

/-- An operation on a stream. Giving a stream up only closes it here. -/
def streamStep (op : StreamOp) (st : Stream σ) : Answer × Stream σ :=
  match op with
  | .hasMore =>
    let (r, cursor) := st.cursor.hasMore
    (answer .truth r, { st with cursor })
  | .borrow =>
    let (r, cursor) := st.cursor.next
    (answer .line r, { st with cursor, lent := st.lent || r.isOk })
  | .take =>
    let (r, cursor) := st.cursor.next
    (answer .line r, { st with cursor })
  | .lentLine => (.lent (if st.lent then some st.cursor.buffer else none), st)
  | .close | .drop =>
    let (e, cursor) := st.cursor.close
    (match e with
      | some e => .failed e
      | none => .done, { st with cursor })
  | .isClosed => (.truth st.cursor.isClosed, st)
  | .bytesRead => (.number st.cursor.bytesRead, st)
  | .range limit =>
    let w := range limit st.cursor
    let failure := match w.ending with
      | .failed e => some e
      | _ => none
    (.lines w.value.1.reverse failure, { st with cursor := w.cursor })
  | .start => moveIterator st
  | .advance => if st.iterator = .onLine then moveIterator st else (.iterator true, st)
  | .current =>
    if st.iterator = .onLine then (.line st.cursor.buffer, st) else (.iterator true, st)

/-- Gives a stream up. A failure to close it is not part of any answer. -/
def dropStream (s : Session ω σ) (number : Nat) (st : Stream σ) : Session ω σ :=
  let (e, cursor) := st.cursor.close
  { s with
    streams := s.streams.set number none
    retired := cursor.source?.toList ++ s.retired
    unreported := e.toList ++ s.unreported }

/-! ## Operations -/

/-- Adds a stream. -/
def addStream (s : Session ω σ) (c : Cursor σ) : Answer × Session ω σ :=
  (.opened s.streams.length, { s with streams := s.streams ++ [some { cursor := c }] })

/-- Does an operation. -/
def step (s : Session ω σ) (op : Op ω) : Answer × Session ω σ :=
  match op with
  | .stream =>
    match s.openCursor with
    | (.ok c, s) => s.addStream c
    | (.error e, s) => (.failed e, s)
  | .emptyStream => s.addStream { splitter := { handle := .absent } }
  | .count =>
    let (r, s) := s.count
    (answer .number r, s)
  | .knownCount => (.known s.lineCount, s)
  | .isEmpty =>
    let (r, s) := s.isEmpty
    (answer .truth r, s)
  | .render =>
    let (r, s) := s.runPass Pass.render
    (answer .text r, s)
  | .contains line =>
    let (r, s) := s.runPass (Pass.contains line)
    (answer .truth r, s)
  | .collect =>
    let (r, s) := s.runPass fun c =>
      let p := Pass.collect c
      p.map fun lines => (lines, p.cursor.bytesRead)
    (answer (fun r => .collected r.1 r.2) r, s)
  | .visit giveUp counting => s.visit giveUp counting
  | .change world => (.done, { s with world })
  | .on number op =>
    match s.streams[number]?.join, op with
    | none, _ => (.noStream, s)
    | some st, .drop => (.done, s.dropStream number st)
    | some st, op =>
      let (a, st) := streamStep op st
      (a, { s with streams := s.streams.set number (some st) })

/-- Gives up all streams that are left, in the order of their numbers. -/
def finish (s : Session ω σ) : Session ω σ :=
  (List.range s.streams.length).foldl (fun s number => (s.step (.on number .drop)).2) s

/-- Every source the session ever had, in its present state. -/
def sources (s : Session ω σ) : List σ :=
  s.retired ++ s.streams.filterMap fun st => st.bind (·.cursor.source?)

end Session

end TextLines

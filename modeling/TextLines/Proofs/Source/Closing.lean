import Mathlib.Data.List.Permutation
import TextLines.Charset.Decoder
import TextLines.Gzip.Source
import TextLines.Source.File
import TextLines.Source.Memory

/-!
# What a closed source still gives

A source can be closed between any two reads, with bytes in its buffers that nobody has asked for.
A source that is closed should be at its end: it gives nothing, it does not fail, it can be closed
again without effect, and what it has consumed stays what it is (`Source.AtEnd`).

Files and gzip files are at their end whatever was in their buffers. A decoder is not: it converts
nothing any more, but it gives what it has converted before (`Decoder.replies_of_closed`). So a
source is at its end after it has been closed exactly if it has no converted text left at that point
of its history (`SourceKind.atEnd_iff`).

`SourceKind` names the sources there are, files and gzip files with any number of decoders in front
of them, and decoders over data in memory.
-/

namespace TextLines

namespace Source

variable {σ τ : Type} [Source σ] [Source τ]

/-! ## Histories -/

/-- What can be asked of a source. -/
inductive Request where
  /-- At most so many bytes. -/
  | read (n : Nat)
  /-- To be closed. -/
  | close
  /-- How many bytes of the file have been consumed. -/
  | bytesRead

/-- What a source replies. -/
inductive Reply where
  /-- Bytes, or why there are none. -/
  | gave (result : Except Error Bytes)
  /-- It is closed, and that may have failed. -/
  | closed (failure : Option Error)
  /-- So many bytes have been consumed. -/
  | consumed (count : Nat)

/-- Asks something of a source. -/
def ask (request : Request) (s : σ) : Reply × σ :=
  match request with
  | .read n => let (r, s') := read n s; (.gave r, s')
  | .close => let (e, s') := close s; (.closed e, s')
  | .bytesRead => (.consumed (bytesRead s), s)

/-- The source after a history of requests. -/
def after (requests : List Request) (s : σ) : σ :=
  requests.foldl (fun s request => (ask request s).2) s

/-- What a source replies to one request after the other. -/
def replies : List Request → σ → List Reply
  | [], _ => []
  | request :: requests, s => (ask request s).1 :: replies requests (ask request s).2

/-- The reply of a source that is at its end and has consumed `count` bytes. -/
def Request.replyAtEnd (count : Nat) : Request → Reply
  | .read _ => .gave (.ok [])
  | .close => .closed none
  | .bytesRead => .consumed count

/-- The source gives nothing, whatever is asked of it and in what order. -/
def AtEnd (s : σ) : Prop :=
  ∀ requests, replies requests s = requests.map (Request.replyAtEnd (bytesRead s))

/-- The replies of a source of which nothing is left but some bytes. -/
def repliesOf (kept : Bytes) (count : Nat) : List Request → List Reply
  | [] => []
  | .read n :: requests => .gave (.ok (kept.take n)) :: repliesOf (kept.drop n) count requests
  | request :: requests => request.replyAtEnd count :: repliesOf kept count requests

theorem repliesOf_nil (count : Nat) (requests : List Request) :
    repliesOf [] count requests = requests.map (Request.replyAtEnd count) := by
  induction requests with
  | nil => rfl
  | cons request requests ih => cases request <;> simp [repliesOf, Request.replyAtEnd, ih]

/-- A source of which some bytes are left is at its end if they are none. -/
theorem atEnd_iff_of_replies {s : σ} {kept : Bytes}
    (h : ∀ requests, replies requests s = repliesOf kept (bytesRead s) requests) :
    AtEnd s ↔ kept = [] := by
  constructor
  · intro hend
    have hread : repliesOf kept (bytesRead s) [.read kept.length] = [.gave (.ok [])] :=
      (h _).symm.trans (hend _)
    simpa [repliesOf] using hread
  · rintro rfl requests
    rw [h, repliesOf_nil]

/-! ## Sources at rest -/

/-- A source that reading and closing leave as it is is at its end. -/
theorem replies_of_atRest {s : σ} (hread : ∀ n, read n s = (.ok [], s))
    (hclose : close s = (none, s)) (requests : List Request) :
    replies requests s = repliesOf [] (bytesRead s) requests := by
  induction requests with
  | nil => rfl
  | cons request requests ih =>
    cases request with
    | read n =>
      simp only [replies, ask, hread, repliesOf, List.take_nil, List.drop_nil, ih]
    | close => simp only [replies, ask, hclose, repliesOf, Request.replyAtEnd, ih]
    | bytesRead => simp only [replies, ask, repliesOf, Request.replyAtEnd, ih]

theorem replies_inl (requests : List Request) (s : σ) :
    replies requests (.inl s : σ ⊕ τ) = replies requests s := by
  induction requests generalizing s with
  | nil => rfl
  | cons request requests ih =>
    cases request <;> exact congrArg (List.cons _) (ih _)

theorem replies_inr (requests : List Request) (t : τ) :
    replies requests (.inr t : σ ⊕ τ) = replies requests t := by
  induction requests generalizing t with
  | nil => rfl
  | cons request requests ih =>
    cases request <;> exact congrArg (List.cons _) (ih _)

/-- Closing again does nothing, and closing consumes nothing. -/
structure ClosesOnce (s : σ) : Prop where
  again : close (close s).2 = (none, (close s).2)
  bytesRead : bytesRead (close s).2 = bytesRead s

end Source

/-! ## The sources -/

open Source

theorem FileSource.closesOnce (s : FileSource) : ClosesOnce s := ⟨rfl, rfl⟩

theorem FileSource.replies_after_close (s : FileSource) (requests : List Request) :
    replies requests (close s).2 = repliesOf [] (bytesRead s) requests := by
  refine replies_of_atRest (fun n => ?_) rfl requests
  show FileSource.read n s.close.2 = _
  rw [FileSource.read]
  rfl

theorem GzipSource.closesOnce (s : GzipSource) : ClosesOnce s := ⟨rfl, rfl⟩

/-- What a gzip file has decompressed or read ahead is not given any more. -/
theorem GzipSource.replies_after_close (s : GzipSource) (requests : List Request) :
    replies requests (close s).2 = repliesOf [] (bytesRead s) requests := by
  refine replies_of_atRest (fun n => ?_) rfl requests
  show GzipSource.read n s.close.2 = _
  rw [GzipSource.read]
  rfl

theorem Memory.closesOnce (m : Memory) : ClosesOnce m := by
  have hclose : Source.close m = if m.closed then (none, m)
      else (m.closeFault, { m with closed := true }) := rfl
  cases hclosed : m.closed with
  | true =>
    rw [hclosed, if_pos rfl] at hclose
    exact ⟨by rw [hclose]; exact hclose, by rw [hclose]⟩
  | false =>
    rw [hclosed, if_neg Bool.false_ne_true] at hclose
    exact ⟨by rw [hclose]; rfl, by rw [hclose]; rfl⟩

namespace Decoder

variable {σ : Type} [Source σ]

theorem closesOnce {d : Decoder σ} (h : ClosesOnce d.inner) : ClosesOnce d where
  again := by
    show d.close.2.close = (none, d.close.2)
    simp only [close, h.again]
  bytesRead := h.bytesRead

theorem read_of_closed {d : Decoder σ} (hclosed : d.closed = true) (n : Nat) :
    Source.read n d = (.ok (d.ready.take n), { d with ready := d.ready.drop n }) := by
  show d.read n = _
  rw [read]
  split
  · rename_i hn
    rw [hn]
    rfl
  · simp only [hclosed, Bool.not_true, Bool.and_false, Bool.false_eq_true, if_false,
      List.splitAt_eq]

/-- A closed decoder gives what it has converted before, and nothing else. -/
theorem replies_of_closed {d : Decoder σ} (hclosed : d.closed = true)
    (hinner : Source.close d.inner = (none, d.inner)) (requests : List Request) :
    replies requests d = repliesOf d.ready (Source.bytesRead d.inner) requests := by
  induction requests generalizing d with
  | nil => rfl
  | cons request requests ih =>
    cases request with
    | read n =>
      simp only [replies, ask, read_of_closed hclosed, repliesOf]
      exact congrArg (List.cons _) (ih (d := { d with ready := d.ready.drop n }) hclosed hinner)
    | close =>
      have hclose : Source.close d = (none, d) := by
        show d.close = _
        rw [close, hinner, ← hclosed]
      simp only [replies, ask, hclose, repliesOf, Request.replyAtEnd, ih hclosed hinner]
    | bytesRead =>
      have hcount : Source.bytesRead d = Source.bytesRead d.inner := rfl
      simp only [replies, ask, hcount, repliesOf, Request.replyAtEnd, ih hclosed hinner]

theorem replies_after_close {d : Decoder σ} (h : ClosesOnce d.inner) (requests : List Request) :
    replies requests (Source.close d).2 = repliesOf d.ready (Source.bytesRead d) requests := by
  have hreplies := replies_of_closed (d := (Source.close d).2) rfl h.again requests
  rw [hreplies]
  exact congrArg (repliesOf d.ready · requests) h.bytesRead

end Decoder

/-- How a source is put together. -/
inductive SourceKind where
  /-- A file. -/
  | file
  /-- A gzip file. -/
  | gzip
  /-- A source of either kind. -/
  | either (kind other : SourceKind)
  /-- A decoder over a source. -/
  | decoded (kind : SourceKind)
  /-- A decoder over data in memory. -/
  | decodedMemory

namespace SourceKind

/-- The states of a source. -/
def State : SourceKind → Type
  | .file => FileSource
  | .gzip => GzipSource
  | .either kind other => kind.State ⊕ other.State
  | .decoded kind => Decoder kind.State
  | .decodedMemory => Decoder Memory

instance source : (kind : SourceKind) → Source kind.State
  | .file => inferInstanceAs (Source FileSource)
  | .gzip => inferInstanceAs (Source GzipSource)
  | .either kind other =>
    have := source kind
    have := source other
    inferInstanceAs (Source (kind.State ⊕ other.State))
  | .decoded kind =>
    have := source kind
    inferInstanceAs (Source (Decoder kind.State))
  | .decodedMemory => inferInstanceAs (Source (Decoder Memory))

/-- Text that has been converted and not been given yet. -/
def kept : (kind : SourceKind) → kind.State → Bytes
  | .file, _ => []
  | .gzip, _ => []
  | .either kind _, .inl s => kind.kept s
  | .either _ other, .inr s => other.kept s
  | .decoded _, d => Decoder.ready d
  | .decodedMemory, d => Decoder.ready d

theorem closesOnce : (kind : SourceKind) → (s : kind.State) → ClosesOnce s
  | .file, s => FileSource.closesOnce s
  | .gzip, s => GzipSource.closesOnce s
  | .either kind _, .inl s =>
    let h := closesOnce kind s
    ⟨congrArg (Prod.map id Sum.inl) h.again, h.bytesRead⟩
  | .either _ other, .inr s =>
    let h := closesOnce other s
    ⟨congrArg (Prod.map id Sum.inr) h.again, h.bytesRead⟩
  | .decoded kind, d => Decoder.closesOnce (closesOnce kind (Decoder.inner d))
  | .decodedMemory, d => Decoder.closesOnce (Memory.closesOnce (Decoder.inner d))

/-- After a source has been closed it gives the text that it had converted before, and that is
all. -/
theorem replies_after_close (kind : SourceKind) (s : kind.State) (requests : List Request) :
    replies requests (close s).2 = repliesOf (kind.kept s) (bytesRead s) requests := by
  induction kind with
  | file => exact FileSource.replies_after_close s requests
  | gzip => exact GzipSource.replies_after_close s requests
  | either kind other ih ih' =>
    cases s with
    | inl s => exact (replies_inl requests _).trans (ih s)
    | inr s => exact (replies_inr requests _).trans (ih' s)
  | decoded kind => exact Decoder.replies_after_close (closesOnce kind _) requests
  | decodedMemory => exact Decoder.replies_after_close (Memory.closesOnce _) requests

/-- Whatever has been asked of a source, when it is closed then it is at its end, with the number of
bytes that it has consumed by then, exactly if it has given all of the text that it has converted.
If it has not, it gives that text yet. -/
theorem atEnd_iff (kind : SourceKind) (opened : kind.State) (before : List Request) :
    let s := after before opened
    let closed := (close s).2
    (AtEnd closed ↔ kind.kept s = []) ∧ bytesRead closed = bytesRead s ∧
      ∀ requests, replies requests closed = repliesOf (kind.kept s) (bytesRead s) requests := by
  intro s closed
  have hreplies := replies_after_close kind s
  have hcount : bytesRead closed = bytesRead s := (closesOnce kind s).bytesRead
  refine ⟨atEnd_iff_of_replies ?_, hcount, hreplies⟩
  rw [hcount]
  exact hreplies

/-- A decoder that is closed between two letters gives the second one all the same. -/
theorem not_atEnd_of_decoded :
    let opened : Decoder Memory :=
      { inner := { rest := Bytes.ascii "ab", step := 2 }, encoding := .plain .utf8 }
    replies [.read 1, .close, .read 1] opened =
        [.gave (.ok (Bytes.ascii "a")), .closed none, .gave (.ok (Bytes.ascii "b"))] ∧
      ¬ AtEnd (close (after [.read 1] opened)).2 := by
  intro opened
  have hreplies : replies [.read 1, .close, .read 1] opened =
      [.gave (.ok (Bytes.ascii "a")), .closed none, .gave (.ok (Bytes.ascii "b"))] := by cbv
  refine ⟨hreplies, fun hend => ?_⟩
  have hlast : replies [.read 1] (close (after [.read 1] opened)).2 =
      [.gave (.ok (Bytes.ascii "b"))] := congrArg (List.drop 2) hreplies
  cases hlast.symm.trans (hend [.read 1])

end SourceKind

end TextLines

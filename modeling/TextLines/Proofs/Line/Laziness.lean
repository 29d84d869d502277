import TextLines.Proofs.Line.Splitting
import TextLines.Proofs.Source.Serving

/-!
# Nothing is read ahead of need

A splitter asks its source for bytes when it has consumed all that it holds, and at no other time.
So what the source has served is always what the lines and their terminators have consumed, and at
most one chunk (`Splitter.Draws`).

What calls have consumed is told from what they have shown: `Splitter.Takes` says which bytes a call
has consumed, and `Splitter.Consumed` puts the calls together. The reads that a call makes are those
of `Splitter.Fetches`: before each of them all bytes that were served have been consumed, the last
of them by a line that has not ended yet (`Splitter.Needs`).

`Draws.scan` is the induction over the loop, and `Draws.readLine` is the call. The result for any
number of calls is `readLine_lazy`.
-/

namespace TextLines

namespace Line

open Bytes

/-- A line feed behind the text would belong to a carriage return at its end. -/
def endsInCr (text : Bytes) : Bool :=
  text.getLast? == some cr

theorem endsInCr_append_singleton (text : Bytes) (b : UInt8) :
    endsInCr (text ++ [b]) = (b == cr) := by
  simp [endsInCr]

theorem endsInCr_append_of_unterminated (text : Bytes) {piece : Bytes} (hpiece : Unterminated piece)
    (hne : piece ≠ []) : endsInCr (text ++ piece) = false := by
  obtain ⟨front, b, rfl⟩ := List.eq_nil_or_concat piece |>.resolve_left hne
  have hb := hpiece b (by simp)
  rw [List.concat_eq_append, ← List.append_assoc, endsInCr_append_singleton]
  simp only [isTerminator, Bool.or_eq_false_iff] at hb
  exact hb.2

theorem dropLf_append {text : Bytes} (hne : text ≠ []) (afterCr : Bool) (more : Bytes) :
    dropLf afterCr (text ++ more) = dropLf afterCr text ++ more := by
  cases text with
  | nil => exact absurd rfl hne
  | cons b text =>
    by_cases hb : b = lf
    · subst hb
      cases afterCr
      · simp
      · rfl
    · rw [List.cons_append, dropLf_cons_of_ne hb, dropLf_cons_of_ne hb, List.cons_append]

end Line

namespace Splitter

open Bytes
open Line (dropLf endsInCr Unterminated)

variable {σ : Type} [Source σ] {size : Nat} {before taken part : Bytes}

/-! ## What calls consume and fetch -/

/-- `taken` is what a call has consumed behind `before`, and not more than `size` bytes are asked
for at a time. A line feed in front of it belongs to the line before if that has ended in a carriage
return. -/
inductive Takes (size : Nat) (before taken : Bytes) : Reading σ → Prop where
  /-- A line and the byte that has ended it. Behind it there is less than a chunk. -/
  | line {line : Bytes} {t : UInt8} {next : Splitter σ}
      (htaken : dropLf (endsInCr before) taken = line ++ [t]) (hline : Unterminated line)
      (ht : Line.isTerminator t = true) (hahead : next.chunk.length < size) :
      Takes size before taken ⟨.ok true, line, next⟩
  /-- A last line without a terminator. The source has ended, and nothing is behind the line. -/
  | last {line : Bytes} {next : Splitter σ} (htaken : dropLf (endsInCr before) taken = line)
      (hline : Unterminated line) (hne : line ≠ []) (hended : next.ended = true)
      (hnone : next.chunk = []) : Takes size before taken ⟨.ok true, line, next⟩
  /-- No line. -/
  | finished {next : Splitter σ} (htaken : dropLf (endsInCr before) taken = [])
      (hended : next.ended = true) (hnone : next.chunk = []) :
      Takes size before taken ⟨.ok false, [], next⟩
  /-- A part of a line in front of a failure. -/
  | failed {e : Error} {part : Bytes} {next : Splitter σ}
      (htaken : dropLf (endsInCr before) taken = part) (hpart : Unterminated part) :
      Takes size before taken ⟨.error e, part, next⟩

/-- Some calls, one after the other, have consumed the bytes between `before` and `after`. -/
inductive Consumed (size : Nat) : Bytes → List (Reading σ) → Bytes → Prop where
  | nil {before : Bytes} : Consumed size before [] before
  | cons {before taken after : Bytes} {r : Reading σ} {readings : List (Reading σ)}
      (htakes : Takes size before taken r)
      (hrest : Consumed size (before ++ taken) readings after) :
      Consumed size before (r :: readings) after

/-- Behind `before` nothing has been served but a part of one line, which has not ended. -/
def Needs (before : Bytes) (reads : List Serving) : Prop :=
  ∃ taken, Serving.allBytes reads = before ++ taken ∧ Unterminated (dropLf (endsInCr before) taken)

/-- Between two lists of reads of a source, each of those that were added has asked for `size` bytes
when all others had been consumed, and the source had not come to its end. -/
inductive Fetches (size : Nat) (before : Bytes) : List Serving → List Serving → Prop where
  | none {reads : List Serving} : Fetches size before reads reads
  | fetch {reads reads' : List Serving} {given : Except Error Bytes} (hneeds : Needs before reads)
      (hgoesOn : ¬ Serving.Ended reads)
      (hrest : Fetches size before (⟨size, given⟩ :: reads) reads') :
      Fetches size before reads reads'

omit [Source σ] in
theorem Fetches.of_refill {src src' : Served σ} {reads : List Serving}
    (hneeds : Needs before src.reads)
    (h : src' = src ∨ ¬ Serving.Ended src.reads ∧
      ∃ given, src'.reads = ⟨size, given⟩ :: src.reads)
    (hrest : Fetches size before src'.reads reads) : Fetches size before src.reads reads := by
  rcases h with rfl | ⟨hgoesOn, given, hreads⟩
  · exact hrest
  · rw [hreads] at hrest
    exact .fetch hneeds hgoesOn hrest

/-! ## The account of a splitter -/

/-- The splitter holds a source that has served what has been consumed and what is in the chunk. -/
structure Draws (size : Nat) (s : Splitter (Served σ)) (src : Served σ) (consumed : Bytes) :
    Prop where
  held : s.handle = .held src
  asks : max s.chunkBytes 1 = size
  served : src.bytes = consumed ++ s.chunk
  buffered : s.chunk.length ≤ size
  ended : s.ended = true ↔ Serving.Ended src.reads
  behind : ∀ rest, dropLf s.afterCr (s.chunk ++ rest) = dropLf (endsInCr consumed) (s.chunk ++ rest)

omit [Source σ] in
theorem draws_of_held (source : σ) (chunkBytes limit : Nat) :
    Draws (max chunkBytes 1)
      { handle := .held { inner := source }, chunkBytes, maxLineBytes := limit }
      { inner := source } [] where
  held := rfl
  asks := rfl
  served := rfl
  buffered := Nat.zero_le _
  ended := ⟨fun h => (by cases h), fun h => absurd h Serving.not_ended_nil⟩
  behind _ := rfl

/-- A chunk is fetched if the source has not come to its end. -/
theorem Draws.refill {s s' : Splitter (Served σ)} {src : Served σ} {consumed : Bytes}
    {r : Except Error Bool} (h : s.Draws size src consumed) (hchunk : s.chunk = [])
    (hr : s.refill = (r, s')) :
    ∃ src', s'.Draws size src' consumed ∧ (r ≠ .ok true → s'.chunk = []) ∧
      (r = .ok false → s'.ended = true) ∧
      (src' = src ∨ ¬ Serving.Ended src.reads ∧
        ∃ given, src'.reads = ⟨size, given⟩ :: src.reads) := by
  unfold Splitter.refill at hr
  rw [h.held] at hr
  dsimp only at hr
  by_cases hended : s.ended = true
  · rw [if_pos hended] at hr
    obtain ⟨rfl, rfl⟩ := Prod.mk.inj hr
    exact ⟨src, h, fun _ => hchunk, fun _ => hended, .inl rfl⟩
  have hgoesOn : ¬ Serving.Ended src.reads := fun hsrc => hended (h.ended.mpr hsrc)
  have hserved : src.bytes = consumed := by rw [h.served, hchunk, List.append_nil]
  rw [if_neg hended, h.asks] at hr
  rcases hread : Source.read size src with ⟨e | piece, src'⟩
  · have hreads := Served.reads_of_read hread
    rw [hread] at hr
    obtain ⟨rfl, rfl⟩ := Prod.mk.inj hr
    refine ⟨src', ⟨rfl, h.asks, ?_, h.buffered, ?_, h.behind⟩, fun _ => hchunk, by simp,
      .inr ⟨hgoesOn, _, hreads⟩⟩
    · rw [Served.bytes, hreads, hchunk, ← hserved]
      rfl
    · rw [hreads, Serving.ended_cons]
      simp [hended, hgoesOn]
  · have hreads := Served.reads_of_read hread
    rw [hread] at hr
    obtain ⟨rfl, rfl⟩ := Prod.mk.inj hr
    refine ⟨src', ⟨rfl, h.asks, ?_, Source.read_length hread, ?_, ?_⟩, fun hnone => ?_,
      fun hnone => ?_, .inr ⟨hgoesOn, _, hreads⟩⟩
    · rw [Served.bytes, hreads, ← hserved]
      rfl
    · rw [hreads, Serving.ended_cons]
      simp [hgoesOn]
    · intro rest
      have hbehind := h.behind (piece ++ rest)
      rwa [hchunk, List.nil_append] at hbehind
    · simpa using hnone
    · simpa using hnone

/-- A part of a line has been read in a call, for which `taken` has been consumed behind
`before`. -/
structure Inside (before taken part : Bytes) : Prop where
  consumed : dropLf (endsInCr before) taken = part
  unterminated : Unterminated part
  behind : taken ≠ [] → endsInCr (before ++ taken) = false

theorem inside_nil (before : Bytes) : Inside before [] [] :=
  ⟨Line.dropLf_nil _, by simp [Unterminated], fun h => absurd rfl h⟩

section Chunk

variable {s : Splitter (Served σ)} {src : Served σ} {b : UInt8} {rest : Bytes}

omit [Source σ] in
/-- The line feed that belongs to the line before is consumed at the beginning of a call. -/
theorem Draws.skip (h : s.Draws size src (before ++ taken)) (hin : Inside before taken part)
    (hc : s.chunk = b :: rest) (hlf : (s.afterCr && b == lf) = true) :
    ({ s with chunk := rest, afterCr := false } : Splitter (Served σ)).Draws size src
      (before ++ (taken ++ [b])) ∧ Inside before (taken ++ [b]) part := by
  simp only [Bool.and_eq_true, beq_iff_eq] at hlf
  obtain ⟨hcr, rfl⟩ := hlf
  have hbehind := h.behind []
  rw [hc, hcr, List.append_nil, Line.dropLf_lf_cons] at hbehind
  have hends : endsInCr (before ++ taken) = true := by
    by_contra hnot
    rw [Bool.not_eq_true] at hnot
    rw [hnot, Line.dropLf_false] at hbehind
    exact List.cons_ne_self _ _ hbehind.symm
  have htaken : taken = [] := by
    by_contra hne
    cases hends.symm.trans (hin.behind hne)
  subst htaken
  obtain rfl : [] = part := (Line.dropLf_nil _).symm.trans hin.consumed
  rw [List.append_nil] at hends
  have hafter : endsInCr (before ++ [lf]) = false := Line.endsInCr_append_singleton before lf
  refine ⟨⟨h.held, h.asks, ?_, ?_, h.ended, fun more => ?_⟩, ?_, hin.unterminated, fun _ => hafter⟩
  · have hserved := h.served
    rw [hc] at hserved
    simpa using hserved
  · have hbuffered := h.buffered
    rw [hc, List.length_cons] at hbuffered
    exact Nat.le_of_succ_le hbuffered
  · rw [List.nil_append, hafter]
  · rw [hends, List.nil_append, Line.dropLf_lf_cons]

omit [Source σ] in
/-- Any other byte at the front of the chunk is part of the line. -/
theorem Draws.dropLf_cons (h : s.Draws size src (before ++ taken)) (hin : Inside before taken part)
    (hc : s.chunk = b :: rest) (hlf : ¬(s.afterCr && b == lf) = true) (more : Bytes) :
    dropLf (endsInCr (before ++ taken)) (b :: more) = b :: more ∧
      dropLf (endsInCr before) (taken ++ b :: more) = part ++ b :: more := by
  have hfront : dropLf (endsInCr (before ++ taken)) (b :: more) = b :: more := by
    by_cases hb : b = lf
    · subst hb
      have hcr : s.afterCr = false := by simpa using hlf
      have hbehind := h.behind []
      rw [hc, hcr, Line.dropLf_false, List.append_nil] at hbehind
      cases hends : endsInCr (before ++ taken) with
      | false => rw [Line.dropLf_false]
      | true =>
        rw [hends, Line.dropLf_lf_cons] at hbehind
        exact absurd hbehind (List.cons_ne_self _ _)
    · rw [Line.dropLf_cons_of_ne hb]
  refine ⟨hfront, ?_⟩
  by_cases htaken : taken = []
  · subst htaken
    obtain rfl : [] = part := (Line.dropLf_nil _).symm.trans hin.consumed
    rwa [List.append_nil] at hfront
  · rw [Line.dropLf_append htaken, hin.consumed]

omit [Source σ] in
/-- A chunk without a terminator goes to the line as a whole. -/
theorem Draws.whole (h : s.Draws size src (before ++ taken)) (hin : Inside before taken part)
    (hc : s.chunk = b :: rest) (hlf : ¬(s.afterCr && b == lf) = true)
    (hchunk : Unterminated s.chunk) :
    ({ s with chunk := [], afterCr := false } : Splitter (Served σ)).Draws size src
      (before ++ (taken ++ s.chunk)) ∧ Inside before (taken ++ s.chunk) (part ++ s.chunk) := by
  have hafter : endsInCr (before ++ (taken ++ s.chunk)) = false := by
    rw [← List.append_assoc]
    exact Line.endsInCr_append_of_unterminated _ hchunk (by simp [hc])
  refine ⟨⟨h.held, h.asks, ?_, Nat.zero_le _, h.ended, fun more => ?_⟩, ?_, ?_, fun _ => hafter⟩
  · rw [h.served, List.append_nil, List.append_assoc]
  · rw [hafter]
  · rw [hc]
    exact (h.dropLf_cons hin hc hlf rest).2
  · intro x hx
    rcases List.mem_append.mp hx with hx | hx
    · exact hin.unterminated x hx
    · exact hchunk x hx

omit [Source σ] in
/-- A terminator in the chunk ends the line. -/
theorem Draws.terminated (h : s.Draws size src (before ++ taken)) (hin : Inside before taken part)
    (hc : s.chunk = b :: rest) (hlf : ¬(s.afterCr && b == lf) = true) {piece tail : Bytes}
    {t : UInt8} (hchunk : s.chunk = piece ++ t :: tail) (lines : Nat) :
    ({ s with chunk := tail, afterCr := t == cr, lines } : Splitter (Served σ)).Draws size src
        (before ++ (taken ++ (piece ++ [t]))) ∧
      dropLf (endsInCr before) (taken ++ (piece ++ [t])) = part ++ (piece ++ [t]) ∧
      tail.length < size := by
  have hfront : ∃ more, piece ++ [t] = b :: more := by
    rw [hc] at hchunk
    cases piece with
    | nil => exact ⟨[], by rw [(List.cons.inj hchunk).1]; rfl⟩
    | cons x piece => exact ⟨piece ++ [t], by rw [(List.cons.inj hchunk).1]; rfl⟩
  have hafter : endsInCr (before ++ (taken ++ (piece ++ [t]))) = (t == cr) := by
    rw [← List.append_assoc, ← List.append_assoc, Line.endsInCr_append_singleton]
  have hlength := h.buffered
  rw [hchunk, List.length_append, List.length_cons] at hlength
  refine ⟨⟨h.held, h.asks, ?_, ?_, h.ended, fun more => ?_⟩, ?_, ?_⟩
  · rw [h.served, hchunk]
    simp
  · dsimp only
    omega
  · rw [hafter]
  · obtain ⟨more, hmore⟩ := hfront
    rw [hmore]
    exact (h.dropLf_cons hin hc hlf more).2
  · omega

end Chunk

/-! ## The loop -/

omit [Source σ] in
theorem Draws.needs {s : Splitter (Served σ)} {src : Served σ}
    (h : s.Draws size src (before ++ taken)) (hin : Inside before taken part)
    (hc : s.chunk = []) : Needs before src.reads := by
  have hserved := h.served
  rw [hc, List.append_nil] at hserved
  exact ⟨taken, hserved, by rw [hin.consumed]; exact hin.unterminated⟩

/-- The loop. In it `taken` is what has been consumed since the call, and `acc` is the part of the
line that has been read, last byte first. -/
theorem Draws.scan {s : Splitter (Served σ)} {src : Served σ} {acc : Bytes} (length : Nat)
    (h : s.Draws size src (before ++ taken)) (hin : Inside before taken acc.reverse) :
    ∃ src' taken', (s.scan acc length).next.Draws size src' (before ++ taken') ∧
      Takes size before taken' (s.scan acc length) ∧
      Fetches size before src.reads src'.reads := by
  fun_induction Splitter.scan s acc length generalizing src taken with
  | case1 s acc length hc s' hr ih =>
    obtain ⟨src', hdraws, -, -, hreads⟩ := h.refill hc hr
    obtain ⟨src'', taken', hdraws', htakes, hfetches⟩ := ih hdraws hin
    exact ⟨src'', taken', hdraws', htakes, .of_refill (h.needs hin hc) hreads hfetches⟩
  | case2 s acc length hc s' hr hnil =>
    obtain ⟨src', hdraws, hchunk, hended, hreads⟩ := h.refill hc hr
    have hpart := hin.consumed
    rw [List.isEmpty_iff.mp hnil] at hpart
    refine ⟨src', taken, hdraws, .finished hpart (hended rfl) (hchunk (by simp)), ?_⟩
    exact .of_refill (h.needs hin hc) hreads .none
  | case3 s acc length hc s' hr hne =>
    obtain ⟨src', hdraws, hchunk, hended, hreads⟩ := h.refill hc hr
    refine ⟨src', taken, ⟨hdraws.held, hdraws.asks, hdraws.served, hdraws.buffered, hdraws.ended,
      hdraws.behind⟩, ?_, .of_refill (h.needs hin hc) hreads .none⟩
    exact .last hin.consumed hin.unterminated (by simpa using hne) (hended rfl) (hchunk (by simp))
  | case4 s acc length hc e s' hr =>
    obtain ⟨src', hdraws, -, -, hreads⟩ := h.refill hc hr
    exact ⟨src', taken, hdraws, .failed hin.consumed hin.unterminated,
      .of_refill (h.needs hin hc) hreads .none⟩
  | case5 s acc length b rest hc hlf ih =>
    obtain ⟨hdraws, hin'⟩ := h.skip hin hc hlf
    exact ih hdraws hin'
  | case6 s acc length b rest hc hlf =>
    refine ⟨src, taken, ⟨h.held, h.asks, h.served, h.buffered, h.ended, fun more => ?_⟩,
      .failed hin.consumed hin.unterminated, .none⟩
    dsimp only
    rw [Line.dropLf_false, hc, List.cons_append]
    exact (h.dropLf_cons hin hc hlf _).1.symm
  | case7 s acc length b rest hc hlf piece length' hlim =>
    rename_i ht ih
    have hwhole : piece = s.chunk := by
      have hsplit := List.takeWhile_append_dropWhile (p := (!Line.isTerminator ·)) (l := s.chunk)
      rwa [ht, List.append_nil] at hsplit
    have hchunk : Unterminated s.chunk := by
      rw [← hwhole]
      exact fun x hx => by simpa using List.mem_takeWhile_imp hx
    obtain ⟨hdraws, hin'⟩ := h.whole hin hc hlf hchunk
    refine ih hdraws ?_
    rw [List.reverse_append, List.reverse_reverse, hwhole]
    exact hin'
  | case8 s acc length b rest hc hlf piece length' hlim t =>
    rename_i tail ht
    obtain ⟨hchunk, hterm⟩ := chunk_eq_piece_append ht
    obtain ⟨hdraws, htaken, htail⟩ := h.terminated hin hc hlf hchunk (s.lines + 1)
    rw [← List.append_assoc acc.reverse] at htaken
    exact ⟨src, _, hdraws, .line htaken (unterminated_append_piece hin.unterminated) hterm htail,
      .none⟩

/-- One call. -/
theorem Draws.readLine {s : Splitter (Served σ)} {src : Served σ}
    (h : s.Draws size src before) :
    ∃ src' taken, s.readLine.next.Draws size src' (before ++ taken) ∧
      Takes size before taken s.readLine ∧ Fetches size before src.reads src'.reads := by
  rw [← List.append_nil before] at h
  have hin : Inside before [] ([] : Bytes).reverse := inside_nil before
  obtain ⟨src', taken, hcall⟩ := h.scan 0 hin
  exact ⟨src', taken, hcall⟩

/-! ## Any number of calls -/

/-- The splitter after so many calls. -/
def after : Nat → Splitter σ → Splitter σ
  | 0, s => s
  | n + 1, s => after n s.readLine.next

theorem Draws.after {s : Splitter (Served σ)} {src : Served σ} (h : s.Draws size src before)
    (n : Nat) :
    ∃ src' consumed, (Splitter.after n s).Draws size src' consumed ∧
      Consumed size before (s.readings n) consumed := by
  induction n generalizing s src before with
  | zero => exact ⟨src, before, h, .nil⟩
  | succ n ih =>
    obtain ⟨src', taken, hdraws, htakes, -⟩ := h.readLine
    obtain ⟨src'', consumed, hdraws', hconsumed⟩ := ih hdraws
    exact ⟨src'', consumed, hdraws', .cons htakes hconsumed⟩

/-- After any number of calls a source has served what they have consumed and at most one chunk. The
next call asks for bytes when all of them have been consumed and if the source has not ended, and
what it hands out is the last thing that it consumes. -/
theorem readLine_lazy (source : σ) (chunkBytes limit n : Nat) :
    let size := max chunkBytes 1
    let start : Splitter (Served σ) :=
      { handle := .held { inner := source }, chunkBytes, maxLineBytes := limit }
    let s := after n start
    ∃ src consumed, s.handle = .held src ∧ Consumed size [] (start.readings n) consumed ∧
      src.bytes = consumed ++ s.chunk ∧ s.chunk.length ≤ size ∧
      ∃ src' taken, s.readLine.next.handle = .held src' ∧
        Takes size consumed taken s.readLine ∧
        src'.bytes = consumed ++ taken ++ s.readLine.next.chunk ∧
        Fetches size consumed src.reads src'.reads := by
  intro size start s
  obtain ⟨src, consumed, hdraws, hconsumed⟩ := (draws_of_held source chunkBytes limit).after n
  obtain ⟨src', taken, hdraws', htakes, hfetches⟩ := hdraws.readLine
  exact ⟨src, consumed, hdraws.held, hconsumed, hdraws.served, hdraws.buffered, src', taken,
    hdraws'.held, htakes, hdraws'.served, hfetches⟩

end Splitter

end TextLines

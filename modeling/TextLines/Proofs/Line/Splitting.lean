import Mathlib.Data.List.TakeWhile
import TextLines.Line.Splitter
import TextLines.Proofs.Line.Cut
import TextLines.Proofs.Source.Delivery

/-!
# A splitter hands out the lines of its source

`Splitter.Ahead R s text` is the invariant of a splitter: `text` is what it still has to cut, part
of it in its chunk and part of it in its source, to which `R` relates it. How the text is spread
over the two, and how the source will serve its part, does not show in `text`.

`Splitter.Outcome` lists what one call can come to, in terms of the text ahead alone: the first line
of the text, the end if there is no text, or a failure that leaves the text behind the part of a
line that has been read. `scan_outcome` is the induction over the loop, in which the line that is
being read is put back in front of the text, and `readLine_outcome` is the call.

Without failures and without a limit the calls hand out the lines of the text one after the other.
This is `readAll_eq_cut`.
-/

namespace TextLines.Splitter

open Bytes

variable {σ : Type} [Source σ] {faults : Error → Prop} {R : σ → Bytes → Prop}

/-- Whether a line of this many bytes is accepted under a limit. -/
def Fits (limit size : Nat) : Prop :=
  limit = 0 ∨ size ≤ limit

instance (limit size : Nat) : Decidable (Fits limit size) :=
  inferInstanceAs (Decidable (limit = 0 ∨ size ≤ limit))

omit [Source σ] in
theorem fits_iff {s : Splitter σ} {size : Nat} :
    Fits s.maxLineBytes size ↔ s.overLimit size = false := by
  simp only [Fits, overLimit, Bool.and_eq_false_iff, bne_eq_false_iff_eq, decide_eq_false_iff_not,
    Nat.not_lt]

/-- The splitter holds a source and has `text` to cut: what is left of its chunk and then what is
left in the source, without a line feed that belongs to the line before. -/
def Ahead (R : σ → Bytes → Prop) (s : Splitter σ) (text : Bytes) : Prop :=
  ∃ src rest, s.handle = .held src ∧ R src rest ∧ (s.ended = true → rest = []) ∧
    text = Line.dropLf s.afterCr (s.chunk ++ rest)

omit [Source σ] in
/-- A fresh splitter has all of the data ahead. -/
theorem ahead_of_held {src : σ} {data : Bytes} (h : R src data)
    (chunkBytes maxLineBytes : Nat) :
    ({ handle := .held src, chunkBytes, maxLineBytes } : Splitter σ).Ahead R data :=
  ⟨src, data, rfl, h, by simp, by simp⟩

/-- What a call can come to when `text` is ahead and `lines` lines have been handed out. -/
inductive Outcome (R : σ → Bytes → Prop) (faults : Error → Prop) (lines limit : Nat)
    (text : Bytes) : Reading σ → Prop where
  /-- The first line of the text. -/
  | line {line rest : Bytes} {next : Splitter σ} (hcut : Line.cut text = line :: Line.cut rest)
      (hahead : next.Ahead R rest) (hlines : next.lines = lines + 1)
      (hfits : Fits limit line.length) : Outcome R faults lines limit text ⟨.ok true, line, next⟩
  /-- The end of the text. -/
  | finished {next : Splitter σ} (htext : text = []) (hahead : next.Ahead R [])
      (hlines : next.lines = lines) : Outcome R faults lines limit text ⟨.ok false, [], next⟩
  /-- A failure inside the first line, of which a part has been consumed. -/
  | failed {e : Error} {part rest : Bytes} {next : Splitter σ} (htext : text = part ++ rest)
      (hpart : ∀ b ∈ part, Line.isTerminator b = false) (hahead : next.Ahead R rest)
      (hlines : next.lines = lines) (hfits : Fits limit part.length)
      (hcause : faults e ∨ e = .reading (.lineTooLong (lines + 1) limit) ∧
        ∃ line others, Line.cut text = line :: others ∧ ¬ Fits limit line.length) :
      Outcome R faults lines limit text ⟨.error e, part, next⟩

/-! ## Fetching a chunk -/

theorem refill_settings {s s' : Splitter σ} {r : Except Error Bool} (h : s.refill = (r, s')) :
    s'.chunkBytes = s.chunkBytes ∧ s'.maxLineBytes = s.maxLineBytes ∧ s'.lines = s.lines := by
  unfold refill at h
  split at h
  · split at h
    · simp only [Prod.mk.injEq] at h
      simp [← h.2]
    · split at h <;> simp only [Prod.mk.injEq] at h <;> simp [← h.2]
  · simp only [Prod.mk.injEq] at h
    simp [← h.2]

/-- Fetching a chunk does no more to the source than read from it. -/
theorem refill_reads {s s' : Splitter σ} {r : Except Error Bool} (h : s.refill = (r, s')) :
    s'.handle = s.handle ∨
      ∃ source n, s.handle = .held source ∧ s'.handle = .held (Source.read n source).2 := by
  unfold refill at h
  split at h
  · rename_i source hheld
    split at h
    · rw [← (Prod.mk.inj h).2]
      exact .inl rfl
    · refine .inr ⟨source, max s.chunkBytes 1, hheld, ?_⟩
      split at h
      all_goals
        rename_i hread
        rw [hread, ← (Prod.mk.inj h).2]
  · rw [← (Prod.mk.inj h).2]
    exact .inl rfl

/-- Fetching a chunk moves text from the source into the chunk, which changes nothing of what is
ahead. It finds nothing only at the end of the text. -/
theorem refill_ahead (hR : Source.Delivery faults R) {s s' : Splitter σ} {text : Bytes}
    {r : Except Error Bool} (h : s.Ahead R text) (hchunk : s.chunk = [])
    (hr : s.refill = (r, s')) :
    s'.Ahead R text ∧ s'.afterCr = s.afterCr ∧ (r = .ok false → text = []) ∧
      ∀ e, r = .error e → faults e := by
  obtain ⟨src, rest, hheld, hsrc, hended, htext⟩ := h
  rw [hchunk, List.nil_append] at htext
  have hpos : 0 < max s.chunkBytes 1 := Nat.lt_of_lt_of_le Nat.one_pos (Nat.le_max_right _ _)
  unfold refill at hr
  rw [hheld] at hr
  dsimp only at hr
  by_cases he : s.ended = true
  · rw [if_pos he] at hr
    obtain ⟨rfl, rfl⟩ := Prod.mk.inj hr
    have hrest := hended he
    subst hrest
    rw [Line.dropLf_nil] at htext
    refine ⟨⟨src, [], hheld, hsrc, fun _ => rfl, ?_⟩, rfl, fun _ => htext, by simp⟩
    rw [hchunk, List.append_nil, Line.dropLf_nil, htext]
  · rw [if_neg he] at hr
    rcases hread : Source.read (max s.chunkBytes 1) src with ⟨e | piece, src'⟩
    · rw [hread] at hr
      obtain ⟨rfl, rfl⟩ := Prod.mk.inj hr
      obtain ⟨hfault, hsrc'⟩ := hR.of_error hsrc hpos hread
      refine ⟨⟨src', rest, rfl, hsrc', fun h => absurd h he, ?_⟩, rfl, by simp, ?_⟩
      · rw [hchunk, List.nil_append, htext]
      · intro e' he'
        obtain rfl := Except.error.inj he'
        exact hfault
    · rw [hread] at hr
      obtain ⟨rfl, rfl⟩ := Prod.mk.inj hr
      obtain ⟨rest', hrest, hend, hsrc'⟩ := hR.of_ok hsrc hpos hread
      refine ⟨⟨src', rest', rfl, hsrc', ?_, ?_⟩, rfl, ?_, by simp⟩
      · intro hnil
        exact hend (List.isEmpty_iff.mp hnil)
      · rw [htext, hrest]
      · intro hfalse
        have hnil : piece = [] := by simpa using hfalse
        rw [htext, hrest, hnil, hend hnil, List.append_nil, Line.dropLf_nil]

/-! ## The loop -/

/-- What refilling keeps, looking for the end of a line keeps. -/
theorem scan_keeps {P : Handle σ → Bool → Prop}
    (hP : ∀ {s s' : Splitter σ} {r : Except Error Bool}, P s.handle s.ended →
      s.refill = (r, s') → P s'.handle s'.ended)
    (s : Splitter σ) (acc : Bytes) (size : Nat) (h : P s.handle s.ended) :
    P (s.scan acc size).next.handle (s.scan acc size).next.ended := by
  fun_induction scan s acc size with
  | case1 s acc size hc s' hr ih => exact ih (hP h hr)
  | case2 s acc size hc s' hr | case3 s acc size hc s' hr | case4 s acc size hc e s' hr =>
    have hkept := hP h hr
    exact hkept
  | case5 s acc size b rest hc hlf ih => exact ih h
  | case6 | case8 => exact h
  | case7 s acc size b rest hc hlf piece size' hlim ht ih => exact ih h

theorem scan_settings (s : Splitter σ) (acc : Bytes) (size : Nat) :
    (s.scan acc size).next.chunkBytes = s.chunkBytes ∧
      (s.scan acc size).next.maxLineBytes = s.maxLineBytes := by
  fun_induction scan s acc size with
  | case1 s acc size hc s' hr ih =>
    have := refill_settings hr
    rw [← this.1, ← this.2.1]
    exact ih
  | case2 s acc size hc s' hr | case3 s acc size hc s' hr | case4 s acc size hc e s' hr =>
    have := refill_settings hr
    exact ⟨this.1, this.2.1⟩
  | case5 s acc size b rest hc hlf ih => exact ih
  | case6 | case8 => exact ⟨rfl, rfl⟩
  | case7 s acc size b rest hc hlf piece size' hlim ht ih => exact ih

omit [Source σ] in
/-- Skipping the line feed that belongs to the line before changes nothing of what is ahead. -/
theorem ahead_skip {s : Splitter σ} {text rest : Bytes} {b : UInt8}
    (h : s.Ahead R text) (hc : s.chunk = b :: rest)
    (hlf : (s.afterCr && b == lf) = true) :
    ({ s with chunk := rest, afterCr := false } : Splitter σ).Ahead R text := by
  obtain ⟨src, more, hheld, hsrc, hended, htext⟩ := h
  simp only [Bool.and_eq_true, beq_iff_eq] at hlf
  obtain ⟨hcr, rfl⟩ := hlf
  refine ⟨src, more, hheld, hsrc, hended, ?_⟩
  rw [htext, hc, hcr, List.cons_append, Line.dropLf_lf_cons, Line.dropLf_false]

omit [Source σ] in
/-- Any other byte at the front of the chunk is at the front of the text. -/
theorem ahead_chunk {s : Splitter σ} {text rest : Bytes} {b : UInt8}
    (h : s.Ahead R text) (hc : s.chunk = b :: rest)
    (hlf : ¬(s.afterCr && b == lf) = true) :
    ∃ src more, s.handle = .held src ∧ R src more ∧
      (s.ended = true → more = []) ∧ text = s.chunk ++ more := by
  obtain ⟨src, more, hheld, hsrc, hended, htext⟩ := h
  refine ⟨src, more, hheld, hsrc, hended, ?_⟩
  rw [htext, hc, List.cons_append]
  cases hcr : s.afterCr with
  | false => rw [Line.dropLf_false]
  | true =>
    have hb : b ≠ lf := by simpa [hcr] using hlf
    rw [Line.dropLf_cons_of_ne hb]

omit [Source σ] in
/-- A line that is being read stays without a terminator. -/
theorem unterminated_append_piece {part bytes : Bytes}
    (h : ∀ b ∈ part, Line.isTerminator b = false) :
    ∀ b ∈ part ++ bytes.takeWhile (!Line.isTerminator ·), Line.isTerminator b = false := by
  intro b hb
  rcases List.mem_append.mp hb with hb | hb
  · exact h b hb
  · simpa using List.mem_takeWhile_imp hb

omit [Source σ] in
/-- The chunk, split in front of its first terminator. -/
theorem chunk_eq_piece_append {bytes tail : Bytes} {t : UInt8}
    (h : bytes.dropWhile (!Line.isTerminator ·) = t :: tail) :
    bytes = bytes.takeWhile (!Line.isTerminator ·) ++ t :: tail ∧ Line.isTerminator t = true := by
  refine ⟨by rw [← h, List.takeWhile_append_dropWhile], ?_⟩
  have hhead := List.head?_dropWhile_not (fun b => !Line.isTerminator b) bytes
  rw [h] at hhead
  simpa using hhead

/-- The loop. The part of the line that has been read, put back in front of the text ahead, is what
the outcome is about. The splitter is behind a carriage return only while there is no such part. -/
theorem scan_outcome (hR : Source.Delivery faults R) (s : Splitter σ) (acc : Bytes) (size : Nat)
    {text : Bytes} (h : s.Ahead R text)
    (hacc : ∀ b ∈ acc.reverse, Line.isTerminator b = false)
    (hcr : acc ≠ [] → s.afterCr = false) (hsize : size = acc.length)
    (hfits : Fits s.maxLineBytes acc.length) :
    Outcome R faults s.lines s.maxLineBytes (acc.reverse ++ text) (s.scan acc size) := by
  fun_induction scan s acc size generalizing text with
  | case1 s acc size hc s' hr ih =>
    obtain ⟨hahead, hcr', -, -⟩ := refill_ahead hR h hc hr
    obtain ⟨-, hlimit, hlines⟩ := refill_settings hr
    rw [← hlimit, ← hlines]
    exact ih hahead hacc (fun hne => hcr'.trans (hcr hne)) hsize (hlimit ▸ hfits)
  | case2 s acc size hc s' hr hnil =>
    obtain ⟨hahead, -, hend, -⟩ := refill_ahead hR h hc hr
    obtain rfl := hend rfl
    rw [List.isEmpty_iff.mp hnil]
    exact .finished rfl hahead (refill_settings hr).2.2
  | case3 s acc size hc s' hr hne =>
    obtain ⟨hahead, -, hend, -⟩ := refill_ahead hR h hc hr
    obtain rfl := hend rfl
    have hne' : acc.reverse ≠ [] := by simpa using hne
    refine .line ?_ hahead ?_ (by rwa [List.length_reverse])
    · rw [List.append_nil, Line.cut_of_unterminated hacc, if_neg hne', Line.cut_nil]
    · rw [← (refill_settings hr).2.2]
  | case4 s acc size hc e s' hr =>
    obtain ⟨hahead, -, -, hfault⟩ := refill_ahead hR h hc hr
    exact .failed rfl hacc hahead (refill_settings hr).2.2 (by rwa [List.length_reverse])
      (.inl (hfault e rfl))
  | case5 s acc size b rest hc hlf ih =>
    exact ih (ahead_skip h hc hlf) hacc (fun _ => rfl) hsize hfits
  | case6 s acc size b rest hc hlf piece size' =>
    rename_i hlim
    obtain ⟨src, more, hheld, hsrc, hended, htext⟩ := ahead_chunk h hc hlf
    have hpiece : ∀ b ∈ acc.reverse ++ piece, Line.isTerminator b = false :=
      unterminated_append_piece hacc
    -- The line reaches at least to the end of the piece, which is over the limit already.
    have htext' : acc.reverse ++ text =
        acc.reverse ++ piece ++ (s.chunk.dropWhile (!Line.isTerminator ·) ++ more) := by
      rw [htext, List.append_assoc, ← List.append_assoc piece, List.takeWhile_append_dropWhile]
    have hne : acc.reverse ++ text ≠ [] := by
      rw [htext, hc]
      simp
    obtain ⟨line, others, hcut⟩ := Line.exists_cut_append hpiece (htext' ▸ hne)
    refine .failed rfl hacc ⟨src, more, hheld, hsrc, hended, ?_⟩ rfl
      (by rwa [List.length_reverse]) (.inr ⟨rfl, _, others, htext' ▸ hcut, ?_⟩)
    · rw [htext, Line.dropLf_false]
    · have hover : ¬ Fits s.maxLineBytes size' := by
        rw [fits_iff]
        simpa using hlim
      intro hline
      refine hover (hline.imp id fun hle => ?_)
      simp only [List.length_append, List.length_reverse] at hle
      omega
  | case7 s acc size b rest hc hlf piece size' hlim ht =>
    rename_i ih
    obtain ⟨src, more, hheld, hsrc, hended, htext⟩ := ahead_chunk h hc hlf
    have hwhole : piece = s.chunk := by
      have := List.takeWhile_append_dropWhile (p := (!Line.isTerminator ·)) (l := s.chunk)
      rwa [ht, List.append_nil] at this
    have hlen : (piece.reverse ++ acc).length = size' := by
      rw [List.length_append, List.length_reverse, hsize.symm, Nat.add_comm]
    have hahead : ({ s with chunk := [], afterCr := false } : Splitter σ).Ahead R more :=
      ⟨src, more, hheld, hsrc, hended, by simp⟩
    have hout := ih hahead ?_ (fun _ => rfl) hlen.symm ?_
    · rwa [List.reverse_append, List.reverse_reverse, List.append_assoc, hwhole, ← htext,
        ← hwhole] at hout
    · rw [List.reverse_append, List.reverse_reverse]
      exact unterminated_append_piece hacc
    · rw [hlen]
      have hfits' : Fits s.maxLineBytes size' := fits_iff.mpr (by simpa using hlim)
      exact hfits'
  | case8 s acc size b rest hc hlf piece size' hlim t tail =>
    rename_i ht
    obtain ⟨src, more, hheld, hsrc, hended, htext⟩ := ahead_chunk h hc hlf
    obtain ⟨hchunk, hterm⟩ := chunk_eq_piece_append ht
    have hpiece : ∀ b ∈ acc.reverse ++ piece, Line.isTerminator b = false :=
      unterminated_append_piece hacc
    refine .line ?_
      ⟨src, more, hheld, hsrc, hended, rfl⟩ rfl ?_
    · rw [htext, hchunk, List.append_assoc, List.cons_append, ← List.append_assoc,
        Line.cut_append_terminator hpiece hterm]
    · rw [List.length_append, List.length_reverse, ← hsize, fits_iff]
      simpa using hlim

/-- One call. -/
theorem readLine_outcome (hR : Source.Delivery faults R) {s : Splitter σ} {text : Bytes}
    (h : s.Ahead R text) :
    Outcome R faults s.lines s.maxLineBytes text s.readLine := by
  have := scan_outcome hR s [] 0 h (by simp) (by simp) rfl (.inr (Nat.zero_le _))
  rwa [List.reverse_nil, List.nil_append] at this

theorem readLine_settings (s : Splitter σ) :
    s.readLine.next.chunkBytes = s.chunkBytes ∧ s.readLine.next.maxLineBytes = s.maxLineBytes :=
  scan_settings s [] 0

/-! ## Without failures -/

/-- So many calls, one after the other. -/
def readings : Nat → Splitter σ → List (Reading σ)
  | 0, _ => []
  | n + 1, s => s.readLine :: readings n s.readLine.next

/-- If nothing can fail and there is no limit, a call gives the first line or the end. -/
theorem readLine_of_ahead {s : Splitter σ} {text : Bytes}
    (h : s.Ahead Source.Delivers text) (hlimit : s.maxLineBytes = 0) :
    (∃ rest, Line.cut text = s.readLine.line :: Line.cut rest ∧
        s.readLine.found = .ok true ∧ s.readLine.next.Ahead Source.Delivers rest ∧
        s.readLine.next.lines = s.lines + 1) ∨
      text = [] ∧ s.readLine.found = .ok false ∧ s.readLine.line = [] ∧
        s.readLine.next.Ahead Source.Delivers [] ∧ s.readLine.next.lines = s.lines := by
  have hout := readLine_outcome (Source.delivery_deliversBut fun _ => False) h
  generalize s.readLine = r at hout ⊢
  cases hout with
  | line hcut hahead hlines hfits => exact .inl ⟨_, hcut, rfl, hahead, hlines⟩
  | finished htext hahead hlines => exact .inr ⟨htext, rfl, rfl, hahead, hlines⟩
  | failed htext hpart hahead hlines hfits hcause =>
    obtain hfault | ⟨-, line, others, -, hover⟩ := hcause
    · exact absurd hfault id
    · exact absurd (.inl hlimit) hover

/-- At the end of the text every call says so, and empties the line. -/
theorem readings_of_ahead_nil {s : Splitter σ} (h : s.Ahead Source.Delivers [])
    (hlimit : s.maxLineBytes = 0) (n : Nat) :
    ∀ r ∈ s.readings n, r.found = .ok false ∧ r.line = [] ∧ r.next.lines = s.lines := by
  induction n generalizing s with
  | zero => simp [readings]
  | succ n ih =>
    obtain ⟨rest, hcut, -⟩ | ⟨-, hfound, hline, hahead, hlines⟩ := readLine_of_ahead h hlimit
    · simp at hcut
    · intro r hr
      rcases List.mem_cons.mp hr with rfl | hr
      · exact ⟨hfound, hline, hlines⟩
      · rw [← hlines]
        exact ih hahead ((readLine_settings s).2.trans hlimit) r hr

/-- Reading on to the end gives the lines of the text ahead. -/
theorem readAllFrom_of_ahead {s : Splitter σ} {text : Bytes} (sofar : List Bytes)
    (h : s.Ahead Source.Delivers text) (hlimit : s.maxLineBytes = 0) :
    (s.readAllFrom sofar).lines = sofar.reverse ++ Line.cut text ∧
      (s.readAllFrom sofar).last.found = .ok false ∧ (s.readAllFrom sofar).last.line = [] ∧
      (s.readAllFrom sofar).last.next.Ahead Source.Delivers [] ∧
      (s.readAllFrom sofar).last.next.maxLineBytes = 0 ∧
      (s.readAllFrom sofar).last.next.lines = s.lines + (Line.cut text).length := by
  fun_induction readAllFrom s sofar generalizing text with
  | case1 s sofar hfound ih =>
    obtain ⟨rest, hcut, -, hahead, hlines⟩ | ⟨-, hfalse, -⟩ := readLine_of_ahead h hlimit
    · obtain ⟨hall, hlast⟩ := ih hahead ((readLine_settings s).2.trans hlimit)
      refine ⟨?_, ?_⟩
      · rw [hall, hcut, List.reverse_cons, List.append_assoc, List.singleton_append]
      · rw [hcut, List.length_cons, Nat.add_comm _ 1, ← Nat.add_assoc, ← hlines]
        exact hlast
    · rw [hfound] at hfalse
      simp at hfalse
  | case2 s sofar hfound =>
    obtain ⟨rest, -, htrue, -⟩ | ⟨rfl, hfalse, hline, hahead, hlines⟩ :=
      readLine_of_ahead h hlimit
    · exact absurd htrue hfound
    · exact ⟨by simp, hfalse, hline, hahead, (readLine_settings s).2.trans hlimit, hlines⟩

/-- A splitter without a limit hands out the lines of the data, whatever the pieces in which the
source delivers them and whatever the size of the chunks. When it has reported the end it goes on
reporting it, with an emptied line, and it has counted every line. -/
theorem readAll_eq_cut {src : σ} {data : Bytes} (h : Source.Delivers src data)
    (chunkBytes : Nat) :
    let all := ({ handle := .held src, chunkBytes, maxLineBytes := 0 } : Splitter σ).readAll
    all.lines = Line.cut data ∧
      all.last.found = .ok false ∧ all.last.line = [] ∧
      all.last.next.lines = (Line.cut data).length ∧
      ∀ n, ∀ r ∈ all.last.next.readings n,
        r.found = .ok false ∧ r.line = [] ∧ r.next.lines = (Line.cut data).length := by
  intro all
  obtain ⟨hlines, hfound, hline, hahead, hlimit, hcount⟩ :=
    readAllFrom_of_ahead [] (ahead_of_held h chunkBytes 0) rfl
  rw [Nat.zero_add] at hcount
  refine ⟨hlines, hfound, hline, hcount, fun n r hr => ?_⟩
  have hlater := readings_of_ahead_nil hahead hlimit n r hr
  rwa [hcount] at hlater

/-- A line end of two bytes falls between two pieces, an empty line follows it, and the last line
is not terminated. -/
theorem readAll_eq_cut_two_by_two :
    let src : Memory := { rest := ascii "a\r\n\n\rbc", step := 2 }
    Source.Delivers src src.rest ∧
      (({ handle := .held src, chunkBytes := 0, maxLineBytes := 0 } :
        Splitter Memory).readAll).lines = [ascii "a", [], [], ascii "bc"] := by
  intro src
  have h : Source.Delivers src src.rest := Memory.delivers (by decide) rfl rfl
  refine ⟨h, ?_⟩
  rw [(readAll_eq_cut h 0).1]
  decide

end TextLines.Splitter

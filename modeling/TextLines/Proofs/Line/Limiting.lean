import TextLines.Proofs.Files.Paths
import TextLines.Proofs.Json.Grammar
import TextLines.Proofs.Line.Handing

/-!
# Lines under a limit

A splitter sees a line piece by piece, and it compares what it has of the line with the limit before
it takes a piece. Where the pieces end makes no difference to what comes of it
(`readAll_limited`): the lines in front of the first that is too long are handed out, and then the
number of that line is reported. If no line is too long the limit makes no difference at all, call
for call.

* `scan_unlimited` compares a call with the same call without a limit, and `readings_unlimited` any
  number of calls.
* `readAllFrom_of_long` is the induction over the lines in front of one that is too long.
* `message_lineTooLong` is what is said about that line.
-/

namespace TextLines.Splitter

open Bytes

variable {σ : Type}

/-! ## Without a limit -/

/-- The splitter as it would be without a limit. -/
def unlimited (s : Splitter σ) : Splitter σ :=
  { s with maxLineBytes := 0 }

/-- The same line, and the splitter afterwards without a limit. -/
def Reading.unlimited (r : Reading σ) : Reading σ :=
  { r with next := r.next.unlimited }

theorem overLimit_unlimited (s : Splitter σ) (size : Nat) : s.unlimited.overLimit size = false := by
  rw [← fits_iff]
  exact .inl rfl

variable [Source σ]

theorem refill_unlimited (s : Splitter σ) :
    s.unlimited.refill = (s.refill.1, s.refill.2.unlimited) := by
  unfold refill unlimited
  dsimp only
  split
  · split
    · rfl
    · split <;> rfl
  · rfl

theorem scan_of_nil {s : Splitter σ} (hc : s.chunk = []) (acc : Bytes) (size : Nat) :
    s.scan acc size = match s.refill with
      | (.ok true, s') => scan s' acc size
      | (.ok false, s') =>
        if acc.isEmpty then ⟨.ok false, [], s'⟩
        else ⟨.ok true, acc.reverse, { s' with lines := s'.lines + 1 }⟩
      | (.error e, s') => ⟨.error e, acc.reverse, s'⟩ := by
  rw [scan]
  split
  · split <;> rename_i h <;> rw [h]
  · rename_i h
    cases hc.symm.trans h

theorem scan_of_cons {s : Splitter σ} {b : UInt8} {rest : Bytes} (hc : s.chunk = b :: rest)
    (acc : Bytes) (size : Nat) :
    s.scan acc size =
      if s.afterCr && b == lf then scan { s with chunk := rest, afterCr := false } acc size
      else
        let piece := s.chunk.takeWhile (!Line.isTerminator ·)
        let size' := size + piece.length
        if s.overLimit size' then
          ⟨.error (.reading (.lineTooLong (s.lines + 1) s.maxLineBytes)), acc.reverse,
            { s with afterCr := false }⟩
        else
          match s.chunk.dropWhile (!Line.isTerminator ·) with
          | [] => scan { s with chunk := [], afterCr := false } (piece.reverse ++ acc) size'
          | t :: tail' =>
            ⟨.ok true, acc.reverse ++ piece,
              { s with chunk := tail', afterCr := t == cr, lines := s.lines + 1 }⟩ := by
  rw [scan]
  split
  · rename_i h
    cases hc.symm.trans h
  · rename_i h
    obtain ⟨rfl, rfl⟩ := List.cons.inj (hc.symm.trans h)
    rfl

/-- A search for the end of a line that does not fail comes to the same without a limit. -/
theorem scan_unlimited {s : Splitter σ} {acc : Bytes} {size : Nat} {found : Bool}
    (h : (s.scan acc size).found = .ok found) :
    s.unlimited.scan acc size = (s.scan acc size).unlimited := by
  fun_induction scan s acc size with
  | case1 s acc size hc s' hr ih =>
    rw [scan_of_nil (s := s.unlimited) hc, refill_unlimited, hr]
    exact ih h
  | case2 s acc size hc s' hr hnil =>
    rw [scan_of_nil (s := s.unlimited) hc, refill_unlimited, hr]
    exact if_pos hnil
  | case3 s acc size hc s' hr hne =>
    rw [scan_of_nil (s := s.unlimited) hc, refill_unlimited, hr]
    exact if_neg hne
  | case4 | case6 => cases h
  | case5 s acc size b rest hc hlf ih =>
    rw [scan_of_cons (s := s.unlimited) hc]
    exact (if_pos hlf).trans (ih h)
  | case7 s acc size b rest hc hlf piece size' hlim ht ih =>
    have hopen : ¬ s.unlimited.overLimit size' = true := by
      rw [overLimit_unlimited]
      exact Bool.false_ne_true
    rw [scan_of_cons (s := s.unlimited) hc]
    refine (if_neg hlf).trans ((if_neg hopen).trans ?_)
    simp only [unlimited, ht]
    exact ih h
  | case8 s acc size b rest hc hlf piece size' hlim t tail ht =>
    have hopen : ¬ s.unlimited.overLimit size' = true := by
      rw [overLimit_unlimited]
      exact Bool.false_ne_true
    rw [scan_of_cons (s := s.unlimited) hc]
    refine (if_neg hlf).trans ((if_neg hopen).trans ?_)
    simp only [unlimited, ht]
    rfl

/-! ## One call -/

/-- If nothing can fail a call gives the first line, the end, or the number of a line that is too
long. -/
theorem readLine_limited {s : Splitter σ} {text : Bytes} (h : s.Ahead Source.Delivers text) :
    (∃ rest, Line.cut text = s.readLine.line :: Line.cut rest ∧
        Fits s.maxLineBytes s.readLine.line.length ∧ s.readLine.found = .ok true ∧
        s.readLine.next.Ahead Source.Delivers rest ∧ s.readLine.next.lines = s.lines + 1) ∨
      (text = [] ∧ s.readLine.found = .ok false ∧ s.readLine.next.Ahead Source.Delivers [] ∧
        s.readLine.next.lines = s.lines) ∨
      ∃ line others, Line.cut text = line :: others ∧ ¬ Fits s.maxLineBytes line.length ∧
        s.readLine.found = .error (.reading (.lineTooLong (s.lines + 1) s.maxLineBytes)) ∧
        s.readLine.next.lines = s.lines := by
  have hout := readLine_outcome (Source.delivery_deliversBut fun _ => False) h
  generalize s.readLine = r at hout ⊢
  cases hout with
  | line hcut hahead hlines hfits => exact .inl ⟨_, hcut, hfits, rfl, hahead, hlines⟩
  | finished htext hahead hlines => exact .inr (.inl ⟨htext, rfl, hahead, hlines⟩)
  | failed htext hpart hahead hlines hfits hcause =>
    obtain hfault | ⟨rfl, line, others, hcut, hover⟩ := hcause
    · exact absurd hfault id
    · exact .inr (.inr ⟨line, others, hcut, hover, rfl, hlines⟩)

/-- No call leaves more of a line than the limit allows, whatever the source does. -/
theorem readings_fit (s : Splitter σ) (n : Nat) :
    ∀ r ∈ s.readings n, Fits s.maxLineBytes r.line.length := by
  induction n generalizing s with
  | zero => exact fun r hr => absurd hr List.not_mem_nil
  | succ n ih =>
    refine List.forall_mem_cons.mpr ⟨s.scan_fits [] 0 rfl (.inr (Nat.zero_le _)), ?_⟩
    rw [← (readLine_settings s).2]
    exact ih s.readLine.next

/-! ## Any number of calls -/

/-- If all lines of the text ahead keep to the limit the calls are the same without it. -/
theorem readings_unlimited {s : Splitter σ} {text : Bytes} (h : s.Ahead Source.Delivers text)
    (hfits : ∀ line ∈ Line.cut text, Fits s.maxLineBytes line.length) (n : Nat) :
    s.unlimited.readings n = (s.readings n).map Reading.unlimited := by
  induction n generalizing s text with
  | zero => rfl
  | succ n ih =>
    have hnext : ∀ {found rest}, s.readLine.found = .ok found →
        s.readLine.next.Ahead Source.Delivers rest →
        (∀ line ∈ Line.cut rest, Fits s.maxLineBytes line.length) →
        s.unlimited.readings (n + 1) = (s.readings (n + 1)).map Reading.unlimited := by
      intro found rest hfound hahead hrest
      rw [← (readLine_settings s).2] at hrest
      have hread : s.unlimited.readLine = s.readLine.unlimited := scan_unlimited hfound
      rw [readings, readings, hread, List.map_cons, ← ih hahead hrest]
      rfl
    obtain ⟨rest, hcut, -, hfound, hahead, -⟩ | ⟨-, hfound, hahead, -⟩ |
      ⟨line, others, hcut, hover, -⟩ := readLine_limited h
    · exact hnext hfound hahead fun line hline => hfits line (hcut ▸ List.mem_cons_of_mem _ hline)
    · exact hnext hfound hahead fun line hline => absurd hline List.not_mem_nil
    · exact absurd (hfits line (hcut ▸ List.mem_cons_self)) hover

theorem readAllFrom_of_found {s : Splitter σ} (h : s.readLine.found = .ok true)
    (sofar : List Bytes) :
    s.readAllFrom sofar = s.readLine.next.readAllFrom (s.readLine.line :: sofar) := by
  rw [readAllFrom]
  split
  · rfl
  · rename_i hnot
    exact absurd h hnot

theorem readAllFrom_of_not_found {s : Splitter σ} (h : s.readLine.found ≠ .ok true)
    (sofar : List Bytes) : s.readAllFrom sofar = ⟨sofar.reverse, s.readLine⟩ := by
  rw [readAllFrom]
  split
  · rename_i hfound
    exact absurd hfound h
  · rfl

/-- Lines that keep to the limit are handed out, whatever comes behind them. -/
theorem readAllFrom_of_front {s : Splitter σ} {text : Bytes} {front behind : List Bytes}
    (h : s.Ahead Source.Delivers text) (hcut : Line.cut text = front ++ behind)
    (hfits : ∀ line ∈ front, Fits s.maxLineBytes line.length) (sofar : List Bytes) :
    ∃ (s' : Splitter σ) (rest : Bytes), s.readAllFrom sofar =
        s'.readAllFrom (front.reverse ++ sofar) ∧ s'.Ahead Source.Delivers rest ∧
      Line.cut rest = behind ∧
      s'.lines = s.lines + front.length ∧ s'.maxLineBytes = s.maxLineBytes := by
  induction front generalizing s text sofar with
  | nil => exact ⟨s, text, rfl, h, hcut, rfl, rfl⟩
  | cons line front ih =>
    have hlimit := (readLine_settings s).2
    obtain ⟨rest, hfirst, -, hfound, hahead, hlines⟩ | ⟨rfl, -⟩ |
      ⟨long, others, hfirst, hover, -⟩ := readLine_limited h
    · obtain ⟨rfl, hrest⟩ := List.cons.inj (hfirst.symm.trans hcut)
      rw [← hlimit] at hfits
      obtain ⟨s', rest', hall, hahead', hbehind, hlines', hlimit'⟩ :=
        ih hahead hrest (fun line hline => hfits line (List.mem_cons_of_mem _ hline))
          (s.readLine.line :: sofar)
      refine ⟨s', rest', ?_, hahead', hbehind, ?_, hlimit'.trans hlimit⟩
      · rw [readAllFrom_of_found hfound, hall, List.reverse_cons, List.append_assoc]
        rfl
      · rw [hlines', hlines, List.length_cons]
        omega
    · cases hcut
    · obtain ⟨rfl, -⟩ := List.cons.inj (hfirst.symm.trans hcut)
      exact absurd (hfits long List.mem_cons_self) hover

/-! ## All lines -/

/-- The lines in front of the first that is too long are handed out, and then its number is
reported. -/
theorem readAll_of_long {s : Splitter σ} {text : Bytes} {front behind : List Bytes} {line : Bytes}
    (h : s.Ahead Source.Delivers text) (hcut : Line.cut text = front ++ line :: behind)
    (hfits : ∀ line ∈ front, Fits s.maxLineBytes line.length)
    (hover : ¬ Fits s.maxLineBytes line.length) :
    s.readAll.lines = front ∧
      s.readAll.last.found =
        .error (.reading (.lineTooLong (s.lines + front.length + 1) s.maxLineBytes)) ∧
      s.readAll.last.next.lines = s.lines + front.length := by
  obtain ⟨s', rest, hall, hahead, hbehind, hlines, hlimit⟩ :=
    readAllFrom_of_front h hcut hfits []
  rw [readAll, hall, ← hlines, ← hlimit]
  rw [← hlimit] at hover
  obtain ⟨rest', hfirst, hfit, -⟩ | ⟨rfl, -⟩ | ⟨long, others, hfirst, -, hfound, hlines'⟩ :=
    readLine_limited hahead
  · obtain ⟨rfl, -⟩ := List.cons.inj (hfirst.symm.trans hbehind)
    exact absurd hfit hover
  · cases hbehind
  · rw [readAllFrom_of_not_found (by rw [hfound]; exact nofun)]
    exact ⟨by simp, hfound, hlines'⟩

/-- If no line is too long all of them are handed out. -/
theorem readAll_of_fits {s : Splitter σ} {text : Bytes} (h : s.Ahead Source.Delivers text)
    (hfits : ∀ line ∈ Line.cut text, Fits s.maxLineBytes line.length) :
    s.readAll.lines = Line.cut text ∧ s.readAll.last.found = .ok false := by
  obtain ⟨s', rest, hall, hahead, hbehind, -⟩ :=
    readAllFrom_of_front h (List.append_nil _).symm hfits []
  rw [readAll, hall]
  obtain ⟨rest', hfirst, -⟩ | ⟨-, hfound, -⟩ | ⟨long, others, hfirst, -⟩ :=
    readLine_limited hahead
  · cases hfirst.symm.trans hbehind
  · rw [readAllFrom_of_not_found (by rw [hfound]; exact nofun)]
    exact ⟨by simp, hfound⟩
  · cases hfirst.symm.trans hbehind

end TextLines.Splitter

namespace TextLines

open Bytes

theorem Bytes.zero_notMem_decimal (n : Nat) : 0 ∉ decimal n := by
  intro hzero
  cases (Json.whole_decimal n).1.2 0 hzero

/-- What is said about a line that is too long. -/
theorem Error.message_lineTooLong (number limit : Nat) :
    (Error.reading (.lineTooLong number limit)).message =
      ascii "line " ++ decimal number ++ ascii " exceeds max_line_bytes (" ++ decimal limit ++
        ascii ")" := by
  refine Files.Path.untilNul_of_notMem ?_
  have hfront : 0 ∉ ascii "line " := by decide
  have hmiddle : 0 ∉ ascii " exceeds max_line_bytes (" := by decide
  have hlast : 0 ∉ ascii ")" := by decide
  simp only [text, ReadFault.text, List.mem_append, hfront, hmiddle, hlast,
    zero_notMem_decimal, or_self, not_false_eq_true]

namespace Splitter

variable {σ : Type} [Source σ]

/-- A limit is exact, whatever the pieces in which the source delivers the data and whatever the
size of the chunks. Exactly the lines in front of the first that is too long are handed out, and
then its number is reported. If no line is too long each call comes to what it would come to without
a limit. The line that the caller sees keeps to the limit after every call. -/
theorem readAll_limited {src : σ} {data : Bytes} (h : Source.Delivers src data)
    (chunkBytes : Nat) {limit : Nat} (hlimit : 0 < limit) :
    let s : Splitter σ := { handle := .held src, chunkBytes, maxLineBytes := limit }
    (∀ front line behind, Line.cut data = front ++ line :: behind →
      (∀ line ∈ front, line.length ≤ limit) → limit < line.length →
        s.readAll.lines = front ∧
          (∃ e, s.readAll.last.found = .error e ∧ e.IsReading ∧
            e.message = ascii "line " ++ decimal (front.length + 1) ++
              ascii " exceeds max_line_bytes (" ++ decimal limit ++ ascii ")") ∧
          s.readAll.last.next.lines = front.length) ∧
      ((∀ line ∈ Line.cut data, line.length ≤ limit) →
        s.readAll.lines = Line.cut data ∧ s.readAll.last.found = .ok false ∧
          ∀ n, s.unlimited.readings n = (s.readings n).map Reading.unlimited) ∧
      ∀ n, ∀ r ∈ s.readings n, r.line.length ≤ limit := by
  intro s
  have hahead : s.Ahead Source.Delivers data := ahead_of_held h chunkBytes limit
  have hiff : ∀ size, Fits limit size ↔ size ≤ limit :=
    fun size => or_iff_right (Nat.pos_iff_ne_zero.mp hlimit)
  refine ⟨?_, ?_, ?_⟩
  · intro front line behind hcut hfits hover
    obtain ⟨hlines, hfound, hcount⟩ := readAll_of_long hahead hcut
      (fun line hline => .inr (hfits line hline)) (fun hfit => hover.not_ge ((hiff _).mp hfit))
    rw [Nat.zero_add] at hfound hcount
    exact ⟨hlines, ⟨_, hfound, ⟨_, rfl⟩, Error.message_lineTooLong _ _⟩, hcount⟩
  · intro hfits
    have hall : ∀ line ∈ Line.cut data, Fits s.maxLineBytes line.length :=
      fun line hline => .inr (hfits line hline)
    obtain ⟨hlines, hfound⟩ := readAll_of_fits hahead hall
    exact ⟨hlines, hfound, readings_unlimited hahead hall⟩
  · exact fun n r hr => (hiff _).mp (s.readings_fit n r hr)

/-- The first line has as many bytes as the limit allows, and its line end is in the next piece. The
second is one byte longer than that. -/
theorem readAll_limited_second_line :
    let src : Memory := { rest := ascii "abc\r\nabcd\nef", step := 3 }
    let s : Splitter Memory := { handle := .held src, chunkBytes := 0, maxLineBytes := 3 }
    Source.Delivers src src.rest ∧ 0 < 3 ∧ s.readAll.lines = [ascii "abc"] ∧
      (∃ e, s.readAll.last.found = .error e ∧ e.IsReading ∧
        e.message = ascii "line 2 exceeds max_line_bytes (3)") ∧
      s.readAll.last.next.lines = 1 ∧
      ∀ n, ∀ r ∈ s.readings n, r.line.length ≤ 3 := by
  intro src s
  have h : Source.Delivers src src.rest := Memory.delivers (by decide) rfl rfl
  obtain ⟨hlong, -, hlength⟩ := readAll_limited h 0 (by decide : 0 < 3)
  have hcut : Line.cut src.rest = [ascii "abc"] ++ ascii "abcd" :: [ascii "ef"] := by decide
  obtain ⟨hlines, ⟨e, hfound, hreading, hmessage⟩, hcount⟩ :=
    hlong [ascii "abc"] (ascii "abcd") [ascii "ef"] hcut (by decide) (by decide)
  rw [decimal_of_lt (by decide), decimal_of_lt (by decide)] at hmessage
  exact ⟨h, by decide, hlines, ⟨e, hfound, hreading, hmessage.trans (by decide)⟩, hcount, hlength⟩

end Splitter

end TextLines

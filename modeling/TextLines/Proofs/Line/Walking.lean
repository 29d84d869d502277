import TextLines.Proofs.Line.Lookahead

/-!
# Walking over the lines of a text

When nothing goes wrong with the source, what a walk comes to is a function of the lines and of the
limit on their length: `Line.visitAll` hands the lines to the visitor one by one, without any
source, buffer or chunk. `Cursor.walk_of_ahead` says that a walk comes to just that and can be
closed after it.
-/

namespace TextLines

/-- Hands lines to a visitor, the first of them with a number, as long as they are not too long. -/
def Line.visitAll {α : Type} (limit : Nat) (visit : Bytes → α → Cursor.Visit α) (number : Nat)
    (v : α) : List Bytes → Cursor.Ending × α
  | [] => (.exhausted, v)
  | line :: lines =>
    if Splitter.Fits limit line.length then
      match visit line v with
      | .stop v' => (.stopped, v')
      | .goOn v' => visitAll limit visit (number + 1) v' lines
    else (.failed (.reading (.lineTooLong number limit)), v)

namespace Cursor

variable {σ : Type} [Source σ] {R : σ → Bytes → Prop}

/-- What asking for more comes to when reading and closing cannot fail and `text` is ahead. -/
inductive Found (R : σ → Bytes → Prop) (limit lines : Nat) (text : Bytes) :
    Except Error Bool → Cursor σ → Prop where
  /-- The first line of the text is there. -/
  | line {c : Cursor σ} {rest : Bytes} (hcut : Line.cut text = c.buffer :: Line.cut rest)
      (hfits : Splitter.Fits limit c.buffer.length) (hahead : c.splitter.Ahead R rest)
      (hlines : c.splitter.lines = lines + 1) (hlimit : c.splitter.maxLineBytes = limit) :
      Found R limit lines text (.ok true) c
  /-- There is none, and the cursor is closed. -/
  | none {c : Cursor σ} (hcut : Line.cut text = []) (hended : c.Ended) :
      Found R limit lines text (.ok false) c
  /-- The first line of the text is too long. -/
  | tooLong {c : Cursor σ} {line rest : Bytes} {others : List Bytes}
      (hcut : Line.cut text = line :: others) (hover : ¬ Splitter.Fits limit line.length)
      (hahead : c.splitter.Ahead R rest) :
      Found R limit lines text (.error (.reading (.lineTooLong (lines + 1) limit))) c

theorem hasMore_found (hR : Source.Delivery (fun _ => False) R)
    (hquiet : ∀ src data, R src data → (Source.close src).1 = none) {c : Cursor σ} {text : Bytes}
    (hmust : c.mustRead = true) (h : c.splitter.Ahead R text) :
    Found R c.splitter.maxLineBytes c.splitter.lines text c.hasMore.1 c.hasMore.2 := by
  have hopen := isClosed_of_ahead h
  have hout := Splitter.readLine_outcome hR h
  have hlimit := (Splitter.readLine_settings c.splitter).2
  rw [hasMore, hmust, hopen]
  simp only [Bool.not_true, Bool.false_eq_true, if_false]
  generalize c.splitter.readLine = r at hout hlimit ⊢
  cases hout with
  | line hcut hahead hlines hfits => exact .line hcut hfits hahead hlines hlimit
  | failed htext hpart hahead hlines hfits hcause =>
    obtain hfault | ⟨rfl, line, others, hcut, hover⟩ := hcause
    · exact absurd hfault id
    · exact .tooLong hcut hover hahead
  | @finished next htext hahead hlines =>
    dsimp only
    generalize hd : ({ c with
      splitter := next, buffer := [], pending := false, mustRead := false } : Cursor σ) = d
    have hahead' : d.splitter.Ahead R [] := by
      rw [← hd]
      exact hahead
    obtain ⟨hended, -, src, data, hsrc, hclose⟩ := close_of_ahead hahead'
    rw [hquiet src data hsrc] at hclose
    rcases hdc : d.close with ⟨_ | e, c'⟩
    · rw [hdc] at hended
      exact .none (by rw [htext, Line.cut_nil]) hended
    · rw [hdc] at hclose
      cases hclose

/-- A walk comes to what the visitor makes of the lines. It can be closed afterwards. -/
theorem walk_of_ahead {α : Type} (hR : Source.Delivery (fun _ => False) R)
    (hquiet : ∀ src data, R src data → (Source.close src).1 = none)
    (visit : Bytes → α → Visit α) (v : α) {c : Cursor σ} {text : Bytes}
    (hmust : c.mustRead = true) (h : c.splitter.Ahead R text) :
    ((c.walk visit v).ending, (c.walk visit v).value) =
        Line.visitAll c.splitter.maxLineBytes visit (c.splitter.lines + 1) v (Line.cut text) ∧
      (c.walk visit v).cursor.close.1 = none := by
  have hclose : ∀ {d : Cursor σ} {rest : Bytes}, d.splitter.Ahead R rest → d.close.1 = none := by
    intro d rest hd
    obtain ⟨-, -, src, data, hsrc, hclose⟩ := close_of_ahead hd
    rw [hclose, hquiet src data hsrc]
  fun_induction Cursor.walk visit v c generalizing text with
  | case1 v c e c' hc =>
    have hfound := hasMore_found hR hquiet hmust h
    rw [hc] at hfound
    cases hfound with
    | tooLong hcut hover hahead =>
      rw [hcut, Line.visitAll, if_neg hover]
      exact ⟨rfl, hclose hahead⟩
  | case2 v c c' hc =>
    have hfound := hasMore_found hR hquiet hmust h
    rw [hc] at hfound
    cases hfound with
    | none hcut hended =>
      rw [hcut, Line.visitAll, close_of_isClosed hended.isClosed]
      exact ⟨rfl, rfl⟩
  | case3 v c c' hc v' hv =>
    have hfound := hasMore_found hR hquiet hmust h
    rw [hc] at hfound
    cases hfound with
    | line hcut hfits hahead hlines hlimit =>
      rw [hcut, Line.visitAll, if_pos hfits, hv]
      exact ⟨rfl, hclose hahead⟩
  | case4 v c c' hc v' hv ih =>
    have hfound := hasMore_found hR hquiet hmust h
    rw [hc] at hfound
    cases hfound with
    | line hcut hfits hahead hlines hlimit =>
      rw [hcut, Line.visitAll, if_pos hfits, hv, ← hlines, ← hlimit]
      exact ih rfl hahead

end Cursor

end TextLines

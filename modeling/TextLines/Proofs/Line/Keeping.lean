import TextLines.Proofs.Line.Handing

/-!
# What going on in the lines keeps

Whatever is done with an open cursor comes down to two things: it is asked for more, and a line that
is there is taken. `Cursor.Kept P` says that both keep `P`; then a walk keeps it, and so does taking
all lines. Where `P` is about the splitter alone it is enough that reading a line keeps it, and
closing behind the last line (`Splitter.Kept`).

The cursor closes itself at the end: it never knows that there are no more lines and stays open
(`Cursor.ClosedAtEnd`).
-/

namespace TextLines

variable {σ : Type} [Source σ]

/-- Reading a line from an open splitter keeps `P`, and so does closing it when there is none. -/
structure Splitter.Kept (P : Splitter σ → Prop) : Prop where
  line : ∀ s, s.isClosed = false → P s → P s.readLine.next
  atEnd : ∀ s, s.isClosed = false → P s → s.readLine.found = .ok false → P s.readLine.next.close.2

namespace Cursor

/-- Asking for more keeps `P`, and so does taking a line. -/
structure Kept (P : Cursor σ → Prop) : Prop where
  more : ∀ c, P c → P c.hasMore.2
  taken : ∀ c, P c → P { c with mustRead := true }

theorem Kept.of_splitter {P : Splitter σ → Prop} (hP : Splitter.Kept P) :
    Kept fun c => P c.splitter := by
  refine ⟨fun c h => ?_, fun _ h => h⟩
  cases hmust : c.mustRead with
  | false =>
    rw [hasMore_of_not_mustRead hmust]
    exact h
  | true =>
    cases hopen : c.isClosed with
    | true =>
      rw [hasMore, hmust, hopen]
      exact h
    | false =>
      rw [hasMore, hmust, hopen]
      simp only [Bool.not_true, Bool.false_eq_true, if_false]
      rcases hfound : c.splitter.readLine.found with e | (_ | _)
      · exact hP.line _ hopen h
      · have hend : P (c.looked false).close.2.splitter := by
          rw [splitter_close]
          exact hP.atEnd _ hopen h hfound
        dsimp only
        generalize hlooked : ({ c with
          splitter := c.splitter.readLine.next, buffer := c.splitter.readLine.line
          pending := false, mustRead := false } : Cursor σ) = d
        obtain rfl : c.looked false = d := hlooked
        rcases hclose : (c.looked false).close with ⟨_ | e, d⟩
        all_goals
          rw [hclose] at hend
          exact hend
      · exact hP.line _ hopen h

namespace Kept

variable {P : Cursor σ → Prop} (hP : Kept P)
include hP

theorem asked {c c' : Cursor σ} {r : Except Error Bool} (hmore : c.hasMore = (r, c')) (h : P c) :
    P c' := by
  have hkept := hP.more c h
  rw [hmore] at hkept
  exact hkept

theorem next {c : Cursor σ} (h : P c) : P c.next.2 := by
  rw [Cursor.next]
  rcases hmore : c.hasMore with ⟨e | (_ | _), c'⟩
  · exact hP.asked hmore h
  · exact hP.asked hmore h
  · exact hP.taken c' (hP.asked hmore h)

theorem walk {α : Type} (visit : Bytes → α → Visit α) (a : α) {c : Cursor σ} (h : P c) :
    P (c.walk visit a).cursor := by
  fun_induction Cursor.walk visit a c with
  | case1 a c e c' hmore | case2 a c c' hmore => exact hP.asked hmore h
  | case3 a c c' hmore a' hv => exact hP.taken c' (hP.asked hmore h)
  | case4 a c c' hmore a' hv ih => exact ih (hP.taken c' (hP.asked hmore h))

theorem hands {c c' : Cursor σ} {lines : List Bytes} {failure : Option Error}
    (hhands : c.Hands lines failure c') (h : P c) : P c' := by
  induction hhands with
  | exhausted hmore | failed hmore => exact hP.asked hmore h
  | line hmore hrest ih => exact ih (hP.taken _ (hP.asked hmore h))

end Kept

/-! ## The end -/

/-- If the cursor knows that there are no more lines it is closed. -/
def ClosedAtEnd (c : Cursor σ) : Prop :=
  c.mustRead = false → c.pending = false → c.isClosed = true

/-- When a cursor says that there are no more lines it is closed. -/
theorem ClosedAtEnd.isClosed {c c' : Cursor σ} (h : c.ClosedAtEnd)
    (hmore : c.hasMore = (.ok false, c')) : c'.isClosed = true := by
  cases hmust : c.mustRead with
  | false =>
    rw [hasMore_of_not_mustRead hmust] at hmore
    obtain ⟨hpending, rfl⟩ := Prod.mk.inj hmore
    exact h hmust (Except.ok.inj hpending)
  | true => exact isClosed_of_exhausted hmust hmore

end Cursor

end TextLines

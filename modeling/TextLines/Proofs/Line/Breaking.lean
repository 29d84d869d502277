import TextLines.Proofs.Line.Lookahead
import TextLines.Proofs.Source.Breaking

/-!
# Lines of a source that breaks off

A splitter over a source that breaks off never finds the end of its text, and so it never takes the
beginning of a line for the last line. The lines that it hands out are settled: they would be the
same whatever came behind the bytes that the source has given (`Line.Settled`).

`Endless` is kept by every step of a splitter and of a cursor. It rules out the answer that there
are no more lines, and it leaves only failures to read (`Splitter.scan_endless`,
`Cursor.hasMore_endless`). `Cursor.walk_of_breaksOff` puts it together with the account of the
lines.
-/

namespace TextLines

open Line (Attempt Account)

/-- The lines are the first ones of any text that begins with `data`. -/
def Line.Settled (data : Bytes) (lines : List Bytes) : Prop :=
  ∀ more, lines <+: Line.cut (data ++ more)

theorem Line.Settled.isPrefix {data text : Bytes} {lines : List Bytes} (h : Settled data lines)
    (hdata : data <+: text) : lines <+: Line.cut text := by
  obtain ⟨more, rfl⟩ := hdata
  exact h more

variable {σ : Type} [Source σ] {faults : Error → Prop} {R : σ → Bytes → Prop}

namespace Splitter

/-- The splitter holds a source whose end it has not met. -/
def Endless (R : σ → Bytes → Prop) (s : Splitter σ) : Prop :=
  ∃ src data, s.handle = .held src ∧ R src data ∧ s.ended = false

theorem refill_endless (hR : Source.Breakage faults R) {s s' : Splitter σ} {r : Except Error Bool}
    (h : s.Endless R) (hr : s.refill = (r, s')) :
    s'.Endless R ∧ r ≠ .ok false ∧ ∀ e, r = .error e → faults e := by
  obtain ⟨src, data, hheld, hsrc, hended⟩ := h
  have hpos : 0 < max s.chunkBytes 1 := Nat.lt_of_lt_of_le Nat.one_pos (Nat.le_max_right _ _)
  unfold refill at hr
  rw [hheld] at hr
  dsimp only at hr
  rw [hended, if_neg (by simp)] at hr
  rcases hread : Source.read (max s.chunkBytes 1) src with ⟨e | piece, src'⟩
  · rw [hread] at hr
    obtain ⟨rfl, rfl⟩ := Prod.mk.inj hr
    obtain ⟨hfault, hsrc'⟩ := hR.of_error hsrc hpos hread
    refine ⟨⟨src', [], rfl, hsrc', rfl⟩, by simp, fun e' he => ?_⟩
    obtain rfl := Except.error.inj he
    exact hfault
  · rw [hread] at hr
    obtain ⟨rfl, rfl⟩ := Prod.mk.inj hr
    obtain ⟨hne, rest, -, hsrc'⟩ := hR.of_ok hsrc hpos hread
    have hsome : piece.isEmpty = false := List.isEmpty_eq_false_iff.mpr hne
    exact ⟨⟨src', rest, rfl, hsrc', hsome⟩, by simp [hsome], by simp⟩

/-- Asking for a line gives a line or fails to read, and the end stays out of sight. -/
structure Reading.Endless (R : σ → Bytes → Prop) (r : Reading σ) : Prop where
  next : r.next.Endless R
  found : r.found ≠ .ok false
  isReading : ∀ e, r.found = .error e → e.IsReading

theorem scan_endless (hR : Source.Breakage faults R) (hfaults : ∀ e, faults e → e.IsReading)
    (s : Splitter σ) (acc : Bytes) (size : Nat) (h : s.Endless R) :
    (s.scan acc size).Endless R := by
  fun_induction scan s acc size with
  | case1 s acc size hc s' hr ih => exact ih (refill_endless hR h hr).1
  | case2 s acc size hc s' hr hnil | case3 s acc size hc s' hr hne =>
    exact absurd rfl (refill_endless hR h hr).2.1
  | case4 s acc size hc e s' hr =>
    obtain ⟨hnext, -, herror⟩ := refill_endless hR h hr
    refine ⟨hnext, by simp, fun e' he => ?_⟩
    obtain rfl := Except.error.inj he
    exact hfaults e (herror e rfl)
  | case5 s acc size b rest hc hlf ih => exact ih h
  | case6 s acc size b rest hc hlf piece size' =>
    refine ⟨h, by simp, fun e he => ?_⟩
    exact ⟨_, (Except.error.inj he).symm⟩
  | case7 s acc size b rest hc hlf piece size' hlim ht =>
    rename_i ih
    exact ih h
  | case8 s acc size b rest hc hlf piece size' hlim t tail => exact ⟨h, by simp, by simp⟩

end Splitter

namespace Cursor

/-- The cursor is open, and it knows of no end of the lines. -/
structure Endless (R : σ → Bytes → Prop) (c : Cursor σ) : Prop where
  splitter : c.splitter.Endless R
  known : c.mustRead = true ∨ c.pending = true

omit [Source σ] in
theorem Endless.isClosed {c : Cursor σ} (h : c.Endless R) : c.isClosed = false := by
  obtain ⟨src, data, hheld, -⟩ := h.splitter
  rw [Cursor.isClosed, Splitter.isClosed, hheld]
  rfl

omit [Source σ] in
theorem Endless.taken {c : Cursor σ} (h : c.Endless R) :
    ({ c with mustRead := true } : Cursor σ).Endless R :=
  ⟨h.splitter, .inl rfl⟩

/-- Asking for more gives a line or fails to read. -/
theorem hasMore_endless (hR : Source.Breakage faults R) (hfaults : ∀ e, faults e → e.IsReading)
    {c : Cursor σ} (h : c.Endless R) :
    c.hasMore.2.Endless R ∧ c.hasMore.1 ≠ .ok false ∧
      ∀ e, c.hasMore.1 = .error e → e.IsReading := by
  have hopen := h.isClosed
  have hreading : c.splitter.readLine.Endless R :=
    Splitter.scan_endless hR hfaults c.splitter [] 0 h.splitter
  cases hmust : c.mustRead with
  | false =>
    have hpending : c.pending = true := h.known.resolve_left (by simp [hmust])
    rw [hasMore_of_not_mustRead hmust, hpending]
    exact ⟨h, by simp, by simp⟩
  | true =>
    rw [hasMore, hmust, hopen]
    simp only [Bool.not_true, Bool.false_eq_true, if_false]
    generalize c.splitter.readLine = r at hreading
    obtain ⟨hnext, hfound, hisReading⟩ := hreading
    rcases hr : r.found with e | (_ | _)
    · refine ⟨⟨hnext, .inl rfl⟩, by simp, fun e' he => ?_⟩
      obtain rfl := Except.error.inj he
      exact hisReading e hr
    · exact absurd hr hfound
    · exact ⟨⟨hnext, .inr rfl⟩, by simp, by simp⟩

/-- Taking a line gives one or fails to read. -/
theorem next_endless (hR : Source.Breakage faults R) (hfaults : ∀ e, faults e → e.IsReading)
    {c : Cursor σ} (h : c.Endless R) :
    c.next.2.Endless R ∧ ∀ e, c.next.1 = .error e → e.IsReading := by
  have hmore := hasMore_endless hR hfaults h
  rw [Cursor.next]
  rcases hc : c.hasMore with ⟨e | (_ | _), c'⟩
  · rw [hc] at hmore
    refine ⟨hmore.1, fun e' he => ?_⟩
    obtain rfl := Except.error.inj he
    exact hmore.2.2 e rfl
  · rw [hc] at hmore
    exact absurd rfl hmore.2.1
  · rw [hc] at hmore
    exact ⟨hmore.1.taken, by simp⟩

/-- A walk does not come to the end of the lines. -/
theorem walk_endless {α : Type} (hR : Source.Breakage faults R)
    (hfaults : ∀ e, faults e → e.IsReading) (visit : Bytes → α → Visit α) (v : α) {c : Cursor σ}
    (h : c.Endless R) :
    (c.walk visit v).cursor.Endless R ∧ (c.walk visit v).ending ≠ .exhausted ∧
      ∀ e, (c.walk visit v).ending = .failed e → e.IsReading := by
  fun_induction Cursor.walk visit v c with
  | case1 v c e c' hc =>
    have hmore := hasMore_endless hR hfaults h
    rw [hc] at hmore
    refine ⟨hmore.1, by simp, fun e' he => ?_⟩
    obtain rfl := Ending.failed.inj he
    exact hmore.2.2 e rfl
  | case2 v c c' hc =>
    have hmore := hasMore_endless hR hfaults h
    rw [hc] at hmore
    exact absurd rfl hmore.2.1
  | case3 v c c' hc v' hv =>
    have hmore := hasMore_endless hR hfaults h
    rw [hc] at hmore
    exact ⟨hmore.1.taken, by simp, by simp⟩
  | case4 v c c' hc v' hv ih =>
    have hmore := hasMore_endless hR hfaults h
    rw [hc] at hmore
    exact ih hmore.1.taken

/-- What every visit keeps holds at the end of a walk. If the visitor has stopped it, what the last
visit has brought about holds. -/
theorem walk_keeps {α : Type} (visit : Bytes → α → Visit α) {P Q : α → Prop}
    (hgoOn : ∀ line v v', P v → visit line v = .goOn v' → P v')
    (hstop : ∀ line v v', P v → visit line v = .stop v' → Q v') {v : α} (hv : P v)
    (c : Cursor σ) :
    ((c.walk visit v).ending = .stopped → Q (c.walk visit v).value) ∧
      ((c.walk visit v).ending ≠ .stopped → P (c.walk visit v).value) := by
  fun_induction Cursor.walk visit v c with
  | case1 | case2 => exact ⟨by simp, fun _ => hv⟩
  | case3 v c c' hc v' hstopped => exact ⟨fun _ => hstop _ _ _ hv hstopped, by simp⟩
  | case4 v c c' hc v' hgone ih => exact ih (hgoOn _ _ _ hv hgone)

/-- A cursor over a source, before anything has been asked of it. -/
def ofSource (source : σ) (chunkBytes maxLineBytes : Nat) : Cursor σ :=
  { splitter := { handle := .held source, chunkBytes, maxLineBytes } }

omit [Source σ] in
theorem endless_ofSource {source : σ} {data : Bytes} (h : R source data)
    (chunkBytes maxLineBytes : Nat) : (ofSource source chunkBytes maxLineBytes).Endless R :=
  ⟨⟨source, data, rfl, h, rfl⟩, .inl rfl⟩

/-- A walk over a source that breaks off takes settled lines, and it does not come to the end of the
lines. -/
theorem walk_of_breaksOff {α : Type} {source : σ} {data : Bytes}
    (h : Source.BreaksOff faults source data) (hfaults : ∀ e, faults e → e.IsReading)
    (chunkBytes limit : Nat) {visit : Bytes → α → Visit α} (seen : α → List Bytes)
    (hvisit : ∀ line v v', visit line v = .goOn v' ∨ visit line v = .stop v' →
      seen v' = line :: seen v)
    {v : α} (hv : seen v = []) :
    let w := (ofSource source chunkBytes limit).walk visit v
    Line.Settled data (seen w.value).reverse ∧ w.ending ≠ .exhausted ∧
      ∀ e, w.ending = .failed e → e.IsReading := by
  intro w
  have hR := Source.breakage_breaksOff (σ := σ) faults
  obtain ⟨-, hending, hreading⟩ :=
    walk_endless hR hfaults visit v (endless_ofSource h chunkBytes limit)
  refine ⟨fun more => ?_, hending, hreading⟩
  have hmore := h.mono (List.prefix_append data more)
  have hstart : (ofSource source chunkBytes limit).Follows
      (fun s data => Source.BreaksOff faults s data ∨ Source.BreaksOff faults s []) limit
      (Line.cut (data ++ more)) {} :=
    .reading rfl (Splitter.accounts_of_held (.inl hmore) chunkBytes limit)
  obtain ⟨taken, hvalue, hfollows, -⟩ := hstart.walk hR.delivery hfaults seen hvisit v
  have htaken : (seen w.value).reverse = taken := by
    show (seen ((ofSource source chunkBytes limit).walk visit v).value).reverse = taken
    rw [hvalue, hv, List.append_nil, List.reverse_reverse]
  rw [htaken]
  have hwhole := hfollows.whole_isPrefix
  rw [Account.addAll_append] at hwhole
  have hlines := (Account.whole_isPrefix_addAll _ _).trans hwhole
  rwa [Account.whole_addAll_lines] at hlines

end Cursor

end TextLines

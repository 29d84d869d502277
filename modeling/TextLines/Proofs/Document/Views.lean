import TextLines.Proofs.Document.Counting
import TextLines.Proofs.Line.Handing

/-!
# The views of one document agree

The passes over a document are loops of their own, and yet they all come to what the lines of a
stream make of it: counting, collecting, rendering, visiting, looking for a line and looking for any
line agree with each other when reading goes through (`Session.AgreesOn`), and they fail for the
same reason when it does not (`Session.FailsWith`).

Both are about `Cursor.Hands`, the lines that a fresh cursor over the source hands out. Collecting
either has all of them or fails with what has stopped them, and so do the others, whenever the same
document is opened in the same world.
-/

namespace TextLines

variable {ω σ : Type} [Source σ]

/-! ## Passes -/

/-- A value, unless there is a failure. -/
def okUnless {α : Type} (failure : Option Error) (a : α) : Except Error α :=
  match failure with
  | none => .ok a
  | some e => .error e

theorem okUnless_map {α β : Type} (f : α → β) (failure : Option Error) (a : α) :
    (okUnless failure a).map f = okUnless failure (f a) := by
  cases failure <;> rfl

namespace Pass

variable {c c' : Cursor σ} {lines : List Bytes} {failure : Option Error}

/-- A pass whose visitor never has enough answers what the visitor makes of the lines, or it fails
with what has stopped them. -/
theorem finish_of_hands {α : Type} (f : Bytes → α → α) (h : c.Hands lines failure c')
    (hmust : c.mustRead = true) (v : α) :
    let w := c.walk (fun line v => .goOn (f line v)) v
    (finish w.result w.cursor).result =
      okUnless failure (lines.foldl (fun v line => f line v) v) := by
  intro w
  have hw : w = ⟨.ofFailure failure, lines.foldl (fun v line => f line v) v, c'⟩ :=
    h.walk_of_goes (P := fun _ => True) (fun _ _ _ => ⟨rfl, trivial⟩) trivial
  rw [hw]
  cases failure with
  | none =>
    rw [finish, Cursor.close_of_isClosed (h.isClosed hmust)]
    rfl
  | some e => rfl

theorem countLines_of_hands (h : c.Hands lines failure c') (hmust : c.mustRead = true) :
    (countLines c).result = okUnless failure lines.length := by
  have hpass := finish_of_hands (fun _ n => n + 1) h hmust 0
  rw [List.foldl_add_const, Nat.zero_add, Nat.one_mul] at hpass
  exact hpass

/-- The lines are gathered with the last one first. -/
theorem gather_of_hands (h : c.Hands lines failure c') (hmust : c.mustRead = true) :
    let w := c.walk (fun line lines => .goOn (line :: lines)) []
    (finish w.result w.cursor).result = okUnless failure lines.reverse := by
  have hpass := finish_of_hands (fun line lines => line :: lines) h hmust []
  rw [List.foldl_flip_cons_eq_append', List.append_nil] at hpass
  exact hpass

theorem collect_of_hands (h : c.Hands lines failure c') (hmust : c.mustRead = true) :
    (collect c).result = okUnless failure lines := by
  have hpass := congrArg (Except.map List.reverse) (gather_of_hands h hmust)
  rw [okUnless_map, List.reverse_reverse] at hpass
  exact hpass

theorem render_of_hands (h : c.Hands lines failure c') (hmust : c.mustRead = true) :
    (render c).result = okUnless failure (List.intercalate [Bytes.lf] lines) := by
  have hpass := congrArg (Except.map fun lines => List.intercalate [Bytes.lf] lines.reverse)
    (gather_of_hands h hmust)
  rw [okUnless_map, List.reverse_reverse] at hpass
  exact hpass

theorem contains_of_hands (h : c.Hands lines none c') (hmust : c.mustRead = true)
    (hcloses : c.ClosesWith none) (wanted : Bytes) :
    (contains wanted c).result = .ok (decide (wanted ∈ lines)) := by
  obtain ⟨hresult, hclose⟩ := h.walk_wanted hmust hcloses wanted
  exact (finish_of_close _ hclose).1.trans hresult

theorem isEmpty_of_hands (h : c.Hands lines none c') (hmust : c.mustRead = true)
    (hcloses : c.ClosesWith none) : (isEmpty c).result = .ok lines.isEmpty := by
  rw [isEmpty]
  cases h with
  | exhausted hmore =>
    rw [hmore]
    dsimp only [Pass.map]
    rw [finish, Cursor.close_of_isClosed (Cursor.isClosed_of_exhausted hmust hmore)]
    rfl
  | line hmore hrest =>
    rw [hmore]
    have hnext : Cursor.ClosesWith none _ := hcloses.hasMore hmust hmore
    dsimp only [Pass.map]
    rw [(finish_of_close _ hnext.close_eq).1]
    rfl

end Pass

namespace Session

/-! ## Documents -/

/-- The same document in the same world. -/
structure SameFile (s t : Session ω σ) : Prop where
  config : t.config = s.config
  opener : t.opener = s.opener
  world : t.world = s.world

omit [Source σ] in
theorem SameFile.trans {s t u : Session ω σ} (h : s.SameFile t) (h' : t.SameFile u) :
    s.SameFile u :=
  ⟨h'.config.trans h.config, h'.opener.trans h.opener, h'.world.trans h.world⟩

variable [Room]

omit [Source σ] in
/-- A fresh cursor over the source, or why there is none. -/
theorem SameFile.openCursor {s t : Session ω σ} (h : s.SameFile t) :
    t.openCursor.1 = s.openCursor.1 := by
  rw [Session.openCursor, Session.openCursor, h.config, h.opener, h.world]

omit [Source σ] in
theorem sameFile_openCursor (s : Session ω σ) : s.SameFile s.openCursor.2 :=
  ⟨rfl, rfl, rfl⟩

omit [Source σ] in
theorem sameFile_runPass {α : Type} (s : Session ω σ) (pass : Cursor σ → Pass α σ) :
    s.SameFile (s.runPass pass).2 := by
  have hopen := sameFile_openCursor s
  rw [runPass]
  rcases hc : s.openCursor with ⟨e | c, s'⟩
  · rw [hc] at hopen
    exact hopen
  · rw [hc] at hopen
    exact ⟨hopen.config, hopen.opener, hopen.world⟩

theorem sameFile_count (s : Session ω σ) : s.SameFile s.count.2 := by
  have hpass := sameFile_runPass s Pass.countLines
  rw [count]
  cases s.lineCount with
  | some n => exact ⟨rfl, rfl, rfl⟩
  | none =>
    rcases hrun : s.runPass Pass.countLines with ⟨e | n, s'⟩
    · rw [hrun] at hpass
      exact hpass
    · rw [hrun] at hpass
      exact ⟨hpass.config, hpass.opener, hpass.world⟩

omit [Source σ] in
/-- What a pass answers depends on the cursor that is opened for it. -/
theorem runPass_of_refused {α : Type} {s : Session ω σ} {e : Error} (h : s.openCursor.1 = .error e)
    (pass : Cursor σ → Pass α σ) : (s.runPass pass).1 = .error e := by
  rw [runPass]
  rcases hc : s.openCursor with ⟨r, s'⟩
  rw [hc] at h
  obtain rfl : r = .error e := h
  rfl

omit [Source σ] in
theorem runPass_of_opened {α : Type} {s : Session ω σ} {c : Cursor σ} (h : s.openCursor.1 = .ok c)
    (pass : Cursor σ → Pass α σ) : (s.runPass pass).1 = (pass c).result := by
  rw [runPass]
  rcases hc : s.openCursor with ⟨r, s'⟩
  rw [hc] at h
  obtain rfl : r = .ok c := h
  rfl

theorem count_of_opened {s : Session ω σ} {c c' : Cursor σ} {lines : List Bytes}
    {failure : Option Error} (hunknown : s.lineCount = none) (hopen : s.openCursor.1 = .ok c)
    (h : c.Hands lines failure c') (hmust : c.mustRead = true) :
    s.count.1 = okUnless failure lines.length := by
  rw [count_of_uncounted hunknown, runPass_of_opened hopen]
  exact Pass.countLines_of_hands h hmust

/-! ## Visitors -/

/-- What a visitor has come to who was not to give up, and did not have to. -/
theorem foldl_see (counting : Bool) (lines : List Bytes) (v : Visitor ω σ) (n : Nat) :
    ∃ v', lines.foldl (fun (state : Visitor ω σ × Nat × Option Error) line =>
        ((Visitor.see none counting line state.1).2, state.2.1 + 1, none)) (v, n, none) =
          (v', n + lines.length, none) ∧
      v'.seen = lines.reverse ++ v.seen ∧ (counting = false → v'.counted = v.counted) := by
  induction lines generalizing v n with
  | nil => exact ⟨v, rfl, rfl, fun _ => rfl⟩
  | cons line lines ih =>
    obtain ⟨v', hfold, hseen, hcounted⟩ := ih (Visitor.see none counting line v).2 (n + 1)
    refine ⟨v', ?_, ?_, fun hcounting => ?_⟩
    · rw [List.foldl_cons, hfold, List.length_cons, Nat.add_assoc, Nat.add_comm 1]
    · rw [hseen, Visitor.see_seen, List.reverse_cons, List.append_assoc]
      rfl
    · rw [hcounted hcounting, Visitor.see_snd, hcounting]
      rfl

/-- A visitor who has no reason to give up is handed the lines up to the failure. -/
theorem visit_of_goes {P : Visitor ω σ → Prop} (counting : Bool)
    (hsee : ∀ line v, P v →
      (Visitor.see none counting line v).1 = none ∧ P (Visitor.see none counting line v).2)
    {s : Session ω σ} {c c' : Cursor σ} {lines : List Bytes} {failure : Option Error}
    (hopen : s.openCursor.1 = .ok c) (hP : P { session := s.openCursor.2 })
    (h : c.Hands lines failure c') (hmust : c.mustRead = true) :
    ∃ counted, (s.visit none counting).1 = .visited lines (okUnless failure lines.length) counted ∧
      (counting = false → counted = none) := by
  have hgoes : ∀ line (state : Visitor ω σ × Nat × Option Error), P state.1 →
      Pass.visitLine (Visitor.see none counting) line state =
          .goOn ((Visitor.see none counting line state.1).2, state.2.1 + 1, none) ∧
        P (Visitor.see none counting line state.1).2 := by
    intro line state hstate
    obtain ⟨hnone, hnext⟩ := hsee line state.1 hstate
    refine ⟨?_, hnext⟩
    rw [Pass.visitLine]
    rcases hsaw : Visitor.see none counting line state.1 with ⟨_ | e, v'⟩
    · rfl
    · rw [hsaw] at hnone
      cases hnone
  have hwalk := h.walk_of_goes (P := fun state => P state.1) hgoes
    (v := (({ session := s.openCursor.2 } : Visitor ω σ), 0, none)) hP
  obtain ⟨v', hfold, hseen, hcounted⟩ :=
    foldl_see counting lines ({ session := s.openCursor.2 } : Visitor ω σ) 0
  rw [hfold, Nat.zero_add] at hwalk
  rw [List.append_nil] at hseen
  have hpass : Pass.visitLines (Visitor.see none counting)
      ({ session := s.openCursor.2 } : Visitor ω σ) c =
        (Pass.finish (okUnless failure lines.length) c', v') := by
    rw [Pass.visitLines_eq, hwalk]
    cases failure <;> rfl
  have hresult : (Pass.finish (okUnless failure lines.length) c').result =
      okUnless failure lines.length := by
    cases failure with
    | none =>
      rw [Pass.finish, Cursor.close_of_isClosed (h.isClosed hmust)]
      rfl
    | some e => rfl
  refine ⟨v'.counted, ?_, hcounted⟩
  rw [visit]
  rcases hc : s.openCursor with ⟨r, t⟩
  rw [hc] at hopen hpass
  obtain rfl : r = .ok c := hopen
  dsimp only
  rw [hpass]
  dsimp only
  rw [hresult, hseen, List.reverse_reverse]

/-- The number of lines is not known, or it is `n`. -/
def CountsTo (s : Session ω σ) (n : Nat) : Prop :=
  s.lineCount = none ∨ s.lineCount = some n

/-- A visitor who counts opens the same document until the number of its lines is known, and has no
reason to give up. -/
theorem see_of_sameFile {s : Session ω σ} {c c' : Cursor σ} {lines : List Bytes}
    (hopen : s.openCursor.1 = .ok c) (h : c.Hands lines none c') (hmust : c.mustRead = true)
    {counting : Bool} {v : Visitor ω σ} (hsame : s.SameFile v.session)
    (hcounts : v.session.CountsTo lines.length) (line : Bytes) :
    (Visitor.see none counting line v).1 = none ∧
      s.SameFile (Visitor.see none counting line v).2.session ∧
        (Visitor.see none counting line v).2.session.CountsTo lines.length := by
  cases counting with
  | false => exact ⟨rfl, hsame, hcounts⟩
  | true =>
    have hcount : v.session.count.1 = .ok lines.length := by
      rcases hcounts with hunknown | hknown
      · exact count_of_opened hunknown (hsame.openCursor.trans hopen) h hmust
      · rw [count_of_known hknown]
    have hknown : v.session.count.2.lineCount = some lines.length := by
      rcases count_knows v.session with ⟨n, hn, hafter⟩ | ⟨e, he, -⟩
      · obtain rfl := Except.ok.inj (hn.symm.trans hcount)
        exact hafter.same _ (List.mem_singleton_self _)
      · cases he.symm.trans hcount
    rw [Visitor.session_see]
    refine ⟨?_, hsame.trans (sameFile_count _), .inr hknown⟩
    rw [Visitor.see, Visitor.recount, if_pos rfl]
    rcases hc : v.session.count with ⟨r, t⟩
    rw [hc] at hcount
    obtain rfl : r = .ok lines.length := hcount
    rfl

/-! ## Streams -/

/-- A stream hands out lines, one after the other, and then it fails. -/
inductive Yields : Stream σ → List Bytes → Error → Prop where
  | failed {st : Stream σ} {e : Error} (h : (streamStep .take st).1 = .failed e) : Yields st [] e
  | line {st : Stream σ} {line : Bytes} {lines : List Bytes} {e : Error}
      (h : (streamStep .take st).1 = .line line) (hrest : Yields (streamStep .take st).2 lines e) :
    Yields st (line :: lines) e

omit [Room] in
/-- It hands out the lines of its cursor. Behind the last one it fails because there are no more. -/
theorem yields_of_hands {c c' : Cursor σ} {lines : List Bytes} {failure : Option Error}
    (h : c.Hands lines failure c') {st : Stream σ} (hst : st.cursor = c) :
    Yields st lines (failure.getD .noMoreLines) := by
  induction h generalizing st with
  | exhausted hmore =>
    apply Yields.failed
    rw [streamStep, hst, Cursor.next, hmore]
    rfl
  | failed hmore =>
    apply Yields.failed
    rw [streamStep, hst, Cursor.next, hmore]
    rfl
  | line hmore hrest ih =>
    apply Yields.line
    · rw [streamStep, hst, Cursor.next, hmore]
      rfl
    · apply ih
      rw [streamStep, hst, Cursor.next, hmore]

/-- Opening a stream fails, or it hands out lines and then it fails. -/
def StopsBehind (s : Session ω σ) (lines : List Bytes) (e : Error) : Prop :=
  ((s.step .stream).1 = .failed e ∧ lines = []) ∨
    ∃ c, s.openCursor.1 = .ok c ∧ Yields { cursor := c } lines e

/-! ## The views -/

/-- What the variable holds after an operation that is to give the number of bytes in it, and that
held so many before. -/
def bytesInto (held : Nat) : Answer → Nat
  | .collected _ bytes => bytes
  | _ => held

/-- The views of a document agree that these are its lines. -/
structure AgreesOn (s : Session ω σ) (lines : List Bytes) : Prop where
  count : (s.step .count).1 = .number lines.length
  visit : ∀ counting, ∃ counted,
    (s.step (.visit none counting)).1 = .visited lines (.ok lines.length) counted
  render : (s.step .render).1 = .text (List.intercalate [Bytes.lf] lines)
  contains : ∀ line, (s.step (.contains line)).1 = .truth (decide (line ∈ lines))
  isEmpty : (s.step .isEmpty).1 = .truth lines.isEmpty

/-- The views that need all lines fail for one reason, and a visitor is handed what a stream hands
out before it fails. -/
structure FailsWith (s : Session ω σ) (e : Error) : Prop where
  count : (s.step .count).1 = .failed e
  render : (s.step .render).1 = .failed e
  visit : ∃ lines, (s.step (.visit none false)).1 = .visited lines (.error e) none ∧
    s.StopsBehind lines e

theorem failsWith_of_refused {s : Session ω σ} {e : Error} (hunknown : s.lineCount = none)
    (hopen : s.openCursor.1 = .error e) : s.FailsWith e where
  count := by
    have hcount : s.count.1 = .error e := by
      rw [count_of_uncounted hunknown]
      exact runPass_of_refused hopen _
    exact congrArg (answer .number) hcount
  render := congrArg (answer .text) (runPass_of_refused hopen Pass.render)
  visit := by
    refine ⟨[], ?_, .inl ⟨?_, rfl⟩⟩
    · rw [step, visit]
      rcases hc : s.openCursor with ⟨r, t⟩
      rw [hc] at hopen
      obtain rfl : r = .error e := hopen
      rfl
    · rw [step]
      rcases hc : s.openCursor with ⟨r, t⟩
      rw [hc] at hopen
      obtain rfl : r = .error e := hopen
      rfl

theorem failsWith_of_hands {s : Session ω σ} {c c' : Cursor σ} {lines : List Bytes} {e : Error}
    (hunknown : s.lineCount = none) (hopen : s.openCursor.1 = .ok c)
    (h : c.Hands lines (some e) c') (hmust : c.mustRead = true) : s.FailsWith e where
  count := congrArg (answer .number) (count_of_opened hunknown hopen h hmust)
  render := congrArg (answer .text)
    ((runPass_of_opened hopen Pass.render).trans (Pass.render_of_hands h hmust))
  visit := by
    obtain ⟨counted, hvisit, hnone⟩ := visit_of_goes (P := fun _ => True) false
      (fun _ _ _ => ⟨rfl, trivial⟩) hopen trivial h hmust
    rw [hnone rfl] at hvisit
    exact ⟨lines, hvisit, .inr ⟨c, hopen, yields_of_hands h rfl⟩⟩

theorem agreesOn_of_hands {s : Session ω σ} {c c' : Cursor σ} {lines : List Bytes}
    (hunknown : s.lineCount = none) (hopen : s.openCursor.1 = .ok c) (h : c.Hands lines none c')
    (hmust : c.mustRead = true) (hcloses : c.ClosesWith none) : s.AgreesOn lines where
  count := congrArg (answer .number) (count_of_opened hunknown hopen h hmust)
  visit counting := by
    obtain ⟨counted, hvisit, -⟩ := visit_of_goes
      (P := fun v => s.SameFile v.session ∧ v.session.CountsTo lines.length) counting
      (fun line v hv => see_of_sameFile hopen h hmust hv.1 hv.2 line) hopen
      ⟨sameFile_openCursor s, .inl hunknown⟩ h hmust
    exact ⟨counted, hvisit⟩
  render := congrArg (answer .text)
    ((runPass_of_opened hopen Pass.render).trans (Pass.render_of_hands h hmust))
  contains line := congrArg (answer .truth)
    ((runPass_of_opened hopen (Pass.contains line)).trans
      (Pass.contains_of_hands h hmust hcloses line))
  isEmpty := by
    have hempty : s.isEmpty.1 = .ok lines.isEmpty := by
      rw [isEmpty, hunknown]
      exact (runPass_of_opened hopen Pass.isEmpty).trans (Pass.isEmpty_of_hands h hmust hcloses)
    exact congrArg (answer .truth) hempty

omit [Source σ] in
theorem eq_ofSource_of_openCursor {s : Session ω σ} {c : Cursor σ}
    (h : s.openCursor.1 = .ok c) :
    ∃ source, s.opener s.config s.world = .ok (some source) ∧
      c = .ofSource source s.config.chunkBytes s.config.maxLineBytes :=
  Config.eq_ofSource_of_cursor h

/-- The views of a document agree with what is collected of it at another time, and if that fails
they fail for the same reason. -/
theorem views_agree {s t : Session ω σ} (hsame : s.SameFile t) (hunknown : t.lineCount = none)
    (hcloses : ∀ source, s.opener s.config s.world = .ok (some source) →
      ∃ closing, Source.ClosesWith closing source) :
    (∃ lines bytes, (s.step .collect).1 = .collected lines bytes ∧ t.AgreesOn lines) ∨
      ∃ e, (s.step .collect).1 = .failed e ∧ t.FailsWith e ∧
        ∀ held, bytesInto held (s.step .collect).1 = held := by
  have hcollect : (s.step .collect).1 = answer (fun r : List Bytes × Nat => .collected r.1 r.2)
      (s.runPass fun c => (Pass.collect c).map fun lines =>
        (lines, (Pass.collect c).cursor.bytesRead)).1 := rfl
  rcases hopen : s.openCursor.1 with e | c
  · rw [runPass_of_refused hopen] at hcollect
    refine .inr ⟨e, hcollect, failsWith_of_refused hunknown (hsame.openCursor.trans hopen), ?_⟩
    rw [hcollect]
    exact fun _ => rfl
  · obtain ⟨source, hsource, rfl⟩ := eq_ofSource_of_openCursor hopen
    obtain ⟨closing, hclosing⟩ := hcloses source hsource
    obtain ⟨lines, failure, c', h⟩ := Cursor.exists_hands
      (Cursor.ofSource source s.config.chunkBytes s.config.maxLineBytes)
    have hopen' := hsame.openCursor.trans hopen
    rw [runPass_of_opened hopen, Pass.map, Pass.collect_of_hands h rfl, okUnless_map] at hcollect
    cases failure with
    | none =>
      have hwith : Cursor.ClosesWith closing
          (Cursor.ofSource source s.config.chunkBytes s.config.maxLineBytes) :=
        ⟨source, rfl, hclosing⟩
      obtain rfl := h.closes rfl hwith
      exact .inl ⟨lines, _, hcollect, agreesOn_of_hands hunknown hopen' h rfl hwith⟩
    | some e =>
      refine .inr ⟨e, hcollect, failsWith_of_hands hunknown hopen' h rfl, ?_⟩
      rw [hcollect]
      exact fun _ => rfl

omit [Room] in
/-- Two times at which a document is opened whose fourth read fails and that cannot be closed
properly. -/
theorem views_agree_failing_read :
    let _ : Room := .ample
    let memory : Memory := {
      rest := Bytes.ascii "one\ntwo\nthree", step := 2
      readFault := some (4, .reading (.device [])), closeFault := some (.closing []) }
    let s : Session Memory Memory := {
      config := { chunkBytes := 3 }
      opener := fun _ memory => .ok (some memory)
      world := memory }
    let t := (s.step .collect).2
    s.SameFile t ∧ t.lineCount = none ∧
      (∀ source, s.opener s.config s.world = .ok (some source) →
        ∃ closing, Source.ClosesWith closing source) ∧
      ((∃ lines bytes, (s.step .collect).1 = .collected lines bytes ∧ t.AgreesOn lines) ∨
        ∃ e, (s.step .collect).1 = .failed e ∧ t.FailsWith e ∧
          ∀ held, bytesInto held (s.step .collect).1 = held) := by
  intro _ memory s t
  have hsame : s.SameFile t := sameFile_runPass s _
  have hunknown : t.lineCount = none := lineCount_runPass s _
  have hcloses : ∀ source, s.opener s.config s.world = .ok (some source) →
      ∃ closing, Source.ClosesWith closing source := by
    intro source hsource
    obtain rfl := Option.some.inj (Except.ok.inj hsource)
    exact ⟨_, Memory.closesWith rfl⟩
  exact ⟨hsame, hunknown, hcloses, views_agree hsame hunknown hcloses⟩

end Session

end TextLines

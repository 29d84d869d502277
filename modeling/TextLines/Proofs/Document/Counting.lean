import TextLines.Proofs.Document.Alike

/-!
# The number of lines, once it is known

The number of lines of a document is known from the first count on that returns, and it is the one
that this count has returned. It does not change any more, whatever becomes of the file, and nothing
is asked of a source for it. Before that every count scans the document from the start, and one that
fails leaves no trace.

`Session.counts` lists the counts that return in the course of a history, those of a visitor among
them. `Session.Knows` relates it to what is known before and after: it holds of every operation
(`step_knows`), and so it holds of every history (`run_knows`).
-/

namespace TextLines

variable {ω σ : Type} [Source σ]

namespace Session

variable [Room]

/-- The counts that return when a visitor counts at each of the lines that it is shown. None comes
after one that fails. -/
def countsAt (s : Session ω σ) : List Bytes → List Nat
  | [] => []
  | _ :: lines =>
    match s.count with
    | (.ok n, s) => n :: s.countsAt lines
    | (.error _, _) => []

/-- The counts that return in the course of an operation. -/
def countsOf (s : Session ω σ) (op : Op ω) : List Nat :=
  match op, (s.step op).1 with
  | .count, .number n => [n]
  | .visit _ true, .visited seen _ _ => s.openCursor.2.countsAt seen
  | _, _ => []

/-- The counts that return in the course of a history. -/
def counts (s : Session ω σ) : List (Op ω) → List Nat
  | [] => []
  | op :: ops => s.countsOf op ++ (s.step op).2.counts ops

/-- The counts that return between two states of a document make known what the first of them has
returned, if nothing was known, and all of them return what is known. -/
structure Knows (s : Session ω σ) (counts : List Nat) (s' : Session ω σ) : Prop where
  lineCount : s'.lineCount = s.lineCount.or counts.head?
  same : ∀ n ∈ counts, s'.lineCount = some n

omit [Source σ] [Room] in
theorem Knows.none {s s' : Session ω σ} (h : s'.lineCount = s.lineCount) : s.Knows [] s' where
  lineCount := by rw [h, List.head?_nil, Option.or_none]
  same _ hn := absurd hn List.not_mem_nil

omit [Source σ] [Room] in
/-- What is known stays known. -/
theorem Knows.lineCount_eq {s s' : Session ω σ} {counts : List Nat} (h : s.Knows counts s')
    {n : Nat}
    (hknown : s.lineCount = some n) : s'.lineCount = some n := by
  rw [h.lineCount, hknown, Option.some_or]

omit [Source σ] [Room] in
theorem Knows.trans {s s' s'' : Session ω σ} {counts counts' : List Nat} (h : s.Knows counts s')
    (h' : s'.Knows counts' s'') : s.Knows (counts ++ counts') s'' where
  lineCount := by rw [h'.lineCount, h.lineCount, List.head?_append, Option.or_assoc]
  same n hn := by
    rcases List.mem_append.mp hn with hbefore | hafter
    · exact h'.lineCount_eq (h.same n hbefore)
    · exact h'.same n hafter

/-! ## One operation -/

omit [Source σ] in
theorem lineCount_openCursor (s : Session ω σ) : s.openCursor.2.lineCount = s.lineCount := rfl

omit [Source σ] in
theorem lineCount_runPass {α : Type} (s : Session ω σ) (pass : Cursor σ → Pass α σ) :
    (s.runPass pass).2.lineCount = s.lineCount := by
  rw [runPass]
  rcases hopen : s.openCursor with ⟨e | c, s'⟩
  · exact (congrArg (fun r => r.2.lineCount) hopen).symm
  · exact (congrArg (fun r => r.2.lineCount) hopen).symm

omit [Source σ] in
theorem opens_runPass {α : Type} (s : Session ω σ) (pass : Cursor σ → Pass α σ) :
    (s.runPass pass).2.opens = s.opens + 1 := by
  rw [runPass]
  rcases hopen : s.openCursor with ⟨e | c, s'⟩
  · exact (congrArg (fun r => r.2.opens) hopen).symm
  · exact (congrArg (fun r => r.2.opens) hopen).symm

/-- A count that is known is answered without anything being done for it. -/
theorem count_of_known {s : Session ω σ} {n : Nat} (h : s.lineCount = some n) :
    s.count = (.ok n, s) := by
  rw [count, h]

theorem isEmpty_of_known {s : Session ω σ} {n : Nat} (h : s.lineCount = some n) :
    s.isEmpty = (.ok (n == 0), s) := by
  rw [isEmpty, h]

theorem count_knows (s : Session ω σ) :
    (∃ n, s.count.1 = .ok n ∧ s.Knows [n] s.count.2) ∨
      ∃ e, s.count.1 = .error e ∧ s.Knows [] s.count.2 := by
  cases hknown : s.lineCount with
  | some n =>
    rw [count_of_known hknown]
    refine .inl ⟨n, rfl, ?_, fun m hm => ?_⟩
    · rw [hknown, Option.some_or]
    · rw [List.mem_singleton.mp hm]
      exact hknown
  | none =>
    have hsame := lineCount_runPass s Pass.countLines
    rw [count, hknown]
    rcases hrun : s.runPass Pass.countLines with ⟨e | n, s'⟩
    · rw [hrun] at hsame
      exact .inr ⟨e, rfl, .none hsame⟩
    · refine .inl ⟨n, rfl, ?_, fun m hm => ?_⟩
      · rw [hknown, Option.none_or, List.head?_cons]
      · rw [List.mem_singleton.mp hm]

/-- The lines that a visitor has been shown so far. What it will be shown adds the counts that
return from where it has come to. -/
structure Progress (s : Session ω σ) (v : Visitor ω σ) : Prop where
  knows : s.Knows (s.countsAt v.seen.reverse) v.session
  goesOn : ∀ lines, s.countsAt (v.seen.reverse ++ lines) =
    s.countsAt v.seen.reverse ++ v.session.countsAt lines

/-- A visitor that counts leaves behind what its count does. -/
theorem Visitor.session_see (giveUp : Option (Nat × Error)) (line : Bytes) (v : Visitor ω σ) :
    (v.see giveUp true line).2.session = v.session.count.2 := by
  rw [Visitor.see_snd, Visitor.recount, if_pos rfl]
  rcases v.session.count with ⟨_ | _, _⟩ <;> rfl

/-- A visitor counts at the line that it is shown. If it goes on the count has returned. -/
theorem Progress.see {s : Session ω σ} {v : Visitor ω σ} (h : s.Progress v)
    (giveUp : Option (Nat × Error)) (line : Bytes) :
    s.Knows (s.countsAt (v.see giveUp true line).2.seen.reverse)
        (v.see giveUp true line).2.session ∧
      ((v.see giveUp true line).1 = none → s.Progress (v.see giveUp true line).2) := by
  have hseen := Visitor.see_seen giveUp true line v
  have hsession := Visitor.session_see giveUp line v
  have hall : ∀ lines, s.countsAt ((v.see giveUp true line).2.seen.reverse ++ lines) =
      s.countsAt v.seen.reverse ++ v.session.countsAt (line :: lines) := by
    intro lines
    rw [hseen, List.reverse_cons, List.append_assoc, List.singleton_append]
    exact h.goesOn (line :: lines)
  have hone := hall []
  rw [List.append_nil] at hone
  rcases count_knows v.session with ⟨n, hn, hknows⟩ | ⟨e, he, hknows⟩
  · have hcounts : ∀ lines, v.session.countsAt (line :: lines) =
        n :: v.session.count.2.countsAt lines := by
      intro lines
      rw [countsAt]
      rcases hc : v.session.count with ⟨r, t⟩
      rw [hc] at hn
      obtain rfl : r = .ok n := hn
      rfl
    have hknows' : s.Knows (s.countsAt (v.see giveUp true line).2.seen.reverse)
        (v.see giveUp true line).2.session := by
      rw [hone, hcounts, hsession]
      exact h.knows.trans hknows
    refine ⟨hknows', fun _ => ⟨hknows', fun lines => ?_⟩⟩
    rw [hall, hone, hcounts, hcounts, hsession, List.append_assoc]
    rfl
  · have hcounts : v.session.countsAt [line] = [] := by
      rw [countsAt]
      rcases hc : v.session.count with ⟨r, t⟩
      rw [hc] at he
      obtain rfl : r = .error e := he
      rfl
    refine ⟨?_, fun hnone => ?_⟩
    · rw [hone, hcounts, hsession]
      exact h.knows.trans hknows
    · -- A visitor whose count fails gives up.
      rw [Visitor.see, Visitor.recount, if_pos rfl] at hnone
      rcases hc : v.session.count with ⟨r, t⟩
      rw [hc] at he
      obtain rfl : r = .error e := he
      simp only [hc] at hnone
      cases hnone

/-- What a visitor keeps at every line, and what it has when it gives up. -/
theorem visitLines_keeps {P Q : Visitor ω σ → Prop} (giveUp : Option (Nat × Error))
    (counting : Bool)
    (hsee : ∀ line v, P v → Q (v.see giveUp counting line).2 ∧
      ((v.see giveUp counting line).1 = none → P (v.see giveUp counting line).2))
    (hkept : ∀ v, P v → Q v) {v : Visitor ω σ} (hv : P v) (c : Cursor σ) :
    Q (Pass.visitLines (Visitor.see giveUp counting) v c).2 := by
  obtain ⟨hstop, hgoOn⟩ := Cursor.walk_keeps (Pass.visitLine (Visitor.see giveUp counting))
    (P := fun state => P state.1) (Q := fun state => Q state.1)
    (fun line state state' hstate hgone => by
      obtain rfl := Pass.visitLine_goOn hgone
      apply (hsee line state.1 hstate).2
      rw [Pass.visitLine] at hgone
      rcases hsaw : Visitor.see giveUp counting line state.1 with ⟨_ | e, v'⟩
      · rfl
      · rw [hsaw] at hgone
        cases hgone)
    (fun line state state' hstate hstopped => by
      obtain ⟨e, -, rfl⟩ := Pass.visitLine_stop hstopped
      exact (hsee line state.1 hstate).1)
    (v := (v, 0, none)) hv c
  rw [Pass.visitLines_eq]
  by_cases hstopped : (c.walk (Pass.visitLine (Visitor.see giveUp counting)) (v, 0, none)).ending =
      .stopped
  · exact hstop hstopped
  · exact hkept _ (hgoOn hstopped)

theorem visit_knows (s : Session ω σ) (giveUp : Option (Nat × Error)) :
    s.Knows (s.countsOf (.visit giveUp true)) (s.visit giveUp true).2 := by
  unfold countsOf step visit
  have hsame := lineCount_openCursor s
  rcases hopen : s.openCursor with ⟨e | c, t⟩
  · rw [hopen] at hsame
    exact .none hsame
  · rw [hopen] at hsame
    have hstart : t.Progress ({ session := t } : Visitor ω σ) :=
      ⟨.none rfl, fun lines => rfl⟩
    have hknows := visitLines_keeps giveUp true
      (Q := fun v => t.Knows (t.countsAt v.seen.reverse) v.session)
      (fun line v hv => hv.see giveUp line) (fun v hv => hv.knows) hstart c
    refine ⟨?_, hknows.same⟩
    rw [← hsame]
    exact hknows.lineCount

theorem lineCount_visit (s : Session ω σ) (giveUp : Option (Nat × Error)) :
    (s.visit giveUp false).2.lineCount = s.lineCount := by
  rw [visit]
  have hsame := lineCount_openCursor s
  rcases hopen : s.openCursor with ⟨e | c, t⟩
  · rw [hopen] at hsame
    exact hsame
  · rw [hopen] at hsame
    rw [← hsame]
    exact visitLines_keeps giveUp false (P := fun v => v.session.lineCount = t.lineCount)
      (Q := fun v => v.session.lineCount = t.lineCount)
      (fun line v hv => ⟨hv, fun _ => hv⟩) (fun _ => id) rfl c

/-- A visitor that counts what is known opens nothing. -/
theorem opens_visit_of_known {s : Session ω σ} {n : Nat} (h : s.lineCount = some n)
    (giveUp : Option (Nat × Error)) : (s.visit giveUp true).2.opens = s.opens + 1 := by
  rw [visit]
  rcases hopen : s.openCursor with ⟨e | c, t⟩
  · exact (congrArg (fun r => r.2.opens) hopen).symm
  · have hopens : t.opens = s.opens + 1 := (congrArg (fun r => r.2.opens) hopen).symm
    have hknown : t.lineCount = some n := (congrArg (fun r => r.2.lineCount) hopen).symm.trans h
    have hkept : ∀ line (v : Visitor ω σ), v.session = t →
        (v.see giveUp true line).2.session = t := by
      intro line v hv
      rw [Visitor.session_see, hv, count_of_known hknown]
    have hsession := visitLines_keeps giveUp true (P := fun v => v.session = t)
      (Q := fun v => v.session = t) (fun line v hv => ⟨hkept line v hv, fun _ => hkept line v hv⟩)
      (fun _ => id) (v := { session := t }) rfl c
    exact (congrArg Session.opens hsession).trans hopens

/-- The operation may count. -/
def Counts : Op ω → Prop
  | .count => True
  | .visit _ counting => counting = true
  | _ => False

/-- No other operation makes a difference to what is known. -/
theorem lineCount_step {s : Session ω σ} {op : Op ω} (hop : ¬ Counts op) :
    (s.step op).2.lineCount = s.lineCount := by
  cases op with
  | stream =>
    rw [step]
    rcases hopen : s.openCursor with ⟨e | c, t⟩
    · exact (congrArg (fun r => r.2.lineCount) hopen).symm
    · exact (congrArg (fun r => r.2.lineCount) hopen).symm
  | count => exact absurd trivial hop
  | isEmpty =>
    rw [step, isEmpty]
    cases hknown : s.lineCount with
    | some n => exact hknown
    | none => exact (lineCount_runPass s Pass.isEmpty).trans hknown
  | render => exact lineCount_runPass s Pass.render
  | contains line => exact lineCount_runPass s (Pass.contains line)
  | collect => exact lineCount_runPass s _
  | visit giveUp counting =>
    cases counting with
    | true => exact absurd rfl hop
    | false => exact lineCount_visit s giveUp
  | emptyStream | knownCount | change world => rfl
  | on number op =>
    unfold step
    dsimp only
    split <;> rfl

theorem step_knows (s : Session ω σ) (op : Op ω) : s.Knows (s.countsOf op) (s.step op).2 := by
  by_cases hop : Counts op
  · cases op with
    | count =>
      have hanswer : (s.step .count).1 = answer .number s.count.1 := rfl
      rcases count_knows s with ⟨n, hn, hknows⟩ | ⟨e, he, hknows⟩
      · have hcounts : s.countsOf .count = [n] := by
          rw [hn] at hanswer
          simp only [countsOf, hanswer, answer]
        rw [hcounts]
        exact hknows
      · have hcounts : s.countsOf .count = [] := by
          rw [he] at hanswer
          simp only [countsOf, hanswer, answer]
        rw [hcounts]
        exact hknows
    | visit giveUp counting =>
      obtain rfl : counting = true := hop
      exact visit_knows s giveUp
    | stream | emptyStream | knownCount | isEmpty | render | contains line | collect | change world
    | on number op => exact absurd hop id
  · have hnone : s.countsOf op = [] := by
      cases op with
      | visit giveUp counting =>
        cases counting with
        | true => exact absurd rfl hop
        | false => rfl
      | count => exact absurd trivial hop
      | stream | emptyStream | knownCount | isEmpty | render | contains line | collect
      | change world | on number op => rfl
    rw [hnone]
    exact .none (lineCount_step hop)

/-! ## Counting when the number is not known -/

/-- A count that fails leaves the number unknown. -/
theorem lineCount_of_failed {s : Session ω σ} {e : Error}
    (h : (s.step .count).1 = .failed e) : s.count.2.lineCount = none := by
  have hanswer : answer .number s.count.1 = .failed e := h
  rcases count_knows s with ⟨n, hn, -⟩ | ⟨e', -, hknows⟩
  · rw [hn] at hanswer
    cases hanswer
  · cases hbefore : s.lineCount with
    | none => rw [hknows.lineCount, hbefore, List.head?_nil, Option.or_none]
    | some n =>
      rw [count_of_known hbefore] at hanswer
      cases hanswer

theorem opens_count {s : Session ω σ} (h : s.lineCount = none) :
    s.count.2.opens = s.opens + 1 := by
  have hopens := opens_runPass s Pass.countLines
  rw [count, h]
  rcases hrun : s.runPass Pass.countLines with ⟨e | n, t⟩
  · rw [hrun] at hopens
    exact hopens
  · rw [hrun] at hopens
    exact hopens

/-- A count finds the number of the lines if nothing goes wrong with the source. -/
theorem count_of_gives {s : Session ω σ} (h : s.lineCount = none)
    (hmemory : s.config.chunkBytes < Room.limit) {source : σ} {text : Bytes}
    (hopen : s.opener s.config s.world = .ok (some source)) (hgives : Source.Gives source text)
    (hfits : ∀ line ∈ Line.cut text, Splitter.Fits s.config.maxLineBytes line.length) :
    s.count.1 = .ok (Line.cut text).length ∧
      s.count.2.lineCount = some (Line.cut text).length := by
  have hwalk := Line.walkResult_of_fits (fun _ n => n + 1) hfits 0
  rw [List.foldl_add_const, Nat.zero_add, Nat.one_mul] at hwalk
  have hcount : s.count.1 = .ok (Line.cut text).length := by
    rw [count_of_uncounted h, runPass, openCursor, hopen, Config.cursor_of_lt hmemory]
    exact (Pass.countLines_of_gives hgives _ _).trans hwalk
  refine ⟨hcount, ?_⟩
  rcases count_knows s with ⟨n, hn, hafter⟩ | ⟨e, he, -⟩
  · obtain rfl := Except.ok.inj (hn.symm.trans hcount)
    exact hafter.same _ (List.mem_singleton_self _)
  · cases he.symm.trans hcount

/-! ## Histories -/

theorem run_knows (s : Session ω σ) (ops : List (Op ω)) :
    s.Knows (s.counts ops) (s.run ops) := by
  induction ops generalizing s with
  | nil => exact .none rfl
  | cons op ops ih => exact (step_knows s op).trans (ih _)

/-- What is known of the number of lines when the counts that have returned are `counts`. -/
structure CountsOnce (s : Session ω σ) (counts : List Nat) : Prop where
  /-- It is what the first of them has returned. -/
  known : (s.step .knownCount).1 = .known counts.head?
  /-- All of them have returned the same. -/
  same : ∀ n ∈ counts, counts.head? = some n
  /-- It is the answer from then on, and nothing is done for it. -/
  count : ∀ n, counts.head? = some n → s.step .count = (.number n, s)
  isEmpty : ∀ n, counts.head? = some n → s.step .isEmpty = (.truth (n == 0), s)
  visit : ∀ n, counts.head? = some n → ∀ giveUp,
    (s.step (.visit giveUp true)).2.opens = s.opens + 1
  /-- It does not change any more. -/
  keeps : ∀ n, counts.head? = some n → ∀ ops,
    ((s.run ops).step .knownCount).1 = .known (some n)
  /-- Only counting makes it known, and only if it returns. -/
  others : ∀ op, ¬ Counts op → ((s.step op).2.step .knownCount).1 = (s.step .knownCount).1
  failed : ∀ e, (s.step .count).1 = .failed e →
    ((s.step .count).2.step .knownCount).1 = .known none
  /-- Before it is known a count opens the document and scans it from the start. -/
  scans : counts = [] → (s.step .count).2.opens = s.opens + 1 ∧
    (s.step .count).1 = answer .number (s.runPass Pass.countLines).1
  /-- It returns if nothing goes wrong with the source. -/
  returns : counts = [] → s.config.chunkBytes < Room.limit → ∀ source text,
    s.opener s.config s.world = .ok (some source) → Source.Gives source text →
      (∀ line ∈ Line.cut text, Splitter.Fits s.config.maxLineBytes line.length) →
        (s.step .count).1 = .number (Line.cut text).length ∧
          ((s.step .count).2.step .knownCount).1 = .known (some (Line.cut text).length)

/-- Whatever has happened to a document, the number of its lines is what the first count that
returned has found. -/
theorem run_countsOnce {s : Session ω σ} (h : s.lineCount = none) (ops : List (Op ω)) :
    (s.run ops).CountsOnce (s.counts ops) := by
  have hknows := run_knows s ops
  have hknown := hknows.lineCount
  rw [h, Option.none_or] at hknown
  generalize s.run ops = t at hknows hknown
  generalize s.counts ops = counts at hknows hknown
  have hnone : counts = [] → t.lineCount = none := by
    intro hnil
    rw [hknown, hnil]
    rfl
  refine ⟨congrArg Answer.known hknown, fun n hn => hknown.symm.trans (hknows.same n hn), ?_, ?_,
    ?_, ?_, ?_, ?_, ?_, ?_⟩
  · intro n hn
    rw [step, count_of_known (hknown.trans hn)]
    rfl
  · intro n hn
    rw [step, isEmpty_of_known (hknown.trans hn)]
    rfl
  · intro n hn giveUp
    exact opens_visit_of_known (hknown.trans hn) giveUp
  · intro n hn more
    exact congrArg Answer.known ((run_knows t more).lineCount_eq (hknown.trans hn))
  · intro op hop
    exact congrArg Answer.known (lineCount_step hop)
  · intro e he
    exact congrArg Answer.known (lineCount_of_failed he)
  · intro hnil
    have hresult := count_of_uncounted (hnone hnil)
    exact ⟨opens_count (hnone hnil), congrArg (answer .number) hresult⟩
  · intro hnil hmemory source text hopen hgives hfits
    obtain ⟨hcount, hafter⟩ := count_of_gives (hnone hnil) hmemory hopen hgives hfits
    exact ⟨congrArg (answer .number) hcount, congrArg Answer.known hafter⟩

omit [Room] in
/-- A file that is removed between two counts, and then one that is counted by a visitor. -/
theorem run_countsOnce_removed :
    let _ : Room := .ample
    let memory : Memory := { rest := Bytes.ascii "one\ntwo", step := 2 }
    let s : Session (Except Error Memory) Memory := {
      config := {}
      opener := fun _ world => world.map some
      world := .error .noMoreLines }
    let ops := [.count, .change (.ok memory), .visit none true, .change (.error .noMoreLines),
      .count]
    s.lineCount = none ∧ (s.run ops).CountsOnce (s.counts ops) := by
  intro _ memory s ops
  have hunknown : s.lineCount = none := rfl
  exact ⟨hunknown, run_countsOnce hunknown ops⟩

end Session

end TextLines

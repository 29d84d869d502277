import TextLines.Proofs.Document.Lines
import TextLines.Proofs.Document.Releasing
import TextLines.Proofs.Document.Visiting

/-!
# What the operations of a document share

All operations of a document run on the same state, and each of them keeps to a part of it.

* A pass leaves the streams alone (`pass_keeps`, `streams_pass`). It opens a source of its own, and
  what it opens is the same whatever has been done with the document (`Session.Beside`).
* An operation on a stream depends on what is in the place of this stream, and it changes nothing
  else (`step_on_fst`, `streams_step_on`).
* Opening a stream depends on the file alone, and it leaves the other streams where they are
  (`step_of_fresh`).
* The number of lines is the only thing that is left behind for other operations. It is what
  counting would find (`Session.Alike`), so that a pass that makes use of it answers what it would
  have answered without it (`Alike.pass_fst`).
-/

namespace TextLines

variable {ω σ : Type} [Source σ]

namespace Session

/-! ## Passes beside other operations -/

/-- Nothing has happened to the document but that sources were opened and released. -/
structure Beside (s t : Session ω σ) : Prop extends s.SameFile t where
  lineCount : t.lineCount = s.lineCount
  streams : t.streams = s.streams

variable [Room]

omit [Source σ] in
theorem beside_openCursor (s : Session ω σ) : s.Beside s.openCursor.2 :=
  ⟨⟨rfl, rfl, rfl⟩, rfl, rfl⟩

omit [Source σ] [Room] in
theorem beside_retire {α : Type} (s : Session ω σ) (p : Pass α σ) : s.Beside (s.retire p) :=
  ⟨⟨rfl, rfl, rfl⟩, rfl, rfl⟩

omit [Source σ] in
theorem beside_runPass {α : Type} (s : Session ω σ) (pass : Cursor σ → Pass α σ) :
    s.Beside (s.runPass pass).2 := by
  have hopen := beside_openCursor s
  rw [runPass]
  rcases hc : s.openCursor with ⟨e | c, s'⟩
  · rw [hc] at hopen
    exact hopen
  · rw [hc] at hopen
    exact ⟨⟨hopen.config, hopen.opener, hopen.world⟩, hopen.lineCount, hopen.streams⟩

/-- A pass keeps what counting keeps, if opening and releasing sources make no difference to it. -/
theorem pass_keeps {P : Session ω σ → Prop} (hbeside : ∀ t t', t.Beside t' → P t → P t')
    (hcount : ∀ t, P t → P t.count.2) {s : Session ω σ} (hs : P s) {op : Op ω} (hop : IsPass op) :
    P (s.step op).2 := by
  cases op with
  | count => exact hcount s hs
  | isEmpty =>
    rw [step, isEmpty]
    cases s.lineCount with
    | some n => exact hs
    | none => exact hbeside _ _ (beside_runPass s Pass.isEmpty) hs
  | render | contains | collect => exact hbeside _ _ (beside_runPass s _) hs
  | visit giveUp counting =>
    rw [step, visit]
    have hopened := hbeside _ _ (beside_openCursor s) hs
    rcases hopen : s.openCursor with ⟨e | c, t⟩
    · rw [hopen] at hopened
      exact hopened
    · rw [hopen] at hopened
      have hsee : ∀ line (v : Visitor ω σ), P v.session →
          P (v.see giveUp counting line).2.session := by
        intro line v hv
        cases counting with
        | false => exact hv
        | true =>
          rw [Visitor.session_see]
          exact hcount _ hv
      have hvisited := visitLines_keeps giveUp counting (P := fun v => P v.session)
        (Q := fun v => P v.session) (fun line v hv => ⟨hsee line v hv, fun _ => hsee line v hv⟩)
        (fun _ => id) (v := { session := t }) hopened c
      exact hbeside _ _ (beside_retire _ _) hvisited
  | stream | emptyStream | knownCount | change world | on number op => exact absurd hop id

theorem streams_count (s : Session ω σ) : s.count.2.streams = s.streams := by
  have hpass := beside_runPass s Pass.countLines
  rw [count]
  cases s.lineCount with
  | some n => rfl
  | none =>
    rcases hrun : s.runPass Pass.countLines with ⟨e | n, s'⟩ <;> rw [hrun] at hpass <;>
      exact hpass.streams

theorem sameFile_pass (s : Session ω σ) {op : Op ω} (hop : IsPass op) :
    s.SameFile (s.step op).2 :=
  pass_keeps (P := s.SameFile) (fun _ _ hbeside h => h.trans hbeside.toSameFile)
    (fun t h => h.trans (sameFile_count t)) ⟨rfl, rfl, rfl⟩ hop

theorem streams_pass (s : Session ω σ) {op : Op ω} (hop : IsPass op) :
    (s.step op).2.streams = s.streams :=
  pass_keeps (P := fun t => t.streams = s.streams)
    (fun _ _ hbeside h => hbeside.streams.trans h) (fun t h => (streams_count t).trans h) rfl hop

/-! ## Streams beside other operations -/

/-- The stream with a number, unless there is none. -/
def slot (s : Session ω σ) (number : Nat) : Option (Stream σ) :=
  s.streams[number]?.join

/-- An operation on what is in the place of a stream. -/
def slotStep (op : StreamOp) : Option (Stream σ) → Answer × Option (Stream σ)
  | none => (.noStream, none)
  | some st =>
    match op with
    | .drop => (.done, none)
    | op => ((streamStep op st).1, some (streamStep op st).2)

omit [Room] in
theorem slotStep_some {op : StreamOp} (hop : op ≠ .drop) (st : Stream σ) :
    slotStep op (some st) = ((streamStep op st).1, some (streamStep op st).2) := by
  cases op with
  | drop => exact absurd rfl hop
  | _ => rfl

/-- An operation on a stream answers what comes of the stream. -/
theorem step_on_fst (s : Session ω σ) (number : Nat) (op : StreamOp) :
    (s.step (.on number op)).1 = (slotStep op (s.slot number)).1 := by
  cases hslot : s.slot number with
  | none =>
    rw [step_on_none hslot]
    rfl
  | some st =>
    have hst := Option.join_eq_some_iff.mp hslot
    by_cases hdrop : op = .drop
    · rw [hdrop, step_drop hst]
      rfl
    · rw [step_on hst hdrop, slotStep_some hdrop]

/-- It changes this stream, and no other. -/
theorem streams_step_on (s : Session ω σ) (number : Nat) (op : StreamOp) :
    (s.step (.on number op)).2.streams =
      s.streams.set number (slotStep op (s.slot number)).2 := by
  by_cases hdrop : op = .drop
  · rw [hdrop, streams_step_drop]
    cases s.slot number <;> rfl
  cases hslot : s.slot number with
  | none =>
    -- Setting a place to what it holds makes no difference.
    have hsame := streams_step_drop s number
    rw [step_on_none hslot] at hsame ⊢
    exact hsame
  | some st => rw [step_on (Option.join_eq_some_iff.mp hslot) hdrop, slotStep_some hdrop]

theorem sameFile_step_on (s : Session ω σ) (number : Nat) (op : StreamOp) :
    s.SameFile (s.step (.on number op)).2 := by
  cases hslot : s.slot number with
  | none =>
    rw [step_on_none hslot]
    exact ⟨rfl, rfl, rfl⟩
  | some st =>
    have hst := Option.join_eq_some_iff.mp hslot
    by_cases hdrop : op = .drop
    · rw [hdrop, step_drop hst]
      exact ⟨rfl, rfl, rfl⟩
    · rw [step_on hst hdrop]
      exact ⟨rfl, rfl, rfl⟩

theorem slot_step_on_self {s : Session ω σ} {number : Nat} (hlt : number < s.streams.length)
    (op : StreamOp) :
    (s.step (.on number op)).2.slot number = (slotStep op (s.slot number)).2 := by
  rw [slot, streams_step_on, List.getElem?_set_self hlt, Option.join_some]

theorem slot_step_on_ne (s : Session ω σ) {number other : Nat} (hne : number ≠ other)
    (op : StreamOp) : (s.step (.on number op)).2.slot other = s.slot other := by
  rw [slot, streams_step_on, List.getElem?_set_ne hne, slot]

/-- The operation opens a stream. -/
def Opens : Op ω → Prop
  | .stream | .emptyStream => True
  | _ => False

/-- What a stream is opened as in a document. -/
def fresh (s : Session ω σ) : Op ω → Except Error (Stream σ)
  | .stream => s.openCursor.1.map fun cursor => { cursor }
  | _ => .ok { cursor := { splitter := { handle := .absent } } }

omit [Source σ] in
theorem SameFile.fresh_eq {s t : Session ω σ} (h : s.SameFile t) (op : Op ω) :
    t.fresh op = s.fresh op := by
  cases op with
  | stream => rw [fresh, fresh, h.openCursor]
  | _ => rfl

theorem step_of_refused {s : Session ω σ} {op : Op ω} (hop : Opens op) {e : Error}
    (h : s.fresh op = .error e) : (s.step op).1 = .failed e ∧ s.Beside (s.step op).2 := by
  cases op with
  | stream =>
    have hbeside := beside_openCursor s
    rw [fresh] at h
    rw [step]
    rcases hopen : s.openCursor with ⟨e' | c, t⟩
    · rw [hopen] at h hbeside
      obtain rfl := Except.error.inj h
      exact ⟨rfl, hbeside⟩
    · rw [hopen] at h
      cases h
  | emptyStream => cases h
  | _ => exact absurd hop id

/-- Opening a stream puts it behind the other streams. -/
theorem step_of_fresh {s : Session ω σ} {op : Op ω} (hop : Opens op) {st : Stream σ}
    (h : s.fresh op = .ok st) :
    (s.step op).1 = .opened s.streams.length ∧ s.SameFile (s.step op).2 ∧
      (s.step op).2.streams = s.streams ++ [some st] := by
  cases op with
  | stream =>
    have hbeside := beside_openCursor s
    rw [fresh] at h
    rw [step]
    rcases hopen : s.openCursor with ⟨e | c, t⟩
    · rw [hopen] at h
      cases h
    · rw [hopen] at h hbeside
      obtain rfl := Except.ok.inj h
      refine ⟨?_, ⟨hbeside.config, hbeside.opener, hbeside.world⟩, ?_⟩
      · rw [← hbeside.streams]
        rfl
      · rw [← hbeside.streams]
        rfl
  | emptyStream =>
    obtain rfl := Except.ok.inj h
    exact ⟨rfl, ⟨rfl, rfl, rfl⟩, rfl⟩
  | _ => exact absurd hop id

/-- An operation leaves the streams where they are, but for the one that it is an operation on. -/
theorem slot_step (s : Session ω σ) (op : Op ω) {number : Nat} (hlt : number < s.streams.length) :
    number < (s.step op).2.streams.length ∧
      ((∀ streamOp, op ≠ .on number streamOp) → (s.step op).2.slot number = s.slot number) := by
  by_cases hpass : IsPass op
  · rw [slot, slot, streams_pass s hpass]
    exact ⟨hlt, fun _ => rfl⟩
  by_cases hopens : Opens op
  · cases hfresh : s.fresh op with
    | error e =>
      rw [slot, slot, (step_of_refused hopens hfresh).2.streams]
      exact ⟨hlt, fun _ => rfl⟩
    | ok st =>
      rw [slot, slot, (step_of_fresh hopens hfresh).2.2]
      refine ⟨?_, fun _ => congrArg Option.join (List.getElem?_append_left hlt)⟩
      rw [List.length_append]
      exact Nat.lt_add_right _ hlt
  cases op with
  | on other streamOp =>
    rw [streams_step_on, List.length_set]
    refine ⟨hlt, fun hne => slot_step_on_ne s (fun heq => ?_) streamOp⟩
    exact hne streamOp (congrArg (Op.on · streamOp) heq)
  | knownCount | change world => exact ⟨hlt, fun _ => rfl⟩
  | stream | emptyStream => exact absurd trivial hopens
  | count | isEmpty | render | contains | collect | visit => exact absurd trivial hpass

/-- It is the same file as long as the world does not change. -/
theorem sameFile_step (s : Session ω σ) {op : Op ω} (hop : ∀ world, op ≠ .change world) :
    s.SameFile (s.step op).2 := by
  by_cases hpass : IsPass op
  · exact sameFile_pass s hpass
  by_cases hopens : Opens op
  · cases hfresh : s.fresh op with
    | error e => exact (step_of_refused hopens hfresh).2.toSameFile
    | ok st => exact (step_of_fresh hopens hfresh).2.1
  cases op with
  | on number streamOp => exact sameFile_step_on s number streamOp
  | knownCount => exact ⟨rfl, rfl, rfl⟩
  | change world => exact absurd rfl (hop world)
  | stream | emptyStream => exact absurd trivial hopens
  | count | isEmpty | render | contains | collect | visit => exact absurd trivial hpass

/-! ## The number of lines -/

/-- The same document, of which nothing is known but what counting finds. -/
structure Alike (s t : Session ω σ) : Prop extends s.SameFile t where
  known : ∀ n, t.lineCount = some n → s.count.1 = .ok n

theorem Alike.of_beside {s t t' : Session ω σ} (h : s.Alike t) (hbeside : t.Beside t') :
    s.Alike t' where
  toSameFile := h.toSameFile.trans hbeside.toSameFile
  known n hn := h.known n (hbeside.lineCount.symm.trans hn)

/-- Closing the source comes to the same whatever has been read before. -/
def ClosesAlike (s : Session ω σ) : Prop :=
  ∀ source, s.opener s.config s.world = .ok (some source) →
    ∃ closing, Source.ClosesWith closing source

omit [Room] in
/-- Documents in files are of this kind. -/
theorem closesAlike_ofFile (config : Config) (fs : Files.FileSystem) :
    (ofFile config fs).ClosesAlike := by
  intro source hopen
  have hmap : (config.openSource fs).map some = .ok (some source) := hopen
  cases hopened : config.openSource fs with
  | error e =>
    rw [hopened] at hmap
    cases hmap
  | ok opened =>
    rw [hopened] at hmap
    obtain rfl := Option.some.inj (Except.ok.inj hmap)
    exact ⟨none, Config.closesQuietly_of_openSource hopened⟩

omit [Source σ] in
theorem SameFile.runPass_fst {α : Type} {s t : Session ω σ} (h : s.SameFile t)
    (pass : Cursor σ → Pass α σ) : (t.runPass pass).1 = (s.runPass pass).1 := by
  rcases hopen : s.openCursor.1 with e | c
  · rw [runPass_of_refused hopen, runPass_of_refused (h.openCursor.trans hopen)]
  · rw [runPass_of_opened hopen, runPass_of_opened (h.openCursor.trans hopen)]

section Unknown

variable {s t : Session ω σ} (hunknown : s.lineCount = none)
include hunknown

theorem Alike.count_fst (h : s.Alike t) : t.count.1 = s.count.1 := by
  cases hknown : t.lineCount with
  | some n => rw [count_of_known hknown, h.known n hknown]
  | none =>
    rw [count_of_uncounted hknown, count_of_uncounted hunknown]
    exact h.toSameFile.runPass_fst _

/-- What counting finds is what is known afterwards. -/
theorem Alike.count_snd (h : s.Alike t) : s.Alike t.count.2 where
  toSameFile := h.toSameFile.trans (sameFile_count t)
  known n hn := by
    rw [← h.count_fst hunknown]
    rcases count_knows t with ⟨m, hm, hknows⟩ | ⟨e, he, hknows⟩
    · have hafter := hknows.same m (List.mem_singleton_self m)
      rw [hm, Option.some.inj (hafter.symm.trans hn)]
    · have hbefore := hknows.lineCount
      rw [List.head?_nil, Option.or_none] at hbefore
      rw [count_of_known (hbefore.symm.trans hn)]

theorem Alike.pass_snd (h : s.Alike t) {op : Op ω} (hop : IsPass op) : s.Alike (t.step op).2 :=
  pass_keeps (fun _ _ hbeside h => h.of_beside hbeside) (fun _ h => h.count_snd hunknown) h hop

/-- What is known stays what counting finds as long as the world does not change. -/
theorem Alike.step_snd (h : s.Alike t) {op : Op ω} (hop : ∀ world, op ≠ .change world) :
    s.Alike (t.step op).2 := by
  by_cases hpass : IsPass op
  · exact h.pass_snd hunknown hpass
  · refine ⟨h.toSameFile.trans (sameFile_step t hop), fun n hn => h.known n ?_⟩
    rw [← hn]
    refine (lineCount_step fun hcounts => hpass ?_).symm
    cases op with
    | count | visit => exact trivial
    | _ => exact absurd hcounts id

/-- Whether there are no lines is known when their number is, provided that the source can be closed
behind the first line if it can be at the end. -/
theorem Alike.isEmpty_fst (h : s.Alike t) (hcloses : s.ClosesAlike) :
    t.isEmpty.1 = s.isEmpty.1 := by
  have halone : s.isEmpty.1 = (s.runPass Pass.isEmpty).1 := by rw [isEmpty, hunknown]
  cases hknown : t.lineCount with
  | none =>
    rw [halone, isEmpty, hknown]
    exact h.toSameFile.runPass_fst _
  | some n =>
    have hcount := h.known n hknown
    rw [isEmpty_of_known hknown, halone]
    rcases hopen : s.openCursor.1 with e | c
    · rw [count_of_uncounted hunknown, runPass_of_refused hopen] at hcount
      cases hcount
    · obtain ⟨source, hsource, rfl⟩ := eq_ofSource_of_openCursor hopen
      obtain ⟨closing, hclosing⟩ := hcloses source hsource
      obtain ⟨lines, failure, c', hands⟩ := Cursor.exists_hands
        (Cursor.ofSource source s.config.chunkBytes s.config.maxLineBytes)
      rw [count_of_opened hunknown hopen hands rfl] at hcount
      cases failure with
      | some e => cases hcount
      | none =>
        have hwith : Cursor.ClosesWith closing
            (Cursor.ofSource source s.config.chunkBytes s.config.maxLineBytes) :=
          ⟨source, rfl, hclosing⟩
        obtain rfl := hands.closes rfl hwith
        obtain rfl := Except.ok.inj hcount
        rw [runPass_of_opened hopen, Pass.isEmpty_of_hands hands rfl hwith]
        cases lines <;> rfl

/-- What two visitors have in common who are handed the same lines of one document. -/
structure Visitor.Agree (s : Session ω σ) (v v' : Visitor ω σ) : Prop where
  session : s.Alike v.session
  session' : s.Alike v'.session
  seen : v.seen = v'.seen
  number : v.number = v'.number
  counted : v.counted = v'.counted

theorem Visitor.Agree.see {v v' : Visitor ω σ} (h : Visitor.Agree s v v')
    (giveUp : Option (Nat × Error)) (counting : Bool) (line : Bytes) :
    (v.see giveUp counting line).1 = (v'.see giveUp counting line).1 ∧
      Visitor.Agree s (v.see giveUp counting line).2 (v'.see giveUp counting line).2 := by
  cases counting with
  | false =>
    refine ⟨?_, h.session, h.session', congrArg (line :: ·) h.seen, congrArg (· + 1) h.number,
      h.counted⟩
    rw [Visitor.see_of_not_counting, Visitor.see_of_not_counting, h.number]
  | true =>
    have hcount := h.session.count_snd hunknown
    have hcount' := h.session'.count_snd hunknown
    have hsame := (h.session.count_fst hunknown).trans (h.session'.count_fst hunknown).symm
    rw [Visitor.see, Visitor.see, Visitor.recount, Visitor.recount, if_pos rfl, if_pos rfl]
    rcases hc : v.session.count with ⟨r, t⟩
    rcases hc' : v'.session.count with ⟨r', t'⟩
    rw [hc, hc'] at hsame
    rw [hc] at hcount
    rw [hc'] at hcount'
    obtain rfl : r = r' := hsame
    cases r with
    | error e =>
      exact ⟨rfl, hcount, hcount', congrArg (line :: ·) h.seen, congrArg (· + 1) h.number,
        h.counted⟩
    | ok n =>
      refine ⟨?_, hcount, hcount', congrArg (line :: ·) h.seen, congrArg (· + 1) h.number, rfl⟩
      dsimp only
      rw [h.number]

theorem Alike.visit_fst (h : s.Alike t) (giveUp : Option (Nat × Error)) (counting : Bool) :
    (t.visit giveUp counting).1 = (s.visit giveUp counting).1 := by
  have hcursor := h.toSameFile.openCursor
  have hopened := h.of_beside (beside_openCursor t)
  have hfirst : s.Alike s.openCursor.2 :=
    ⟨sameFile_openCursor s, fun n hn => by cases hunknown.symm.trans hn⟩
  rw [visit, visit]
  rcases ht : t.openCursor with ⟨r, t'⟩
  rcases hs : s.openCursor with ⟨r', s'⟩
  rw [ht, hs] at hcursor
  rw [ht] at hopened
  rw [hs] at hfirst
  obtain rfl : r = r' := hcursor
  cases r with
  | error e => rfl
  | ok c =>
    have hstart : Visitor.Agree s ({ session := t' } : Visitor ω σ) { session := s' } :=
      ⟨hopened, hfirst, rfl, rfl, rfl⟩
    obtain ⟨hpass, hagree⟩ := Pass.visitLines_alike
      (fun line _ _ hv => hv.see hunknown giveUp counting line) hstart c
    dsimp only
    rw [hpass, hagree.seen, hagree.counted]

/-- A pass answers what it answers in a document with which nothing has been done. -/
theorem Alike.pass_fst (h : s.Alike t) {op : Op ω} (hop : IsPass op)
    (hcloses : op = .isEmpty → s.ClosesAlike) : (t.step op).1 = (s.step op).1 := by
  cases op with
  | count => exact congrArg (answer .number) (h.count_fst hunknown)
  | isEmpty => exact congrArg (answer .truth) (h.isEmpty_fst hunknown (hcloses rfl))
  | render => exact congrArg (answer .text) (h.toSameFile.runPass_fst _)
  | contains line => exact congrArg (answer .truth) (h.toSameFile.runPass_fst _)
  | collect =>
    exact congrArg (answer fun r : List Bytes × Nat => .collected r.1 r.2)
      (h.toSameFile.runPass_fst _)
  | visit giveUp counting => exact h.visit_fst hunknown giveUp counting
  | stream | emptyStream | knownCount | change world | on number op => exact absurd hop id

end Unknown

end Session

end TextLines

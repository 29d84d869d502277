import TextLines.Proofs.Document.Interleaving
import TextLines.Proofs.Document.Sharing

/-!
# What is done with a document is done apart

Whatever programs do with a document, in whatever order and from inside whatever callbacks, each
stream answers as if it was the only one, and each view answers as if it was the first thing that
was asked for (`Session.Independent`). The streams keep to the world that they were opened in, so
that they go on with a file that has been replaced since. The views are views of a file that does
not change.

`Session.Faithful` is the invariant of a document and its trace. It says how the document stands
with what has been seen of it: the number of lines is what counting finds (`Session.Alike`), and in
the place of every stream is what it has come to by the operations on it alone
(`Session.StandsAlone`). An operation keeps it (`Faithful.call`), a loop keeps it if its callback
does (`Faithful.forEach`), and so does every program (`Faithful.exec`).
-/

namespace TextLines

variable {ω σ : Type} [Source σ]

namespace Session

/-! ## Streams that are alone -/

/-- The document in another world. -/
def inWorld (s : Session ω σ) (world : ω) : Session ω σ :=
  { s with world }

variable [Room]

/-- What operations answer that are done one after the other. -/
def answers (s : Session ω σ) : List (Op ω) → List Answer
  | [] => []
  | op :: ops => (s.step op).1 :: (s.step op).2.answers ops

theorem answers_append (s : Session ω σ) (ops more : List (Op ω)) :
    s.answers (ops ++ more) = s.answers ops ++ (s.run ops).answers more := by
  induction ops generalizing s with
  | nil => rfl
  | cons op ops ih => exact congrArg ((s.step op).1 :: ·) (ih (s.step op).2)

theorem run_append (s : Session ω σ) (ops more : List (Op ω)) :
    s.run (ops ++ more) = (s.run ops).run more :=
  List.foldl_append

/-- All that is done with a document in which there is one stream. -/
def aloneOps (opening : Op ω) (calls : List (StreamOp × Answer)) : List (Op ω) :=
  opening :: calls.map fun call => .on 0 call.1

omit [Room] in
theorem aloneOps_append (opening : Op ω) (calls more : List (StreamOp × Answer)) :
    aloneOps opening (calls ++ more) =
      aloneOps opening calls ++ more.map fun call => .on 0 call.1 := by
  rw [aloneOps, List.map_append, aloneOps, List.cons_append]

/-- In the place of a stream is what it comes to in a document in which there is no other, and it
has answered the same. -/
structure StandsAlone (alone : Session ω σ) (opening : Op ω) (calls : List (StreamOp × Answer))
    (t : Session ω σ) (number : Nat) : Prop where
  lt : number < t.streams.length
  answers : alone.answers (aloneOps opening calls) = .opened 0 :: calls.map Prod.snd
  opened : 0 < (alone.run (aloneOps opening calls)).streams.length
  slot : (alone.run (aloneOps opening calls)).slot 0 = t.slot number

/-- A stream that has just been opened. -/
theorem standsAlone_of_fresh {alone t : Session ω σ} (hsame : alone.SameFile t)
    (hnone : alone.streams = []) {op : Op ω} (hop : Opens op) {st : Stream σ}
    (hfresh : t.fresh op = .ok st) :
    alone.StandsAlone op [] (t.step op).2 t.streams.length := by
  obtain ⟨hanswer, -, hstreams⟩ := step_of_fresh hop (hsame.fresh_eq op ▸ hfresh)
  obtain ⟨-, -, hstreams'⟩ := step_of_fresh hop hfresh
  rw [hnone] at hanswer hstreams
  have hrun : (alone.run (aloneOps op [])).streams = [some st] := hstreams
  refine ⟨?_, ?_, ?_, ?_⟩
  · rw [hstreams', List.length_append]
    exact Nat.lt_succ_self _
  · exact congrArg ([·]) hanswer
  · rw [hrun]
    exact Nat.zero_lt_one
  · rw [slot, slot, hrun, hstreams', List.getElem?_concat_length]
    rfl

/-- One more operation. If it is not one on this stream, nothing has happened to it. -/
theorem StandsAlone.step {alone t : Session ω σ} {opening : Op ω}
    {calls : List (StreamOp × Answer)} {number : Nat} (h : alone.StandsAlone opening calls t number)
    (op : Op ω) :
    alone.StandsAlone opening
      (calls ++ (Trace.callOn? number (.did op (t.step op).1)).toList) (t.step op).2 number := by
  obtain ⟨hlt, hslot⟩ := slot_step t op h.lt
  by_cases hon : ∃ streamOp, op = .on number streamOp
  · obtain ⟨streamOp, rfl⟩ := hon
    have hcall : ∀ answer : Answer, Trace.callOn? number
        (.did (.on number streamOp) answer : Observation ω) = some (streamOp, answer) :=
      fun _ => if_pos rfl
    have hsame : ((alone.run (aloneOps opening calls)).step (.on 0 streamOp)).1 =
        (t.step (.on number streamOp)).1 := by
      rw [step_on_fst, step_on_fst, h.slot]
    have hrun : ∀ answer : Answer, alone.run (aloneOps opening (calls ++ [(streamOp, answer)])) =
        ((alone.run (aloneOps opening calls)).step (.on 0 streamOp)).2 := by
      intro answer
      rw [aloneOps_append, run_append]
      rfl
    rw [hcall, Option.toList_some]
    refine ⟨hlt, ?_, ?_, ?_⟩
    · rw [aloneOps_append, answers_append, h.answers, List.map_append]
      exact congrArg (fun answer => .opened 0 :: calls.map Prod.snd ++ [answer]) hsame
    · rw [hrun]
      exact (slot_step _ _ h.opened).1
    · rw [hrun, slot_step_on_self h.opened, slot_step_on_self h.lt, h.slot]
  · have hnone : Trace.callOn? number (.did op (t.step op).1) = none := by
      cases op with
      | on other streamOp => exact if_neg fun heq => hon ⟨streamOp, congrArg (Op.on · streamOp) heq⟩
      | _ => rfl
    rw [hnone, Option.toList_none, List.append_nil]
    exact ⟨hlt, h.answers, h.opened,
      h.slot.trans (hslot fun streamOp heq => hon ⟨streamOp, heq⟩).symm⟩

/-! ## What is seen of a document -/

/-- What has been seen of a document is what would have been seen if nothing else had been done with
it. A trace has the latest first. -/
structure Independent (s : Session ω σ) (trace : Trace ω) : Prop where
  /-- A stream, and all that is done with it afterwards. -/
  streams : ∀ {before after : Trace ω} {opening number}, Opens opening →
    trace = after ++ .did opening (.opened number) :: before →
      (s.inWorld (before.worldAt s.world)).answers (aloneOps opening (after.callsOn number)) =
        .opened 0 :: (after.callsOn number).map Prod.snd
  /-- A stream that is not opened. -/
  refused : ∀ {before after : Trace ω} {opening e}, Opens opening →
    trace = after ++ .did opening (.failed e) :: before →
      ((s.inWorld (before.worldAt s.world)).step opening).1 = .failed e
  /-- A view of a file that has not been changed. Whether there are no lines is answered from their
  number if it is known, and so it matters when the source can be closed. -/
  passes : ∀ {before after : Trace ω} {op answer}, IsPass op → before.Unchanged →
    (op = .isEmpty → s.ClosesAlike) → trace = after ++ .did op answer :: before →
      (s.step op).1 = answer
  /-- A loop over the lines, whatever its callback has done besides giving up. -/
  loops : ∀ {before after : Trace ω} {seen giveUp result}, before.Unchanged →
    trace = after ++ .returned seen giveUp result :: before →
      (s.step (.visit (giveUp.map (seen.length, ·)) false)).1 = .visited seen result none

/-- What is seen is what would have been seen of the document if nothing had been done with it. The
streams that are opened are left out. -/
def SeenAlone (s : Session ω σ) (before : Trace ω) : Observation ω → Prop
  | .did op answer =>
    (Opens op → ∀ e, answer = .failed e →
        ((s.inWorld (before.worldAt s.world)).step op).1 = .failed e) ∧
      (IsPass op → before.Unchanged → (op = .isEmpty → s.ClosesAlike) → (s.step op).1 = answer)
  | .handed _ => True
  | .returned seen giveUp result => before.Unchanged →
    (s.step (.visit (giveUp.map (seen.length, ·)) false)).1 = .visited seen result none

/-- How a document stands with what has been seen of it, if it was `s` at first. -/
structure Faithful (s : Session ω σ) (o : Observed ω σ) : Prop where
  sameFile : (s.inWorld (o.trace.worldAt s.world)).SameFile o.session
  known : o.trace.Unchanged → ∀ n, o.session.lineCount = some n → s.count.1 = .ok n
  seen : ∀ {before e}, e :: before <:+ o.trace → s.SeenAlone before e
  streams : ∀ {before after : Trace ω} {opening number}, Opens opening →
    o.trace = after ++ .did opening (.opened number) :: before →
      (s.inWorld (before.worldAt s.world)).StandsAlone opening (after.callsOn number) o.session
        number

theorem Faithful.independent {s : Session ω σ} {o : Observed ω σ} (h : s.Faithful o) :
    s.Independent o.trace where
  streams hop htrace := (h.streams hop htrace).answers
  refused hop htrace := (h.seen ⟨_, htrace.symm⟩).1 hop _ rfl
  passes hop hsame hcloses htrace := (h.seen ⟨_, htrace.symm⟩).2 hop hsame hcloses
  loops hsame htrace := h.seen ⟨_, htrace.symm⟩ hsame

theorem Faithful.alike {s : Session ω σ} {o : Observed ω σ} (h : s.Faithful o)
    (hsame : o.trace.Unchanged) : s.Alike o.session where
  toSameFile := by
    have hfile := h.sameFile
    rw [Trace.worldAt_of_unchanged s.world hsame] at hfile
    exact hfile
  known := h.known hsame

/-- Sources that are opened and released are not seen. -/
theorem Faithful.beside {s : Session ω σ} {o : Observed ω σ} (h : s.Faithful o) {t : Session ω σ}
    (hbeside : o.session.Beside t) : s.Faithful { o with session := t } where
  sameFile := h.sameFile.trans hbeside.toSameFile
  known hsame n hn := h.known hsame n (hbeside.lineCount.symm.trans hn)
  seen := h.seen
  streams hop htrace := by
    have hstands := h.streams hop htrace
    refine ⟨?_, hstands.answers, hstands.opened, hstands.slot.trans ?_⟩
    · rw [hbeside.streams]
      exact hstands.lt
    · rw [slot, slot, hbeside.streams]

/-- Something is seen that is not the answer to an operation. -/
theorem Faithful.note {s : Session ω σ} {o : Observed ω σ} (h : s.Faithful o) (e : Observation ω)
    (hno : ∀ op answer, e ≠ .did op answer) (hseen : s.SeenAlone o.trace e) :
    s.Faithful (o.note e) where
  sameFile := by
    have hworld : Trace.worldAt s.world (e :: o.trace) = o.trace.worldAt s.world := by
      cases e with
      | did op answer => exact absurd rfl (hno op answer)
      | _ => rfl
    rw [Observed.note, hworld]
    exact h.sameFile
  known hsame := h.known (hsame.of_suffix (List.suffix_cons e o.trace))
  seen hsuffix := by
    rcases List.suffix_cons_iff.mp hsuffix with hself | hbefore
    · obtain ⟨rfl, rfl⟩ := List.cons.inj hself
      exact hseen
    · exact h.seen hbefore
  streams {before after opening number} hop htrace := by
    rcases List.cons_eq_append_iff.mp htrace with ⟨-, hself⟩ | ⟨after, rfl, hbefore⟩
    · exact absurd (List.cons.inj hself).1.symm (hno _ _)
    · have hnone : Trace.callOn? number e = none := by
        cases e with
        | did op answer => exact absurd rfl (hno op answer)
        | _ => rfl
      rw [Trace.callsOn_cons, hnone, Option.toList_none, List.append_nil]
      exact h.streams hop hbefore

variable {s : Session ω σ}

theorem faithful_start (hunknown : s.lineCount = none) : s.Faithful { session := s } where
  sameFile := ⟨rfl, rfl, rfl⟩
  known _ n hn := by cases hunknown.symm.trans hn
  seen hsuffix := absurd (List.suffix_nil.mp hsuffix) (List.cons_ne_nil _ _)
  streams _ htrace :=
    absurd htrace.symm (List.append_ne_nil_of_right_ne_nil _ (List.cons_ne_nil _ _))

/-! ## Operations -/

/-- A stream is refused for the reason for which it would be refused alone. -/
theorem Faithful.refused {o : Observed ω σ} (h : s.Faithful o) {op : Op ω} (hop : Opens op)
    {e : Error} (he : (o.session.step op).1 = .failed e) :
    ((s.inWorld (o.trace.worldAt s.world)).step op).1 = .failed e := by
  cases hfresh : o.session.fresh op with
  | ok st => cases he.symm.trans (step_of_fresh hop hfresh).1
  | error e' =>
    obtain rfl := Answer.failed.inj (he.symm.trans (step_of_refused hop hfresh).1)
    exact (step_of_refused hop ((h.sameFile.fresh_eq op).symm.trans hfresh)).1

/-- A stream that is opened is in the place of which it has got the number. -/
theorem Faithful.opened (hnone : s.streams = []) {o : Observed ω σ} (h : s.Faithful o) {op : Op ω}
    (hop : Opens op) {number : Nat} (hnumber : (o.session.step op).1 = .opened number) :
    (s.inWorld (o.trace.worldAt s.world)).StandsAlone op [] (o.session.step op).2 number := by
  cases hfresh : o.session.fresh op with
  | error e => cases hnumber.symm.trans (step_of_refused hop hfresh).1
  | ok st =>
    obtain rfl := Answer.opened.inj (hnumber.symm.trans (step_of_fresh hop hfresh).1)
    exact standsAlone_of_fresh h.sameFile hnone hop hfresh

theorem Faithful.call (hunknown : s.lineCount = none) (hnone : s.streams = []) {o : Observed ω σ}
    (h : s.Faithful o) (op : Op ω) : s.Faithful (o.call op) where
  sameFile := by
    by_cases hchange : ∃ world, op = .change world
    · obtain ⟨world, rfl⟩ := hchange
      exact ⟨h.sameFile.config, h.sameFile.opener, rfl⟩
    · have hop : ∀ world, op ≠ .change world := fun world heq => hchange ⟨world, heq⟩
      rw [Observed.call, Trace.worldAt_did s.world o.trace _ hop]
      exact h.sameFile.trans (sameFile_step o.session hop)
  known hsame := by
    have hop : ∀ world, op ≠ .change world := by
      rintro world rfl
      exact hsame world _ List.mem_cons_self
    exact ((h.alike (hsame.of_suffix (List.suffix_cons _ _))).step_snd hunknown hop).known
  seen hsuffix := by
    rcases List.suffix_cons_iff.mp hsuffix with hself | hbefore
    · obtain ⟨rfl, rfl⟩ := List.cons.inj hself
      refine ⟨fun hop e he => h.refused hop he, fun hop hsame hcloses => ?_⟩
      exact ((h.alike hsame).pass_fst hunknown hop hcloses).symm
    · exact h.seen hbefore
  streams {before after opening number} hop htrace := by
    rcases List.cons_eq_append_iff.mp htrace with ⟨rfl, hself⟩ | ⟨after, rfl, hbefore⟩
    · obtain ⟨hdid, rfl⟩ := List.cons.inj hself
      obtain ⟨rfl, hnumber⟩ := Observation.did.inj hdid
      exact h.opened hnone hop hnumber.symm
    · rw [Trace.callsOn_cons]
      exact (h.streams hop hbefore).step op

/-! ## Programs -/

/-- A loop over the lines keeps what its callback keeps. It comes to what comes of a visitor who
gives up where the callback does. -/
theorem Faithful.forEach {o : Observed ω σ} (h : s.Faithful o)
    {callback : Bytes → Observed ω σ → Option Error × Observed ω σ}
    (hcallback : ∀ line o', s.Faithful o' →
      s.Faithful (callback line o').2 ∧ o'.trace <:+ (callback line o').2.trace) :
    s.Faithful (o.forEach callback) ∧ o.trace <:+ (o.forEach callback).trace := by
  have hopened := h.beside (beside_openCursor o.session)
  have hopen' : o.trace.Unchanged → s.openCursor.1 = o.session.openCursor.1 := fun hsame =>
    (h.alike hsame).toSameFile.openCursor.symm
  rw [Observed.forEach]
  rcases hopen : o.session.openCursor with ⟨e | c, t⟩
  · rw [hopen] at hopened hopen'
    have hseen : s.SeenAlone o.trace (.returned [] none (.error e)) := fun hsame =>
      visit_of_refused (hopen' hsame) none false
    exact ⟨hopened.note _ (fun _ _ => by simp) hseen, List.suffix_cons _ _⟩
  · have hmust : c.mustRead = true := by
      obtain ⟨source, -, rfl⟩ := eq_ofSource_of_openCursor (congrArg Prod.fst hopen)
      rfl
    rw [hopen] at hopened hopen'
    have hline : ∀ line (loop : Observed.Loop ω σ),
        s.Faithful loop.observed ∧ o.trace <:+ loop.observed.trace →
          s.Faithful (loop.visit callback line).2.observed ∧
            o.trace <:+ (loop.visit callback line).2.observed.trace := by
      rintro line loop ⟨hloop, hgrown⟩
      have hhanded := hloop.note (.handed line) (fun _ _ => by simp) trivial
      obtain ⟨hfaithful, hmore⟩ := hcallback line _ hhanded
      exact ⟨hfaithful, (hgrown.trans (List.suffix_cons _ _)).trans hmore⟩
    let start : Observed.Loop ω σ := { observed := { o with session := t } }
    let r := Pass.visitLines (Observed.Loop.visit callback) start c
    obtain ⟨hkept, hgrown⟩ : s.Faithful r.2.observed ∧ o.trace <:+ r.2.observed.trace :=
      Pass.visitLines_keeps _ hline ⟨hopened, List.suffix_refl _⟩ hmust
    have hseen : s.SeenAlone r.2.observed.trace
        (.returned r.2.seen.reverse r.2.giveUp r.1.result) := by
      intro hsame
      rw [List.length_reverse]
      exact visit_upTo (Observed.Loop.visit callback) Observed.Loop.seen Observed.Loop.giveUp
        (fun _ _ => rfl) (fun _ _ => rfl) rfl rfl (hopen' (hsame.of_suffix hgrown))
    exact ⟨(hkept.beside (beside_retire _ _)).note _ (fun _ _ => by simp) hseen,
      hgrown.trans (List.suffix_cons _ _)⟩

theorem Faithful.exec (hunknown : s.lineCount = none) (hnone : s.streams = [])
    (program : Program ω) {o : Observed ω σ} (h : s.Faithful o) :
    s.Faithful (program.exec o).2 ∧ o.trace <:+ (program.exec o).2.trace := by
  induction program generalizing o with
  | stop giveUp => exact ⟨h, List.suffix_refl _⟩
  | call op next ih =>
    obtain ⟨hfaithful, hsuffix⟩ := ih (o.call op).trace (h.call hunknown hnone op)
    exact ⟨hfaithful, (List.suffix_cons _ _).trans hsuffix⟩
  | forEach callback next ihcallback ih =>
    obtain ⟨hloop, hgrown⟩ := h.forEach fun line o' h' => ihcallback line o'.trace h'
    obtain ⟨hfaithful, hsuffix⟩ := ih _ hloop
    exact ⟨hfaithful, hgrown.trans hsuffix⟩

/-- Whatever is done with a document, in whatever order and from inside whatever callbacks, shows
what it shows alone. -/
theorem exec_independent (hunknown : s.lineCount = none) (hnone : s.streams = [])
    (program : Program ω) : s.Independent (program.exec { session := s }).2.trace :=
  ((faithful_start hunknown).exec hunknown hnone program).1.independent

omit [Room] in
/-- A file that is removed under two streams, which are read in turns, one of them by a callback
that counts the lines and gives up. -/
theorem exec_independent_removed :
    let _ : Room := .ample
    let memory : Memory := { rest := Bytes.ascii "one\ntwo\nthree", step := 2 }
    let s : Session (Except Error Memory) Memory := {
      config := { chunkBytes := 3 }
      opener := fun _ world => world.map some
      world := .ok memory }
    let callback (_ : Bytes) (_ : Trace (Except Error Memory)) : Program (Except Error Memory) :=
      .call (.on 1 .take) fun _ => .call .count fun _ => .stop (some .noMoreLines)
    let program : Program (Except Error Memory) :=
      .call .stream fun _ => .call .stream fun _ => .call (.on 0 .borrow) fun _ =>
        .forEach callback fun _ => .call .isEmpty fun _ =>
          .call (.change (.error .noMoreLines)) fun _ => .call (.on 1 (.range none)) fun _ =>
            .call (.on 0 .take) fun _ => .call .stream fun _ => .stop none
    s.lineCount = none ∧ s.streams = [] ∧
      s.Independent (program.exec { session := s }).2.trace := by
  intro _ memory s callback program
  have hunknown : s.lineCount = none := rfl
  have hnone : s.streams = [] := rfl
  exact ⟨hunknown, hnone, exec_independent hunknown hnone program⟩

end Session

end TextLines

import TextLines.Proofs.Document.Visiting

/-!
# Documents that are used side by side

A caller who uses a document may do anything with it in any order: open streams and read from them
in turns, ask for views in between, and do all of that again from inside a callback that is handed
the lines. A `Program` is such a caller, or any number of them. What it does next may depend on all
that has been seen so far, its `Trace`.

`Program.exec` runs a program. An operation is a step of the `Session`, and a loop over the lines is
a pass with a visitor of its own, whose visits run the program of the callback in the document as it
is by then (`Observed.forEach`).

The visits of a `Session` are loops of this kind (`Observed.forEach_counter`).

A trace keeps the latest event first, so what lies behind an event has come before it.
-/

namespace TextLines

variable {ω σ : Type} [Source σ]

/-! ## Traces -/

/-- What a caller sees of a document. -/
inductive Observation (ω : Type) where
  /-- The answer to an operation. -/
  | did (op : Op ω) (answer : Answer)
  /-- A callback is handed a line. -/
  | handed (line : Bytes)
  /-- A loop has ended: the lines that its callback was handed, why the callback has given up, if it
  has, and the number of the lines or what has stopped them. -/
  | returned (seen : List Bytes) (giveUp : Option Error) (result : Except Error Nat)

/-- What has been seen of a document, the latest first. -/
abbrev Trace (ω : Type) := List (Observation ω)

namespace Trace

/-- What the world is by the end, if it was `world` at first. -/
def worldAt (world : ω) : Trace ω → ω
  | [] => world
  | .did (.change world') _ :: _ => world'
  | _ :: trace => worldAt world trace

/-- The world has not been changed. -/
def Unchanged (trace : Trace ω) : Prop :=
  ∀ world answer, Observation.did (.change world) answer ∉ trace

/-- The operation on the stream with a number that an event is the answer to, and the answer. -/
def callOn? (number : Nat) : Observation ω → Option (StreamOp × Answer)
  | .did (.on other op) answer => if other = number then some (op, answer) else none
  | _ => none

/-- The operations on the stream with a number and their answers, in order. -/
def callsOn (number : Nat) (trace : Trace ω) : List (StreamOp × Answer) :=
  (trace.filterMap (callOn? number)).reverse

theorem Unchanged.of_suffix {before trace : Trace ω} (h : Unchanged trace)
    (hsuffix : before <:+ trace) : Unchanged before :=
  fun world answer hmem => h world answer (hsuffix.mem hmem)

theorem worldAt_of_unchanged (world : ω) {trace : Trace ω} (h : Unchanged trace) :
    worldAt world trace = world := by
  induction trace with
  | nil => rfl
  | cons e trace ih =>
    have hrest := ih (h.of_suffix (List.suffix_cons e trace))
    cases e with
    | handed | returned => exact hrest
    | did op answer =>
      cases op with
      | change world' => exact absurd List.mem_cons_self (h world' answer)
      | _ => exact hrest

theorem worldAt_did (world : ω) (trace : Trace ω) {op : Op ω} (answer : Answer)
    (hop : ∀ world', op ≠ .change world') :
    worldAt world (.did op answer :: trace) = worldAt world trace := by
  cases op with
  | change world' => exact absurd rfl (hop world')
  | _ => rfl

theorem callsOn_cons (number : Nat) (e : Observation ω) (trace : Trace ω) :
    callsOn number (e :: trace) = callsOn number trace ++ (callOn? number e).toList := by
  rw [callsOn]
  cases he : callOn? number e with
  | none => rw [List.filterMap_cons_none he, Option.toList_none, List.append_nil, callsOn]
  | some call => rw [List.filterMap_cons_some he, List.reverse_cons, Option.toList_some, callsOn]

end Trace

/-! ## Programs -/

/-- A document in use, and what has been seen of it. -/
structure Observed (ω σ : Type) where
  /-- The document. -/
  session : Session ω σ
  /-- What has been seen of it. -/
  trace : Trace ω := []

/-- What callers do with a document. -/
inductive Program (ω : Type) where
  /-- It is done, or it gives up. -/
  | stop (giveUp : Option Error)
  /-- It does an operation and goes on. -/
  | call (op : Op ω) (next : Trace ω → Program ω)
  /-- It hands the lines to a callback and goes on. The callback gives up if its program does. -/
  | forEach (callback : Bytes → Trace ω → Program ω) (next : Trace ω → Program ω)

namespace Observed

/-- Something is seen. -/
def note (o : Observed ω σ) (e : Observation ω) : Observed ω σ :=
  { o with trace := e :: o.trace }

variable [Room]

/-- Does an operation. -/
def call (o : Observed ω σ) (op : Op ω) : Observed ω σ :=
  let r := o.session.step op
  { session := r.2, trace := .did op r.1 :: o.trace }

/-- A loop over the lines that is under way. -/
structure Loop (ω σ : Type) where
  /-- The document, apart from the pass the loop makes. -/
  observed : Observed ω σ
  /-- The lines so far, the latest first. -/
  seen : List Bytes := []
  /-- Why the callback has given up, if it has. -/
  giveUp : Option Error := none

/-- Hands a line to a callback. -/
def Loop.visit (callback : Bytes → Observed ω σ → Option Error × Observed ω σ) (line : Bytes)
    (loop : Loop ω σ) : Option Error × Loop ω σ :=
  let r := callback line (loop.observed.note (.handed line))
  (r.1, { observed := r.2, seen := line :: loop.seen, giveUp := r.1 })

/-- Hands the lines to a callback, which may use the document. -/
def forEach (callback : Bytes → Observed ω σ → Option Error × Observed ω σ) (o : Observed ω σ) :
    Observed ω σ :=
  match o.session.openCursor with
  | (.error e, session) => { o with session }.note (.returned [] none (.error e))
  | (.ok c, session) =>
    let r := Pass.visitLines (Loop.visit callback) { observed := { o with session } } c
    { r.2.observed with session := r.2.observed.session.retire r.1 }.note
      (.returned r.2.seen.reverse r.2.giveUp r.1.result)

end Observed

variable [Room]

/-- Runs a program: whether it gives up, and what has been seen in the end. -/
def Program.exec : Program ω → Observed ω σ → Option Error × Observed ω σ
  | .stop giveUp, o => (giveUp, o)
  | .call op next, o =>
    let o := o.call op
    (next o.trace).exec o
  | .forEach callback next, o =>
    let o := o.forEach fun line o => (callback line o.trace).exec o
    (next o.trace).exec o

/-! ## Visits -/

/-- Why the latest operation has failed, if it has. -/
def Trace.failure? : Trace ω → Option Error
  | .did _ (.failed e) :: _ => some e
  | _ => none

/-- The callback that counts the lines of the document each time, if it is told to, and that gives
up if that fails. -/
def Program.counter (counting : Bool) : Program ω :=
  if counting then .call .count fun trace => .stop trace.failure? else .stop none

/-- It does what a visitor does who has no other reason to give up. -/
theorem Observed.Loop.visit_counter (counting : Bool) {loop : Loop ω σ}
    {v : Session.Visitor ω σ} (hsession : loop.observed.session = v.session)
    (hseen : loop.seen = v.seen) (line : Bytes) :
    let r := loop.visit (fun _ o => (Program.counter counting).exec o) line
    let r' := v.see none counting line
    r.1 = r'.1 ∧ r.2.observed.session = r'.2.session ∧ r.2.seen = r'.2.seen := by
  cases counting with
  | false => exact ⟨rfl, hsession, congrArg (line :: ·) hseen⟩
  | true =>
    intro r r'
    have hgiveUp : r.1 = Trace.failure? (.did .count (Session.answer .number v.session.count.1) ::
        .handed line :: loop.observed.trace) := by
      rw [← hsession]
      rfl
    have hafter : r.2.observed.session = v.session.count.2 := by
      rw [← hsession]
      rfl
    refine ⟨?_, hafter.trans (Session.Visitor.session_see none line v).symm, ?_⟩
    · show r.1 = (v.see none true line).1
      rw [hgiveUp, Session.Visitor.see, Session.Visitor.recount, if_pos rfl]
      dsimp only
      rcases v.session.count with ⟨e | n, t⟩ <;> rfl
    · exact (congrArg (line :: ·) hseen).trans (Session.Visitor.see_seen none true line v).symm

/-- A visit of a session is a loop with such a callback. -/
theorem Observed.forEach_counter (o : Observed ω σ) (counting : Bool) :
    let o' := o.forEach fun _ o => (Program.counter counting).exec o
    o'.session = (o.session.visit none counting).2 ∧
      ∃ seen giveUp result counted before,
        o'.trace = .returned seen giveUp result :: before ∧
          (o.session.visit none counting).1 = .visited seen result counted := by
  rw [Observed.forEach, Session.visit]
  rcases hopen : o.session.openCursor with ⟨e | c, t⟩
  · exact ⟨rfl, [], none, .error e, none, o.trace, rfl, rfl⟩
  · obtain ⟨hpass, hsession, hseen⟩ := Pass.visitLines_alike
      (R := fun (loop : Loop ω σ) (v : Session.Visitor ω σ) =>
        loop.observed.session = v.session ∧ loop.seen = v.seen)
      (fun line _ _ h => Loop.visit_counter counting h.1 h.2 line)
      (a := { observed := { o with session := t } }) (b := { session := t }) ⟨rfl, rfl⟩ c
    dsimp only
    rw [← hpass, ← hsession, ← hseen]
    exact ⟨rfl, _, _, _, _, _, rfl, rfl⟩

end TextLines

import TextLines.Proofs.Document.Views

/-!
# What a visitor is handed

Handing lines to a visitor is a loop over the lines of a cursor, and the visitor may do anything in
between. What the loop comes to is said by `Pass.handOver`, which knows nothing of cursors: the
lines are handed out one after the other until the visitor gives up (`Pass.visitLines_of_hands`).
So what a visitor keeps holds in the end (`Pass.visitLines_keeps`), and two visitors who do the same
at each line come to the same (`Pass.visitLines_alike`).

There is a visitor who is told in advance at which line to give up, and why. It is handed the same
lines as any other visitor who gives up there (`Visitor.handOver_upTo`), and so a document shows it
the same (`Session.visit_upTo`).
-/

namespace TextLines

variable {ω σ : Type} [Source σ]

namespace Pass

variable {α β : Type} {visit : Bytes → α → Option Error × α} {visit' : Bytes → β → Option Error × β}

/-! ## Handing out lines -/

/-- Hands out lines until the visitor gives up: why it has given up, if it has, and what it has made
of the lines. -/
def handOver (visit : Bytes → α → Option Error × α) (a : α) : List Bytes → Option Error × α
  | [] => (none, a)
  | line :: lines =>
    match visit line a with
    | (some e, a) => (some e, a)
    | (none, a) => handOver visit a lines

/-- What comes of handing out `lines`, behind which there is a failure or the end. -/
def handedOver (failure : Option Error) (lines : List Bytes) : Option Error → Except Error Nat
  | some e => .error e
  | none => okUnless failure lines.length

theorem handOver_cons_of_none {line : Bytes} {a a' : α} (h : visit line a = (none, a'))
    (lines : List Bytes) : handOver visit a (line :: lines) = handOver visit a' lines := by
  rw [handOver, h]

theorem handOver_cons_of_some {line : Bytes} {a a' : α} {e : Error}
    (h : visit line a = (some e, a')) (lines : List Bytes) :
    handOver visit a (line :: lines) = (some e, a') := by
  rw [handOver, h]

/-- A walk with a visitor hands out the lines of the cursor. -/
theorem walk_of_hands (visit : Bytes → α → Option Error × α) {c c' : Cursor σ}
    {lines : List Bytes} {failure : Option Error} (h : c.Hands lines failure c') (a : α) (n : Nat) :
    let w := c.walk (visitLine visit) (a, n, none)
    w.value.1 = (handOver visit a lines).2 ∧
      match (handOver visit a lines).1 with
      | some e => visitResult w = .error e
      | none => visitResult w = okUnless failure (n + lines.length) ∧ w.cursor = c' := by
  induction h generalizing a n with
  | exhausted hmore =>
    rw [Cursor.walk_of_exhausted hmore]
    exact ⟨rfl, rfl, rfl⟩
  | failed hmore =>
    rw [Cursor.walk_of_failed hmore]
    exact ⟨rfl, rfl, rfl⟩
  | @line c c' c'' lines failure hmore hrest ih =>
    rw [Cursor.walk_of_line hmore, visitLine]
    rcases hvisit : visit c'.buffer a with ⟨_ | e, a'⟩
    · rw [handOver_cons_of_none hvisit, List.length_cons, Nat.add_comm lines.length 1,
        ← Nat.add_assoc]
      exact ih a' (n + 1)
    · rw [handOver_cons_of_some hvisit]
      exact ⟨rfl, rfl⟩

/-- Visiting lines comes to handing out the lines of the cursor. -/
theorem visitLines_of_hands (visit : Bytes → α → Option Error × α) {c c' : Cursor σ}
    {lines : List Bytes} {failure : Option Error} (h : c.Hands lines failure c')
    (hmust : c.mustRead = true) (a : α) :
    (visitLines visit a c).2 = (handOver visit a lines).2 ∧
      (visitLines visit a c).1.result = handedOver failure lines (handOver visit a lines).1 := by
  obtain ⟨hvalue, hresult⟩ := walk_of_hands visit h a 0
  rw [visitLines_eq]
  refine ⟨hvalue, ?_⟩
  cases hgave : (handOver visit a lines).1 with
  | some e =>
    rw [hgave] at hresult
    rw [hresult]
    rfl
  | none =>
    rw [hgave, Nat.zero_add] at hresult
    rw [hresult.1, hresult.2, handedOver]
    cases failure with
    | none =>
      rw [finish, Cursor.close_of_isClosed (h.isClosed hmust)]
      rfl
    | some e => rfl

/-- What a visitor keeps at every line holds in the end. -/
theorem handOver_keeps {P : α → Prop} (hvisit : ∀ line a, P a → P (visit line a).2) {a : α}
    (ha : P a) (lines : List Bytes) : P (handOver visit a lines).2 := by
  induction lines generalizing a with
  | nil => exact ha
  | cons line lines ih =>
    have hnext := hvisit line a ha
    rcases hv : visit line a with ⟨_ | e, a'⟩
    · rw [hv] at hnext
      rw [handOver_cons_of_none hv]
      exact ih hnext
    · rw [hv] at hnext
      rw [handOver_cons_of_some hv]
      exact hnext

theorem visitLines_keeps {P : α → Prop} (visit : Bytes → α → Option Error × α)
    (hvisit : ∀ line a, P a → P (visit line a).2) {a : α} (ha : P a) {c : Cursor σ}
    (hmust : c.mustRead = true) : P (visitLines visit a c).2 := by
  obtain ⟨lines, failure, c', hands⟩ := c.exists_hands
  rw [(visitLines_of_hands visit hands hmust a).1]
  exact handOver_keeps hvisit ha lines

/-- A visitor who notes why it gives up knows in the end whether it has. -/
theorem handOver_notes (note : α → Option Error)
    (hnote : ∀ line a, note (visit line a).2 = (visit line a).1) {a : α} (ha : note a = none)
    (lines : List Bytes) : note (handOver visit a lines).2 = (handOver visit a lines).1 := by
  induction lines generalizing a with
  | nil => exact ha
  | cons line lines ih =>
    have hnext := hnote line a
    rcases hv : visit line a with ⟨_ | e, a'⟩
    · rw [hv] at hnext
      rw [handOver_cons_of_none hv]
      exact ih hnext
    · rw [hv] at hnext
      rw [handOver_cons_of_some hv]
      exact hnext

/-- Visitors who do the same at every line go the same way. -/
theorem walk_alike {R : α → β → Prop}
    (hvisit : ∀ line a b, R a b →
      (visit line a).1 = (visit' line b).1 ∧ R (visit line a).2 (visit' line b).2)
    {c c' : Cursor σ} {lines : List Bytes} {failure : Option Error} (h : c.Hands lines failure c')
    {a : α} {b : β} (hab : R a b) (n : Nat) :
    let w := c.walk (visitLine visit) (a, n, none)
    let w' := c.walk (visitLine visit') (b, n, none)
    w.ending = w'.ending ∧ w.cursor = w'.cursor ∧ w.value.2 = w'.value.2 ∧
      R w.value.1 w'.value.1 := by
  induction h generalizing a b n with
  | exhausted hmore =>
    rw [Cursor.walk_of_exhausted hmore, Cursor.walk_of_exhausted hmore]
    exact ⟨rfl, rfl, rfl, hab⟩
  | failed hmore =>
    rw [Cursor.walk_of_failed hmore, Cursor.walk_of_failed hmore]
    exact ⟨rfl, rfl, rfl, hab⟩
  | @line c c' c'' lines failure hmore hrest ih =>
    obtain ⟨hsame, hnext⟩ := hvisit c'.buffer a b hab
    rw [Cursor.walk_of_line hmore, Cursor.walk_of_line hmore, visitLine, visitLine]
    rcases hv : visit c'.buffer a with ⟨r, a'⟩
    rcases hv' : visit' c'.buffer b with ⟨r', b'⟩
    rw [hv, hv'] at hsame hnext
    obtain rfl : r = r' := hsame
    cases r with
    | none => exact ih hnext (n + 1)
    | some e => exact ⟨rfl, rfl, rfl, hnext⟩

omit [Source σ] in
theorem visitResult_congr {w : Cursor.Walk (α × Nat × Option Error) σ}
    {w' : Cursor.Walk (β × Nat × Option Error) σ} (hending : w.ending = w'.ending)
    (hvalue : w.value.2 = w'.value.2) : visitResult w = visitResult w' := by
  rcases w with ⟨ending, ⟨a, n, given⟩, c⟩
  rcases w' with ⟨ending', ⟨b, n', given'⟩, c'⟩
  obtain rfl : ending = ending' := hending
  obtain ⟨rfl, rfl⟩ : n = n' ∧ given = given' := Prod.mk.inj hvalue
  cases ending <;> cases given <;> rfl

/-- They come to the same, and the pass leaves the same behind. -/
theorem visitLines_alike {R : α → β → Prop}
    (hvisit : ∀ line a b, R a b →
      (visit line a).1 = (visit' line b).1 ∧ R (visit line a).2 (visit' line b).2)
    {a : α} {b : β} (hab : R a b) (c : Cursor σ) :
    (visitLines visit a c).1 = (visitLines visit' b c).1 ∧
      R (visitLines visit a c).2 (visitLines visit' b c).2 := by
  obtain ⟨lines, failure, c', hands⟩ := c.exists_hands
  obtain ⟨hending, hcursor, hvalue, hstate⟩ := walk_alike hvisit hands hab 0
  rw [visitLines_eq, visitLines_eq, visitResult_congr hending hvalue, hcursor]
  exact ⟨rfl, hstate⟩

end Pass

namespace Session

/-! ## Visitors of a document -/

variable [Room]

/-- A visitor of a document is handed the lines of a fresh cursor. -/
theorem visit_of_hands {s : Session ω σ} {c c' : Cursor σ} {lines : List Bytes}
    {failure : Option Error} (hopen : s.openCursor.1 = .ok c) (h : c.Hands lines failure c')
    (hmust : c.mustRead = true) (giveUp : Option (Nat × Error)) (counting : Bool) :
    let r := Pass.handOver (Visitor.see giveUp counting) { session := s.openCursor.2 } lines
    (s.visit giveUp counting).1 =
      .visited r.2.seen.reverse (Pass.handedOver failure lines r.1) r.2.counted := by
  intro r
  obtain ⟨hvisitor, hresult⟩ := Pass.visitLines_of_hands
    (Visitor.see giveUp counting) h hmust { session := s.openCursor.2 }
  rw [visit]
  rcases hc : s.openCursor with ⟨opened, t⟩
  rw [hc] at hopen
  obtain rfl : opened = .ok c := hopen
  have ht : t = s.openCursor.2 := by rw [hc]
  dsimp only
  rw [ht, hresult, hvisitor]

/-- If the document is not opened there is nothing to be handed. -/
theorem visit_of_refused {s : Session ω σ} {e : Error} (hopen : s.openCursor.1 = .error e)
    (giveUp : Option (Nat × Error)) (counting : Bool) :
    (s.visit giveUp counting).1 = .visited [] (.error e) none := by
  rw [visit]
  rcases hc : s.openCursor with ⟨r, t⟩
  rw [hc] at hopen
  obtain rfl : r = .error e := hopen
  rfl

/-- A visitor who is not to count notes the line, and it gives up if it is time to. -/
theorem Visitor.see_of_not_counting (giveUp : Option (Nat × Error)) (line : Bytes)
    (v : Visitor ω σ) : v.see giveUp false line =
      (giveUp.bind fun r => if r.1 = v.number + 1 then some r.2 else none,
        { v with seen := line :: v.seen, number := v.number + 1 }) := rfl

omit [Room] in
/-- A visitor who gives up does so at a line that it has been handed. -/
theorem Visitor.length_handOver {α : Type} {visit : Bytes → α → Option Error × α}
    {seen : α → List Bytes} (hseen : ∀ line a, seen (visit line a).2 = line :: seen a)
    (lines : List Bytes) (a : α) (hgave : (Pass.handOver visit a lines).1 ≠ none) :
    (seen a).length < (seen (Pass.handOver visit a lines).2).length := by
  induction lines generalizing a with
  | nil => exact absurd rfl hgave
  | cons line lines ih =>
    have hnext := congrArg List.length (hseen line a)
    rw [List.length_cons] at hnext
    rcases hv : visit line a with ⟨_ | e, a'⟩
    · rw [hv] at hnext
      rw [Pass.handOver_cons_of_none hv] at hgave ⊢
      exact (Nat.lt_of_succ_le hnext.ge).trans (ih a' hgave)
    · rw [hv] at hnext
      rw [Pass.handOver_cons_of_some hv]
      exact Nat.lt_of_succ_le hnext.ge

/-- The visitor who is told in advance at which line to give up, and why, is handed what any other
visitor is handed who gives up there. -/
theorem Visitor.handOver_upTo {α : Type} {visit : Bytes → α → Option Error × α}
    {seen : α → List Bytes} (hseen : ∀ line a, seen (visit line a).2 = line :: seen a)
    (lines : List Bytes) (a : α) (v : Visitor ω σ) (hv : v.seen = seen a)
    (hnumber : v.number = v.seen.length) :
    let r := Pass.handOver visit a lines
    let r' := Pass.handOver (Visitor.see (r.1.map ((seen r.2).length, ·)) false) v lines
    r'.1 = r.1 ∧ r'.2.seen = seen r.2 ∧ r'.2.counted = v.counted := by
  induction lines generalizing a v with
  | nil => exact ⟨rfl, hv, rfl⟩
  | cons line lines ih =>
    have hnext := hseen line a
    rw [← hv] at hnext
    rcases hvisit : visit line a with ⟨_ | e, a'⟩
    · rw [hvisit] at hnext
      rw [Pass.handOver_cons_of_none hvisit]
      intro r
      -- It is told to give up behind this line, if at all.
      have hgoesOn : (Visitor.see (r.1.map ((seen r.2).length, ·)) false line v).1 = none := by
        rw [see_of_not_counting]
        cases hgave : r.1 with
        | none => rfl
        | some e =>
          have hmore := length_handOver hseen lines a' (by rw [hgave]; exact Option.some_ne_none e)
          rw [hnext, List.length_cons] at hmore
          exact if_neg (by rw [hnumber]; exact Nat.ne_of_gt hmore)
      rw [Pass.handOver_cons_of_none (Prod.ext hgoesOn rfl), see_of_not_counting]
      refine ih a' _ hnext.symm ?_
      rw [hnumber]
      rfl
    · rw [hvisit] at hnext
      rw [Pass.handOver_cons_of_some hvisit]
      have hgivesUp : (Visitor.see (some ((seen a').length, e)) false line v).1 = some e := by
        rw [see_of_not_counting, hnext, List.length_cons, ← hnumber]
        exact if_pos rfl
      have hdone := Pass.handOver_cons_of_some (Prod.ext hgivesUp rfl) lines
      refine ⟨congrArg Prod.fst hdone, ?_, ?_⟩
      · exact (congrArg (·.2.seen) hdone).trans hnext.symm
      · exact congrArg (·.2.counted) hdone

/-- So the document shows it what the other visitor has made of the lines, who notes them and why it
gives up. -/
theorem visit_upTo {α : Type} (visit : Bytes → α → Option Error × α) (seen : α → List Bytes)
    (giveUp : α → Option Error) (hseen : ∀ line a, seen (visit line a).2 = line :: seen a)
    (hgiveUp : ∀ line a, giveUp (visit line a).2 = (visit line a).1) {a : α} (hfirst : seen a = [])
    (hgoesOn : giveUp a = none) {s : Session ω σ} {c : Cursor σ} (hopen : s.openCursor.1 = .ok c) :
    let r := Pass.visitLines visit a c
    (s.visit ((giveUp r.2).map ((seen r.2).length, ·)) false).1 =
      .visited (seen r.2).reverse r.1.result none := by
  intro r
  obtain ⟨source, -, rfl⟩ := eq_ofSource_of_openCursor hopen
  obtain ⟨lines, failure, c', hands⟩ := Cursor.exists_hands
    (Cursor.ofSource source s.config.chunkBytes s.config.maxLineBytes)
  obtain ⟨hvisitor, hvisited⟩ := Pass.visitLines_of_hands visit hands rfl a
  obtain ⟨hresult, hlines, hcounted⟩ :=
    Visitor.handOver_upTo hseen lines a { session := s.openCursor.2 } hfirst.symm rfl
  rw [hvisitor, hvisited, Pass.handOver_notes giveUp hgiveUp hgoesOn,
    visit_of_hands hopen hands rfl, hlines, hresult, hcounted]

end Session

end TextLines

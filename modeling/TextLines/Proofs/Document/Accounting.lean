import TextLines.Proofs.Document.Scanning
import TextLines.Proofs.Line.Releasing

/-!
# The book of a document's sources

`Session.Accounts` is the book that is kept of the sources that are opened for a document. It
relates the documents before and after any part of an operation: every opening has brought in one
source, and the failures to close that have come up since are those that were thrown and those that
were logged. The parts of an operation add up (`Accounts.trans`).

A pass opens a source, closes it, and leaves it behind (`Session.retire_accounts`), while a visitor
may make passes of its own. `Session.Settles` is what a pass does all in all: it shows the failure
to close, or it logs the failure to close behind the failure that it shows.
-/

namespace TextLines

open scoped List

variable {ω σ : Type} [Source σ]

/-! ## Passes -/

namespace Pass

/-- A pass leaves its cursor closed. The failures to close it are `thrown` by the pass, or they are
not part of its answer, and that happens only behind a failure. -/
structure Releases {α : Type} (c : Cursor (Traced σ)) (thrown : List Error)
    (p : Pass α (Traced σ)) : Prop where
  goes : c.Goes (p.unreported.toList ++ thrown) p.cursor
  closed : p.cursor.isClosed = true
  reported : thrown <+ (failure? p.result).toList
  behindFailure : p.unreported ≠ none → failure? p.result ≠ none

/-- A pass that has failed throws nothing more when it ends. -/
theorem finish_error_releases {α : Type} {e : Error} {c c' : Cursor (Traced σ)}
    {thrown : List Error} (h : c.Goes thrown c') (hthrown : thrown <+ [e]) :
    (finish (.error e : Except Error α) c').Releases c thrown := by
  obtain ⟨hclose, hclosed⟩ := Cursor.close_goes h.tracked
  exact ⟨h.trans hclose, hclosed, hthrown, fun _ => by simp [finish_error, failure?]⟩

/-- Ending a pass closes the cursor. -/
theorem finish_releases {α : Type} {r : Except Error α} {c c' : Cursor (Traced σ)}
    {thrown : List Error} (h : c.Goes thrown c') (hthrown : thrown <+ (failure? r).toList) :
    ∃ thrown', (finish r c').Releases c thrown' := by
  cases r with
  | error first => exact ⟨thrown, finish_error_releases h hthrown⟩
  | ok a =>
    obtain rfl : thrown = [] := List.sublist_nil.mp hthrown
    obtain ⟨hclose, hclosed⟩ := Cursor.close_goes h.tracked
    have hgoes := h.trans hclose
    rw [finish]
    rcases hc : c'.close with ⟨e, closed⟩
    rw [hc] at hgoes hclosed
    cases e with
    | none => exact ⟨[], hgoes, hclosed, List.nil_sublist _, by simp⟩
    | some e => exact ⟨[e], hgoes, hclosed, List.Sublist.refl _, by simp⟩

omit [Source σ] in
theorem Releases.map {α β : Type} {f : α → β} {c : Cursor (Traced σ)} {thrown : List Error}
    {p : Pass α (Traced σ)} (h : p.Releases c thrown) : (p.map f).Releases c thrown := by
  have hfailure : failure? (p.map f).result = failure? p.result := by
    rw [Pass.map]
    rcases p.result with e | a <;> rfl
  exact ⟨h.goes, h.closed, hfailure ▸ h.reported, hfailure ▸ h.behindFailure⟩

/-- A pass whose answer is what a walk has come to. -/
theorem finish_walk_releases {α : Type} (visit : Bytes → α → Cursor.Visit α) (v : α)
    {c : Cursor (Traced σ)} (h : c.Tracked) :
    ∃ thrown, (finish (c.walk visit v).result (c.walk visit v).cursor).Releases c thrown := by
  obtain ⟨thrown, hgoes, hthrown, -⟩ := Cursor.walk_goes visit v h
  exact finish_releases hgoes hthrown

theorem isEmpty_releases {c : Cursor (Traced σ)} (h : c.Tracked) :
    ∃ thrown, (isEmpty c).Releases c thrown := by
  obtain ⟨thrown, hgoes, hthrown, -⟩ := Cursor.hasMore_goes h
  obtain ⟨thrown', hreleases⟩ := finish_releases hgoes hthrown
  exact ⟨thrown', hreleases.map⟩

end Pass

namespace Session

/-! ## The book -/

/-- A source can be opened for the document as the world is. -/
def canOpen (s : Session ω σ) : Bool :=
  s.opener s.config s.world matches .ok (some _)

variable [Room]

/-- The sources of a document are used as sources are to be used. Those of finished passes and of
streams that were given up have been released. -/
structure Tracked (s : Session ω (Traced σ)) : Prop where
  hasMemory : s.config.chunkBytes < Room.limit
  /-- A source that is opened has not been used. -/
  fresh : ∀ world source, s.opener s.config world = .ok (some source) → source.calls = []
  retired : ∀ source ∈ s.retired, source.Released
  streams : ∀ st, some st ∈ s.streams → st.cursor.Tracked

/-- The failures to close a source of the document. -/
def closeFailures (s : Session ω (Traced σ)) : List Error :=
  s.sources.flatMap Traced.closeFailures

/-- The book of what happens between two states of a document. -/
structure Accounts (s : Session ω (Traced σ)) (thrown logged : List Error)
    (s' : Session ω (Traced σ)) : Prop where
  tracked : s'.Tracked
  config : s'.config = s.config
  opener : s'.opener = s.opener
  opens : s.opens ≤ s'.opens
  /-- Every opening that can succeed brings in one source. -/
  sources : s'.sources.length = s.sources.length + (s'.opens - s.opens) * s.canOpen.toNat
  unreported : s'.unreported = logged ++ s.unreported
  /-- A failure to close is thrown, or it is logged, and not both. -/
  failures : s'.closeFailures ~ thrown ++ logged ++ s.closeFailures

omit [Source σ] in
theorem Accounts.still {s : Session ω (Traced σ)} (h : s.Tracked) : s.Accounts [] [] s where
  tracked := h
  config := rfl
  opener := rfl
  opens := Nat.le_refl _
  sources := by rw [Nat.sub_self, Nat.zero_mul, Nat.add_zero]
  unreported := rfl
  failures := List.Perm.refl _

omit [Source σ] in
theorem Accounts.trans {s s' s'' : Session ω (Traced σ)}
    {thrown thrown' logged logged' : List Error}
    (h : s.Accounts thrown logged s') (hworld : s'.world = s.world)
    (h' : s'.Accounts thrown' logged' s'') :
    s.Accounts (thrown' ++ thrown) (logged' ++ logged) s'' where
  tracked := h'.tracked
  config := h'.config.trans h.config
  opener := h'.opener.trans h.opener
  opens := h.opens.trans h'.opens
  sources := by
    have hcan : s'.canOpen = s.canOpen := by
      rw [canOpen, canOpen, h.config, h.opener, hworld]
    have hle := h.opens
    have hle' := h'.opens
    have hsources' := h'.sources
    rw [h.sources, hcan] at hsources'
    rw [hsources', Nat.add_assoc, ← Nat.add_mul]
    congr 2
    omega
  unreported := by rw [h'.unreported, h.unreported, List.append_assoc]
  failures := by
    classical
    have hcount := fun e => List.perm_iff_count.mp h.failures e
    have hcount' := fun e => List.perm_iff_count.mp h'.failures e
    refine List.perm_iff_count.mpr fun e => ?_
    have hfirst := hcount e
    have hsecond := hcount' e
    simp only [List.count_append] at hfirst hsecond ⊢
    omega

/-- The world and the streams are not touched. -/
structure Untouched (s s' : Session ω σ) : Prop where
  world : s'.world = s.world
  streams : s'.streams = s.streams

omit [Source σ] [Room] in
theorem Untouched.rfl {s : Session ω σ} : s.Untouched s :=
  ⟨Eq.refl _, Eq.refl _⟩

omit [Source σ] [Room] in
theorem Untouched.trans {s s' s'' : Session ω σ} (h : s.Untouched s') (h' : s'.Untouched s'') :
    s.Untouched s'' :=
  ⟨h'.world.trans h.world, h'.streams.trans h.streams⟩

/-- What a pass does that shows `failure`, or no failure. A failure to close is logged only if there
was another before. -/
def Settles (s : Session ω (Traced σ)) (failure : Option Error) (s' : Session ω (Traced σ)) :
    Prop :=
  ∃ thrown logged, s.Accounts thrown logged s' ∧ s.Untouched s' ∧ thrown <+ failure.toList ∧
    (logged ≠ [] → failure ≠ none)

omit [Source σ] in
theorem Settles.still {s : Session ω (Traced σ)} (h : s.Tracked) (failure : Option Error) :
    s.Settles failure s :=
  ⟨[], [], .still h, .rfl, List.nil_sublist _, absurd rfl⟩

omit [Source σ] in
theorem Settles.of_none {s s' : Session ω (Traced σ)} (h : s.Settles none s') :
    s.Accounts [] [] s' ∧ s.Untouched s' := by
  obtain ⟨thrown, logged, haccounts, huntouched, hthrown, hlogged⟩ := h
  obtain rfl : thrown = [] := List.sublist_nil.mp hthrown
  have hnone : logged = [] := by
    by_contra hne
    exact hlogged hne rfl
  rw [hnone] at haccounts
  exact ⟨haccounts, huntouched⟩

/-! ## Passes over a document -/

omit [Source σ] in
theorem Tracked.opened {s : Session ω (Traced σ)} (h : s.Tracked) :
    ({ s with opens := s.opens + 1 } : Session ω (Traced σ)).Tracked :=
  ⟨h.hasMemory, h.fresh, h.retired, h.streams⟩

omit [Source σ] in
/-- Opening a source fails, or it gives a cursor over a source in use. -/
theorem openCursor_tracked {s : Session ω (Traced σ)} (h : s.Tracked) :
    ((∃ e, s.openCursor = (.error e, { s with opens := s.opens + 1 })) ∧ s.canOpen = false) ∨
      ∃ c, s.openCursor = (.ok c, { s with opens := s.opens + 1 }) ∧ s.canOpen = true ∧
        c.Tracked ∧ c.isClosed = false ∧ c.source?.isSome = true ∧ c.closeFailures = [] := by
  rw [openCursor, canOpen]
  rcases hopened : s.opener s.config s.world with e | (_ | source)
  · exact .inl ⟨⟨e, rfl⟩, rfl⟩
  · exact .inl ⟨⟨_, rfl⟩, rfl⟩
  · rw [Config.cursor_of_lt h.hasMemory]
    have hinUse := Traced.inUse_of_fresh (h.fresh _ _ hopened)
    refine .inr ⟨_, rfl, rfl, ⟨.held hinUse, .inl rfl⟩, rfl, rfl, ?_⟩
    show [source].flatMap Traced.closeFailures = []
    rw [List.flatMap_singleton, hinUse.closeFailures]

omit [Source σ] in
/-- An opening that fails brings in nothing. -/
theorem accounts_of_refused {s : Session ω (Traced σ)} (h : s.Tracked) (hcan : s.canOpen = false) :
    s.Accounts [] [] { s with opens := s.opens + 1 } where
  tracked := h.opened
  config := rfl
  opener := rfl
  opens := Nat.le_succ _
  sources := by
    rw [hcan]
    rfl
  unreported := rfl
  failures := List.Perm.refl _

omit [Source σ] in
/-- A pass leaves a released source behind, while other things happen to the document. -/
theorem retire_accounts {α : Type} {s s' : Session ω (Traced σ)}
    {thrown thrown' logged : List Error}
    {c : Cursor (Traced σ)} {p : Pass α (Traced σ)} (hcan : s.canOpen = true)
    (hsource : c.source?.isSome = true) (hfailures : c.closeFailures = [])
    (h : ({ s with opens := s.opens + 1 } : Session ω (Traced σ)).Accounts thrown logged s')
    (hp : p.Releases c thrown') :
    s.Accounts (thrown' ++ thrown) (p.unreported.toList ++ logged) (s'.retire p) := by
  obtain ⟨source, hp_source⟩ := Option.isSome_iff_exists.mp (hp.goes.source.trans hsource)
  have hsources : (s'.retire p).sources = source :: s'.sources := by
    rw [retire, Session.sources, hp_source]
    rfl
  have hreleased : source.Released := hp.goes.tracked.released hp.closed hp_source
  refine ⟨⟨h.tracked.hasMemory, h.tracked.fresh, ?_, h.tracked.streams⟩, h.config, h.opener, ?_, ?_,
    ?_, ?_⟩
  · intro other hother
    rw [retire, hp_source] at hother
    rcases List.mem_cons.mp hother with rfl | hbefore
    · exact hreleased
    · exact h.tracked.retired other hbefore
  · exact (Nat.le_succ _).trans h.opens
  · have hlength := h.sources
    have hopens : s.opens + 1 ≤ s'.opens := h.opens
    have hcan' : ({ s with opens := s.opens + 1 } : Session ω (Traced σ)).canOpen = true := hcan
    rw [hcan', Bool.toNat_true, Nat.mul_one] at hlength
    have hbefore : ({ s with opens := s.opens + 1 } : Session ω (Traced σ)).sources = s.sources :=
      rfl
    rw [hbefore] at hlength
    rw [hsources, hcan, Bool.toNat_true, Nat.mul_one, List.length_cons, hlength]
    show s.sources.length + (s'.opens - (s.opens + 1)) + 1 = s.sources.length + (s'.opens - s.opens)
    omega
  · show p.unreported.toList ++ s'.unreported = _
    rw [h.unreported, List.append_assoc]
  · have hclosing : source.closeFailures = p.unreported.toList ++ thrown' := by
      have hall := hp.goes.failures
      rw [hfailures, List.append_nil, Cursor.closeFailures, hp_source, Option.toList_some,
        List.flatMap_singleton] at hall
      exact hall
    have hbook : s'.closeFailures ~ thrown ++ logged ++ s.closeFailures := h.failures
    rw [closeFailures, hsources, List.flatMap_cons, hclosing]
    classical
    refine List.perm_iff_count.mpr fun e => ?_
    have hcount := List.perm_iff_count.mp hbook e
    rw [closeFailures] at hcount
    simp only [List.count_append] at hcount ⊢
    omega

omit [Source σ] in
theorem runPass_settles {α : Type} {s : Session ω (Traced σ)} (h : s.Tracked)
    {pass : Cursor (Traced σ) → Pass α (Traced σ)}
    (hpass : ∀ c : Cursor (Traced σ), c.Tracked → ∃ thrown, (pass c).Releases c thrown) :
    s.Settles (failure? (s.runPass pass).1) (s.runPass pass).2 := by
  rw [runPass]
  rcases openCursor_tracked h with ⟨⟨e, he⟩, hcan⟩ | ⟨c, hc, hcan, htracked, -, hsource, hfailures⟩
  · rw [he]
    exact ⟨[], [], accounts_of_refused h hcan, ⟨rfl, rfl⟩, List.nil_sublist _, absurd rfl⟩
  · rw [hc]
    obtain ⟨thrown, hreleases⟩ := hpass c htracked
    refine ⟨thrown ++ [], (pass c).unreported.toList ++ [],
      retire_accounts hcan hsource hfailures (.still h.opened) hreleases, ⟨rfl, rfl⟩, ?_,
      fun hlogged => ?_⟩
    · rw [List.append_nil]
      exact hreleases.reported
    · apply hreleases.behindFailure
      intro hnone
      rw [hnone] at hlogged
      exact hlogged rfl

omit [Source σ] in
/-- The number of lines is not part of the book. -/
theorem Accounts.counted {s s' : Session ω (Traced σ)} {thrown logged : List Error}
    (h : s.Accounts thrown logged s') (n : Option Nat) :
    s.Accounts thrown logged { s' with lineCount := n } :=
  ⟨⟨h.tracked.hasMemory, h.tracked.fresh, h.tracked.retired, h.tracked.streams⟩, h.config, h.opener,
    h.opens, h.sources, h.unreported, h.failures⟩

theorem count_settles {s : Session ω (Traced σ)} (h : s.Tracked) :
    s.Settles (failure? s.count.1) s.count.2 := by
  have hpass : s.Settles (failure? (s.runPass Pass.countLines).1)
      (s.runPass Pass.countLines).2 :=
    runPass_settles h fun c hc => Pass.finish_walk_releases (fun _ n => .goOn (n + 1)) 0 hc
  rw [count]
  cases s.lineCount with
  | some n => exact .still h _
  | none =>
    dsimp only
    rcases hrun : s.runPass Pass.countLines with ⟨e | n, s'⟩
    · rw [hrun] at hpass
      exact hpass
    · rw [hrun] at hpass
      obtain ⟨thrown, logged, haccounts, huntouched, hrest⟩ := hpass
      exact ⟨thrown, logged, haccounts.counted (some n), ⟨huntouched.world, huntouched.streams⟩,
        hrest⟩

theorem isEmpty_settles {s : Session ω (Traced σ)} (h : s.Tracked) :
    s.Settles (failure? s.isEmpty.1) s.isEmpty.2 := by
  rw [isEmpty]
  cases s.lineCount with
  | some n => exact .still h _
  | none => exact runPass_settles h fun c hc => Pass.isEmpty_releases hc

/-! ## Visitors -/

/-- A visitor that counts settles what it does. If it gives up the failure is shown. -/
theorem Visitor.see_settles (giveUp : Option (Nat × Error)) (counting : Bool) (line : Bytes)
    {v : Visitor ω (Traced σ)} (h : v.session.Tracked) :
    v.session.Settles (v.see giveUp counting line).1 (v.see giveUp counting line).2.session := by
  cases counting with
  | false => exact .still h _
  | true =>
    have hcount := count_settles h
    rw [see, recount, if_pos rfl]
    rcases hc : v.session.count with ⟨e | n, session⟩
    · rw [hc] at hcount
      exact hcount
    · rw [hc] at hcount
      obtain ⟨haccounts, huntouched⟩ := hcount.of_none
      exact ⟨[], [], haccounts, ⟨huntouched.world, huntouched.streams⟩, List.nil_sublist _,
        absurd rfl⟩

/-- As long as the visitor goes on nothing has been thrown or logged. -/
theorem visitLine_goesOn {giveUp : Option (Nat × Error)} {counting : Bool}
    {s : Session ω (Traced σ)}
    {line : Bytes} {state state' : Visitor ω (Traced σ) × Nat × Option Error}
    (hbook : s.Accounts [] [] state.1.session) (hsame : s.Untouched state.1.session)
    (hgone : Pass.visitLine (Visitor.see giveUp counting) line state = .goOn state') :
    state'.2.2 = none ∧ s.Accounts [] [] state'.1.session ∧ s.Untouched state'.1.session := by
  have hsee := Visitor.see_settles giveUp counting line hbook.tracked
  obtain rfl := Pass.visitLine_goOn hgone
  rw [Pass.visitLine] at hgone
  rcases hsaw : Visitor.see giveUp counting line state.1 with ⟨_ | e, v'⟩
  · rw [hsaw] at hsee
    obtain ⟨haccounts, huntouched⟩ := hsee.of_none
    exact ⟨rfl, hbook.trans hsame.world haccounts, hsame.trans huntouched⟩
  · rw [hsaw] at hgone
    cases hgone

/-- A visitor that gives up has settled what it has done. -/
theorem visitLine_stops {giveUp : Option (Nat × Error)} {counting : Bool} {s : Session ω (Traced σ)}
    {line : Bytes} {state state' : Visitor ω (Traced σ) × Nat × Option Error}
    (hbook : s.Accounts [] [] state.1.session) (hsame : s.Untouched state.1.session)
    (hstopped : Pass.visitLine (Visitor.see giveUp counting) line state = .stop state') :
    ∃ e, state'.2.2 = some e ∧ s.Settles (some e) state'.1.session := by
  obtain ⟨e, he, rfl⟩ := Pass.visitLine_stop hstopped
  have hsee := Visitor.see_settles giveUp counting line hbook.tracked
  rw [he] at hsee
  obtain ⟨thrown, logged, haccounts, huntouched, hthrown, hlogged⟩ := hsee
  refine ⟨e, rfl, thrown ++ [], logged ++ [], hbook.trans hsame.world haccounts,
    hsame.trans huntouched, ?_, fun _ => by simp⟩
  rw [List.append_nil]
  exact hthrown

theorem visitLines_settles (giveUp : Option (Nat × Error)) (counting : Bool)
    {v : Visitor ω (Traced σ)} (hv : v.session.Tracked) {c : Cursor (Traced σ)} (hc : c.Tracked) :
    let r := Pass.visitLines (Visitor.see giveUp counting) v c
    ∃ thrown thrown' logged, r.1.Releases c thrown ∧
      v.session.Accounts thrown' logged r.2.session ∧ v.session.Untouched r.2.session ∧
      thrown ++ thrown' <+ (failure? r.1.result).toList ∧
      (logged ≠ [] → failure? r.1.result ≠ none) := by
  intro r
  obtain ⟨hstop, hgoOn⟩ := Cursor.walk_keeps (Pass.visitLine (Visitor.see giveUp counting))
    (P := fun state : Visitor ω (Traced σ) × Nat × Option Error => state.2.2 = none ∧
      v.session.Accounts [] [] state.1.session ∧ v.session.Untouched state.1.session)
    (Q := fun state => ∃ e, state.2.2 = some e ∧ v.session.Settles (some e) state.1.session)
    (fun _ _ _ ⟨_, hbook, hsame⟩ => visitLine_goesOn hbook hsame)
    (fun _ _ _ ⟨_, hbook, hsame⟩ => visitLine_stops hbook hsame)
    (v := (v, 0, none)) ⟨rfl, .still hv, .rfl⟩ c
  obtain ⟨thrown, hgoes, hthrown, -⟩ :=
    Cursor.walk_goes (Pass.visitLine (Visitor.see giveUp counting)) (v, 0, none) hc
  have hr : r = _ := Pass.visitLines_eq _ _ _
  rw [hr]
  generalize c.walk (Pass.visitLine (Visitor.see giveUp counting)) (v, 0, none) = w
    at hstop hgoOn hgoes hthrown
  rcases w with ⟨_ | _ | e, ⟨v', n, given⟩, c'⟩
  · obtain ⟨rfl, haccounts, huntouched⟩ := hgoOn (by simp)
    obtain ⟨thrown', hreleases⟩ := Pass.finish_releases (r := .ok n) hgoes hthrown
    refine ⟨thrown', [], [], hreleases, haccounts, huntouched, ?_, absurd rfl⟩
    rw [List.append_nil]
    exact hreleases.reported
  · obtain ⟨e, rfl, thrown', logged, haccounts, huntouched, hthrown', -⟩ := hstop rfl
    have hreleases := Pass.finish_error_releases (α := Nat) (e := e) (hgoes.of_ok hthrown)
      (List.nil_sublist _)
    exact ⟨[], thrown', logged, hreleases, haccounts, huntouched, hthrown', fun _ => by
      simp [Pass.visitResult, Cursor.Walk.result, Pass.finish_error, failure?]⟩
  · obtain ⟨rfl, haccounts, huntouched⟩ := hgoOn (by simp)
    refine ⟨thrown, [], [], Pass.finish_error_releases hgoes hthrown, haccounts, huntouched, ?_,
      absurd rfl⟩
    rw [List.append_nil]
    exact hthrown

theorem visit_settles {s : Session ω (Traced σ)} (h : s.Tracked) (giveUp : Option (Nat × Error))
    (counting : Bool) :
    s.Settles (s.visit giveUp counting).1.failure? (s.visit giveUp counting).2 := by
  rw [visit]
  rcases openCursor_tracked h with ⟨⟨e, he⟩, hcan⟩ | ⟨c, hc, hcan, htracked, -, hsource, hfailures⟩
  · rw [he]
    exact ⟨[], [], accounts_of_refused h hcan, ⟨rfl, rfl⟩, List.nil_sublist _, absurd rfl⟩
  · rw [hc]
    obtain ⟨thrown, thrown', logged, hreleases, haccounts, huntouched, hthrown, hlogged⟩ :=
      visitLines_settles giveUp counting
        (v := ({ session := { s with opens := s.opens + 1 } } : Visitor ω (Traced σ))) h.opened
        htracked
    dsimp only
    generalize Pass.visitLines (Visitor.see giveUp counting)
      ({ session := { s with opens := s.opens + 1 } } : Visitor ω (Traced σ)) c = r
      at hreleases haccounts huntouched hthrown hlogged
    have hfailure : (Answer.visited r.2.seen.reverse r.1.result r.2.counted).failure? =
        failure? r.1.result := by
      rcases r.1.result with e | n <;> rfl
    rw [hfailure]
    refine ⟨thrown ++ thrown', r.1.unreported.toList ++ logged,
      retire_accounts hcan hsource hfailures haccounts hreleases,
      ⟨huntouched.world, huntouched.streams⟩, hthrown, fun hsome => ?_⟩
    by_cases hnone : r.1.unreported = none
    · rw [hnone] at hsome
      exact hlogged hsome
    · exact hreleases.behindFailure hnone

end Session

end TextLines

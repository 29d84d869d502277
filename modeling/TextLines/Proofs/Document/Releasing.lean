import TextLines.Proofs.Document.Accounting

/-!
# Documents release their sources

Whatever is done with a document, every source that was opened for it is closed once: by the pass
it was opened for, or when its stream comes to the end, is closed, or is given up. After that
nothing is asked of it. A failure to close is shown by the operation that has closed, or it is one
of the failures that are not part of an answer.

Every operation keeps the book of `Session.Accounts`; `Session.step_reports` is the step lemma, with
`streamStep_goes` for the operations on a stream and `pass_settles` for the passes. `run_tracked`
carries it over any history, and `finish_released` is about the end of one. `run_releases` puts it
together.
-/

namespace TextLines

open scoped List

variable {ω σ : Type} [Source σ]

namespace Session

/-! ## Streams -/

theorem moveIterator_goes {st : Stream (Traced σ)} (h : st.cursor.Tracked) :
    ∃ thrown, st.cursor.Goes thrown (moveIterator st).2.cursor ∧
      thrown <+ (moveIterator st).1.failure?.toList ∧
      (st.cursor.hasMore.1 = .ok false → (moveIterator st).2.cursor.isClosed = true) := by
  obtain ⟨thrown, hgoes, hthrown, hatEnd⟩ := Cursor.hasMore_goes h
  rw [moveIterator]
  rcases hc : st.cursor.hasMore with ⟨e | (_ | _), c'⟩
  · rw [hc] at hgoes hthrown
    exact ⟨thrown, hgoes, hthrown, fun hfalse => by cases hfalse⟩
  · rw [hc] at hgoes hthrown hatEnd
    exact ⟨[], hgoes.of_ok hthrown, List.nil_sublist _, hatEnd⟩
  · rw [hc] at hgoes hthrown
    exact ⟨[], (hgoes.of_ok hthrown).taken, List.nil_sublist _, fun hfalse => by cases hfalse⟩

/-- The operation comes to the end of the lines. -/
def FindsEnd (op : StreamOp) (st : Stream σ) : Prop :=
  match op with
  | .hasMore | .borrow | .take | .start => st.cursor.hasMore.1 = .ok false
  | .advance => st.iterator = .onLine ∧ st.cursor.hasMore.1 = .ok false
  | .range limit => (range limit st.cursor).ending = .exhausted
  | _ => False

omit [Source σ] in
theorem failure?_answer {α : Type} {f : α → Answer} (hf : ∀ a, (f a).failure? = none)
    (r : Except Error α) : (answer f r).failure? = failure? r := by
  cases r with
  | error e => rfl
  | ok a => exact hf a

/-- An operation on a stream shows its failure to close, and it leaves the stream closed if it comes
to the end of the lines or is to close. -/
theorem streamStep_goes (op : StreamOp) {st : Stream (Traced σ)} (h : st.cursor.Tracked) :
    ∃ thrown, st.cursor.Goes thrown (streamStep op st).2.cursor ∧
      thrown <+ (streamStep op st).1.failure?.toList ∧
      (FindsEnd op st ∨ op.Closes → (streamStep op st).2.cursor.isClosed = true) := by
  cases op with
  | hasMore =>
    obtain ⟨thrown, hgoes, hthrown, hatEnd⟩ := Cursor.hasMore_goes h
    rw [← failure?_answer (f := .truth) fun _ => rfl] at hthrown
    exact ⟨thrown, hgoes, hthrown, fun hend => hatEnd (hend.resolve_right id)⟩
  | borrow | take =>
    obtain ⟨thrown, hgoes, hthrown, hatEnd⟩ := Cursor.next_goes h
    rw [← failure?_answer (f := .line) fun _ => rfl] at hthrown
    exact ⟨thrown, hgoes, hthrown, fun hend => hatEnd (hend.resolve_right id)⟩
  | close | drop =>
    obtain ⟨hgoes, hclosed⟩ := Cursor.close_goes h
    refine ⟨_, hgoes, ?_, fun _ => hclosed⟩
    rw [streamStep]
    rcases st.cursor.close with ⟨_ | e, c'⟩
    · exact List.nil_sublist _
    · exact List.Sublist.refl _
  | range limit =>
    obtain ⟨thrown, hgoes, hthrown, hatEnd⟩ :=
      Cursor.walk_goes (Consumer.rangeVisit limit) ([], 0) h
    refine ⟨thrown, hgoes, ?_, fun hend => hatEnd (hend.resolve_right id)⟩
    rw [streamStep, Consumer.range_eq_walk]
    generalize st.cursor.walk (Consumer.rangeVisit limit) ([], 0) = w at hthrown
    rcases w with ⟨_ | _ | e, v, c'⟩ <;> exact hthrown
  | start =>
    obtain ⟨thrown, hgoes, hthrown, hatEnd⟩ := moveIterator_goes h
    exact ⟨thrown, hgoes, hthrown, fun hend => hatEnd (hend.resolve_right id)⟩
  | advance =>
    obtain ⟨thrown, hgoes, hthrown, hatEnd⟩ := moveIterator_goes h
    rw [streamStep]
    split
    · exact ⟨thrown, hgoes, hthrown, fun hend => hatEnd (hend.resolve_right id).2⟩
    · rename_i hno
      exact ⟨[], .still h, List.nil_sublist _, fun hend => absurd (hend.resolve_right id).1 hno⟩
  | current =>
    rw [streamStep]
    split <;> exact ⟨[], .still h, List.nil_sublist _, fun hend => hend.elim False.elim False.elim⟩
  | lentLine | isClosed | bytesRead =>
    exact ⟨[], .still h, List.nil_sublist _, fun hend => hend.elim False.elim False.elim⟩

/-- What is kept of a list in which one place is set again. -/
theorem exists_filterMap_set {α β : Type} {slots : List α} {n : Nat} {a : α} (f : α → Option β)
    (h : slots[n]? = some a) :
    ∃ front back, slots.filterMap f = front ++ (f a).toList ++ back ∧
      ∀ b, (slots.set n b).filterMap f = front ++ (f b).toList ++ back := by
  obtain ⟨hlt, rfl⟩ := List.getElem?_eq_some_iff.mp h
  have hset : ∀ b, (slots.set n b).filterMap f =
      (slots.take n).filterMap f ++ (f b).toList ++ (slots.drop (n + 1)).filterMap f := by
    intro b
    rw [List.set_eq_take_append_cons_drop, if_pos hlt, List.filterMap_append, List.append_assoc]
    cases hb : f b with
    | none => rw [List.filterMap_cons_none hb, Option.toList_none, List.nil_append]
    | some c => rw [List.filterMap_cons_some hb, Option.toList_some, List.singleton_append]
  have hself := hset slots[n]
  rw [List.set_getElem_self hlt] at hself
  exact ⟨_, _, hself, hset⟩

variable [Room]

omit [Source σ] in
/-- The streams of a document go on with what is in the place of one of them. -/
theorem Tracked.set {s : Session ω (Traced σ)} (h : s.Tracked) (number : Nat)
    (slot : Option (Stream (Traced σ))) (hslot : ∀ st, slot = some st → st.cursor.Tracked) :
    ({ s with streams := s.streams.set number slot } : Session ω (Traced σ)).Tracked := by
  refine ⟨h.hasMemory, h.fresh, h.retired, fun st hst => ?_⟩
  rcases List.mem_or_eq_of_mem_set hst with hold | hnew
  · exact h.streams st hold
  · exact hslot st hnew.symm

omit [Source σ] in
/-- A stream that goes on. -/
theorem accounts_of_goes {s : Session ω (Traced σ)} (h : s.Tracked) {number : Nat}
    {st st' : Stream (Traced σ)} (hst : s.streams[number]? = some (some st))
    {thrown : List Error} (hgoes : st.cursor.Goes thrown st'.cursor) :
    s.Accounts thrown [] { s with streams := s.streams.set number (some st') } := by
  obtain ⟨front, back, hbefore, hafter⟩ :=
    exists_filterMap_set (fun slot : Option (Stream (Traced σ)) => slot.bind (·.cursor.source?)) hst
  have hsources : s.sources = s.retired ++ (front ++ st.cursor.source?.toList ++ back) :=
    congrArg (s.retired ++ ·) hbefore
  have hsources' :
      ({ s with streams := s.streams.set number (some st') } : Session ω (Traced σ)).sources =
        s.retired ++ (front ++ st'.cursor.source?.toList ++ back) :=
    congrArg (s.retired ++ ·) (hafter (some st'))
  refine ⟨h.set number (some st') fun other hother => ?_, rfl, rfl, Nat.le_refl _, ?_, rfl, ?_⟩
  · obtain rfl := Option.some.inj hother
    exact hgoes.tracked
  · rw [hsources, hsources', Nat.sub_self, Nat.zero_mul]
    simp only [List.length_append, hgoes.length_source, Nat.add_zero]
  · have hfailures : st'.cursor.source?.toList.flatMap Traced.closeFailures =
        thrown ++ st.cursor.source?.toList.flatMap Traced.closeFailures := hgoes.failures
    classical
    refine List.perm_iff_count.mpr fun e => ?_
    simp only [closeFailures, hsources, hsources', List.flatMap_append, hfailures,
      List.count_append, List.count_nil]
    omega

/-- A stream that is given up. A failure to close it is logged. -/
theorem dropStream_accounts {s : Session ω (Traced σ)} (h : s.Tracked) {number : Nat}
    {st : Stream (Traced σ)} (hst : s.streams[number]? = some (some st)) :
    s.Accounts [] st.cursor.close.1.toList (s.dropStream number st) := by
  obtain ⟨hgoes, hclosed⟩ := Cursor.close_goes (h.streams st (List.mem_of_getElem? hst))
  obtain ⟨front, back, hbefore, hafter⟩ :=
    exists_filterMap_set (fun slot : Option (Stream (Traced σ)) => slot.bind (·.cursor.source?)) hst
  have hsources : s.sources = s.retired ++ (front ++ st.cursor.source?.toList ++ back) :=
    congrArg (s.retired ++ ·) hbefore
  have hsources' : (s.dropStream number st).sources =
      st.cursor.close.2.source?.toList ++ s.retired ++ (front ++ [] ++ back) :=
    congrArg (st.cursor.close.2.source?.toList ++ s.retired ++ ·) (hafter none)
  have htracked := h.set number none fun _ hnone => by cases hnone
  refine ⟨⟨h.hasMemory, h.fresh, fun source hmem => ?_, htracked.streams⟩, rfl, rfl, Nat.le_refl _,
    ?_, rfl, ?_⟩
  · rcases List.mem_append.mp hmem with hgiven | hbefore
    · exact hgoes.tracked.released hclosed (Option.mem_toList.mp hgiven)
    · exact h.retired source hbefore
  · show (s.dropStream number st).sources.length =
      s.sources.length + (s.opens - s.opens) * s.canOpen.toNat
    rw [hsources, hsources', Nat.sub_self, Nat.zero_mul]
    simp only [List.length_append, hgoes.length_source, List.length_nil]
    omega
  · have hfailures : st.cursor.close.2.source?.toList.flatMap Traced.closeFailures =
        st.cursor.close.1.toList ++ st.cursor.source?.toList.flatMap Traced.closeFailures :=
      hgoes.failures
    classical
    refine List.perm_iff_count.mpr fun e => ?_
    simp only [closeFailures, hsources, hsources', List.flatMap_append, hfailures,
      List.count_append, List.flatMap_nil, List.count_nil]
    omega

omit [Source σ] in
/-- A stream that is added brings in its source, if it has one. -/
theorem addStream_accounts {s : Session ω (Traced σ)} (h : s.Tracked) {c : Cursor (Traced σ)}
    (hc : c.Tracked) (hnone : c.closeFailures = []) {n : Nat}
    (hlength : c.source?.toList.length = n * s.canOpen.toNat) :
    s.Accounts [] []
      (({ s with opens := s.opens + n } : Session ω (Traced σ)).addStream c).2 := by
  have hadded : ([some { cursor := c }] : List (Option (Stream (Traced σ)))).filterMap
      (fun slot => slot.bind (·.cursor.source?)) = c.source?.toList := by
    cases hsource : c.source? with
    | none => exact List.filterMap_cons_none hsource
    | some source => exact List.filterMap_cons_some hsource
  have hsources : (({ s with opens := s.opens + n } : Session ω (Traced σ)).addStream c).2.sources =
      s.sources ++ c.source?.toList := by
    rw [addStream, sources, List.filterMap_append, hadded, ← List.append_assoc]
    rfl
  refine ⟨⟨h.hasMemory, h.fresh, h.retired, fun st hst => ?_⟩, rfl, rfl, Nat.le_add_right _ _, ?_,
    rfl, ?_⟩
  · rcases List.mem_append.mp hst with hold | hnew
    · exact h.streams st hold
    · obtain rfl := Option.some.inj (List.mem_singleton.mp hnew)
      exact hc
  · show _ = s.sources.length + (s.opens + n - s.opens) * s.canOpen.toNat
    rw [hsources, List.length_append, hlength, Nat.add_sub_cancel_left]
  · have hsame : c.source?.toList.flatMap Traced.closeFailures = [] := hnone
    rw [closeFailures, hsources, List.flatMap_append, hsame, List.append_nil]
    exact List.Perm.refl _

/-! ## The document as a whole -/

/-- The operation may make a pass over the document. -/
def IsPass : Op ω → Prop
  | .count | .isEmpty | .render | .contains _ | .collect | .visit _ _ => True
  | _ => False

theorem pass_settles {s : Session ω (Traced σ)} (h : s.Tracked) {op : Op ω} (hop : IsPass op) :
    s.Settles (s.step op).1.failure? (s.step op).2 := by
  cases op with
  | count =>
    have hcount := count_settles h
    rw [← failure?_answer (f := .number) fun _ => rfl] at hcount
    exact hcount
  | isEmpty =>
    have hempty := isEmpty_settles h
    rw [← failure?_answer (f := .truth) fun _ => rfl] at hempty
    exact hempty
  | render =>
    have hrender : s.Settles (failure? (s.runPass Pass.render).1) (s.runPass Pass.render).2 :=
      runPass_settles h fun c hc => by
        obtain ⟨thrown, hreleases⟩ :=
          Pass.finish_walk_releases (fun line lines => .goOn (line :: lines)) [] hc
        exact ⟨thrown, hreleases.map⟩
    rw [← failure?_answer (f := .text) fun _ => rfl] at hrender
    exact hrender
  | contains line =>
    have hcontains : s.Settles (failure? (s.runPass (Pass.contains line)).1)
        (s.runPass (Pass.contains line)).2 :=
      runPass_settles h fun c hc => Pass.finish_walk_releases
        (fun other found => if other == line then .stop true else .goOn found) false hc
    rw [← failure?_answer (f := .truth) fun _ => rfl] at hcontains
    exact hcontains
  | collect =>
    let pass (c : Cursor (Traced σ)) :=
      (Pass.collect c).map fun lines => (lines, (Pass.collect c).cursor.bytesRead)
    have hcollect : s.Settles (failure? (s.runPass pass).1) (s.runPass pass).2 :=
      runPass_settles h fun c hc => by
        obtain ⟨thrown, hreleases⟩ :=
          Pass.finish_walk_releases (fun line lines => .goOn (line :: lines)) [] hc
        exact ⟨thrown, hreleases.map.map⟩
    rw [← failure?_answer (f := fun r : List Bytes × Nat => .collected r.1 r.2) fun _ => rfl]
      at hcollect
    exact hcollect
  | visit giveUp counting => exact visit_settles h giveUp counting
  | stream | emptyStream | knownCount | change world | on number op => exact absurd hop id

/-- An operation tells of every failure to close that comes up in it, once. It is thrown as the
failure that the operation shows, or it is logged, and that happens when a stream is given up or
when a pass ends that has failed before. -/
def Reports (s : Session ω (Traced σ)) (op : Op ω) : Prop :=
  ∃ thrown logged, s.Accounts thrown logged (s.step op).2 ∧
    thrown <+ (s.step op).1.failure?.toList ∧
    (logged ≠ [] → (∃ number, op = .on number .drop) ∨
      IsPass op ∧ (s.step op).1.failure? ≠ none)

theorem pass_reports {s : Session ω (Traced σ)} (h : s.Tracked) {op : Op ω} (hop : IsPass op) :
    s.Reports op := by
  obtain ⟨thrown, logged, haccounts, -, hthrown, hlogged⟩ := pass_settles h hop
  exact ⟨thrown, logged, haccounts, hthrown, fun hne => .inr ⟨hop, hlogged hne⟩⟩

theorem step_on_none {s : Session ω σ} {number : Nat} (h : s.streams[number]?.join = none)
    (op : StreamOp) : s.step (.on number op) = (.noStream, s) := by
  simp only [step, h]

theorem step_drop {s : Session ω σ} {number : Nat} {st : Stream σ}
    (h : s.streams[number]? = some (some st)) :
    s.step (.on number .drop) = (.done, s.dropStream number st) := by
  simp only [step, h, Option.join_some]

theorem step_on {s : Session ω σ} {number : Nat} {st : Stream σ}
    (h : s.streams[number]? = some (some st)) {op : StreamOp} (hop : op ≠ .drop) :
    s.step (.on number op) =
      ((streamStep op st).1, { s with
        streams := s.streams.set number (some (streamStep op st).2) }) := by
  simp only [step, h, Option.join_some]

theorem on_reports {s : Session ω (Traced σ)} (h : s.Tracked) (number : Nat) (op : StreamOp) :
    s.Reports (.on number op) := by
  rw [Reports]
  cases hslot : s.streams[number]?.join with
  | none =>
    rw [step_on_none hslot]
    exact ⟨[], [], .still h, List.nil_sublist _, absurd rfl⟩
  | some st =>
    have hst := Option.join_eq_some_iff.mp hslot
    by_cases hdrop : op = .drop
    · rw [hdrop, step_drop hst]
      exact ⟨[], _, dropStream_accounts h hst, List.nil_sublist _, fun _ => .inl ⟨number, rfl⟩⟩
    · rw [step_on hst hdrop]
      obtain ⟨thrown, hgoes, hthrown, -⟩ :=
        streamStep_goes op (h.streams st (List.mem_of_getElem? hst))
      exact ⟨thrown, [], accounts_of_goes h hst hgoes, hthrown, absurd rfl⟩

/-- Every operation keeps the book. -/
theorem step_reports {s : Session ω (Traced σ)} (h : s.Tracked) (op : Op ω) : s.Reports op := by
  cases op with
  | stream =>
    rw [Reports, step]
    rcases openCursor_tracked h with ⟨⟨e, he⟩, hcan⟩ | ⟨c, hc, hcan, htracked, -, hsource, hnone⟩
    · rw [he]
      exact ⟨[], [], accounts_of_refused h hcan, List.nil_sublist _, absurd rfl⟩
    · rw [hc]
      refine ⟨[], [], addStream_accounts h htracked hnone ?_, List.nil_sublist _, absurd rfl⟩
      rw [Option.length_toList, hsource, hcan]
      rfl
  | emptyStream =>
    refine ⟨[], [], addStream_accounts (n := 0) h ⟨.absent, .inl rfl⟩ rfl ?_, List.nil_sublist _,
      absurd rfl⟩
    rw [Nat.zero_mul]
    rfl
  | count | isEmpty | render | contains line | collect | visit giveUp counting =>
    exact pass_reports h trivial
  | knownCount => exact ⟨[], [], .still h, List.nil_sublist _, absurd rfl⟩
  | change world =>
    refine ⟨[], [], ⟨⟨h.hasMemory, h.fresh, h.retired, h.streams⟩, rfl, rfl, Nat.le_refl _, ?_, rfl,
      List.Perm.refl _⟩, List.nil_sublist _, absurd rfl⟩
    show s.sources.length = s.sources.length + (s.opens - s.opens) * s.canOpen.toNat
    rw [Nat.sub_self, Nat.zero_mul, Nat.add_zero]
  | on number op => exact on_reports h number op

/-! ## Histories -/

/-- How many sources are opened for a document in the course of operations. -/
def openings (s : Session ω σ) : List (Op ω) → Nat
  | [] => 0
  | op :: ops =>
    ((s.step op).2.opens - s.opens) * s.canOpen.toNat + (s.step op).2.openings ops

theorem run_tracked {s : Session ω (Traced σ)} (h : s.Tracked) (ops : List (Op ω)) :
    (s.run ops).Tracked ∧ (s.run ops).sources.length = s.sources.length + s.openings ops := by
  induction ops generalizing s with
  | nil => exact ⟨h, rfl⟩
  | cons op ops ih =>
    obtain ⟨thrown, logged, haccounts, -⟩ := step_reports h op
    obtain ⟨htracked, hlength⟩ := ih haccounts.tracked
    refine ⟨htracked, ?_⟩
    show ((s.step op).2.run ops).sources.length = _
    rw [hlength, haccounts.sources, openings, Nat.add_assoc]

/-- Giving a stream up leaves a gap, also where there was one before. -/
theorem streams_step_drop (s : Session ω σ) (number : Nat) :
    (s.step (.on number .drop)).2.streams = s.streams.set number none := by
  cases hslot : s.streams[number]?.join with
  | none =>
    rw [step_on_none hslot]
    rcases Nat.lt_or_ge number s.streams.length with hlt | hge
    · rw [List.getElem?_eq_getElem hlt, Option.join_some] at hslot
      rw [← hslot, List.set_getElem_self]
    · rw [List.set_eq_of_length_le hge]
  | some st => rw [step_drop (Option.join_eq_some_iff.mp hslot), dropStream]

theorem opens_step_drop (s : Session ω σ) (number : Nat) :
    (s.step (.on number .drop)).2.opens = s.opens := by
  cases hslot : s.streams[number]?.join with
  | none => rw [step_on_none hslot]
  | some st => rw [step_drop (Option.join_eq_some_iff.mp hslot), dropStream]

theorem openings_drops (s : Session ω σ) (numbers : List Nat) :
    s.openings (numbers.map (.on · .drop)) = 0 := by
  induction numbers generalizing s with
  | nil => rfl
  | cons number numbers ih =>
    rw [List.map_cons, openings, ih, opens_step_drop, Nat.sub_self, Nat.zero_mul]

/-- Streams that are given up leave gaps. -/
theorem streams_run_drops (s : Session ω σ) (numbers : List Nat) :
    (s.run (numbers.map (.on · .drop))).streams.length = s.streams.length ∧
      ∀ i, i ∈ numbers ∨ s.streams[i]?.join = none →
        (s.run (numbers.map (.on · .drop))).streams[i]?.join = none := by
  induction numbers generalizing s with
  | nil => exact ⟨rfl, fun i hi => hi.resolve_left List.not_mem_nil⟩
  | cons number numbers ih =>
    obtain ⟨hlength, hgaps⟩ := ih (s.step (.on number .drop)).2
    rw [streams_step_drop] at hlength hgaps
    refine ⟨hlength.trans List.length_set, fun i hi => hgaps i ?_⟩
    by_cases hnumber : i = number
    · refine .inr ?_
      rw [hnumber, List.getElem?_set_self']
      cases s.streams[number]? <;> rfl
    · rcases hi with hmem | hgap
      · exact .inl ((List.mem_cons.mp hmem).resolve_left hnumber)
      · refine .inr ?_
        rw [List.getElem?_set_ne (Ne.symm hnumber)]
        exact hgap

theorem finish_eq_run (s : Session ω σ) :
    s.finish = s.run ((List.range s.streams.length).map (.on · .drop)) := by
  rw [finish, run, List.foldl_map]

/-- In the end all streams have been given up. -/
theorem streams_finish (s : Session ω σ) : ∀ slot ∈ s.finish.streams, slot = none := by
  intro slot hslot
  obtain ⟨i, hi, rfl⟩ := List.getElem_of_mem hslot
  obtain ⟨hlength, hgaps⟩ := streams_run_drops s (List.range s.streams.length)
  rw [← finish_eq_run] at hlength hgaps
  have hgap := hgaps i (.inl (List.mem_range.mpr (hlength ▸ hi)))
  rw [List.getElem?_eq_getElem hi, Option.join_some] at hgap
  exact hgap

theorem finish_released {s : Session ω (Traced σ)} (h : s.Tracked) :
    s.finish.sources.length = s.sources.length ∧
      ∀ source ∈ s.finish.sources, source.Released := by
  obtain ⟨htracked, hlength⟩ := run_tracked h ((List.range s.streams.length).map (.on · .drop))
  rw [openings_drops, ← finish_eq_run] at hlength
  rw [← finish_eq_run] at htracked
  refine ⟨hlength, fun source hsource => ?_⟩
  rcases List.mem_append.mp hsource with hretired | hstream
  · exact htracked.retired source hretired
  · obtain ⟨slot, hslot, hgiven⟩ := List.mem_filterMap.mp hstream
    rw [streams_finish s slot hslot] at hgiven
    cases hgiven

/-- How a document stands with its sources, when so many have been opened for it. -/
structure Releases (s : Session ω (Traced σ)) (openings : Nat) : Prop where
  /-- All of them are at hand. -/
  opened : s.sources.length = openings
  /-- Nothing was asked of one that had been closed, and none was read beyond its end. -/
  orderly : ∀ source ∈ s.sources, source.Orderly
  /-- The passes that are over and the streams that were given up have closed theirs once. -/
  retired : ∀ source ∈ s.retired, source.closes = 1
  /-- A stream has closed its source once if it is closed, and not at all if it is open. -/
  streams : ∀ st, some st ∈ s.streams → ∀ source, st.cursor.source? = some source →
    source.closes = st.cursor.isClosed.toNat
  /-- A stream is closed when it has come to the end or was to close, whatever came of that, and it
  stays closed. -/
  ends : ∀ st, some st ∈ s.streams → ∀ op,
    FindsEnd op st ∨ op.Closes ∨ st.cursor.isClosed = true →
      (streamStep op st).2.cursor.isClosed = true
  /-- A pass leaves no stream behind. -/
  passes : ∀ op, IsPass op → (s.step op).2.streams = s.streams
  /-- Whatever is done next tells of the failures to close. -/
  reports : ∀ op, s.Reports op
  /-- When all streams have been given up all sources have been closed once. -/
  finished : s.finish.sources.length = openings ∧
    ∀ source ∈ s.finish.sources, source.Orderly ∧ source.closes = 1

theorem Tracked.releases {s : Session ω (Traced σ)} (h : s.Tracked) :
    s.Releases s.sources.length where
  opened := rfl
  orderly source hsource := by
    rcases List.mem_append.mp hsource with hretired | hstream
    · exact (h.retired source hretired).orderly
    · obtain ⟨slot, hslot, hgiven⟩ := List.mem_filterMap.mp hstream
      cases slot with
      | none => cases hgiven
      | some st => exact (h.streams st hslot).orderly hgiven
  retired source hsource := (h.retired source hsource).closed
  streams st hst source hsource := (h.streams st hst).closes hsource
  ends st hst op hop := by
    obtain ⟨thrown, hgoes, -, hend⟩ := streamStep_goes op (h.streams st hst)
    rcases hop with hfinds | hcloses | hclosed
    · exact hend (.inl hfinds)
    · exact hend (.inr hcloses)
    · exact hgoes.closed hclosed
  passes op hop := by
    obtain ⟨-, -, -, huntouched, -⟩ := pass_settles h hop
    exact huntouched.streams
  reports op := step_reports h op
  finished := by
    obtain ⟨hlength, hreleased⟩ := finish_released h
    exact ⟨hlength, fun source hsource =>
      ⟨(hreleased source hsource).orderly, (hreleased source hsource).closed⟩⟩

/-- Whatever is done with a document, the sources that are opened for it are released once. -/
theorem run_releases {s : Session ω (Traced σ)} (hmemory : s.config.chunkBytes < Room.limit)
    (hfresh : ∀ world source, s.opener s.config world = .ok (some source) → source.calls = [])
    (hretired : s.retired = []) (hstreams : s.streams = []) (ops : List (Op ω)) :
    (s.run ops).Releases (s.openings ops) := by
  have hstart : s.Tracked := by
    refine ⟨hmemory, hfresh, ?_, ?_⟩
    · rw [hretired]
      exact fun _ hsource => absurd hsource List.not_mem_nil
    · rw [hstreams]
      exact fun _ hst => absurd hst List.not_mem_nil
  obtain ⟨htracked, hlength⟩ := run_tracked hstart ops
  have hnone : s.sources = [] := by
    rw [sources, hretired, hstreams]
    rfl
  rw [hnone, List.length_nil, Nat.zero_add] at hlength
  exact hlength ▸ htracked.releases

omit [Room] in
/-- A document in memory that cannot be closed properly, with a visitor that counts its lines and
gives up, with a stream that comes to the end and one that is given up. -/
theorem run_releases_failing_close :
    let _ : Room := .ample
    let memory : Memory := {
      rest := Bytes.ascii "one\ntwo", step := 2, closeFault := some (.closing []) }
    let s : Session Memory (Traced Memory) := {
      config := { chunkBytes := 3 }
      opener := fun _ memory => .ok (some { inner := memory })
      world := memory }
    let ops := [.visit (some (1, .noMoreLines)) true, .stream, .on 0 (.range none), .stream,
      .on 1 .take, .on 1 .drop]
    s.config.chunkBytes < Room.limit ∧
      (∀ world source, s.opener s.config world = .ok (some source) → source.calls = []) ∧
      (s.run ops).Releases (s.openings ops) := by
  intro _ memory s ops
  have hmemory : s.config.chunkBytes < Room.limit := by decide
  have hfresh : ∀ world source,
      s.opener s.config world = .ok (some source) → source.calls = [] := by
    intro world source hopened
    obtain rfl := Option.some.inj (Except.ok.inj hopened)
    rfl
  exact ⟨hmemory, hfresh, run_releases hmemory hfresh rfl rfl ops⟩

end Session

end TextLines

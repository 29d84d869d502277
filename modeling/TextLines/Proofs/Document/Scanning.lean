import TextLines.Proofs.Document.Breaking

/-!
# Documents that break off

A document whose source breaks off is never seen to its end. A pass that looks at all lines fails to
read, and a pass that looks for something does not find that it is missing (`Session.ScansFail`).
The lines that a visitor was shown before are settled.

The invariant is `Session.BreaksOff`. Every operation keeps it as long as the world does not change
(`Session.step_breaksOff`), so the number of the lines is never known.
-/

namespace TextLines

variable {σ : Type} [Source σ] {faults : Error → Prop} {R : σ → Bytes → Prop} {data : Bytes}

/-! ## Passes -/

/-- A walk whose visitor never has enough fails to read. -/
theorem Cursor.walk_fails {α : Type} (hR : Source.Breakage faults R)
    (hfaults : ∀ e, faults e → e.IsReading) {visit : Bytes → α → Visit α}
    (hvisit : ∀ line v v', visit line v ≠ .stop v') (v : α) {c : Cursor σ} (h : c.Endless R) :
    ∃ e, (c.walk visit v).result = .error e ∧ e.IsReading := by
  obtain ⟨-, hnot, hreading⟩ := walk_endless hR hfaults visit v h
  have hstopped := (walk_keeps visit (P := fun _ => True) (Q := fun _ => False)
    (fun _ _ _ _ _ => trivial) (fun line v v' _ => hvisit line v v') (v := v) trivial c).1
  rw [Walk.result]
  rcases hending : (c.walk visit v).ending with _ | _ | e
  · exact absurd hending hnot
  · exact absurd hending hstopped
  · exact ⟨e, rfl, hreading e hending⟩

/-- A pass that has failed fails for that reason, whatever closing comes to. -/
theorem Pass.finish_error {α : Type} (e : Error) (c : Cursor σ) :
    (finish (.error e : Except Error α) c).result = .error e := rfl

theorem Pass.eq_ok_of_finish {α : Type} {r : Except Error α} {c : Cursor σ} {a : α}
    (h : (finish r c).result = .ok a) : r = .ok a := by
  rw [finish] at h
  rcases r with e | b
  · cases h
  · rcases hclose : c.close with ⟨_ | e, c'⟩
    · rw [hclose] at h
      exact h
    · rw [hclose] at h
      cases h

/-- What a pass does with a line that is handed to a visitor. -/
def Pass.visitLine {α : Type} (visit : Bytes → α → Option Error × α) (line : Bytes)
    (state : α × Nat × Option Error) : Cursor.Visit (α × Nat × Option Error) :=
  match visit line state.1 with
  | (none, a) => .goOn (a, state.2.1 + 1, none)
  | (some e, a) => .stop (a, state.2.1, some e)

theorem Pass.visitLine_goOn {α : Type} {visit : Bytes → α → Option Error × α} {line : Bytes}
    {state state' : α × Nat × Option Error} (h : visitLine visit line state = .goOn state') :
    state' = ((visit line state.1).2, state.2.1 + 1, none) := by
  rw [visitLine] at h
  rcases hv : visit line state.1 with ⟨_ | e, a⟩
  · rw [hv] at h
    exact (Cursor.Visit.goOn.inj h).symm
  · rw [hv] at h
    cases h

theorem Pass.visitLine_stop {α : Type} {visit : Bytes → α → Option Error × α} {line : Bytes}
    {state state' : α × Nat × Option Error} (h : visitLine visit line state = .stop state') :
    ∃ e, (visit line state.1).1 = some e ∧
      state' = ((visit line state.1).2, state.2.1, some e) := by
  rw [visitLine] at h
  rcases hv : visit line state.1 with ⟨_ | e, a⟩
  · rw [hv] at h
    cases h
  · rw [hv] at h
    exact ⟨e, rfl, (Cursor.Visit.stop.inj h).symm⟩

/-- What a pass answers after a walk with a visitor. -/
def Pass.visitResult {α : Type} (w : Cursor.Walk (α × Nat × Option Error) σ) : Except Error Nat :=
  match w.result with
  | .error e => .error e
  | .ok (_, n, none) => .ok n
  | .ok (_, _, some e) => .error e

theorem Pass.visitLines_eq {α : Type} (visit : Bytes → α → Option Error × α) (a : α)
    (c : Cursor σ) :
    visitLines visit a c =
      (finish (visitResult (c.walk (visitLine visit) (a, 0, none)))
        (c.walk (visitLine visit) (a, 0, none)).cursor,
        (c.walk (visitLine visit) (a, 0, none)).value.1) := rfl

variable [Room]

omit [Source σ] in
/-- A source that has been opened is read if there is memory for a chunk. -/
theorem Config.cursor_of_lt {config : Config} (h : config.chunkBytes < Room.limit) (source : σ) :
    config.cursor (.ok (some source)) =
      .ok (.ofSource source config.chunkBytes config.maxLineBytes) := by
  have hroom : ¬ maxChunk ≤ config.chunkBytes := Nat.not_le.mpr (h.trans_le Room.limit_le)
  simp only [Config.cursor, if_neg hroom, if_neg (Nat.not_le.mpr h)]
  rfl

omit [Source σ] in
theorem Config.cursor_of_maxChunk_le {config : Config} (h : maxChunk ≤ config.chunkBytes)
    (source : σ) : config.cursor (.ok (some source)) = .error .chunkTooLarge := by
  simp only [Config.cursor, if_pos h]

omit [Source σ] in
theorem Config.cursor_of_le {config : Config} (h : Room.limit ≤ config.chunkBytes) :
    ∃ e, ∀ source : σ, config.cursor (.ok (some source)) = .error e := by
  rcases Nat.lt_or_ge config.chunkBytes maxChunk with hlt | hge
  · refine ⟨.outOfMemory, fun source => ?_⟩
    simp only [Config.cursor, if_neg (Nat.not_le.mpr hlt), if_pos h]
  · exact ⟨_, cursor_of_maxChunk_le hge⟩

omit [Source σ] in
/-- A fresh cursor is one over the source that has been opened. -/
theorem Config.eq_ofSource_of_cursor {config : Config} {opened : Except Error (Option σ)}
    {c : Cursor σ} (h : config.cursor opened = .ok c) :
    ∃ source, opened = .ok (some source) ∧
      c = .ofSource source config.chunkBytes config.maxLineBytes := by
  rcases opened with e | (_ | source)
  · cases h
  · cases h
  · refine ⟨source, rfl, ?_⟩
    rcases Nat.lt_or_ge config.chunkBytes Room.limit with hlt | hge
    · rw [cursor_of_lt hlt] at h
      exact (Except.ok.inj h).symm
    · obtain ⟨e, he⟩ := cursor_of_le (σ := σ) hge
      rw [he] at h
      cases h

namespace Session

variable {ω : Type} {s : Session ω σ}

/-- The document can be opened, its source breaks off, and its lines have not been counted. -/
structure BreaksOff (data : Bytes) (s : Session ω σ) : Prop where
  source : ∃ source, s.opener s.config s.world = .ok (some source) ∧
    Source.BreaksOff Error.IsReading source data
  hasMemory : s.config.chunkBytes < Room.limit
  uncounted : s.lineCount = none

theorem BreaksOff.openCursor (h : s.BreaksOff data) :
    ∃ source, Source.BreaksOff Error.IsReading source data ∧ s.openCursor =
      (.ok (.ofSource source s.config.chunkBytes s.config.maxLineBytes),
        { s with opens := s.opens + 1 }) := by
  obtain ⟨⟨source, hopened, hbreaks⟩, hmemory, -⟩ := h
  refine ⟨source, hbreaks, ?_⟩
  rw [Session.openCursor, hopened, Config.cursor_of_lt hmemory]

/-- A pass over the document, which leaves it as it was. -/
theorem BreaksOff.runPass {α : Type} (h : s.BreaksOff data) (pass : Cursor σ → Pass α σ) :
    (s.runPass pass).2.BreaksOff data ∧
      ∃ source, Source.BreaksOff Error.IsReading source data ∧ (s.runPass pass).1 =
        (pass (.ofSource source s.config.chunkBytes s.config.maxLineBytes)).result := by
  obtain ⟨source, hbreaks, hopen⟩ := h.openCursor
  rw [Session.runPass, hopen]
  exact ⟨⟨h.source, h.hasMemory, h.uncounted⟩, source, hbreaks, rfl⟩

omit [Room] in
/-- A walk over the lines of the document fails to read if the visitor never has enough. -/
theorem walk_ofSource {α : Type} {source : σ}
    (h : Source.BreaksOff Error.IsReading source data) (chunkBytes limit : Nat)
    (visit : Bytes → α → Cursor.Visit α) (hvisit : ∀ line v v', visit line v ≠ .stop v') (v : α) :
    ∃ e, ((Cursor.ofSource source chunkBytes limit).walk visit v).result = .error e ∧
      e.IsReading :=
  Cursor.walk_fails (Source.breakage_breaksOff _) (fun _ => id) hvisit v
    (Cursor.endless_ofSource h chunkBytes limit)

theorem BreaksOff.count (h : s.BreaksOff data) :
    ∃ e, s.count.1 = .error e ∧ e.IsReading ∧ s.count.2.BreaksOff data := by
  obtain ⟨hkept, source, hbreaks, hresult⟩ := h.runPass Pass.countLines
  obtain ⟨e, he, hreading⟩ := walk_ofSource hbreaks s.config.chunkBytes s.config.maxLineBytes
    (fun _ n => .goOn (n + 1)) (by simp) 0
  rw [Pass.countLines, he, Pass.finish_error] at hresult
  rw [Session.count, h.uncounted]
  rcases hrun : s.runPass Pass.countLines with ⟨r, s'⟩
  rw [hrun] at hkept hresult
  obtain rfl : r = .error e := hresult
  exact ⟨e, rfl, hreading, hkept⟩

/-! ## Visitors -/

/-- A visitor ends with what it has come to when it has counted. -/
theorem Visitor.see_snd (giveUp : Option (Nat × Error)) (counting : Bool) (line : Bytes)
    (v : Visitor ω σ) : (v.see giveUp counting line).2 =
      (Visitor.recount counting
        { v with seen := line :: v.seen, number := v.number + 1 }).2 := by
  rw [Visitor.see]
  rcases Visitor.recount counting { v with seen := line :: v.seen, number := v.number + 1 }
    with ⟨_ | _, _⟩ <;> rfl

/-- A visitor notes the line. -/
theorem Visitor.see_seen (giveUp : Option (Nat × Error)) (counting : Bool) (line : Bytes)
    (v : Visitor ω σ) : (v.see giveUp counting line).2.seen = line :: v.seen := by
  rw [Visitor.see_snd, Visitor.recount]
  split
  · rcases v.session.count with ⟨_ | _, _⟩ <;> rfl
  · rfl

/-- Counting the lines fails for a visitor, too. -/
theorem Visitor.recount_breaksOff (counting : Bool) {v : Visitor ω σ}
    (h : v.session.BreaksOff data) :
    (v.recount counting).2.session.BreaksOff data ∧
      ∀ e, (v.recount counting).1 = some e → e.IsReading := by
  cases counting with
  | false => exact ⟨h, by simp [Visitor.recount]⟩
  | true =>
    obtain ⟨e, he, hreading, hkept⟩ := h.count
    rw [Visitor.recount, if_pos rfl]
    rcases hcount : v.session.count with ⟨r, session⟩
    rw [hcount] at he hkept
    obtain rfl : r = .error e := he
    refine ⟨hkept, fun e' he' => ?_⟩
    obtain rfl := Option.some.inj he'
    exact hreading

/-- If a visitor gives up, it has failed to count or it was told to. -/
theorem Visitor.see_breaksOff (giveUp : Option (Nat × Error)) (counting : Bool) (line : Bytes)
    {v : Visitor ω σ} (h : v.session.BreaksOff data) :
    (v.see giveUp counting line).2.session.BreaksOff data ∧
      ∀ e, (v.see giveUp counting line).1 = some e →
        e.IsReading ∨ ∃ n, giveUp = some (n, e) := by
  obtain ⟨hkept, hreading⟩ := Visitor.recount_breaksOff counting
    (v := { v with seen := line :: v.seen, number := v.number + 1 }) h
  rw [← Visitor.see_snd giveUp] at hkept
  refine ⟨hkept, fun e he => ?_⟩
  rw [Visitor.see] at he
  rcases hr : Visitor.recount counting { v with seen := line :: v.seen, number := v.number + 1 }
    with ⟨_ | e', v'⟩
  · rw [hr] at he
    refine .inr ?_
    obtain ⟨⟨n, e'⟩, hgiveUp, hsome⟩ := Option.bind_eq_some_iff.mp he
    dsimp only at hsome
    split at hsome
    · obtain rfl := Option.some.inj hsome
      exact ⟨n, hgiveUp⟩
    · cases hsome
  · rw [hr] at he hreading
    exact .inl (hreading e he)

/-- A pass with a visitor shows settled lines, and it fails to read if it was not to be given up. -/
theorem visitLines_breaksOff {source : σ} (h : Source.BreaksOff Error.IsReading source data)
    (chunkBytes limit : Nat) (giveUp : Option (Nat × Error)) (counting : Bool)
    {v : Visitor ω σ} (hv : v.session.BreaksOff data) (hseen : v.seen = []) :
    let r := Pass.visitLines (Visitor.see giveUp counting) v
      (Cursor.ofSource source chunkBytes limit)
    Line.Settled data r.2.seen.reverse ∧ r.2.session.BreaksOff data ∧
      ∃ e, r.1.result = .error e ∧ (e.IsReading ∨ ∃ n, giveUp = some (n, e)) := by
  have hnotes : ∀ line (state state' : Visitor ω σ × Nat × Option Error),
      Pass.visitLine (Visitor.see giveUp counting) line state = .goOn state' ∨
        Pass.visitLine (Visitor.see giveUp counting) line state = .stop state' →
      state'.1.seen = line :: state.1.seen := by
    rintro line state state' (hgone | hstopped)
    · rw [Pass.visitLine_goOn hgone]
      exact Visitor.see_seen giveUp counting line state.1
    · obtain ⟨e, -, rfl⟩ := Pass.visitLine_stop hstopped
      exact Visitor.see_seen giveUp counting line state.1
  obtain ⟨hsettled, hnot, hreading⟩ := Cursor.walk_of_breaksOff h (fun _ => id) chunkBytes limit
    (fun state => state.1.seen) hnotes (v := (v, 0, none)) hseen
  obtain ⟨hstop, hgoOn⟩ := Cursor.walk_keeps (Pass.visitLine (Visitor.see giveUp counting))
    (P := fun state : Visitor ω σ × Nat × Option Error => state.1.session.BreaksOff data)
    (Q := fun state => state.1.session.BreaksOff data ∧
      ∃ e, state.2.2 = some e ∧ (e.IsReading ∨ ∃ n, giveUp = some (n, e)))
    (fun line state state' hstate hgone => by
      rw [Pass.visitLine_goOn hgone]
      exact (Visitor.see_breaksOff giveUp counting line hstate).1)
    (fun line state state' hstate hstopped => by
      obtain ⟨hkept, hcause⟩ := Visitor.see_breaksOff giveUp counting line hstate
      obtain ⟨e, he, rfl⟩ := Pass.visitLine_stop hstopped
      exact ⟨hkept, e, rfl, hcause e he⟩)
    (v := (v, 0, none)) hv (Cursor.ofSource source chunkBytes limit)
  rw [Pass.visitLines_eq]
  generalize (Cursor.ofSource source chunkBytes limit).walk
    (Pass.visitLine (Visitor.see giveUp counting)) (v, 0, none) = w
    at hsettled hnot hreading hstop hgoOn
  rcases w with ⟨_ | _ | e, ⟨v', n, given⟩, c⟩
  · exact absurd rfl hnot
  · obtain ⟨hkept, e, rfl, hcause⟩ := hstop rfl
    exact ⟨hsettled, hkept, e, rfl, hcause⟩
  · exact ⟨hsettled, hgoOn (by simp), e, rfl, .inl (hreading e rfl)⟩

theorem BreaksOff.visit (h : s.BreaksOff data) (giveUp : Option (Nat × Error)) (counting : Bool) :
    (s.visit giveUp counting).2.BreaksOff data ∧
      ∃ seen e counted, (s.visit giveUp counting).1 = .visited seen (.error e) counted ∧
        Line.Settled data seen ∧ (e.IsReading ∨ ∃ n, giveUp = some (n, e)) := by
  obtain ⟨source, hbreaks, hopen⟩ := h.openCursor
  have hopened : ({ s with opens := s.opens + 1 } : Session ω σ).BreaksOff data :=
    ⟨h.source, h.hasMemory, h.uncounted⟩
  have hvisit := visitLines_breaksOff hbreaks s.config.chunkBytes s.config.maxLineBytes giveUp
    counting (v := { session := { s with opens := s.opens + 1 } }) hopened rfl
  rw [Session.visit, hopen]
  dsimp only at hvisit ⊢
  generalize Pass.visitLines (Visitor.see giveUp counting)
    ({ session := { s with opens := s.opens + 1 } } : Visitor ω σ)
    (.ofSource source s.config.chunkBytes s.config.maxLineBytes) = r at hvisit ⊢
  obtain ⟨hsettled, hkept, e, he, hcause⟩ := hvisit
  refine ⟨⟨hkept.source, hkept.hasMemory, hkept.uncounted⟩, r.2.seen.reverse, e, r.2.counted, ?_,
    hsettled, hcause⟩
  rw [he]

/-! ## The document as a whole -/

/-- No operation counts the lines of the document, and it stays as it is until the world changes. -/
theorem step_breaksOff (h : s.BreaksOff data) {op : Op ω} (hop : ∀ world, op ≠ .change world) :
    (s.step op).2.BreaksOff data := by
  cases op with
  | stream =>
    obtain ⟨source, -, hopen⟩ := h.openCursor
    rw [step, hopen]
    exact ⟨h.source, h.hasMemory, h.uncounted⟩
  | emptyStream | knownCount => exact ⟨h.source, h.hasMemory, h.uncounted⟩
  | count =>
    obtain ⟨e, -, -, hkept⟩ := h.count
    exact hkept
  | isEmpty =>
    rw [step, isEmpty, h.uncounted]
    exact (h.runPass Pass.isEmpty).1
  | render => exact (h.runPass Pass.render).1
  | contains line => exact (h.runPass (Pass.contains line)).1
  | collect => exact (h.runPass _).1
  | visit giveUp counting => exact (h.visit giveUp counting).1
  | change world => exact absurd rfl (hop world)
  | on number op =>
    unfold step
    dsimp only
    split
    · exact h
    · exact ⟨h.source, h.hasMemory, h.uncounted⟩
    · exact ⟨h.source, h.hasMemory, h.uncounted⟩

/-- Any number of operations. -/
def run (s : Session ω σ) (ops : List (Op ω)) : Session ω σ :=
  ops.foldl (fun s op => (s.step op).2) s

theorem run_breaksOff {ops : List (Op ω)} (hops : ∀ op ∈ ops, ∀ world, op ≠ .change world)
    (h : s.BreaksOff data) : (s.run ops).BreaksOff data := by
  induction ops generalizing s with
  | nil => exact h
  | cons op ops ih =>
    exact ih (fun op hmem => hops op (List.mem_cons_of_mem _ hmem))
      (step_breaksOff h (hops op List.mem_cons_self))

/-- The operations that look at all lines fail to read, and no other operation has met the end. -/
structure ScansFail (data : Bytes) (s : Session ω σ) : Prop where
  uncounted : s.lineCount = none
  count : ∃ e, (s.step .count).1 = .failed e ∧ e.IsReading
  collect : ∃ e, (s.step .collect).1 = .failed e ∧ e.IsReading
  render : ∃ e, (s.step .render).1 = .failed e ∧ e.IsReading
  visit : ∀ counting, ∃ seen e counted,
    (s.step (.visit none counting)).1 = .visited seen (.error e) counted ∧ e.IsReading ∧
      Line.Settled data seen
  contains : ∀ line, (s.step (.contains line)).1 ≠ .truth false
  isEmpty : (s.step .isEmpty).1 ≠ .truth true

theorem BreaksOff.count_answer (h : s.BreaksOff data) :
    ∃ e, (s.step .count).1 = .failed e ∧ e.IsReading := by
  obtain ⟨e, he, hreading, -⟩ := h.count
  refine ⟨e, ?_, hreading⟩
  rw [step]
  show answer .number s.count.1 = _
  rw [he]
  rfl

omit [Room] in
/-- A pass that collects all lines fails to read. -/
theorem collect_breaksOff {source : σ} (h : Source.BreaksOff Error.IsReading source data)
    (chunkBytes limit : Nat) :
    ∃ e, (Pass.collect (Cursor.ofSource source chunkBytes limit)).result = .error e ∧
      e.IsReading := by
  obtain ⟨e, he, hreading⟩ := walk_ofSource h chunkBytes limit
    (fun line lines => .goOn (line :: lines)) (by simp) []
  refine ⟨e, ?_, hreading⟩
  rw [Pass.collect, he]
  rfl

omit [Room] in
/-- A pass that looks for a line does not come to the conclusion that it is missing. -/
theorem contains_breaksOff {source : σ} (h : Source.BreaksOff Error.IsReading source data)
    (chunkBytes limit : Nat) (line : Bytes) :
    (Pass.contains line (Cursor.ofSource source chunkBytes limit)).result ≠ .ok false := by
  obtain ⟨-, hnot, -⟩ := Cursor.walk_endless (Source.breakage_breaksOff Error.IsReading)
    (fun _ => id) (fun l found => if l == line then .stop true else .goOn found) false
    (Cursor.endless_ofSource h chunkBytes limit)
  obtain ⟨hstop, -⟩ := Cursor.walk_keeps
    (fun l found => if l == line then .stop true else .goOn found)
    (P := fun _ => True) (Q := fun found => found = true) (fun _ _ _ _ _ => trivial)
    (fun l found found' _ hv => by split at hv <;> cases hv; rfl) (v := false) trivial
    (Cursor.ofSource source chunkBytes limit)
  intro hok
  have hresult := Pass.eq_ok_of_finish hok
  generalize Cursor.walk _ false (Cursor.ofSource source chunkBytes limit) = w
    at hnot hstop hresult
  rcases w with ⟨_ | _ | e, found, c⟩
  · exact hnot rfl
  · obtain rfl : found = true := hstop rfl
    cases hresult
  · cases hresult

omit [Room] in
/-- Nor does a pass that looks for any lines. -/
theorem isEmpty_breaksOff {source : σ} (h : Source.BreaksOff Error.IsReading source data)
    (chunkBytes limit : Nat) :
    (Pass.isEmpty (Cursor.ofSource source chunkBytes limit)).result ≠ .ok true := by
  obtain ⟨-, hmore, -⟩ := Cursor.hasMore_endless (Source.breakage_breaksOff Error.IsReading)
    (fun _ => id) (Cursor.endless_ofSource h chunkBytes limit)
  intro hok
  rw [Pass.isEmpty] at hok
  rcases hc : (Cursor.ofSource source chunkBytes limit).hasMore with ⟨e | b, c⟩
  · rw [hc] at hok
    cases hok
  · rw [hc] at hok hmore
    rcases hfinish : (Pass.finish (.ok b) c).result with e | b'
    · simp only [Pass.map, hfinish, Except.map] at hok
      cases hok
    · simp only [Pass.map, hfinish, Except.map, Except.ok.injEq, Bool.not_eq_true'] at hok
      rw [hok] at hfinish
      exact hmore (Pass.eq_ok_of_finish hfinish)

omit [Room] in
theorem eq_ok_of_truth {r : Except Error Bool} {b : Bool} (h : answer .truth r = .truth b) :
    r = .ok b := by
  rcases r with e | b'
  · cases h
  · exact congrArg Except.ok (Answer.truth.inj h)

theorem BreaksOff.scansFail (h : s.BreaksOff data) : s.ScansFail data where
  uncounted := h.uncounted
  count := h.count_answer
  collect := by
    obtain ⟨-, source, hbreaks, hresult⟩ := h.runPass fun c =>
      let p := Pass.collect c
      p.map fun lines => (lines, p.cursor.bytesRead)
    obtain ⟨e, he, hreading⟩ := collect_breaksOff hbreaks s.config.chunkBytes s.config.maxLineBytes
    dsimp only [Pass.map] at hresult
    rw [he] at hresult
    exact ⟨e, congrArg (answer fun r : List Bytes × Nat => .collected r.1 r.2) hresult, hreading⟩
  render := by
    obtain ⟨-, source, hbreaks, hresult⟩ := h.runPass Pass.render
    obtain ⟨e, he, hreading⟩ := walk_ofSource hbreaks s.config.chunkBytes s.config.maxLineBytes
      (fun line lines => .goOn (line :: lines)) (by simp) []
    rw [Pass.render, he] at hresult
    exact ⟨e, congrArg (answer .text) hresult, hreading⟩
  visit counting := by
    obtain ⟨-, seen, e, counted, hvisit, hsettled, hcause⟩ := h.visit none counting
    exact ⟨seen, e, counted, hvisit, hcause.resolve_right (by simp), hsettled⟩
  contains line := by
    obtain ⟨-, source, hbreaks, hresult⟩ := h.runPass (Pass.contains line)
    intro hanswer
    have hok : (s.runPass (Pass.contains line)).1 = .ok false := eq_ok_of_truth hanswer
    exact contains_breaksOff hbreaks _ _ line (hresult.symm.trans hok)
  isEmpty := by
    obtain ⟨-, source, hbreaks, hresult⟩ := h.runPass Pass.isEmpty
    intro hanswer
    have hok : s.isEmpty.1 = .ok true := eq_ok_of_truth hanswer
    rw [isEmpty, h.uncounted] at hok
    exact isEmpty_breaksOff hbreaks _ _ (hresult.symm.trans hok)

end Session

end TextLines

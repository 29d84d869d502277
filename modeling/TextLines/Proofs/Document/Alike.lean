import TextLines.Proofs.CommandLine.Running
import TextLines.Proofs.Document.Compressed
import TextLines.Proofs.Line.Walking

/-!
# Documents that deliver the same text

What the passes over a document come to depends on the text that its source delivers, and on nothing
else about the source, as long as nothing goes wrong with it. So two files that deliver the same
text answer alike (`Config.ReadsAlike`), except that one may take more bytes of its file than the
other.
-/

namespace TextLines

open Files (FileSystem)

variable {σ : Type} [Source σ] {text : Bytes}

/-- A source that delivers a text, and that can be closed. -/
structure Source.Gives (source : σ) (text : Bytes) : Prop where
  delivers : Source.Delivers source text
  closesQuietly : Source.ClosesQuietly source

/-- What a walk over the lines comes to, if nothing goes wrong with the source. -/
def Line.walkResult {α : Type} (limit : Nat) (visit : Bytes → α → Cursor.Visit α) (v : α)
    (lines : List Bytes) : Except Error α :=
  match Line.visitAll limit visit 1 v lines with
  | (.failed e, _) => .error e
  | (_, v') => .ok v'

/-- A visitor who never has enough takes all lines if none of them is too long. -/
theorem Line.visitAll_of_fits {α : Type} {limit : Nat} (f : Bytes → α → α) {lines : List Bytes}
    (hfits : ∀ line ∈ lines, Splitter.Fits limit line.length) (number : Nat) (v : α) :
    Line.visitAll limit (fun line v => .goOn (f line v)) number v lines =
      (.exhausted, lines.foldl (fun v line => f line v) v) := by
  induction lines generalizing number v with
  | nil => rfl
  | cons line lines ih =>
    rw [Line.visitAll, if_pos (hfits line List.mem_cons_self)]
    exact ih (fun other hother => hfits other (List.mem_cons_of_mem _ hother)) _ _

theorem Line.walkResult_of_fits {α : Type} {limit : Nat} (f : Bytes → α → α) {lines : List Bytes}
    (hfits : ∀ line ∈ lines, Splitter.Fits limit line.length) (v : α) :
    Line.walkResult limit (fun line v => .goOn (f line v)) v lines =
      .ok (lines.foldl (fun v line => f line v) v) := by
  rw [Line.walkResult, Line.visitAll_of_fits f hfits]

theorem Cursor.walk_of_gives {α : Type} {source : σ} (h : Source.Gives source text)
    (chunkBytes limit : Nat) (visit : Bytes → α → Visit α) (v : α) :
    let w := (ofSource source chunkBytes limit).walk visit v
    w.result = Line.walkResult limit visit v (Line.cut text) ∧
      w.value = (Line.visitAll limit visit 1 v (Line.cut text)).2 ∧ w.cursor.close.1 = none := by
  intro w
  have hR : Source.Delivery (fun _ => False) fun (s : σ) data =>
      Source.Delivers s data ∧ Source.ClosesQuietly s :=
    (Source.delivery_deliversBut _).and fun s n hs => hs.read n
  have hahead : (ofSource source chunkBytes limit).splitter.Ahead
      (fun s data => Source.Delivers s data ∧ Source.ClosesQuietly s) text :=
    Splitter.ahead_of_held ⟨h.delivers, h.closesQuietly⟩ chunkBytes limit
  obtain ⟨hwalk, hclose⟩ := walk_of_ahead hR (fun _ _ hs => hs.2.close_eq) visit v rfl hahead
  have hwalk' : (w.ending, w.value) = Line.visitAll limit visit 1 v (Line.cut text) := hwalk
  refine ⟨?_, congrArg Prod.snd hwalk', hclose⟩
  rw [Line.walkResult, ← hwalk', Walk.result]
  rcases w.ending with _ | _ | e <;> rfl

/-- A pass that can be closed answers what it has found. -/
theorem Pass.finish_of_close {α : Type} (r : Except Error α) {c : Cursor σ}
    (h : c.close.1 = none) : (finish r c).result = r ∧ (finish r c).unreported = none := by
  rw [finish]
  rcases hc : c.close with ⟨e, c'⟩
  rw [hc] at h
  obtain rfl : e = none := h
  rcases r with e | a <;> exact ⟨rfl, rfl⟩

/-! ## Passes -/

namespace Pass

theorem countLines_of_gives {source : σ} (h : Source.Gives source text) (chunkBytes limit : Nat) :
    (countLines (.ofSource source chunkBytes limit)).result =
      Line.walkResult limit (fun _ n => .goOn (n + 1)) 0 (Line.cut text) := by
  obtain ⟨hresult, -, hclose⟩ :=
    Cursor.walk_of_gives h chunkBytes limit (fun _ n => .goOn (n + 1)) 0
  rw [← hresult]
  exact (finish_of_close _ hclose).1

theorem render_of_gives {source : σ} (h : Source.Gives source text) (chunkBytes limit : Nat) :
    (render (.ofSource source chunkBytes limit)).result =
      (Line.walkResult limit (fun line lines => .goOn (line :: lines)) [] (Line.cut text)).map
        fun lines => List.intercalate [Bytes.lf] lines.reverse := by
  obtain ⟨hresult, -, hclose⟩ :=
    Cursor.walk_of_gives h chunkBytes limit (fun line lines => .goOn (line :: lines)) []
  rw [← hresult]
  exact congrArg (Except.map _) (finish_of_close _ hclose).1

theorem collect_of_gives {source : σ} (h : Source.Gives source text) (chunkBytes limit : Nat) :
    (collect (.ofSource source chunkBytes limit)).result =
        (Line.walkResult limit (fun line lines => .goOn (line :: lines)) [] (Line.cut text)).map
          List.reverse ∧
      (collect (.ofSource source chunkBytes limit)).unreported = none := by
  obtain ⟨hresult, -, hclose⟩ :=
    Cursor.walk_of_gives h chunkBytes limit (fun line lines => .goOn (line :: lines)) []
  rw [← hresult]
  obtain ⟨hfinish, hunreported⟩ := finish_of_close
    ((Cursor.ofSource source chunkBytes limit).walk
      (fun line lines => .goOn (line :: lines)) []).result hclose
  exact ⟨congrArg (Except.map _) hfinish, hunreported⟩

/-- The lines of a text are collected if they are not too long. -/
theorem collect_of_fits {source : σ} (h : Source.Gives source text) (chunkBytes : Nat) {limit : Nat}
    (hfits : ∀ line ∈ Line.cut text, Splitter.Fits limit line.length) :
    (collect (.ofSource source chunkBytes limit)).result = .ok (Line.cut text) := by
  rw [(collect_of_gives h chunkBytes limit).1,
    Line.walkResult_of_fits (fun line lines => line :: lines) hfits,
    List.foldl_flip_cons_eq_append', List.append_nil]
  simp only [Except.map, List.reverse_reverse]

end Pass

/-! ## Documents -/

/-- An answer without the number of the bytes that were consumed for it. -/
def Answer.withoutBytes : Answer → Answer
  | .collected all _ => .collected all 0
  | answer => answer

variable [Room]

/-- The number of the lines is what a pass counts if it is not known. -/
theorem Session.count_of_uncounted {ω : Type} {s : Session ω σ} (h : s.lineCount = none) :
    s.count.1 = (s.runPass Pass.countLines).1 := by
  rw [Session.count, h]
  dsimp only
  rcases s.runPass Pass.countLines with ⟨e | n, s'⟩ <;> rfl

/-- Collecting all lines answers what the pass over them has collected, apart from the bytes. -/
theorem Session.collect_withoutBytes (s : Session FileSystem DocumentSource) :
    (s.step .collect).1.withoutBytes =
      answer (fun lines => .collected lines 0) (s.runPass Pass.collect).1 := by
  unfold step runPass
  rcases s.openCursor with ⟨e | c, s'⟩
  · rfl
  · dsimp only [Pass.map]
    rcases (Pass.collect c).result with e | lines <;> rfl

namespace Config

variable {config : Config} {fs fs' : FileSystem}

/-- Opening a document fails for the same reason in two worlds, or it gives the same text. -/
def OpensAlike (config : Config) (fs fs' : FileSystem) : Prop :=
  (∃ e, config.openSource fs = .error e ∧ config.openSource fs' = .error e) ∨
    ∃ source source' text, config.openSource fs = .ok source ∧
      config.openSource fs' = .ok source' ∧ Source.Gives source text ∧ Source.Gives source' text

/-- Passes over documents that open alike come to the same, if all they depend on is the text. -/
theorem OpensAlike.runPass {α : Type} (h : config.OpensAlike fs fs')
    (pass : Cursor DocumentSource → Pass α DocumentSource) {f : Bytes → Except Error α}
    (hpass : ∀ source text, Source.Gives source text →
      (pass (.ofSource source config.chunkBytes config.maxLineBytes)).result = f text) :
    ((Session.ofFile config fs).runPass pass).1 = ((Session.ofFile config fs').runPass pass).1 := by
  rcases h with ⟨e, he, he'⟩ | ⟨source, source', text, hopen, hopen', hgives, hgives'⟩
  · simp only [Session.runPass, Session.openCursor, Session.ofFile, he, he', Except.map, cursor]
  · rcases Nat.lt_or_ge config.chunkBytes Room.limit with hroom | hroom
    · simp only [Session.runPass, Session.openCursor, Session.ofFile, hopen, hopen', Except.map,
        cursor_of_lt hroom, hpass source text hgives, hpass source' text hgives']
    · obtain ⟨e, he⟩ := cursor_of_le (σ := DocumentSource) hroom
      simp only [Session.runPass, Session.openCursor, Session.ofFile, hopen, hopen', Except.map, he]

end Config

/-! ## Runs -/

omit [Room] in
/-- What has been made of the lines does not depend on the bytes that were consumed before. -/
theorem Scan.foldl_see_consumed (lines : List Bytes) (s : Scan) (a b : Nat) :
    (lines.foldl see (s.consumed a)).consumed b = (lines.foldl see s).consumed b := by
  induction lines generalizing s with
  | nil => rfl
  | cons line lines ih => exact ih (s.see line)

/-- A reading without the number of the bytes that were consumed for it. -/
def Reading.withoutBytes (r : Reading) : Reading :=
  { r with result := r.result.map (Scan.consumed · 0) }

omit [Room] in
theorem readCollected_of_gives {source : σ} (h : Source.Gives source text)
    (chunkBytes limit : Nat) :
    (readCollected (.ofSource source chunkBytes limit)).withoutBytes =
      { printed := []
        result := (Line.walkResult limit (fun line lines => .goOn (line :: lines)) []
          (Line.cut text)).map fun lines => Scan.consumed (lines.reverse.foldl Scan.see {}) 0
        unreported := none } := by
  obtain ⟨hresult, hunreported⟩ := Pass.collect_of_gives h chunkBytes limit
  simp only [readCollected, Reading.withoutBytes, hresult, hunreported]
  rcases Line.walkResult limit (fun line lines => .goOn (line :: lines)) [] (Line.cut text)
    with e | lines
  · rfl
  · simp only [Except.map, Scan.foldl_see_consumed]

omit [Room] in
theorem readStreamed_of_gives {source : σ} (h : Source.Gives source text) (mode : Mode)
    (chunkBytes limit : Nat) :
    (readStreamed mode (.ofSource source chunkBytes limit)).withoutBytes =
      { printed := printLines (Line.visitAll limit (fun line s => .goOn (s.visit mode line)) 1
          ({} : Scan) (Line.cut text)).2.printed.reverse
        result := (Line.walkResult limit (fun line s => .goOn (s.visit mode line)) ({} : Scan)
          (Line.cut text)).map (Scan.consumed · 0)
        unreported := none } := by
  obtain ⟨hresult, hvalue, hclose⟩ := Cursor.walk_of_gives h chunkBytes limit
    (fun line s => .goOn (s.visit mode line)) ({} : Scan)
  obtain ⟨hfinish, hunreported⟩ := Pass.finish_of_close (Line.walkResult limit
    (fun line s => .goOn (s.visit mode line)) ({} : Scan) (Line.cut text)) hclose
  have hbytes : ∀ (r : Except Error Scan) (bytes : Nat),
      (r.map fun s => s.consumed bytes).map (Scan.consumed · 0) = r.map (Scan.consumed · 0) := by
    rintro (e | s) bytes <;> rfl
  simp only [readStreamed, Reading.withoutBytes, hresult, hfinish, hunreported, hvalue, hbytes]

/-- Files that open alike are read alike. -/
theorem Options.read_alike {config : Config} {fs fs' : FileSystem}
    (h : config.OpensAlike fs fs') (o : Options) :
    (o.read fs config).withoutBytes = (o.read fs' config).withoutBytes := by
  rcases h with ⟨e, he, he'⟩ | ⟨source, source', text, hopen, hopen', hgives, hgives'⟩
  · rw [read_of_refused he, read_of_refused he']
  · rcases Nat.lt_or_ge config.chunkBytes Room.limit with hroom | hroom
    · rw [read_of_lt hopen hroom, read_of_lt hopen' hroom]
      split
      · rw [readCollected_of_gives hgives, readCollected_of_gives hgives']
      · rw [readStreamed_of_gives hgives, readStreamed_of_gives hgives']
    · obtain ⟨e, he⟩ := read_of_le hroom
      rw [he fs source hopen, he fs' source' hopen']

omit [Room] in
/-- The stages of a run do not change what was counted. -/
theorem Tally.recordAll_stages (mode : Mode) (timing : Timing) (t : Tally) :
    ∃ order spent since, t.recordAll (mode.stages timing) = { t with order, spent, since } := by
  have hstage : ∀ (t : Tally) (name : Bytes) (start stop : Nat), ∃ order spent since,
      t.recordAll [.begin name start, .finish name stop] = { t with order, spent, since } := by
    intro t name start stop
    show ∃ order spent since, (t.begin name start).finish name stop = { t with order, spent, since }
    rw [finish]
    split <;> exact ⟨_, _, _, rfl⟩
  unfold Mode.stages
  rw [recordAll_append]
  obtain ⟨order, spent, since, hscan⟩ :=
    hstage t (Bytes.ascii "scan") timing.scan.1 timing.scan.2
  rw [hscan]
  split
  · exact hstage { t with order, spent, since } (Bytes.ascii "digest") timing.digest.1
      timing.digest.2
  · exact ⟨order, spent, since, rfl⟩

omit [Room] in
/-- Without reports the program says the same about readings that differ in the bytes only. -/
theorem Options.conclude_alike {o : Options} (hreport : o.reportRoot = []) (timing : Timing)
    (fs fs' : FileSystem) (config : Config) {r r' : Reading}
    (h : r.withoutBytes = r'.withoutBytes) :
    (o.conclude timing fs config r).1 = (o.conclude timing fs' config r').1 := by
  obtain ⟨printed, result, unreported⟩ := r
  obtain ⟨printed', result', unreported'⟩ := r'
  obtain ⟨rfl, hresult, rfl⟩ := Reading.mk.inj h
  rcases result with e | s
  · rcases result' with e' | s'
    · obtain rfl := Except.error.inj hresult
      rfl
    · cases hresult
  · rcases result' with e' | s'
    · cases hresult
    · have htally : (s.consumed 0).tally = (s'.consumed 0).tally :=
        congrArg Scan.tally (Except.ok.inj hresult)
      have hlines : s.tally.lines = s'.tally.lines :=
        (congrArg Tally.lines htally : (s.consumed 0).tally.lines = (s'.consumed 0).tally.lines)
      have hchars : s.tally.chars = s'.tally.chars :=
        (congrArg Tally.chars htally : (s.consumed 0).tally.chars = (s'.consumed 0).tally.chars)
      obtain ⟨_, _, _, hstages⟩ := Tally.recordAll_stages o.mode timing s.tally
      obtain ⟨_, _, _, hstages'⟩ := Tally.recordAll_stages o.mode timing s'.tally
      have hsays : o.mode.summaryLine config.path
            ((s.tally.recordAll (o.mode.stages timing)).summary timing.wall) =
          o.mode.summaryLine config.path
            ((s'.tally.recordAll (o.mode.stages timing)).summary timing.wall) := by
        simp only [Mode.summaryLine, Tally.summary, hstages, hstages', hlines, hchars]
      simp only [conclude, report, hreport, List.isEmpty_nil, if_true, hsays]

/-! ## Both together -/

/-- The same is said about a document in two worlds, apart from the bytes that were consumed for
it. -/
structure Config.ReadsAlike [JsonReader] (config : Config) (fs fs' : FileSystem) : Prop where
  count : ((Session.ofFile config fs).step .count).1 = ((Session.ofFile config fs').step .count).1
  render : ((Session.ofFile config fs).step .render).1 =
    ((Session.ofFile config fs').step .render).1
  collect : ((Session.ofFile config fs).step .collect).1.withoutBytes =
    ((Session.ofFile config fs').step .collect).1.withoutBytes
  /-- The program reads the same lines in all modes. -/
  read : ∀ o : Options, (o.read fs config).withoutBytes = (o.read fs' config).withoutBytes
  /-- A run over the document alone says the same and has the same status. -/
  run : ∀ (o : Options) (timing : Timing) (arguments : List Bytes),
    Options.ofArguments (Config.load fs) arguments = .ok o →
    Options.ofArguments (Config.load fs') arguments = .ok o → o.inputs = [config] →
    o.reportRoot = [] →
      (run timing fs arguments).1 = (run timing fs' arguments).1

theorem Config.OpensAlike.readsAlike [JsonReader] {config : Config} {fs fs' : FileSystem}
    (h : config.OpensAlike fs fs') : config.ReadsAlike fs fs' where
  count := by
    have hpass := h.runPass Pass.countLines
      fun _ _ hgives => Pass.countLines_of_gives hgives _ _
    rw [← Session.count_of_uncounted rfl, ← Session.count_of_uncounted rfl] at hpass
    exact congrArg (Session.answer .number) hpass
  render := congrArg (Session.answer .text)
    (h.runPass Pass.render fun _ _ hgives => Pass.render_of_gives hgives _ _)
  collect := by
    rw [Session.collect_withoutBytes, Session.collect_withoutBytes,
      h.runPass Pass.collect fun _ _ hgives => (Pass.collect_of_gives hgives _ _).1]
  read := Options.read_alike h
  run o timing arguments ho ho' hinputs hreport := by
    rw [Options.run_of_single ho hinputs, Options.run_of_single ho' hinputs]
    exact Options.conclude_alike hreport timing fs fs' config (Options.read_alike h o)

end TextLines

import TextLines.Proofs.CommandLine.Running
import TextLines.Proofs.Document.Sharing
import TextLines.Proofs.Gzip.Members

/-!
# Opening a document

A document is opened layer by layer: the file, the header of a gzip file, the decoder. Each layer
refuses in its own way, and what is to come out of it is always the same: a refusal that names the
path of the document (`Error.Refuses`).

There is one exception. A gzip file is read from while it is being opened, and there are things that
can be opened but not read, such as a directory (`GzipSource.ofPath_of_unreadable`). So a directory
that is opened as a gzip file is not refused; reading it fails (`Session.stream_of_directory`).
Nothing else comes out of opening, whatever files there are and whatever has been done with the
document before (`Session.stream_opens_or_refuses_iff`).
-/

namespace TextLines

open Files (FileSystem)

variable {config : Config} {fs : FileSystem} {path : Bytes} {e : Error} {errno : Files.Errno}

/-- The failure to open what is at a path. -/
def Error.Refuses (path : Bytes) (e : Error) : Prop :=
  ∃ fault, e = .opening path fault

/-! ## The layers -/

/-- Something that can be opened, but not read for a cause, is opened as a gzip file. -/
def Config.OpensUnreadable (config : Config) (fs : FileSystem) (errno : Files.Errno) : Prop :=
  config.compressed = true ∧ fs.openFile config.path = .ok (.unreadable errno)

theorem FileSource.refuses_of_ofPath (h : ofPath fs path = .error e) : e.Refuses path := by
  rw [ofPath] at h
  cases hfile : fs.openFile path with
  | ok opened =>
    rw [hfile] at h
    cases h
  | error errno =>
    rw [hfile] at h
    exact ⟨.system errno, (Except.error.inj h).symm⟩

theorem GzipSource.ofPath_of_unreadable (h : fs.openFile path = .ok (.unreadable errno)) :
    ofPath fs path = .error (.reading (.system path errno)) := by
  rw [ofPath, h]

theorem GzipSource.refuses_of_ofPath (hnot : ∀ errno, fs.openFile path ≠ .ok (.unreadable errno))
    (h : ofPath fs path = .error e) : e.Refuses path := by
  cases hfile : fs.openFile path with
  | error errno =>
    rw [ofPath, hfile] at h
    exact ⟨.system errno, (Except.error.inj h).symm⟩
  | ok opened =>
    cases opened with
    | content bytes => exact isOpening_of_ofPath h hfile
    | zeros count =>
      rw [ofPath, hfile] at h
      exact ⟨.notGzip, (Except.error.inj h).symm⟩
    | unreadable errno => exact absurd hfile (hnot errno)

theorem Decoder.refuses_of_ofSource {σ : Type} [Source σ] {inner : σ} {name : Bytes}
    (h : ofSource inner name path = .error e) : e.Refuses path := by
  rw [ofSource] at h
  cases hknown : Encoding.ofName? name with
  | some encoding =>
    rw [hknown] at h
    cases h
  | none =>
    rw [hknown] at h
    exact ⟨.unknownEncoding name, (Except.error.inj h).symm⟩

/-! ## All layers -/

theorem Except.eq_error_of_map {α β ε : Type} {f : α → β} {r : Except ε α} {e : ε}
    (h : r.map f = .error e) : r = .error e := by
  cases r with
  | ok a => cases h
  | error e' => exact congrArg Except.error (Except.error.inj h)

/-- A document that cannot be opened is refused, unless it is to be a gzip file and is something
that cannot be read. -/
theorem Config.refuses_of_openSource (hnot : ∀ errno, ¬ config.OpensUnreadable fs errno)
    (h : config.openSource fs = .error e) : e.Refuses config.path := by
  rw [openSource] at h
  cases hraw : RawSource.ofPath fs config.compressed config.path with
  | error e' =>
    rw [hraw] at h
    obtain rfl := Except.error.inj h
    rw [RawSource.ofPath] at hraw
    split at hraw
    · rename_i hz
      exact GzipSource.refuses_of_ofPath (fun errno hfile => hnot errno ⟨hz, hfile⟩)
        (Except.eq_error_of_map hraw)
    · exact FileSource.refuses_of_ofPath (Except.eq_error_of_map hraw)
  | ok raw =>
    rw [hraw] at h
    dsimp only at h
    split at h
    · cases h
    · exact Decoder.refuses_of_ofSource (Except.eq_error_of_map h)

theorem Config.openSource_of_unreadable (h : config.OpensUnreadable fs errno) :
    config.openSource fs = .error (.reading (.system config.path errno)) := by
  rw [openSource, RawSource.ofPath, h.1, if_pos rfl, GzipSource.ofPath_of_unreadable h.2]
  rfl

/-! ## Streams -/

namespace Session

variable [Room]

/-- What a document is, and how it is opened, does not change, even if the world does. -/
theorem describes_run {ω σ : Type} [Source σ] (s : Session ω σ) (ops : List (Op ω)) :
    (s.run ops).config = s.config ∧ (s.run ops).opener = s.opener := by
  induction ops generalizing s with
  | nil => exact ⟨rfl, rfl⟩
  | cons op ops ih =>
    obtain ⟨hconfig, hopener⟩ := ih (s.step op).2
    by_cases hchange : ∃ world, op = .change world
    · obtain ⟨world, rfl⟩ := hchange
      exact ⟨hconfig, hopener⟩
    · have hsame := sameFile_step s (not_exists.mp hchange)
      exact ⟨hconfig.trans hsame.config, hopener.trans hsame.opener⟩

/-- A stream is opened as the file stands then, whatever has been done with the document. -/
theorem stream_of_file (hroom : config.chunkBytes < Room.limit) (fs : FileSystem)
    (ops : List (Op FileSystem)) :
    let s := (ofFile config fs).run ops
    (s.step .stream).1 =
      match config.openSource s.world with
      | .ok _ => .opened s.streams.length
      | .error e => .failed e := by
  intro s
  obtain ⟨hconfig, hopener⟩ := describes_run (ofFile config fs) ops
  have hcursor : s.openCursor.1 = config.cursor ((config.openSource s.world).map some) := by
    rw [openCursor, hconfig, hopener]
    rfl
  have hopens : Opens (.stream : Op FileSystem) := trivial
  cases hopen : config.openSource s.world with
  | ok source =>
    have hfresh : s.fresh .stream =
        .ok { cursor := .ofSource source config.chunkBytes config.maxLineBytes } := by
      rw [fresh, hcursor, hopen, Except.map, Config.cursor_of_lt hroom]
      rfl
    exact (step_of_fresh hopens hfresh).1
  | error e =>
    have hfresh : s.fresh .stream = .error e := by
      rw [fresh, hcursor, hopen]
      rfl
    exact (step_of_refused hopens hfresh).1

/-- Opening a stream of a document in a file opens it or refuses the path of the document, whatever
the files are at that time, unless it is opened as a gzip file and can only be opened but not read,
such as a directory. Then the failure is that of reading it. -/
theorem stream_opens_or_refuses_iff (hroom : config.chunkBytes < Room.limit) (fs : FileSystem)
    (ops : List (Op FileSystem)) :
    let s := (ofFile config fs).run ops
    let answer := (s.step .stream).1
    ((answer = .opened s.streams.length ∨ ∃ e, answer = .failed e ∧ e.Refuses config.path) ↔
        ∀ errno, ¬ config.OpensUnreadable s.world errno) ∧
      ∀ errno, config.OpensUnreadable s.world errno →
        answer = .failed (.reading (.system config.path errno)) := by
  intro s answer
  have hanswer : answer = _ := stream_of_file hroom fs ops
  have hunreadable : ∀ errno, config.OpensUnreadable s.world errno →
      answer = .failed (.reading (.system config.path errno)) := by
    intro errno h
    rw [hanswer, Config.openSource_of_unreadable h]
  refine ⟨⟨fun hopens errno h => ?_, fun hnot => ?_⟩, hunreadable⟩
  · rw [hunreadable errno h] at hopens
    rcases hopens with hopened | ⟨e, hfailed, fault, rfl⟩
    · cases hopened
    · cases hfailed
  · rw [hanswer]
    cases hopen : config.openSource s.world with
    | ok source => exact .inl rfl
    | error e => exact .inr ⟨e, rfl, Config.refuses_of_openSource hnot hopen⟩

omit [Room] in
/-- A plain file that is opened as a gzip file is refused. -/
theorem stream_of_plain_refuses :
    let _ : Room := .ample
    let config : Config := { path := Bytes.ascii "f", compressed := true }
    let s := (ofFile config (FileSystem.single (Bytes.ascii "f") (Bytes.ascii "a\n"))).run []
    let answer := (s.step .stream).1
    config.chunkBytes < Room.limit ∧
      (answer = .opened s.streams.length ∨ ∃ e, answer = .failed e ∧ e.Refuses config.path) := by
  intro _ config s answer
  have hroom : config.chunkBytes < Room.limit := by decide
  have hfile : s.world.openFile config.path = .ok (.content (Bytes.ascii "a\n")) :=
    Files.openFile_single _
  refine ⟨hroom, (stream_opens_or_refuses_iff hroom _ []).1.mpr ?_⟩
  rintro errno ⟨-, hunreadable⟩
  cases hfile.symm.trans hunreadable

omit [Room] in
/-- A directory that is opened as a gzip file is not refused. -/
theorem stream_of_directory :
    let _ : Room := .ample
    let config : Config := { path := Bytes.ascii "d", compressed := true }
    let fs : FileSystem :=
      { tree := .branch (Bytes.ascii "d") (some .directory) .empty .empty, workingDirectory := [] }
    let answer := ((ofFile config fs).step .stream).1
    config.chunkBytes < Room.limit ∧
      ¬ ((∃ number, answer = .opened number) ∨
        ∃ e, answer = .failed e ∧ e.Refuses config.path) := by
  intro _ config fs answer
  have hopen : fs.openFile config.path = .ok (.unreadable .isDirectory) := by cbv
  have hdir : config.OpensUnreadable fs .isDirectory := ⟨rfl, hopen⟩
  have hanswer : answer = .failed (.reading (.system config.path .isDirectory)) := by
    simp only [answer, step, openCursor, ofFile, Config.openSource_of_unreadable hdir]
    rfl
  refine ⟨by decide, ?_⟩
  rw [hanswer]
  rintro (⟨number, hopened⟩ | ⟨e, hfailed, fault, rfl⟩)
  · cases hopened
  · cases hfailed

end Session

end TextLines

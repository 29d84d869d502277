import TextLines.Proofs.Document.Carrying
import TextLines.Proofs.Document.Views
import TextLines.Proofs.Line.Consuming

/-!
# The lines of a document

`Config.Hands` says what comes of a document in a world of files when all its lines are asked for:
the lines, what stops them before their end, and how many bytes of the file have been consumed by
then. There is such an outcome whatever the file, the encoding, the packing, the size of the chunks
and the limit (`Config.exists_hands`). No line holds a terminator (`Config.Hands.unterminated`), and
if nothing stops the lines the file has been consumed (`Config.Hands.spends`).

The lines of a document that gives a text are those of the text (`Config.Hands.eq_cut`).
-/

namespace TextLines

open Files (FileSystem)

/-- Only what has a content is opened as a gzip file. -/
theorem GzipSource.exists_content_of_ofPath {fs : FileSystem} {path : Bytes} {g : GzipSource}
    (h : ofPath fs path = .ok g) : ∃ content, fs.openFile path = .ok (.content content) := by
  rw [ofPath] at h
  rcases hfile : fs.openFile path with e | (content | count | _)
  · rw [hfile] at h
    cases h
  · exact ⟨content, rfl⟩
  · rw [hfile] at h
    cases h
  · rw [hfile] at h
    cases h

/-- An opened file is read as it is, or it is unpacked. -/
theorem RawSource.cases_of_ofPath {fs : FileSystem} {compressed : Bool} {path : Bytes}
    {raw : RawSource} (h : ofPath fs compressed path = .ok raw) :
    (compressed = false ∧ ∃ opened, fs.openFile path = .ok opened ∧
        raw = .inl { path, rest := opened }) ∨
      (compressed = true ∧ ∃ g, GzipSource.ofPath fs path = .ok g ∧ raw = .inr g) := by
  rw [ofPath] at h
  cases hz : compressed with
  | false =>
    rw [hz, FileSource.ofPath] at h
    rcases hfile : fs.openFile path with e | opened
    · rw [hfile] at h
      cases h
    · rw [hfile] at h
      exact .inl ⟨rfl, opened, rfl, (Except.ok.inj h).symm⟩
  | true =>
    rw [hz, if_pos rfl] at h
    rcases hg : GzipSource.ofPath fs path with e | g
    · rw [hg] at h
      cases h
    · rw [hg] at h
      exact .inr ⟨rfl, g, rfl, (Except.ok.inj h).symm⟩

namespace Config

variable {config : Config} {fs : FileSystem} {source : DocumentSource} {lines : List Bytes}
  {failure : Option Error} {taken : Nat} {text : Bytes}

variable [Room]

/-- A fresh cursor over a document, or why there is none. -/
def openCursor (config : Config) (fs : FileSystem) : Except Error (Cursor DocumentSource) :=
  config.cursor ((config.openSource fs).map some)

/-- What comes of a document: its lines, what stops them, and the bytes consumed by then. -/
inductive Hands (config : Config) (fs : FileSystem) : List Bytes → Option Error → Nat → Prop where
  /-- It cannot be opened. -/
  | refused {e : Error} (h : config.openCursor fs = .error e) : Hands config fs [] (some e) 0
  /-- A cursor hands out its lines. -/
  | opened {c c' : Cursor DocumentSource} {lines : List Bytes} {failure : Option Error}
      (h : config.openCursor fs = .ok c) (hhands : c.Hands lines failure c') :
      Hands config fs lines failure c'.bytesRead

theorem exists_hands (config : Config) (fs : FileSystem) :
    ∃ lines failure taken, config.Hands fs lines failure taken := by
  rcases h : config.openCursor fs with e | c
  · exact ⟨_, _, _, .refused h⟩
  · obtain ⟨lines, failure, c', hhands⟩ := c.exists_hands
    exact ⟨_, _, _, .opened h hhands⟩

/-! ## Sources of documents -/

omit [Room] in
/-- A document is read from its file, as it is or unpacked, with a decoder in front or without. -/
theorem exists_raw_of_openSource (h : config.openSource fs = .ok source) :
    ∃ raw, RawSource.ofPath fs config.compressed config.path = .ok raw ∧
      (source = .inl raw ∨ ∃ encoding, source = .inr { inner := raw, encoding }) := by
  rw [openSource] at h
  rcases hraw : RawSource.ofPath fs config.compressed config.path with e | raw
  · rw [hraw] at h
    cases h
  · rw [hraw] at h
    dsimp only at h
    refine ⟨raw, rfl, ?_⟩
    rcases hname : config.encoding with _ | name
    · rw [hname] at h
      exact .inl (Except.ok.inj h).symm
    · rw [hname] at h
      dsimp only at h
      rcases hknown : Encoding.ofName? name with _ | encoding
      · simp only [Decoder.ofSource, hknown, Except.map] at h
        cases h
      · simp only [Decoder.ofSource, hknown, Except.map] at h
        exact .inr ⟨encoding, (Except.ok.inj h).symm⟩

omit [Room] in
/-- Nothing keeps a file from being closed. -/
theorem closesQuietly_of_openSource (h : config.openSource fs = .ok source) :
    Source.ClosesQuietly source := by
  obtain ⟨raw, -, hsource⟩ := exists_raw_of_openSource h
  have hraw : Source.ClosesQuietly raw := by
    rcases raw with s | g
    · exact Source.embeds_inl.closesQuietly
        ⟨fun _ => True, trivial, fun _ _ => ⟨rfl, fun _ => trivial⟩⟩
    · exact Source.embeds_inr.closesQuietly (GzipSource.closesQuietly g)
  rcases hsource with rfl | ⟨encoding, rfl⟩
  · exact Source.embeds_inl.closesQuietly hraw
  · exact Source.embeds_inr.closesQuietly (Decoder.closesQuietly hraw encoding)

/-- So many bytes are those of the whole file. Of a gzip file a part may be missing of what stands
behind the last member. -/
structure Spends (config : Config) (fs : FileSystem) (taken : Nat) : Prop where
  plain : config.compressed = false → ∀ opened, fs.openFile config.path = .ok opened →
    taken = ({ path := config.path, rest := opened } : FileSource).left
  packed : config.compressed = true → ∀ content,
    fs.openFile config.path = .ok (.content content) → ∀ text behind,
      Gzip.Unpacks {} (.ofBytes content) text (.complete behind) →
        ∃ unread, unread <:+ behind ∧ taken + unread.length = content.length

omit [Room] in
/-- What has been consumed of a file at its end. -/
theorem consumes_of_ofPath {raw : RawSource}
    (h : RawSource.ofPath fs config.compressed config.path = .ok raw) :
    Source.Consumes (config.Spends fs) raw := by
  rcases RawSource.cases_of_ofPath h with ⟨hz, opened, hfile, rfl⟩ | ⟨hz, g, hg, rfl⟩
  · refine Source.embeds_inl.consumes (fun _ => rfl)
      ((FileSource.consumes config.path opened).mono fun taken htaken => ⟨?_, ?_⟩)
    · intro _ opened' hfile'
      obtain rfl := Except.ok.inj (hfile.symm.trans hfile')
      exact htaken
    · intro hpacked
      cases hz.symm.trans hpacked
  · obtain ⟨content, hfile⟩ := GzipSource.exists_content_of_ofPath hg
    refine Source.embeds_inr.consumes (fun _ => rfl)
      ((GzipSource.consumes hg hfile).mono fun taken htaken => ⟨?_, ?_⟩)
    · intro hplain
      cases hz.symm.trans hplain
    · intro _ content' hfile'
      obtain rfl := Files.Opened.content.inj (Except.ok.inj (hfile.symm.trans hfile'))
      exact htaken

omit [Room] in
theorem consumes_of_openSource (h : config.openSource fs = .ok source) :
    Source.Consumes (config.Spends fs) source := by
  obtain ⟨raw, hraw, hsource⟩ := exists_raw_of_openSource h
  have hconsumes := consumes_of_ofPath hraw
  rcases hsource with rfl | ⟨encoding, rfl⟩
  · exact Source.embeds_inl.consumes (fun _ => rfl) hconsumes
  · exact Source.embeds_inr.consumes (fun _ => rfl) (Decoder.consumes hconsumes encoding)

/-! ## What is known of the lines -/

theorem exists_source_of_openCursor {c : Cursor DocumentSource} (h : config.openCursor fs = .ok c) :
    ∃ source, config.openSource fs = .ok source ∧
      c = .ofSource source config.chunkBytes config.maxLineBytes := by
  obtain ⟨source, hopened, hc⟩ := eq_ofSource_of_cursor h
  rcases hopen : config.openSource fs with e | source'
  · rw [hopen] at hopened
    cases hopened
  · rw [hopen] at hopened
    obtain rfl := Option.some.inj (Except.ok.inj hopened)
    exact ⟨_, rfl, hc⟩

namespace Hands

theorem unterminated (h : config.Hands fs lines failure taken) :
    ∀ line ∈ lines, Line.Unterminated line := by
  cases h with
  | refused => exact fun _ hline => absurd hline List.not_mem_nil
  | opened hopen hhands =>
    obtain ⟨source, -, rfl⟩ := exists_source_of_openCursor hopen
    exact hhands.unterminated rfl

theorem fits (h : config.Hands fs lines failure taken) :
    ∀ line ∈ lines, Splitter.Fits config.maxLineBytes line.length := by
  cases h with
  | refused => exact fun _ hline => absurd hline List.not_mem_nil
  | opened hopen hhands =>
    obtain ⟨source, -, rfl⟩ := exists_source_of_openCursor hopen
    exact hhands.fits rfl

/-- When all lines of a document have been handed out its file has been consumed. -/
theorem spends (h : config.Hands fs lines none taken) : config.Spends fs taken := by
  cases h with
  | opened hopen hhands =>
    obtain ⟨source, hsource, rfl⟩ := exists_source_of_openCursor hopen
    exact hhands.consumes rfl ⟨source, rfl, consumes_of_openSource hsource, fun he => by cases he⟩

/-- The lines of a document that gives a text are those of the text. -/
theorem eq_cut (h : config.Hands fs lines failure taken)
    (hopen : config.openSource fs = .ok source) (hgives : Source.Gives source text)
    (hroom : config.chunkBytes < Room.limit)
    (hfits : ∀ line ∈ Line.cut text, Splitter.Fits config.maxLineBytes line.length) :
    failure = none ∧ lines = Line.cut text := by
  have hcursor : config.openCursor fs =
      .ok (.ofSource source config.chunkBytes config.maxLineBytes) := by
    rw [openCursor, hopen]
    exact cursor_of_lt hroom source
  cases h with
  | refused hrefused => cases hrefused.symm.trans hcursor
  | opened hopened hhands =>
    obtain rfl := Except.ok.inj (hopened.symm.trans hcursor)
    have hcollect := Pass.collect_of_fits hgives config.chunkBytes hfits
    rw [Pass.collect_of_hands hhands rfl] at hcollect
    cases failure with
    | none => exact ⟨rfl, Except.ok.inj hcollect⟩
    | some e => cases hcollect

end Hands

end Config

end TextLines

import TextLines.Proofs.Document.Trailing
import TextLines.Proofs.Line.Writing

/-!
# Files that carry lines

The way from lines to a file, as anyone may take it who writes one: the lines become a text with
terminators (`Line.Written`), the text becomes bytes in an encoding (`Encoding.Writes`), and the
bytes are put into a file as they are or packed into members (`Config.Holds`). `Config.Carries` is
the whole way.

The way back is that of the sources. The file gives the bytes, unpacked if need be, and a decoder
over it gives the UTF-8 form of the text (`Config.Carries.openSource`), the lines of which are the
lines that were written.
-/

namespace TextLines

open Bytes
open Files (FileSystem)
open Gzip (Packed Unpacks fileOf textOf)

variable {config : Config} {fs : FileSystem} {bytes : Bytes}

/-! ## Plain files -/

/-- An opened file gives its content, and closing it never fails. -/
theorem FileSource.gives (path bytes : Bytes) :
    Source.Gives ({ path, rest := .content bytes } : FileSource) bytes where
  delivers := by
    refine ⟨fun s data => s.rest = .content data ∧ s.isOpen = true, ⟨?_, ?_⟩, rfl, rfl⟩
    · rintro s s' data piece n ⟨hrest, hopen⟩ hn hr
      have hread : s.read n = (.ok piece, s') := hr
      have hask : (s.isOpen && n != 0) = true := by
        rw [hopen, Bool.true_and, bne_iff_ne]
        omega
      rw [FileSource.read, if_pos hask, hrest] at hread
      simp only [List.splitAt_eq, Prod.mk.injEq, Except.ok.injEq] at hread
      obtain ⟨rfl, rfl⟩ := hread
      refine ⟨data.drop n, (List.take_append_drop n data).symm, fun hnil => ?_, rfl, hopen⟩
      have hdata : data = [] := (List.take_eq_nil_iff.mp hnil).resolve_left (by omega)
      rw [hdata, List.drop_nil]
    · rintro s s' data n e ⟨hrest, hopen⟩ hn hr
      have hread : s.read n = (.error e, s') := hr
      rw [FileSource.read, hrest] at hread
      split at hread
      · cases hread
      · cases hread
  closesQuietly := ⟨fun _ => True, trivial, fun _ _ => ⟨rfl, fun _ => trivial⟩⟩

/-! ## Files that hold bytes -/

/-- The file of a document holds the bytes, as they are or in members. -/
inductive Config.Holds (config : Config) (fs : FileSystem) (bytes : Bytes) : Prop where
  | plain (hz : config.compressed = false)
      (hfile : fs.openFile config.path = .ok (.content bytes))
  | packed {members : List Packed} (hz : config.compressed = true) (hne : members ≠ [])
      (htext : textOf members = bytes)
      (hfile : fs.openFile config.path = .ok (.content (fileOf members)))

theorem Source.Embeds.gives {σ τ : Type} [Source σ] [Source τ] {f : σ → τ} (hf : Embeds f) {s : σ}
    {text : Bytes} (h : Gives s text) : Gives (f s) text :=
  ⟨hf.deliversBut h.delivers, hf.closesQuietly h.closesQuietly⟩

/-- A file that holds bytes can be opened and gives them. -/
theorem Config.Holds.exists_raw (h : config.Holds fs bytes) :
    ∃ raw, RawSource.ofPath fs config.compressed config.path = .ok raw ∧
      Source.Gives raw bytes := by
  cases h with
  | plain hz hfile =>
    refine ⟨.inl { path := config.path, rest := .content bytes }, ?_, ?_⟩
    · rw [RawSource.ofPath, hz, FileSource.ofPath, hfile]
      rfl
    · exact Source.embeds_inl.gives (FileSource.gives config.path bytes)
  | @packed members hz hne htext hfile =>
    have hunpacks : Unpacks {} (.ofBytes (fileOf members ++ [])) (textOf members) (.complete []) :=
      Gzip.unpacks_members hne (by simp)
    obtain ⟨g, hg, howes, -⟩ :=
      GzipSource.exists_owes hne ((List.append_nil (fileOf members)).symm ▸ hfile) hunpacks
    refine ⟨.inr g, ?_, ?_⟩
    · rw [RawSource.ofPath, hz, if_pos rfl, hg]
      rfl
    · rw [← htext]
      exact Source.embeds_inr.gives (GzipSource.gives_of_owes howes)

/-- A document in a known encoding gives the decoding of what its file gives. -/
theorem Config.openSource_of_raw {raw : RawSource} {name : Bytes} {encoding : Encoding}
    (hraw : RawSource.ofPath fs config.compressed config.path = .ok raw)
    (hgives : Source.Gives raw bytes) (hname : config.encoding = some name)
    (hknown : Encoding.ofName? name = some encoding) :
    ∃ source, config.openSource fs = .ok source ∧
      Source.Gives source (encoding.decode bytes) := by
  have hdecoder : Source.Gives ({ inner := raw, encoding } : Decoder RawSource)
      (encoding.decode bytes) :=
    ⟨Decoder.delivers hgives.delivers encoding,
      Decoder.closesQuietly hgives.closesQuietly encoding⟩
  refine ⟨.inr { inner := raw, encoding }, ?_, Source.embeds_inr.gives hdecoder⟩
  rw [openSource, hraw, hname]
  simp only [Decoder.ofSource, hknown, Except.map]

/-- A plain file without a declared encoding gives its content. -/
theorem Config.exists_source_of_plain (hz : config.compressed = false)
    (hname : config.encoding = none) (hfile : fs.openFile config.path = .ok (.content bytes)) :
    ∃ source, config.openSource fs = .ok source ∧ Source.Gives source bytes := by
  obtain ⟨raw, hraw, hgives⟩ := (Holds.plain hz hfile).exists_raw
  refine ⟨.inl raw, ?_, Source.embeds_inl.gives hgives⟩
  simp only [openSource, hraw, hname]

/-! ## Files that carry lines -/

/-- The file of a document holds a text of these lines in the declared encoding. -/
def Config.Carries (config : Config) (fs : FileSystem) (lines : List (List Char)) : Prop :=
  ∃ text name encoding bytes, Line.Written lines text ∧ config.encoding = some name ∧
    Encoding.ofName? name = some encoding ∧ encoding.Writes text bytes ∧ config.Holds fs bytes

/-- A document in a file that carries lines gives a text of these lines in UTF-8. -/
theorem Config.Carries.openSource {lines : List (List Char)} (h : config.Carries fs lines) :
    ∃ source text, config.openSource fs = .ok source ∧ Source.Gives source text ∧
      Line.cut text = lines.map utf8 := by
  obtain ⟨text, name, encoding, bytes, hwritten, hname, hknown, hwrites, hholds⟩ := h
  obtain ⟨raw, hraw, hgives⟩ := hholds.exists_raw
  obtain ⟨source, hopen, hsource⟩ := openSource_of_raw hraw hgives hname hknown
  rw [Encoding.decode_of_writes hwrites] at hsource
  exact ⟨source, utf8 text, hopen, hsource, Line.cut_utf8_of_written hwritten⟩

end TextLines

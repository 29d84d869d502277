import TextLines.Document.Config
import TextLines.Proofs.Charset.Interruption
import TextLines.Proofs.Gzip.Members

/-!
# Documents in compressed files

A compressed document is read through two sources or three: the gzip file, and a decoder in front of
it if an encoding is declared. What the document delivers is then the text of the file in its
decoded form (`Config.decoded`), and a document whose file breaks off breaks off (`inFront_cases`,
`openSource_of_breaksOff`).
-/

namespace TextLines

open Gzip (Packed fileOf textOf Ending Unpacks)
open Files (FileSystem)

namespace Config

variable {config : Config} {fs : FileSystem} {text : Bytes}

/-- What becomes of a text in the declared encoding. -/
def decoded (config : Config) (text : Bytes) : Bytes :=
  match config.encoding.bind Encoding.ofName? with
  | some encoding => encoding.decode text
  | none => text

/-- What is put in front of a gzip file. -/
def inFront (config : Config) (g : GzipSource) : Except Error DocumentSource :=
  match config.encoding with
  | none => .ok (.inl (.inr g))
  | some name => (Decoder.ofSource (.inr g : RawSource) name config.path).map .inr

theorem openSource_gzip (hz : config.compressed = true) :
    config.openSource fs = (GzipSource.ofPath fs config.path).bind config.inFront := by
  rw [openSource, RawSource.ofPath, if_pos hz]
  rcases GzipSource.ofPath fs config.path with e | g
  · rfl
  · rfl

/-- A source for documents that hands on what a gzip file gives in its decoded form. -/
structure Presents (config : Config) (source : GzipSource → DocumentSource) : Prop where
  delivers : ∀ g text, Source.Delivers g text → Source.Delivers (source g) (config.decoded text)
  closesQuietly : ∀ g, Source.ClosesQuietly g → Source.ClosesQuietly (source g)
  breaksOff : ∀ faults g text, Source.BreaksOff faults g text →
    Source.BreaksOff faults (source g) (config.decoded text)

/-- Whether an opened gzip file can be used as a document depends on the name of the encoding. -/
theorem inFront_cases (config : Config) :
    (∃ name, ∀ g, config.inFront g = .error (.opening config.path (.unknownEncoding name))) ∨
      ∃ source, config.Presents source ∧ ∀ g, config.inFront g = .ok (source g) := by
  have hraw : Source.Embeds (Sum.inr : GzipSource → RawSource) := Source.embeds_inr
  have hplain : Source.Embeds (Sum.inl : RawSource → DocumentSource) := Source.embeds_inl
  have hcoded : Source.Embeds (Sum.inr : Decoder RawSource → DocumentSource) := Source.embeds_inr
  rcases hname : config.encoding with _ | name
  · have hdecoded : config.decoded = id := by
      funext text
      rw [decoded, hname]
      rfl
    refine .inr ⟨fun g => .inl (.inr g), ⟨?_, ?_, ?_⟩, fun g => by rw [inFront, hname]⟩
    · intro g text h
      rw [hdecoded]
      exact hplain.deliversBut (hraw.deliversBut h)
    · intro g h
      exact hplain.closesQuietly (hraw.closesQuietly h)
    · intro faults g text h
      rw [hdecoded]
      exact hplain.breaksOff (hraw.breaksOff h)
  · rcases hknown : Encoding.ofName? name with _ | encoding
    · refine .inl ⟨name, fun g => ?_⟩
      rw [inFront, hname]
      simp only [Decoder.ofSource, hknown, Except.map]
    · have hdecoded : config.decoded = encoding.decode := by
        funext text
        rw [decoded, hname, Option.bind_some, hknown]
      refine .inr ⟨fun g => .inr { inner := .inr g, encoding }, ⟨?_, ?_, ?_⟩, fun g => ?_⟩
      · intro g text h
        rw [hdecoded]
        exact hcoded.deliversBut (Decoder.delivers (hraw.deliversBut h) encoding)
      · intro g h
        exact hcoded.closesQuietly (Decoder.closesQuietly (hraw.closesQuietly h) encoding)
      · intro faults g text h
        have hbegins := encoding.complete_isPrefix text []
        rw [List.append_nil] at hbegins
        rw [hdecoded]
        exact hcoded.breaksOff ((Decoder.breaksOff (hraw.breaksOff h) encoding).mono hbegins)
      · rw [inFront, hname]
        simp only [Decoder.ofSource, hknown, Except.map]

/-- A document whose file breaks off is refused, or it breaks off as well. -/
theorem openSource_of_breaksOff (hz : config.compressed = true) {g : GzipSource}
    (hg : GzipSource.ofPath fs config.path = .ok g) {faults : Error → Prop}
    (h : Source.BreaksOff faults g text) :
    (∃ fault, config.openSource fs = .error (.opening config.path fault)) ∨
      ∃ source, config.openSource fs = .ok source ∧
        Source.BreaksOff faults source (config.decoded text) := by
  rw [openSource_gzip hz, hg]
  rcases config.inFront_cases with ⟨name, hfront⟩ | ⟨source, hpresents, hfront⟩
  · exact .inl ⟨_, hfront g⟩
  · exact .inr ⟨source g, hfront g, hpresents.breaksOff faults g text h⟩

end Config

end TextLines

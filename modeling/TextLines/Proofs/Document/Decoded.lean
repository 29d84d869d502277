import TextLines.Proofs.Document.Rendering
import TextLines.Proofs.Line.Decoding

/-!
# Decoded documents

The same bytes can be read as they are and through a decoder, and if the units of the character set
are single bytes the two documents have the same lines, each of them decoded by itself
(`Session.decoded_lines`). How the bytes reach the documents and how much these ask for at a time
makes no difference.

A document is known by the text that it is opened for (`Session.OpensText`). It shows lines if all
of its views are those of these lines (`Session.Shows`); it can show none at all if there is no
memory for a buffer.
-/

namespace TextLines

open Bytes
open Files (FileSystem)
open Line (isTerminator)

/-! ## Names -/

/-- The encodings that keep ASCII where it is are character sets of single bytes. -/
theorem Encoding.exists_narrow_of_name : ∀ name ∈ ["UTF-8", "US-ASCII", "ISO-8859-1", "ISO-8859-2",
    "ISO-8859-15", "WINDOWS-1251", "WINDOWS-1252", "KOI8-R"],
      ∃ charset : Charset, charset.Narrow ∧ ofName? (ascii name) = some (.plain charset) := by
  simp only [List.forall_mem_cons]
  refine ⟨⟨.utf8, .utf8, ?_⟩, ⟨.ascii, .ascii, ?_⟩, ⟨_, .oneByte .latin1, ?_⟩,
    ⟨_, .oneByte .latin2, ?_⟩, ⟨_, .oneByte .latin9, ?_⟩, ⟨_, .oneByte .windows1251, ?_⟩,
    ⟨_, .oneByte .windows1252, ?_⟩, ⟨_, .oneByte .koi8R, ?_⟩, List.forall_mem_nil _⟩
  all_goals
    rw [ofName?, normalName, dropOptions_of_lt (by decide)]
    decide

namespace Session

variable {ω ω' σ τ : Type} [Source σ] [Source τ]

/-! ## Documents that give a text -/

/-- A source that gives the text is opened whenever one is opened for the document. -/
def OpensText (s : Session ω σ) (text : Bytes) : Prop :=
  ∃ source, s.opener s.config s.world = .ok (some source) ∧ Source.Gives source text

/-- A decoder is opened whenever a source is opened for the document, in front of one that gives the
data. -/
inductive OpensDecoder (s : Session ω σ) (encoding : Encoding) (data : Bytes) : Prop where
  | intro {ι : Type} [Source ι] {inner : ι} {f : Decoder ι → σ} (hgives : Source.Gives inner data)
      (hf : Source.Embeds f)
      (hopen : s.opener s.config s.world = .ok (some (f { inner, encoding })))

theorem OpensDecoder.opensText {s : Session ω σ} {encoding : Encoding} {data : Bytes}
    (h : s.OpensDecoder encoding data) : s.OpensText (encoding.decode data) := by
  obtain ⟨hgives, hf, hopen⟩ := h
  exact ⟨_, hopen, hf.gives ⟨Decoder.delivers hgives.delivers encoding,
    Decoder.closesQuietly hgives.closesQuietly encoding⟩⟩

/-- A document in a file that holds bytes gives them, if no encoding is declared. -/
theorem opensText_of_holds {config : Config} {fs : FileSystem} {data : Bytes}
    (hname : config.encoding = none) (h : config.Holds fs data) :
    (ofFile config fs).OpensText data := by
  obtain ⟨raw, hraw, hgives⟩ := h.exists_raw
  refine ⟨.inl raw, ?_, Source.embeds_inl.gives hgives⟩
  simp only [ofFile, Config.openSource, hraw, hname, Except.map]

/-- A document in a file that holds bytes has a decoder in front of them, if a known encoding is
declared. -/
theorem opensDecoder_of_holds {config : Config} {fs : FileSystem} {data name : Bytes}
    {encoding : Encoding} (hname : config.encoding = some name)
    (hknown : Encoding.ofName? name = some encoding) (h : config.Holds fs data) :
    (ofFile config fs).OpensDecoder encoding data := by
  obtain ⟨raw, hraw, hgives⟩ := h.exists_raw
  refine .intro hgives Source.embeds_inr ?_
  simp only [ofFile, Config.openSource, hraw, hname, Decoder.ofSource, hknown, Except.map]

/-! ## Documents that show lines -/

variable [Room]

/-- All views of the document are those of the lines, or there is no memory for a buffer and they
fail. -/
inductive Shows (s : Session ω σ) (lines : List Bytes) : Prop where
  | agrees {bytes : Nat} (hroom : s.config.chunkBytes < Room.limit)
      (hcollect : (s.step .collect).1 = .collected lines bytes) (hviews : s.AgreesOn lines)
  | refused {e : Error} (hlarge : Room.limit ≤ s.config.chunkBytes)
      (hcollect : (s.step .collect).1 = .failed e) (hviews : s.FailsWith e)

/-- A document that gives a text shows its lines. -/
theorem OpensText.shows {s : Session ω σ} {text : Bytes} (h : s.OpensText text)
    (hunknown : s.lineCount = none)
    (hfits : ∀ line ∈ Line.cut text, Splitter.Fits s.config.maxLineBytes line.length) :
    s.Shows (Line.cut text) := by
  obtain ⟨source, hopen, hgives⟩ := h
  rcases Nat.lt_or_ge s.config.chunkBytes Room.limit with hroom | hlarge
  · obtain ⟨bytes, hcollect⟩ := collect_of_text source hopen hgives hroom hfits
    have hcloses : ∀ opened, s.opener s.config s.world = .ok (some opened) →
        ∃ closing, Source.ClosesWith closing opened := by
      intro opened hopened
      obtain rfl := Option.some.inj (Except.ok.inj (hopen.symm.trans hopened))
      exact ⟨none, hgives.closesQuietly⟩
    rcases views_agree (s := s) ⟨rfl, rfl, rfl⟩ hunknown hcloses with
      ⟨lines, bytes', hcollect', hviews⟩ | ⟨e, hfailed, -⟩
    · obtain ⟨rfl, -⟩ := Answer.collected.inj (hcollect.symm.trans hcollect')
      exact .agrees hroom hcollect hviews
    · cases hcollect.symm.trans hfailed
  · obtain ⟨e, he⟩ := Config.cursor_of_le (σ := σ) hlarge
    have hcursor : s.openCursor.1 = .error e := by
      rw [openCursor, hopen]
      exact he source
    refine .refused hlarge ?_ (failsWith_of_refused hunknown hcursor)
    exact congrArg (answer fun r : List Bytes × Nat => .collected r.1 r.2)
      (runPass_of_refused hcursor _)

/-! ## Decoded documents -/

/-- In a character set of single bytes a document that is decoded has the lines of one that is not,
each decoded by itself: in the sets in which every character is one byte every line, and in UTF-8
the lines that are UTF-8, which come out as they are. No terminator is swallowed and none is
made. -/
theorem decoded_lines {charset : Charset} (hnarrow : charset.Narrow) {data : Bytes}
    {s : Session ω σ} {t : Session ω' τ} (hs : s.OpensDecoder (.plain charset) data)
    (ht : t.OpensText data) (hsunknown : s.lineCount = none) (htunknown : t.lineCount = none)
    (hsfits : ∀ line ∈ Line.cut (charset.decode data),
      Splitter.Fits s.config.maxLineBytes line.length)
    (htfits : ∀ line ∈ Line.cut data, Splitter.Fits t.config.maxLineBytes line.length) :
    ∃ raw decoded : List Bytes, t.Shows raw ∧ s.Shows decoded ∧ raw = Line.cut data ∧
      decoded.length = raw.length ∧
      (charset ≠ .utf8 → decoded = raw.map charset.decode) ∧
      (charset = .utf8 → ∀ (i : Nat) (line : Bytes), raw[i]? = some line →
        Charset.utf8.Accepts line → decoded[i]? = some line) ∧
      (charset.decode data).filter isTerminator = data.filter isTerminator := by
  have htext := hs.opensText
  rw [Encoding.decode_plain] at htext
  have hcut := hnarrow.cut_decode data
  refine ⟨_, _, ht.shows htunknown htfits, htext.shows hsunknown hsfits, rfl, hcut.length_eq.symm,
    fun hne => ?_, ?_, hnarrow.filter_decode data⟩
  · refine List.forall₂_eq_eq_eq ▸ (List.forall₂_map_right_iff.mpr ?_)
    exact hcut.flip.imp fun out line hline => hline (hnarrow.whole hne line)
  · rintro rfl i line hline haccepts
    obtain ⟨hi, rfl⟩ := List.getElem?_eq_some_iff.mp hline
    have hi' : i < (Line.cut (Charset.utf8.decode data)).length := hcut.length_eq ▸ hi
    have hdecode := hcut.get hi hi' haccepts.whole
    exact List.getElem?_eq_some_iff.mpr ⟨hi', hdecode.trans haccepts.decode_utf8⟩

omit [Room] in
/-- A file in which two lines end inside a character and one does not, read two bytes at a time and
five at a time. -/
theorem decoded_lines_cut_characters :
    let _ : Room := .ample
    let data : Bytes := [0xe2, 0x82, lf, 0xc3, 0xa9, cr, lf, 0xf0, 0x9f, cr, 0xff]
    let fs := FileSystem.single (ascii "f") data
    let s := ofFile { path := ascii "f", encoding := some (ascii "UTF-8"), chunkBytes := 2 } fs
    let t := ofFile { path := ascii "f", chunkBytes := 5 } fs
    s.OpensDecoder (.plain .utf8) data ∧ t.OpensText data ∧
      ∃ raw decoded : List Bytes, t.Shows raw ∧ s.Shows decoded ∧ raw.length = 4 ∧
        decoded.length = 4 ∧ decoded[1]? = some [0xc3, 0xa9] := by
  intro _ data fs s t
  have hknown : Encoding.ofName? (ascii "UTF-8") = some (.plain .utf8) := by
    rw [Encoding.ofName?, Encoding.normalName, Encoding.dropOptions_of_lt (by decide)]
    decide
  have hs : s.OpensDecoder (.plain .utf8) data :=
    opensDecoder_of_holds rfl hknown (.plain rfl (Files.openFile_single data))
  have ht : t.OpensText data := opensText_of_holds rfl (.plain rfl (Files.openFile_single data))
  have haccepts : Charset.utf8.Accepts [0xc3, 0xa9] := Charset.accepts_utf8 ['é']
  obtain ⟨raw, decoded, hraw, hdecoded, rfl, hlength, -, hline, -⟩ := decoded_lines .utf8 hs ht rfl
    rfl (fun _ _ => .inl rfl) fun _ _ => .inl rfl
  have hfour : (Line.cut data).length = 4 := by decide
  exact ⟨hs, ht, _, decoded, hraw, hdecoded, hfour, hlength.trans hfour,
    hline rfl 1 _ (by decide) haccepts⟩

end Session

end TextLines

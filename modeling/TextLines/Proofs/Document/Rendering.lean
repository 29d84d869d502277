import TextLines.Proofs.Document.Carrying
import TextLines.Proofs.Document.Views
import TextLines.Proofs.Line.Joining

/-!
# Rendered documents

A rendering has a line feed between neighbouring lines and none behind the last, and so it can be
split into the lines again (`Session.render_splits`). One document cannot be told from its
rendering: a single empty line is rendered like no lines at all
(`Session.render_of_empty_line`).
-/

namespace TextLines

open Bytes
open Files (FileSystem)

namespace Session

variable {ω σ : Type} [Source σ]

variable [Room]

theorem step_collect {s : Session ω σ} {c : Cursor σ} (h : s.openCursor.1 = .ok c) :
    (s.step .collect).1 = answer (fun r : List Bytes × Nat => .collected r.1 r.2)
      ((Pass.collect c).result.map fun lines => (lines, (Pass.collect c).cursor.bytesRead)) :=
  congrArg (answer fun r : List Bytes × Nat => .collected r.1 r.2) (runPass_of_opened h _)

/-- The lines of a text are collected if they are not too long. -/
theorem collect_of_text {s : Session ω σ} (source : σ) {text : Bytes}
    (hopen : s.opener s.config s.world = .ok (some source)) (h : Source.Gives source text)
    (hroom : s.config.chunkBytes < Room.limit)
    (hfits : ∀ line ∈ Line.cut text, Splitter.Fits s.config.maxLineBytes line.length) :
    ∃ bytes, (s.step .collect).1 = .collected (Line.cut text) bytes := by
  have hcursor : s.openCursor.1 = .ok
      (.ofSource source s.config.chunkBytes s.config.maxLineBytes) := by
    rw [openCursor, hopen]
    exact Config.cursor_of_lt hroom source
  rw [step_collect hcursor, Pass.collect_of_fits h s.config.chunkBytes hfits]
  exact ⟨_, rfl⟩

/-- The lines of a plain file are collected if there is no limit. -/
theorem collect_of_file (config : Config) {fs : FileSystem} {content : Bytes}
    (hroom : config.chunkBytes < Room.limit) (hunlimited : config.maxLineBytes = 0)
    (hplain : config.compressed = false ∧ config.encoding = none)
    (hfile : fs.openFile config.path = .ok (.content content)) :
    ∃ bytes, ((ofFile config fs).step .collect).1 = .collected (Line.cut content) bytes := by
  obtain ⟨source, hopen, hgives⟩ := Config.exists_source_of_plain hplain.1 hplain.2 hfile
  refine collect_of_text source ?_ hgives hroom fun _ _ => .inl hunlimited
  simp only [ofFile, hopen, Except.map]

/-- Lines that have been collected hold no terminators, and the document is rendered as the text
that they are joined to. -/
theorem render_of_collected {s t : Session ω σ} {lines : List Bytes} {bytes : Nat}
    (hsame : s.SameFile t) (h : (s.step .collect).1 = .collected lines bytes) :
    (∀ line ∈ lines, Line.Unterminated line) ∧
      (t.step .render).1 = .text ([lf].intercalate lines) := by
  rcases hopen : s.openCursor.1 with e | c
  · have hcollect := congrArg (answer fun r : List Bytes × Nat => .collected r.1 r.2)
      (runPass_of_refused hopen fun c => (Pass.collect c).map fun lines =>
        (lines, (Pass.collect c).cursor.bytesRead))
    cases h.symm.trans hcollect
  · obtain ⟨source, -, rfl⟩ := eq_ofSource_of_openCursor hopen
    obtain ⟨handed, failure, c', hhands⟩ := Cursor.exists_hands
      (Cursor.ofSource source s.config.chunkBytes s.config.maxLineBytes)
    rw [step_collect hopen, Pass.collect_of_hands hhands rfl, okUnless_map] at h
    cases failure with
    | some e => cases h
    | none =>
      obtain ⟨hhanded, -⟩ := Answer.collected.inj h
      subst hhanded
      have hrender : (t.runPass Pass.render).1 = .ok ([lf].intercalate handed) :=
        (runPass_of_opened (hsame.openCursor.trans hopen) Pass.render).trans
          (Pass.render_of_hands hhands rfl)
      exact ⟨hhands.unterminated rfl, congrArg (answer .text) hrender⟩

/-- The lines that are collected of a document are the pieces of its rendering at another time, but
for a single empty line. So documents are rendered alike if and only if they have the same lines, or
one of them has no lines and the other a single empty line. -/
theorem render_splits {s t : Session ω σ} {lines : List Bytes} {bytes : Nat}
    (hsame : s.SameFile t) (h : (s.step .collect).1 = .collected lines bytes) :
    ∃ text, (t.step .render).1 = .text text ∧
      Line.split text = (if lines = [[]] then [] else lines) ∧
      ∀ {ω' σ' : Type} [Source σ'] (s' t' : Session ω' σ') (lines' : List Bytes) (bytes' : Nat),
        s'.SameFile t' → (s'.step .collect).1 = .collected lines' bytes' →
          ((t'.step .render).1 = .text text ↔
            lines' = lines ∨ (lines' = [] ∧ lines = [[]]) ∨ (lines' = [[]] ∧ lines = [])) := by
  obtain ⟨hlines, hrender⟩ := render_of_collected hsame h
  refine ⟨[lf].intercalate lines, hrender, Line.split_intercalate hlines, ?_⟩
  intro ω' σ' _ s' t' lines' bytes' hsame' h'
  obtain ⟨hlines', hrender'⟩ := render_of_collected hsame' h'
  rw [hrender', ← Line.intercalate_eq_iff hlines' hlines]
  exact ⟨fun heq => Answer.text.inj heq, fun heq => congrArg Answer.text heq⟩

omit [Room] in
/-- A file that begins and ends with empty lines, and another with one more of them. -/
theorem render_splits_empty_ends :
    let _ : Room := .ample
    let config : Config := { path := ascii "f", chunkBytes := 2 }
    let s := ofFile config (FileSystem.single (ascii "f") (ascii "\r\nab\n\n"))
    let other := ofFile config (FileSystem.single (ascii "f") (ascii "\rab\r\r\n\n"))
    s.SameFile (s.step .collect).2 ∧
      ∃ bytes, (s.step .collect).1 = .collected [[], ascii "ab", []] bytes ∧
        ∃ text, ((s.step .collect).2.step .render).1 = .text text ∧
          Line.split text = [[], ascii "ab", []] ∧ (other.step .render).1 ≠ .text text := by
  intro _ config s other
  have hsame : s.SameFile (s.step .collect).2 := sameFile_runPass s _
  obtain ⟨bytes, hcollect⟩ := collect_of_file config (by decide) rfl ⟨rfl, rfl⟩
    (Files.openFile_single (ascii "\r\nab\n\n"))
  obtain ⟨bytes', hother⟩ := collect_of_file config (by decide) rfl ⟨rfl, rfl⟩
    (Files.openFile_single (ascii "\rab\r\r\n\n"))
  obtain ⟨text, hrender, hsplit, hcompare⟩ := render_splits hsame hcollect
  refine ⟨hsame, bytes, hcollect, text, hrender, hsplit, fun hequal => ?_⟩
  have hlines := (hcompare other other _ _ ⟨rfl, rfl, rfl⟩ hother).mp hequal
  revert hlines
  decide

omit [Room] in
/-- A file with a single empty line is rendered like an empty file. -/
theorem render_of_empty_line :
    let _ : Room := .ample
    let config : Config := { path := ascii "f" }
    let s := ofFile config (FileSystem.single (ascii "f") (ascii "\n"))
    let other := ofFile config (FileSystem.single (ascii "f") [])
    (∃ bytes, (s.step .collect).1 = .collected [[]] bytes) ∧ (s.step .render).1 = .text [] ∧
      Line.split [] ≠ [[]] ∧
      (∃ bytes, (other.step .collect).1 = .collected [] bytes) ∧
        (other.step .render).1 = .text [] := by
  intro _ config s other
  obtain ⟨bytes, hcollect⟩ := collect_of_file config (by decide) rfl ⟨rfl, rfl⟩
    (Files.openFile_single (ascii "\n"))
  obtain ⟨bytes', hother⟩ := collect_of_file config (by decide) rfl ⟨rfl, rfl⟩
    (Files.openFile_single [])
  exact ⟨⟨bytes, hcollect⟩, (render_of_collected ⟨rfl, rfl, rfl⟩ hcollect).2, by decide,
    ⟨bytes', hother⟩, (render_of_collected ⟨rfl, rfl, rfl⟩ hother).2⟩

end Session

end TextLines

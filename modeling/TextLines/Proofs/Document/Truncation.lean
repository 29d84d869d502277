import TextLines.Proofs.CommandLine.Arguments
import TextLines.Proofs.CommandLine.Running
import TextLines.Proofs.Document.Compressed
import TextLines.Proofs.Document.ConfigFile

/-!
# Files that have been cut off

A gzip file that ends inside one of its members is refused when it is opened, or it breaks off: the
end of its text is never reported, neither by a pass over the document nor by a stream nor by a run
of the program, and the lines that are seen before the failure are settled.

That needs memory for a chunk. A chunk that is too large is a failure of another kind, which has
nothing to do with the file (`torn_chunkTooLarge`).
-/

namespace TextLines

open Gzip (Packed fileOf textOf Unpacks)
open Files (FileSystem)

/-- The bytes begin like a file of members, and they end inside one of them or in front of the
first. -/
structure Gzip.Torn (members : List Packed) (bytes : Bytes) : Prop where
  isPrefix : bytes <+: fileOf members
  inside : ∀ k, 0 < k → bytes ≠ fileOf (members.take k)

variable {members : List Packed} {bytes : Bytes} {config : Config} {fs : FileSystem}

/-- A file that ends inside a member is refused or it breaks off. -/
theorem Config.openSource_torn (h : Gzip.Torn members bytes) (hz : config.compressed = true)
    (hfile : fs.openFile config.path = .ok (.content bytes)) :
    (∃ fault, config.openSource fs = .error (.opening config.path fault)) ∨
      ∃ source, config.openSource fs = .ok source ∧
        Source.BreaksOff Error.IsReading source (config.decoded (textOf members)) := by
  obtain ⟨text, htext, hunpacks⟩ := Gzip.unpacks_torn h.isPrefix h.inside
  rcases hg : GzipSource.ofPath fs config.path with e | g
  · obtain ⟨fault, rfl⟩ := GzipSource.isOpening_of_ofPath hg hfile
    rw [openSource_gzip hz, hg]
    exact .inl ⟨fault, rfl⟩
  · obtain ⟨howes, -, -⟩ := GzipSource.owes_of_ofPath hg hfile hunpacks
    have hbreaks : Source.BreaksOff Error.IsReading g (textOf members) :=
      ((GzipSource.breaksOff_of_incomplete howes fun behind hc => by cases hc).mono htext).imp
        fun e he => ⟨_, he⟩
    exact openSource_of_breaksOff hz hg hbreaks

/-- The beginning of a single member. -/
theorem Gzip.torn_take {p : Packed} {n : Nat} (h : n < p.bytes.length) :
    Torn [p] ((fileOf [p]).take n) := by
  have hfile : fileOf [p] = p.bytes := List.append_nil _
  refine ⟨List.take_prefix _ _, fun k hk heq => ?_⟩
  rw [List.take_of_length_le (i := k) (l := [p]) hk] at heq
  have hshort := congrArg List.length heq
  rw [hfile, List.length_take, Nat.min_eq_left h.le] at hshort
  exact h.ne hshort

/-- All of a member is there but the last half of its trailer. -/
theorem Gzip.torn_trailer :
    Torn [.stored (Bytes.ascii "ab\ncd")] ((fileOf [.stored (Bytes.ascii "ab\ncd")]).take 24) := by
  refine torn_take ?_
  rw [Packed.length_bytes_stored (by decide)]
  decide

/-- A source is opened for the beginning of a file if the fixed part of the first header is
there. -/
theorem Config.openSource_take {p : Packed} {others : List Packed} {n : Nat} (hn : 10 ≤ n)
    (hz : config.compressed = true) (hplain : config.encoding = none)
    (hfile : fs.openFile config.path = .ok (.content ((fileOf (p :: others)).take n))) :
    ∃ source, config.openSource fs = .ok source := by
  have hbegins : p.bytes.take 10 <+: (fileOf (p :: others)).take n := by
    have hfile : p.bytes.take 10 <+: fileOf (p :: others) :=
      (List.take_prefix _ _).trans (List.prefix_append _ _)
    exact List.prefix_take_iff.mpr ⟨hfile, (List.length_take_le _ _).trans hn⟩
  obtain ⟨g, hg⟩ := GzipSource.exists_ofPath hfile hbegins
  have hfront : config.inFront g = .ok (.inl (.inr g)) := by rw [inFront, hplain]
  refine ⟨.inl (.inr g), ?_⟩
  rw [openSource_gzip hz, hg]
  exact hfront

/-- A document in a file that ends inside a member never ends. -/
theorem Config.torn_never_ends [Room] [JsonReader] (h : Gzip.Torn members bytes)
    (hz : config.compressed = true)
    (hfile : fs.openFile config.path = .ok (.content bytes)) :
    config.NeverEnds fs (config.decoded (textOf members)) :=
  neverEnds_of_opened (openSource_torn h hz hfile)

/-- All of the text has been read when the rest of the trailer is missed. -/
theorem Config.torn_never_ends_trailer :
    let _ : Room := .ample
    let _ : JsonReader := .grammar
    let bytes := (fileOf [.stored (Bytes.ascii "ab\ncd")]).take 24
    let config : Config := { path := Bytes.ascii "f", compressed := true }
    let fs := FileSystem.single (Bytes.ascii "f") bytes
    Gzip.Torn [.stored (Bytes.ascii "ab\ncd")] bytes ∧ config.compressed = true ∧
      fs.openFile config.path = .ok (.content bytes) ∧
      (∃ source, config.openSource fs = .ok source ∧
        config.GoesOn fs source (Bytes.ascii "ab\ncd")) ∧
      (run {} fs [Bytes.ascii "--gzip", Bytes.ascii "f"]).1.status = 2 := by
  intro _ _ bytes config fs
  have hfile : fs.openFile config.path = .ok (.content bytes) := Files.openFile_single bytes
  have hz : config.compressed = true := rfl
  obtain ⟨source, hopen⟩ := openSource_take (by decide) hz rfl hfile
  obtain ⟨hopened, -, hrun⟩ := torn_never_ends Gzip.torn_trailer hz hfile
  refine ⟨Gzip.torn_trailer, hz, hfile, ?_, ?_⟩
  · refine hopened.resolve_left ?_
    rintro ⟨fault, hrefused⟩
    rw [hopen] at hrefused
    cases hrefused
  · let o : Options :=
      { mode := .count, encoding := none, compressed := some true, chunkBytes := 65536,
        maxLineBytes := 0, reportRoot := [], naming := .canonicalPath, slugLength := 12,
        files := [Bytes.ascii "f"] }
    have ho : Options.ofArguments (Config.load fs) [Bytes.ascii "--gzip", Bytes.ascii "f"] =
        .ok o :=
      Options.ofArguments_of_no_config (by decide) rfl _
    exact hrun o {} fs [] [] rfl rfl _ ho

/-- Without memory for a chunk nothing is read, so that no read can fail. -/
theorem Config.torn_chunkTooLarge :
    let _ : Room := .ample
    let bytes := (fileOf [.stored (Bytes.ascii "ab\ncd")]).take 24
    let config : Config :=
      { path := Bytes.ascii "f", compressed := true, chunkBytes := 0x8000000000000000 }
    let fs := FileSystem.single (Bytes.ascii "f") bytes
    Gzip.Torn [.stored (Bytes.ascii "ab\ncd")] bytes ∧
      fs.openFile config.path = .ok (.content bytes) ∧
      ¬ ((∃ fault, config.openSource fs = .error (.opening config.path fault)) ∨
        ∃ e, ((Session.ofFile config fs).step .count).1 = .failed e ∧ e.IsReading) := by
  intro _ bytes config fs
  have hfile : fs.openFile config.path = .ok (.content bytes) := Files.openFile_single bytes
  refine ⟨Gzip.torn_trailer, hfile, ?_⟩
  obtain ⟨source, hopen⟩ := openSource_take (by decide) (rfl : config.compressed = true) rfl hfile
  have hcursor : config.cursor ((config.openSource fs).map some) = .error .chunkTooLarge := by
    rw [hopen]
    exact cursor_of_maxChunk_le (Nat.le_refl maxChunk) source
  have hcount : ((Session.ofFile config fs).step .count).1 = .failed .chunkTooLarge := by
    simp only [Session.step, Session.count, Session.runPass, Session.openCursor, Session.ofFile,
      hcursor, Session.answer]
  rintro (⟨fault, hrefused⟩ | ⟨e, he, fault, rfl⟩)
  · rw [hopen] at hrefused
    cases hrefused
  · rw [hcount] at he
    cases he

end TextLines

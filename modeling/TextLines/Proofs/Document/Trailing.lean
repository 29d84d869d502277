import TextLines.Proofs.Document.Alike
import TextLines.Proofs.Document.ConfigFile

/-!
# Files with other bytes behind their members

What stands behind the members of a gzip file is no text. It is passed over if it begins with any
byte but the first one of a member, and then the file is read like the file without it. A reader
that meets this byte does not look at the next one. It takes what follows for a member, finds it
damaged, and the document never ends.

`trailing_ignored_iff` says this of the reads, of the passes and of the program.
-/

namespace TextLines

open Gzip (Packed Unpacks fileOf textOf)
open Files (FileSystem)
open Source (Drains)

variable {members : List Packed} {behind : Bytes} {config : Config} {fs fs' : FileSystem}

theorem GzipSource.gives_of_owes {g : GzipSource} {text : Bytes}
    (h : g.Owes text (.complete behind)) : Source.Gives g text :=
  ⟨⟨_, delivery_owes behind, h⟩, closesQuietly g⟩

/-- Documents in gzip files that give the same text open alike. -/
theorem Config.opensAlike_of_gives (hz : config.compressed = true) {g g' : GzipSource}
    {text : Bytes} (hg : GzipSource.ofPath fs config.path = .ok g)
    (hg' : GzipSource.ofPath fs' config.path = .ok g') (h : Source.Gives g text)
    (h' : Source.Gives g' text) : config.OpensAlike fs fs' := by
  rw [OpensAlike, openSource_gzip hz, openSource_gzip hz, hg, hg']
  rcases config.inFront_cases with ⟨name, hfront⟩ | ⟨source, hpresents, hfront⟩
  · exact .inl ⟨_, hfront g, hfront g'⟩
  · refine .inr ⟨source g, source g', config.decoded text, hfront g, hfront g', ?_, ?_⟩
    · exact ⟨hpresents.delivers g text h.delivers, hpresents.closesQuietly g h.closesQuietly⟩
    · exact ⟨hpresents.delivers g' text h'.delivers, hpresents.closesQuietly g' h'.closesQuietly⟩

/-- Bytes behind the members of a file, which are not the beginning of another member, are ignored
if and only if they do not begin with the first byte of one. If they are, the file is read like the
file without them. If they are not, all reads to the end of the file fail after a part of the text,
and the document never ends. -/
theorem Config.trailing_ignored_iff [Room] [JsonReader] (hne : members ≠ [])
    (hlen : 2 ≤ behind.length)
    (hmagic : behind.take 2 ≠ [0x1f, 0x8b]) (hz : config.compressed = true)
    (hfile : fs.openFile config.path = .ok (.content (fileOf members)))
    (hfile' : fs'.openFile config.path = .ok (.content (fileOf members ++ behind))) :
    ∃ g, GzipSource.ofPath fs' config.path = .ok g ∧
      (∀ sizes : Nat → Nat, (∀ k, 0 < sizes k) →
        (Drains sizes g (textOf members) ↔ behind.head? ≠ some 0x1f)) ∧
      (behind.head? ≠ some 0x1f → config.ReadsAlike fs' fs) ∧
      (behind.head? = some 0x1f →
        (∀ sizes : Nat → Nat, (∀ k, 0 < sizes k) →
          ∃ k e, Source.nthRead sizes g k = .error e ∧ e.IsReading ∧
            Source.received sizes g k <+: textOf members) ∧
        config.NeverEnds fs' (config.decoded (textOf members))) := by
  obtain ⟨g', hg', hcomplete, hdamaged⟩ := GzipSource.owes_trailing hne hlen hmagic hfile'
  refine ⟨g', hg', fun sizes hpos => GzipSource.drains_trailing_iff hcomplete hdamaged hpos,
    fun hhead => ?_, fun hhead => ?_⟩
  · have hunpacks : Unpacks {} (.ofBytes (fileOf members ++ [])) (textOf members) (.complete []) :=
      Gzip.unpacks_members hne (by simp)
    obtain ⟨g, hg, howes, -⟩ :=
      GzipSource.exists_owes hne ((List.append_nil (fileOf members)).symm ▸ hfile) hunpacks
    exact (opensAlike_of_gives hz hg' hg (GzipSource.gives_of_owes (hcomplete hhead))
      (GzipSource.gives_of_owes howes)).readsAlike
  · have hbreaks : Source.BreaksOff Error.IsReading g' (textOf members) :=
      (GzipSource.breaksOff_of_incomplete (hdamaged hhead) fun behind h => by cases h).imp
        fun e he => he.elim (fun he => ⟨_, he⟩) fun he => ⟨_, he⟩
    refine ⟨fun sizes hpos => ?_, neverEnds_of_opened (openSource_of_breaksOff hz hg' hbreaks)⟩
    obtain ⟨k, e, hfails, hreading, hbegins, -⟩ := hbreaks.reads hpos
    exact ⟨k, e, hfails, hreading, hbegins⟩

/-- Zero bytes behind a member, as they are written to fill a block. -/
theorem Config.trailing_ignored_zeros :
    let _ : Room := .ample
    let _ : JsonReader := .grammar
    let members : List Packed := [.stored (Bytes.ascii "a\n")]
    let behind : Bytes := [0, 0]
    let config : Config := { path := Bytes.ascii "f", compressed := true }
    let fs := FileSystem.single (Bytes.ascii "f") (fileOf members)
    let fs' := FileSystem.single (Bytes.ascii "f") (fileOf members ++ behind)
    members ≠ [] ∧ 2 ≤ behind.length ∧ behind.take 2 ≠ [0x1f, 0x8b] ∧ config.compressed = true ∧
      fs.openFile config.path = .ok (.content (fileOf members)) ∧
      fs'.openFile config.path = .ok (.content (fileOf members ++ behind)) ∧
      (∃ g, GzipSource.ofPath fs' config.path = .ok g ∧
        Drains (fun _ => 16) g (Bytes.ascii "a\n")) ∧ config.ReadsAlike fs' fs := by
  intro _ _ members behind config fs fs'
  have hne : members ≠ [] := by simp [members]
  have hlen : 2 ≤ behind.length := by decide
  have hmagic : behind.take 2 ≠ [0x1f, 0x8b] := by decide
  have hfile := Files.openFile_single (fileOf members)
  have hfile' := Files.openFile_single (fileOf members ++ behind)
  have hz : config.compressed = true := rfl
  obtain ⟨g, hg, hdrains, halike, -⟩ := trailing_ignored_iff hne hlen hmagic hz hfile hfile'
  have hhead : behind.head? ≠ some 0x1f := by decide
  exact ⟨hne, hlen, hmagic, hz, hfile, hfile',
    ⟨g, hg, (hdrains (fun _ => 16) fun _ => by decide).mpr hhead⟩, halike hhead⟩

/-- Two bytes behind a member, the first of which is that of a member. -/
theorem Config.trailing_not_ignored :
    let members : List Packed := [.stored (Bytes.ascii "a\n")]
    let behind : Bytes := [0x1f, 0]
    let fs := FileSystem.single (Bytes.ascii "f") (fileOf members ++ behind)
    members ≠ [] ∧ 2 ≤ behind.length ∧ behind.take 2 ≠ [0x1f, 0x8b] ∧
      fs.openFile (Bytes.ascii "f") = .ok (.content (fileOf members ++ behind)) ∧
      ∃ g, GzipSource.ofPath fs (Bytes.ascii "f") = .ok g ∧
        ¬ Drains (fun _ => 16) g (textOf members) := by
  intro members behind fs
  have hne : members ≠ [] := by simp [members]
  have hlen : 2 ≤ behind.length := by decide
  have hmagic : behind.take 2 ≠ [0x1f, 0x8b] := by decide
  have hfile := Files.openFile_single (fileOf members ++ behind)
  obtain ⟨g, hg, hcomplete, hdamaged⟩ := GzipSource.owes_trailing hne hlen hmagic hfile
  refine ⟨hne, hlen, hmagic, hfile, g, hg, fun hdrains => ?_⟩
  have hhead := (GzipSource.drains_trailing_iff hcomplete hdamaged fun _ => by decide).mp hdrains
  exact hhead rfl

end TextLines

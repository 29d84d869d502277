import Mathlib.Data.List.Basic
import TextLines.Proofs.Gzip.Streaming
import TextLines.Proofs.Source.Breaking

/-!
# Files of members

What a source hands out over a file of well-formed members. If nothing stands behind the members,
or nothing that begins like a member, the reads give what the members hold, to the byte, and then
the end (`reads_members`, `drains_of_complete`). A file that is not complete never comes to an end:
after a beginning of its text a read fails (`breaksOff_of_incomplete`).

Whether another member follows is decided by one byte. So a file with other bytes behind its members
is read to its end if and only if these do not happen to begin with that byte
(`drains_trailing_iff`).
-/

namespace TextLines

open Gzip (Bits Member Ending Unpacks Packed fileOf textOf)
open Files (FileSystem)

/-- A tree with one file in its root. -/
def Files.FileSystem.single (name content : Bytes) : FileSystem where
  tree := .branch name (some (.file content)) .empty .empty
  workingDirectory := []

theorem Files.openFile_single (content : Bytes) :
    (FileSystem.single (Bytes.ascii "f") content).openFile (Bytes.ascii "f") =
      .ok (.content content) := by
  cbv

namespace Source

variable {σ : Type} [Source σ]

/-- The reads give `data` and then nothing for ever. -/
def Drains (sizes : Nat → Nat) (s : σ) (data : Bytes) : Prop :=
  ∃ k, received sizes s k = data ∧ (∀ j, j < k → ∃ piece, nthRead sizes s j = .ok piece) ∧
    ∀ j, k ≤ j → nthRead sizes s j = .ok []

/-- No read fails. -/
theorem Drains.exists_ok {sizes : Nat → Nat} {s : σ} {data : Bytes} (h : Drains sizes s data)
    (j : Nat) : ∃ piece, nthRead sizes s j = .ok piece := by
  obtain ⟨k, -, hbefore, hafter⟩ := h
  rcases Nat.lt_or_ge j k with hlt | hge
  · exact hbefore j hlt
  · exact ⟨[], hafter j hge⟩

end Source

namespace GzipSource

open Source (nthRead afterReads received)

variable {s : GzipSource} {members : List Packed} {fs : FileSystem} {path behind text : Bytes}
  {ending : Ending} {sizes : Nat → Nat}

/-! ## Complete files -/

/-- After any number of reads the source owes what they have not given. -/
theorem afterReads_of_complete (h : s.Owes text (.complete behind)) (hpos : ∀ k, 0 < sizes k)
    (k : Nat) :
    ∃ left, text = received sizes s k ++ left ∧
      (afterReads sizes s k).Owes left (.complete behind) ∧
      nthRead sizes s k = .ok (left.take (min (sizes k) maxRead)) := by
  have hread : ∀ {t : GzipSource} {left : Bytes}, t.Owes left (.complete behind) →
      (Source.read (sizes k) t).1 = .ok (left.take (min (sizes k) maxRead)) :=
    fun ht => (read_of_complete ht (hpos k)).1
  induction k with
  | zero => exact ⟨text, rfl, h, hread h⟩
  | succ k ih =>
    obtain ⟨left, htext, howes, hgives⟩ :=
      ih fun ht => (read_of_complete ht (hpos k)).1
    have howes' := (read_of_complete howes (hpos k)).2.1
    refine ⟨left.drop (min (sizes k) maxRead), ?_, howes', hread howes'⟩
    rw [received, hgives, List.append_assoc]
    show text = _ ++ (left.take _ ++ left.drop _)
    rw [List.take_append_drop, htext]

theorem afterReads_file (sizes : Nat → Nat) (s : GzipSource) (k : Nat) :
    (afterReads sizes s k).path = s.path ∧
      (afterReads sizes s k).served + (afterReads sizes s k).rest.length =
        s.served + s.rest.length := by
  induction k with
  | zero => exact ⟨rfl, rfl⟩
  | succ k ih =>
    obtain ⟨hpath, hsum⟩ := read_file (sizes k) (afterReads sizes s k)
    exact ⟨hpath.trans ih.1, hsum.trans ih.2⟩

/-- When a source over a complete file gives nothing it has given everything, and it has read the
file up to what stands behind the last member. -/
theorem end_of_complete (h : s.Owes text (.complete behind)) (hpos : ∀ k, 0 < sizes k) {k : Nat}
    (hnil : nthRead sizes s k = .ok []) :
    received sizes s k = text ∧
      (afterReads sizes s (k + 1)).rest <:+ behind := by
  obtain ⟨left, htext, howes, hgives⟩ := afterReads_of_complete h hpos k
  have hrest := rest_of_read_nil howes (hpos k) hnil
  have hmin : 0 < min (sizes k) maxRead := Nat.lt_min.mpr ⟨hpos k, by decide⟩
  rw [hgives] at hnil
  have hleft : left = [] :=
    (List.take_eq_nil_iff.mp (Except.ok.inj hnil)).resolve_left (Nat.ne_of_gt hmin)
  exact ⟨by rw [htext, hleft, List.append_nil], hrest⟩

/-- The reads of a source over a complete file give its text and then nothing. -/
theorem drains_of_complete (h : s.Owes text (.complete behind)) (hpos : ∀ k, 0 < sizes k) :
    Source.Drains sizes s text := by
  have hdelivers : Source.Delivers s text := ⟨_, delivery_owes behind, h⟩
  obtain ⟨pieces, -, hbefore, hafter⟩ := hdelivers.reads hpos
  refine ⟨pieces.length, (end_of_complete h hpos (hafter _ (Nat.le_refl _))).1, ?_, hafter⟩
  intro j hj
  exact ⟨_, (hbefore j hj).1⟩

/-! ## Files that are not complete -/

/-- A read of a source over a file that is not complete gives something or fails. -/
theorem read_of_incomplete (h : s.Owes text ending)
    (hincomplete : ∀ behind, ending ≠ .complete behind) {n : Nat} (hn : 0 < n) :
    (∃ piece left s', s.read n = (.ok piece, s') ∧ piece ≠ [] ∧ text = piece ++ left ∧
        s'.Owes left ending ∧ s'.path = s.path) ∨
      ∃ e s', s.read n = (.error e, s') ∧ ending.Explains s.path e ∧ s'.Failed ending ∧
        s'.path = s.path := by
  have hhanded := read_handed h hn
  have hpath := (read_file n s).1
  have hmin : 0 < min n maxRead := Nat.lt_min.mpr ⟨hn, by decide⟩
  generalize s.read n = r at hhanded hpath ⊢
  cases hhanded with
  | failed hexplains hfailed => exact .inr ⟨_, _, rfl, hexplains, hfailed, hpath⟩
  | @ok s' howes hshort =>
    have hlen : min n maxRead ≤ text.length := by
      apply Nat.le_of_not_lt
      intro hlt
      cases howes with
      | inside _ hnot =>
        rw [hshort hlt] at hnot
        cases hnot
      | finished _ _ hending => exact hincomplete _ hending
    refine .inl ⟨_, text.drop (min n maxRead), s', rfl, ?_, ?_, howes, hpath⟩
    · rw [List.nil_append, ← List.length_pos_iff, List.length_take]
      omega
    · rw [List.nil_append, List.take_append_drop]

/-- The reads of a source over a file that is not complete do not come to an end. -/
theorem breaksOff_of_incomplete (h : s.Owes text ending)
    (hincomplete : ∀ behind, ending ≠ .complete behind) :
    Source.BreaksOff (ending.Explains s.path) s text := by
  refine ⟨fun t left => t.path = s.path ∧ (t.Owes left ending ∨ t.Failed ending), ⟨?_, ?_⟩, rfl,
    .inl h⟩
  · rintro t t' left piece n ⟨hpath, howes | hfailed⟩ hn hr
    · have hr' : t.read n = (.ok piece, t') := hr
      rcases read_of_incomplete howes hincomplete hn with
        ⟨piece', left', t'', hread, hne, hleft, howes', hpath'⟩ | ⟨e, t'', hread, -⟩
      · rw [hr'] at hread
        obtain ⟨hpiece, rfl⟩ := Prod.mk.inj hread
        obtain rfl := Except.ok.inj hpiece
        exact ⟨hne, left', hleft, hpath'.trans hpath, .inl howes'⟩
      · rw [hr'] at hread
        cases hread
    · have hr' : t.read n = (.ok piece, t') := hr
      obtain ⟨e, t'', hread, -⟩ := hfailed.read hn
      rw [hr'] at hread
      cases hread
  · rintro t t' left n e ⟨hpath, howes | hfailed⟩ hn hr
    · have hr' : t.read n = (.error e, t') := hr
      rcases read_of_incomplete howes hincomplete hn with
        ⟨piece, left', t'', hread, -⟩ | ⟨e', t'', hread, hexplains, hfailed, hpath'⟩
      · rw [hr'] at hread
        cases hread
      · rw [hr'] at hread
        obtain ⟨he, rfl⟩ := Prod.mk.inj hread
        obtain rfl := Except.error.inj he
        exact ⟨hpath ▸ hexplains, hpath'.trans hpath, .inr hfailed⟩
    · have hr' : t.read n = (.error e, t') := hr
      obtain ⟨e', t'', hread, hexplains, hfailed', hpath'⟩ := hfailed.read hn
      rw [hr'] at hread
      obtain ⟨he, rfl⟩ := Prod.mk.inj hread
      obtain rfl := Except.error.inj he
      exact ⟨hpath ▸ hexplains, hpath'.trans hpath, .inr hfailed'⟩

/-! ## Files of members -/

/-- A file that begins with members can be opened. What the source owes is known if what stands
behind them is. -/
theorem exists_owes (hne : members ≠ [])
    (hfile : fs.openFile path = .ok (.content (fileOf members ++ behind)))
    (h : Unpacks {} (.ofBytes (fileOf members ++ behind)) text ending) :
    ∃ s, ofPath fs path = .ok s ∧ s.Owes text ending ∧ s.path = path ∧
      s.served + s.rest.length = (fileOf members ++ behind).length := by
  obtain ⟨p, others, rfl⟩ := List.exists_cons_of_ne_nil hne
  have hbegins : p.bytes.take 10 <+: fileOf (p :: others) ++ behind :=
    (List.take_prefix _ _).trans ((List.prefix_append _ _).trans (List.prefix_append _ _))
  obtain ⟨s, hs⟩ := exists_ofPath hfile hbegins
  exact ⟨s, hs, owes_of_ofPath hs hfile h⟩

/-- What stands behind the members is not a member, but it may begin like one. -/
theorem owes_trailing (hne : members ≠ []) (hlen : 2 ≤ behind.length)
    (hmagic : behind.take 2 ≠ [0x1f, 0x8b])
    (hfile : fs.openFile path = .ok (.content (fileOf members ++ behind))) :
    ∃ s, ofPath fs path = .ok s ∧
      (behind.head? ≠ some 0x1f → s.Owes (textOf members) (.complete behind)) ∧
      (behind.head? = some 0x1f → s.Owes (textOf members) (.damaged .headerMagic)) := by
  rcases behind with _ | ⟨a, _ | ⟨b, more⟩⟩
  · cases hlen
  · exact absurd hlen (Nat.lt_irrefl 1 ∘ Nat.lt_of_succ_le)
  · by_cases ha : a = 0x1f
    · subst ha
      have hb : b ≠ 0x8b := by
        rintro rfl
        exact hmagic rfl
      obtain ⟨s, hs, howes, -⟩ := exists_owes hne hfile (Gzip.unpacks_notMagic hb more)
      exact ⟨s, hs, fun hhead => absurd rfl hhead, fun _ => howes⟩
    · have hhead : (a :: b :: more).head? ≠ some 0x1f := fun hhead => ha (Option.some.inj hhead)
      obtain ⟨s, hs, howes, -⟩ := exists_owes hne hfile (Gzip.unpacks_members hne hhead)
      exact ⟨s, hs, fun _ => howes, fun h => absurd h hhead⟩

/-- A file with something behind its members is read to its end if and only if the next byte is not
the first one of a member. -/
theorem drains_trailing_iff (hcomplete : behind.head? ≠ some 0x1f → s.Owes text (.complete behind))
    (hdamaged : behind.head? = some 0x1f → s.Owes text (.damaged .headerMagic))
    (hpos : ∀ k, 0 < sizes k) : Source.Drains sizes s text ↔ behind.head? ≠ some 0x1f := by
  refine ⟨fun hdrains hhead => ?_, fun hhead => drains_of_complete (hcomplete hhead) hpos⟩
  have hbreaks := breaksOff_of_incomplete (hdamaged hhead) (fun behind h => by cases h)
  obtain ⟨k, e, hfails, -⟩ := hbreaks.reads hpos
  obtain ⟨piece, hgives⟩ := hdrains.exists_ok k
  rw [hfails] at hgives
  cases hgives

/-- A file of members can be opened, and whatever sizes are asked for, every read gives as much as
is asked for and is still to come of what the members hold. When a read gives nothing all of it has
been given, and the file has been read to its end. -/
theorem reads_members (hne : members ≠ [])
    (hfile : fs.openFile path = .ok (.content (fileOf members))) :
    ∃ s, ofPath fs path = .ok s ∧
      ∀ sizes : Nat → Nat, (∀ k, 0 < sizes k ∧ sizes k ≤ maxRead) →
        (∀ k, ∃ piece, nthRead sizes s k = .ok piece ∧
          received sizes s k ++ piece <+: textOf members ∧
          piece.length =
            min (sizes k) ((textOf members).length - (received sizes s k).length) ∧
          (piece = [] → received sizes s k = textOf members ∧
            Source.bytesRead (afterReads sizes s (k + 1)) = (fileOf members).length)) ∧
        ∃ k, nthRead sizes s k = .ok [] := by
  have hunpacks : Unpacks {} (.ofBytes (fileOf members ++ [])) (textOf members) (.complete []) :=
    Gzip.unpacks_members hne (by simp)
  have hnil : fileOf members ++ [] = fileOf members := List.append_nil _
  obtain ⟨s, hs, howes, -, hlength⟩ := exists_owes hne (hnil.symm ▸ hfile) hunpacks
  refine ⟨s, hs, fun sizes hsizes => ?_⟩
  have hpos : ∀ k, 0 < sizes k := fun k => (hsizes k).1
  obtain ⟨last, -, -, hend⟩ := drains_of_complete howes hpos
  refine ⟨fun k => ?_, last, hend last (Nat.le_refl _)⟩
  obtain ⟨left, htext, -, hgives⟩ := afterReads_of_complete howes hpos k
  rw [Nat.min_eq_left (hsizes k).2] at hgives
  refine ⟨_, hgives, ?_, ?_, fun hpiece => ?_⟩
  · rw [htext]
    exact (List.prefix_append_right_inj _).mpr (List.take_prefix _ _)
  · rw [List.length_take, htext, List.length_append, Nat.add_sub_cancel_left]
  · rw [hpiece] at hgives
    obtain ⟨hall, hrest⟩ := end_of_complete howes hpos hgives
    have hsum := (afterReads_file sizes s (k + 1)).2
    rw [List.suffix_nil.mp hrest, hlength, hnil] at hsum
    exact ⟨hall, hsum⟩

/-- A member of three holds nothing. -/
theorem reads_members_three :
    let members : List Packed :=
      [.stored (Bytes.ascii "ab\n"), .stored [], .stored (Bytes.ascii "c")]
    let fs := FileSystem.single (Bytes.ascii "f") (fileOf members)
    members ≠ [] ∧ fs.openFile (Bytes.ascii "f") = .ok (.content (fileOf members)) ∧
      ∃ s, ofPath fs (Bytes.ascii "f") = .ok s ∧ ∃ k, nthRead (fun _ => 2) s k = .ok [] ∧
        received (fun _ => 2) s k = Bytes.ascii "ab\nc" := by
  intro members fs
  have hne : members ≠ [] := by simp [members]
  have hfile := Files.openFile_single (fileOf members)
  obtain ⟨s, hs, hreads⟩ := reads_members hne hfile
  obtain ⟨hgives, k, hend⟩ := hreads (fun _ => 2) fun _ => by decide
  obtain ⟨piece, hpiece, -, -, hall⟩ := hgives k
  rw [hend] at hpiece
  exact ⟨hne, hfile, s, hs, k, hend, (hall (Except.ok.inj hpiece).symm).1⟩

end GzipSource

end TextLines

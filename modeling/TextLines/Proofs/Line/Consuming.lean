import TextLines.Proofs.Line.Keeping
import TextLines.Proofs.Line.Splitting
import TextLines.Proofs.Source.Consuming

/-!
# What has been consumed when the lines have come to their end

A splitter finds no line any more when its source has reported its end, and it is closed then. So
what is known of the bytes that the source has consumed at its end (`Source.Consumes`) is known of
the number that a splitter shows which has been closed at the end only, because the number is kept
beyond the release of the source (`Splitter.Exhausts`, `Splitter.kept_exhausts`). A cursor that has
handed out all lines is such a one (`Cursor.Hands.consumes`).
-/

namespace TextLines

variable {σ : Type} [Source σ] {P : Nat → Prop}

/-- The source is held, and `P` holds of what has been consumed if the source has reported its
end. -/
def Handle.Spends (P : Nat → Prop) (handle : Handle σ) (ended : Bool) : Prop :=
  ∃ source, handle = .held source ∧ Source.Consumes P source ∧
    (ended = true → P (Source.bytesRead source))

namespace Splitter

theorem refill_spends {s s' : Splitter σ} {r : Except Error Bool} (h : s.handle.Spends P s.ended)
    (hr : s.refill = (r, s')) : s'.handle.Spends P s'.ended := by
  obtain ⟨source, hheld, hconsumes, hended⟩ := h
  have hread := hconsumes.read (max s.chunkBytes 1)
  have hend := hconsumes.at_end (n := max s.chunkBytes 1) (by omega)
  unfold refill at hr
  rw [hheld] at hr
  dsimp only at hr
  split at hr
  · obtain ⟨-, rfl⟩ := Prod.mk.inj hr
    exact ⟨source, hheld, hconsumes, hended⟩
  · rename_i hnot
    rcases hsource : Source.read (max s.chunkBytes 1) source with ⟨e | bytes, source'⟩
    · rw [hsource] at hr hread
      obtain ⟨-, rfl⟩ := Prod.mk.inj hr
      exact ⟨source', rfl, hread, fun he => absurd he hnot⟩
    · rw [hsource] at hr hread hend
      obtain ⟨-, rfl⟩ := Prod.mk.inj hr
      refine ⟨source', rfl, hread, fun he => hend ?_⟩
      rw [List.isEmpty_iff.mp he]

theorem refill_ended {s s' : Splitter σ} (hr : s.refill = (.ok false, s')) :
    s'.ended = true ∨ s'.isClosed = true := by
  unfold refill at hr
  split at hr
  · split at hr
    · rename_i hended
      rw [← (Prod.mk.inj hr).2]
      exact .inl hended
    · split at hr
      · obtain ⟨hfound, rfl⟩ := Prod.mk.inj hr
        exact .inl (by simpa using hfound)
      · cases (Prod.mk.inj hr).1
  · rename_i hnot
    rw [← (Prod.mk.inj hr).2]
    refine .inr ?_
    rw [isClosed]
    cases hhandle : s.handle with
    | held source => exact absurd hhandle (hnot source)
    | absent | released source n => rfl

/-- There is no line only if the source has reported its end. -/
theorem scan_ended {s : Splitter σ} {acc : Bytes} {size : Nat}
    (h : (s.scan acc size).found = .ok false) :
    (s.scan acc size).next.ended = true ∨ (s.scan acc size).next.isClosed = true := by
  fun_induction scan s acc size with
  | case1 s acc size hc s' hr ih => exact ih h
  | case2 s acc size hc s' hr hnil => exact refill_ended hr
  | case5 s acc size b rest hc hlf ih => exact ih h
  | case7 s acc size b rest hc hlf piece size' hlim ht ih => exact ih h
  | case3 | case4 | case6 | case8 => cases h

/-- The number of the bytes that have been consumed stays beyond the release. -/
theorem bytesRead_close (s : Splitter σ) : s.close.2.bytesRead = s.bytesRead := by
  rw [close]
  split
  · rfl
  · cases hhandle : s.handle with
    | held source | absent | released source n =>
      simp only [bytesRead, hhandle, Handle.release, Handle.bytesRead]

theorem isClosed_of_spends {s : Splitter σ} (h : s.handle.Spends P s.ended) :
    s.isClosed = false := by
  obtain ⟨source, hheld, -⟩ := h
  rw [isClosed, hheld]
  rfl

/-- `P` holds of the number of the bytes that have been consumed if the splitter is closed, and as
long as it is open `P` will hold at the end. -/
def Exhausts (P : Nat → Prop) (s : Splitter σ) : Prop :=
  s.handle.Spends P s.ended ∨ s.isClosed = true ∧ P s.bytesRead

theorem Exhausts.bytesRead {s : Splitter σ} (h : s.Exhausts P) (hclosed : s.isClosed = true) :
    P s.bytesRead := by
  rcases h with hspends | ⟨-, hbytes⟩
  · cases (isClosed_of_spends hspends).symm.trans hclosed
  · exact hbytes

/-- A splitter that nobody else closes is closed at the end only. -/
theorem kept_exhausts : Kept (σ := σ) (Exhausts P) := by
  have hline : ∀ s : Splitter σ, s.isClosed = false → s.Exhausts P →
      s.readLine.next.handle.Spends P s.readLine.next.ended := by
    rintro s hopen (hspends | ⟨hclosed, -⟩)
    · exact scan_keeps (P := Handle.Spends P) refill_spends s [] 0 hspends
    · cases hopen.symm.trans hclosed
  refine ⟨fun s hopen h => .inl (hline s hopen h), fun s hopen h hfound => .inr ?_⟩
  have hspends := hline s hopen h
  have hend := (scan_ended hfound).resolve_right fun hclosed => by
    cases (isClosed_of_spends hspends).symm.trans hclosed
  obtain ⟨source, hheld, -, hended⟩ := hspends
  refine ⟨isClosed_close _, ?_⟩
  rw [bytesRead_close, Splitter.bytesRead, hheld]
  exact hended hend

end Splitter

namespace Cursor

theorem bytesRead_close (c : Cursor σ) : c.close.2.bytesRead = c.bytesRead := by
  rw [bytesRead, splitter_close]
  exact c.splitter.bytesRead_close

/-- When all lines have been handed out the source has come to its end. -/
theorem Hands.consumes {c c' : Cursor σ} {lines : List Bytes} (h : c.Hands lines none c')
    (hmust : c.mustRead = true) (hspends : c.splitter.handle.Spends P c.splitter.ended) :
    P c'.bytesRead :=
  Splitter.Exhausts.bytesRead ((Kept.of_splitter Splitter.kept_exhausts).hands h (.inl hspends))
    (h.isClosed hmust)

end Cursor

end TextLines

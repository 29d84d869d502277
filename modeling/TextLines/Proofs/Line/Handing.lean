import TextLines.Proofs.Line.Lookahead

/-!
# The lines that a cursor hands out

`Cursor.Hands` says what comes of it when a caller asks for more and takes what is there until
there is no more or asking fails: the lines, the end, and the cursor in the end. It is a relation
apart from any visitor. A walk whose visitor never has enough is the visitor folded over these lines
(`Hands.walk_of_goes`), and a walk that looks for a line finds it if it is one of them
(`Hands.walk_wanted`).

A walk that is stopped has to close a cursor that has not come to the end. That this does not fail
is known only of a source whose close does not depend on what has been read
(`Source.ClosesWith`), if the end has been met without a failure (`Hands.closes`).

Whatever the source does, the lines hold no terminators (`Hands.unterminated`), and they keep to the
limit (`Hands.fits`).
-/

namespace TextLines

variable {σ : Type} [Source σ] {closing : Option Error}

/-! ## The line that is looked for -/

namespace Splitter

/-- What has been read of a line holds no terminator, however the reading ends. -/
theorem scan_unterminated (s : Splitter σ) (acc : Bytes) (size : Nat)
    (hacc : Line.Unterminated acc.reverse) : Line.Unterminated (s.scan acc size).line := by
  fun_induction scan s acc size with
  | case1 s acc size hc s' hr ih => exact ih hacc
  | case2 s acc size hc s' hr hnil => exact fun b hb => absurd hb List.not_mem_nil
  | case3 s acc size hc s' hr hne => exact hacc
  | case4 s acc size hc e s' hr => exact hacc
  | case5 s acc size b rest hc hlf ih => exact ih hacc
  | case6 s acc size b rest hc hlf piece size' hlim => exact hacc
  | case7 s acc size b rest hc hlf piece size' hlim ht ih =>
    apply ih
    rw [List.reverse_append, List.reverse_reverse]
    exact unterminated_append_piece hacc
  | case8 s acc size b rest hc hlf piece size' hlim t tail ht =>
    exact unterminated_append_piece hacc

/-- What has been read of a line keeps to the limit, however the reading ends. -/
theorem scan_fits (s : Splitter σ) (acc : Bytes) (size : Nat) (hsize : size = acc.length)
    (hfits : Fits s.maxLineBytes acc.length) :
    Fits s.maxLineBytes (s.scan acc size).line.length := by
  fun_induction scan s acc size with
  | case1 s acc size hc s' hr ih =>
    have hlimit := (refill_settings hr).2.1
    rw [← hlimit]
    exact ih hsize (hlimit ▸ hfits)
  | case2 s acc size hc s' hr hnil => exact .inr (Nat.zero_le _)
  | case3 | case4 | case6 => rwa [List.length_reverse]
  | case5 s acc size b rest hc hlf ih => exact ih hsize hfits
  | case7 s acc size b rest hc hlf piece size' hlim ht ih =>
    have hlen : (piece.reverse ++ acc).length = size' := by
      rw [List.length_append, List.length_reverse, ← hsize, Nat.add_comm]
    have hsize' : Fits s.maxLineBytes size' := fits_iff.mpr (by simpa using hlim)
    apply ih hlen.symm
    rw [hlen]
    exact hsize'
  | case8 s acc size b rest hc hlf piece size' hlim t tail ht =>
    rw [List.length_append, List.length_reverse, ← hsize, fits_iff]
    simpa using hlim

theorem isClosed_close (s : Splitter σ) : s.close.2.isClosed = true := by
  rw [close]
  split
  · assumption
  · cases hhandle : s.handle with
    | held source | absent | released source n => rfl

end Splitter

namespace Cursor

/-- A cursor that must read has looked for the line that it shows. -/
theorem eq_looked_of_hasMore {c c' : Cursor σ} (hmust : c.mustRead = true)
    (hmore : c.hasMore = (.ok true, c')) : c' = c.looked true := by
  cases hclosed : c.isClosed with
  | true =>
    rw [hasMore, hmust, hclosed] at hmore
    cases hmore
  | false =>
    have hlooks := hasMore_looks hmust hclosed
    rw [hmore] at hlooks
    cases hlooks
    rfl

/-! ## The lines -/

/-- Lines are taken as long as there are more. What stops them is the end or a failure. -/
inductive Hands : Cursor σ → List Bytes → Option Error → Cursor σ → Prop where
  /-- There are no more. -/
  | exhausted {c c' : Cursor σ} (h : c.hasMore = (.ok false, c')) : Hands c [] none c'
  /-- Asking for more fails. -/
  | failed {c c' : Cursor σ} {e : Error} (h : c.hasMore = (.error e, c')) :
    Hands c [] (some e) c'
  /-- There is a line, and others come behind it. -/
  | line {c c' c'' : Cursor σ} {lines : List Bytes} {failure : Option Error}
      (h : c.hasMore = (.ok true, c'))
      (hrest : Hands { c' with mustRead := true } lines failure c'') :
    Hands c (c'.buffer :: lines) failure c''

theorem exists_hands (c : Cursor σ) : ∃ lines failure c', c.Hands lines failure c' := by
  fun_induction Cursor.walk (fun _ v => .goOn v) () c with
  | case1 v c e c' hc => exact ⟨_, _, _, .failed hc⟩
  | case2 v c c' hc => exact ⟨_, _, _, .exhausted hc⟩
  | case3 v c c' hc v' hv => cases hv
  | case4 v c c' hc v' hv ih =>
    obtain ⟨lines, failure, c'', hrest⟩ := ih
    exact ⟨_, _, _, .line hc hrest⟩

/-- No line that is handed out holds a terminator. -/
theorem Hands.unterminated {c c' : Cursor σ} {lines : List Bytes} {failure : Option Error}
    (h : c.Hands lines failure c') (hmust : c.mustRead = true) :
    ∀ line ∈ lines, Line.Unterminated line := by
  induction h with
  | exhausted hmore => exact fun _ hline => absurd hline List.not_mem_nil
  | failed hmore => exact fun _ hline => absurd hline List.not_mem_nil
  | @line c c' c'' lines failure hmore hrest ih =>
    refine List.forall_mem_cons.mpr ⟨?_, ih rfl⟩
    rw [eq_looked_of_hasMore hmust hmore]
    exact c.splitter.scan_unterminated [] 0 fun b hb => absurd hb List.not_mem_nil

/-- No line that is handed out is over the limit. -/
theorem Hands.fits {c c' : Cursor σ} {lines : List Bytes} {failure : Option Error}
    (h : c.Hands lines failure c') (hmust : c.mustRead = true) :
    ∀ line ∈ lines, Splitter.Fits c.splitter.maxLineBytes line.length := by
  induction h with
  | exhausted hmore => exact fun _ hline => absurd hline List.not_mem_nil
  | failed hmore => exact fun _ hline => absurd hline List.not_mem_nil
  | @line c c' c'' lines failure hmore hrest ih =>
    obtain rfl := eq_looked_of_hasMore hmust hmore
    have hlimit : c.splitter.readLine.next.maxLineBytes = c.splitter.maxLineBytes :=
      (c.splitter.scan_settings [] 0).2
    refine List.forall_mem_cons.mpr ⟨?_, ?_⟩
    · exact c.splitter.scan_fits [] 0 rfl (.inr (Nat.zero_le _))
    · rw [← hlimit]
      exact ih rfl

/-! ## Walks -/

/-- How a walk ends that is not stopped. -/
def Ending.ofFailure : Option Error → Ending
  | none => .exhausted
  | some e => .failed e

section

variable {α : Type} {visit : Bytes → α → Visit α} {v : α} {c c' : Cursor σ}

theorem walk_of_exhausted (h : c.hasMore = (.ok false, c')) :
    c.walk visit v = ⟨.exhausted, v, c'⟩ := by
  unfold walk
  split
  · rename_i hmore
    cases h.symm.trans hmore
  · rename_i hmore
    rw [(Prod.mk.inj (h.symm.trans hmore)).2]
  · rename_i hmore
    cases h.symm.trans hmore

theorem walk_of_failed {e : Error} (h : c.hasMore = (.error e, c')) :
    c.walk visit v = ⟨.failed e, v, c'⟩ := by
  unfold walk
  split
  · rename_i hmore
    obtain ⟨he, rfl⟩ := Prod.mk.inj (h.symm.trans hmore)
    rw [Except.error.inj he]
  · rename_i hmore
    cases h.symm.trans hmore
  · rename_i hmore
    cases h.symm.trans hmore

theorem walk_of_line (h : c.hasMore = (.ok true, c')) :
    c.walk visit v =
      match visit c'.buffer v with
      | .stop v' => ⟨.stopped, v', { c' with mustRead := true }⟩
      | .goOn v' => walk visit v' { c' with mustRead := true } := by
  rw [walk]
  split
  · rename_i hmore
    cases h.symm.trans hmore
  · rename_i hmore
    cases h.symm.trans hmore
  · rename_i hmore
    obtain ⟨-, rfl⟩ := Prod.mk.inj (h.symm.trans hmore)
    rcases visit c'.buffer v with v' | v' <;> rfl

end

/-- A visitor who never has enough comes to what it makes of the lines. -/
theorem Hands.walk_of_goes {α : Type} {visit : Bytes → α → Visit α} {f : Bytes → α → α}
    {P : α → Prop} (hgoes : ∀ line v, P v → visit line v = .goOn (f line v) ∧ P (f line v))
    {c c' : Cursor σ} {lines : List Bytes} {failure : Option Error}
    (h : c.Hands lines failure c') {v : α} (hv : P v) :
    c.walk visit v = ⟨.ofFailure failure, lines.foldl (fun v line => f line v) v, c'⟩ := by
  induction h generalizing v with
  | exhausted hmore => exact walk_of_exhausted hmore
  | failed hmore => exact walk_of_failed hmore
  | @line c c' c'' lines failure hmore hrest ih =>
    obtain ⟨hvisit, hnext⟩ := hgoes c'.buffer v hv
    rw [walk_of_line hmore, hvisit]
    exact ih hnext

/-! ## Closing -/

/-- The cursor is open, and closing its source comes to `closing`, whatever has been read. -/
def ClosesWith (closing : Option Error) (c : Cursor σ) : Prop :=
  ∃ src, c.splitter.handle = .held src ∧ Source.ClosesWith closing src

theorem ClosesWith.close_eq {c : Cursor σ} (h : c.ClosesWith closing) : c.close.1 = closing := by
  obtain ⟨src, hheld, hcloses⟩ := h
  have hopen : c.splitter.isClosed = false := by
    rw [Splitter.isClosed, hheld]
    rfl
  simp only [close, isClosed, hopen, Bool.false_eq_true, if_false, Splitter.close, hheld,
    Handle.release]
  exact hcloses.close_eq

theorem ClosesWith.isClosed {c : Cursor σ} (h : c.ClosesWith closing) : c.isClosed = false := by
  obtain ⟨src, hheld, -⟩ := h
  rw [Cursor.isClosed, Splitter.isClosed, hheld]
  rfl

/-- Looking for a line leaves an open cursor open. -/
theorem ClosesWith.readLine {c : Cursor σ} (h : c.ClosesWith closing) {c' : Cursor σ}
    (hc' : c'.splitter = c.splitter.readLine.next) : c'.ClosesWith closing := by
  rw [ClosesWith, hc']
  refine Splitter.scan_keeps (P := fun handle _ =>
    ∃ src, handle = .held src ∧ Source.ClosesWith closing src) ?_ c.splitter [] 0 h
  rintro s s' r ⟨src, hheld, hcloses⟩ hr
  rcases Splitter.refill_reads hr with hsame | ⟨src', n, hheld', hread⟩
  · exact ⟨src, hsame.trans hheld, hcloses⟩
  · obtain rfl := Handle.held.inj (hheld.symm.trans hheld')
    exact ⟨_, hread, hcloses.read n⟩

/-- A cursor stays open until it says that there are no more lines, and then it has been closed
without a failure. -/
theorem ClosesWith.hasMore {c c' : Cursor σ} {more : Bool} (h : c.ClosesWith closing)
    (hmust : c.mustRead = true) (hmore : c.hasMore = (.ok more, c')) :
    if more then c'.ClosesWith closing else closing = none := by
  have hlooks := hasMore_looks hmust h.isClosed
  rw [hmore] at hlooks
  cases hlooks with
  | line => exact h.readLine rfl
  | atEnd hclose =>
    have hcloses : (c.looked false).ClosesWith closing := h.readLine rfl
    have hclosing := hcloses.close_eq
    rw [hclose] at hclosing
    exact hclosing.symm

/-- If the end of the lines is met closing does not fail. -/
theorem Hands.closes {c c' : Cursor σ} {lines : List Bytes} (h : c.Hands lines none c')
    (hmust : c.mustRead = true) (hcloses : c.ClosesWith closing) : closing = none := by
  generalize hnone : (none : Option Error) = failure at h
  induction h with
  | exhausted hmore => exact hcloses.hasMore hmust hmore
  | failed hmore => cases hnone
  | line hmore hrest ih => exact ih rfl (hcloses.hasMore hmust hmore) hnone

/-- Closing a cursor closes what it reads from. -/
theorem splitter_close (c : Cursor σ) : c.close.2.splitter = c.splitter.close.2 := by
  rw [close]
  split
  · rename_i hclosed
    have hclosed' : c.splitter.isClosed = true := hclosed
    rw [Splitter.close, if_pos hclosed']
  · rfl

theorem isClosed_close (c : Cursor σ) : c.close.2.isClosed = true := by
  rw [isClosed, splitter_close]
  exact c.splitter.isClosed_close

/-- A cursor that says that there are no more lines is closed. -/
theorem isClosed_of_exhausted {c c' : Cursor σ} (hmust : c.mustRead = true)
    (hmore : c.hasMore = (.ok false, c')) : c'.isClosed = true := by
  cases hclosed : c.isClosed with
  | true =>
    rw [hasMore, hmust, hclosed] at hmore
    rw [← (Prod.mk.inj hmore).2]
    exact hclosed
  | false =>
    have hlooks := hasMore_looks hmust hclosed
    rw [hmore] at hlooks
    cases hlooks with
    | atEnd hclose =>
      have hdone := isClosed_close (c.looked false)
      rw [hclose] at hdone
      exact hdone

theorem Hands.isClosed {c c' : Cursor σ} {lines : List Bytes} (h : c.Hands lines none c')
    (hmust : c.mustRead = true) : c'.isClosed = true := by
  generalize hnone : (none : Option Error) = failure at h
  induction h with
  | exhausted hmore => exact isClosed_of_exhausted hmust hmore
  | failed hmore => cases hnone
  | line hmore hrest ih => exact ih rfl hnone

/-- However the lines end, a source whose close never fails is closed without a failure. -/
theorem Hands.close_eq {c c' : Cursor σ} {lines : List Bytes} {failure : Option Error}
    (h : c.Hands lines failure c') (hmust : c.mustRead = true) (hcloses : c.ClosesWith none) :
    c'.close.1 = none := by
  induction h with
  | exhausted hmore => rw [close_of_isClosed (isClosed_of_exhausted hmust hmore)]
  | @failed c c' e hmore =>
    have hlooks := hasMore_looks hmust hcloses.isClosed
    rw [hmore] at hlooks
    cases hlooks with
    | failed => exact ClosesWith.close_eq (hcloses.readLine rfl)
    | unclosed hclose =>
      have hquiet : (c.looked false).close.1 = none := ClosesWith.close_eq (hcloses.readLine rfl)
      rw [hclose] at hquiet
      cases hquiet
  | line hmore hrest ih => exact ih rfl (hcloses.hasMore hmust hmore)

/-! ## Looking for a line -/

/-- What a visitor does who looks for a line. -/
def wantedVisit (wanted line : Bytes) (found : Bool) : Visit Bool :=
  if line == wanted then .stop true else .goOn found

/-- A walk that looks for a line finds it if it is one of the lines, and then it can be closed. -/
theorem Hands.walk_wanted {c c' : Cursor σ} {lines : List Bytes} (h : c.Hands lines none c')
    (hmust : c.mustRead = true) (hcloses : c.ClosesWith none) (wanted : Bytes) :
    (c.walk (wantedVisit wanted) false).result = .ok (decide (wanted ∈ lines)) ∧
      (c.walk (wantedVisit wanted) false).cursor.close.1 = none := by
  generalize hnone : (none : Option Error) = failure at h
  induction h with
  | @exhausted c c' hmore =>
    have hclosed := isClosed_of_exhausted hmust hmore
    rw [walk_of_exhausted hmore, close_of_isClosed hclosed]
    exact ⟨rfl, rfl⟩
  | failed hmore => cases hnone
  | @line c c' c'' lines failure hmore hrest ih =>
    have hnext : c'.ClosesWith none := hcloses.hasMore hmust hmore
    rw [walk_of_line hmore, wantedVisit]
    by_cases hline : c'.buffer = wanted
    · have hmem : wanted ∈ c'.buffer :: lines := by
        rw [hline]
        exact List.mem_cons_self
      have hclose : ({ c' with mustRead := true } : Cursor σ).close.1 = none :=
        ClosesWith.close_eq (c := { c' with mustRead := true }) hnext
      rw [if_pos (beq_iff_eq.mpr hline), decide_eq_true hmem]
      exact ⟨rfl, hclose.trans hnone⟩
    · have hiff : wanted ∈ c'.buffer :: lines ↔ wanted ∈ lines := by
        rw [List.mem_cons]
        exact or_iff_right fun heq => hline heq.symm
      rw [if_neg (fun heq => hline (beq_iff_eq.mp heq)), decide_eq_decide.mpr hiff]
      exact ih rfl hnext hnone

end Cursor

end TextLines

import TextLines.Proofs.Source.Delivery

/-!
# Sources that break off

A file that is cut off gives a beginning of its data and then fails, and it never reports its end.
`BreaksOff faults s data` says this of a source: each read gives some of `data` or fails for a
reason in `faults`, and when one has failed nothing is ever given again. How much of the data comes
before the failure is left open.

Like `Delivers` it is the largest relation that the reads respect (`Breakage`), and a source that
breaks off is one that delivers its data if failures are allowed (`Breakage.delivery`). What is new
is that a caller always meets the failure (`BreaksOff.reads`).

A source may be a part of a larger one that hands on what is asked of it (`Embeds`), as the one side
of a sum does. Then what it delivers is what the larger one delivers.
-/

namespace TextLines.Source

variable {σ τ : Type} [Source σ] [Source τ]

/-- `R` relates sources to the bytes that they give at most before they fail, and the reads respect
it. -/
structure Breakage (faults : Error → Prop) (R : σ → Bytes → Prop) : Prop where
  /-- A read gives some of the next bytes. -/
  of_ok : ∀ {s s' : σ} {data piece : Bytes} {n : Nat}, R s data → 0 < n →
    read n s = (.ok piece, s') → piece ≠ [] ∧ ∃ rest, data = piece ++ rest ∧ R s' rest
  /-- When a read has failed nothing is given any more. -/
  of_error : ∀ {s s' : σ} {data : Bytes} {n : Nat} {e : Error}, R s data → 0 < n →
    read n s = (.error e, s') → faults e ∧ R s' []

/-- The source gives some of `data` at most and then fails for ever. -/
def BreaksOff (faults : Error → Prop) (s : σ) (data : Bytes) : Prop :=
  ∃ R : σ → Bytes → Prop, Breakage faults R ∧ R s data

theorem breakage_breaksOff (faults : Error → Prop) :
    Breakage faults (BreaksOff (σ := σ) faults) := by
  refine ⟨?_, ?_⟩
  · rintro s s' data piece n ⟨R, hR, hs⟩ hn hr
    obtain ⟨hne, rest, hdata, hs'⟩ := hR.of_ok hs hn hr
    exact ⟨hne, rest, hdata, R, hR, hs'⟩
  · rintro s s' data n e ⟨R, hR, hs⟩ hn hr
    obtain ⟨he, hs'⟩ := hR.of_error hs hn hr
    exact ⟨he, R, hR, hs'⟩

/-- A source that breaks off delivers its data but for failures. -/
theorem Breakage.delivery {faults : Error → Prop} {R : σ → Bytes → Prop}
    (hR : Breakage faults R) : Delivery faults fun s data => R s data ∨ R s [] := by
  refine ⟨fun {s s' data piece n} h hn hr => ?_, fun {s s' data n e} h hn hr => ?_⟩
  · rcases h with hs | hs
    · obtain ⟨hne, rest, hdata, hs'⟩ := hR.of_ok hs hn hr
      exact ⟨rest, hdata, fun hnil => absurd hnil hne, .inl hs'⟩
    · obtain ⟨hne, rest, hdata, -⟩ := hR.of_ok hs hn hr
      exact absurd (List.append_eq_nil_iff.mp hdata.symm).1 hne
  · rcases h with hs | hs
    · exact (hR.of_error hs hn hr).imp id .inr
    · exact (hR.of_error hs hn hr).imp id .inr

/-- The reasons may be more than those that occur. -/
theorem BreaksOff.imp {faults faults' : Error → Prop} {s : σ} {data : Bytes}
    (h : BreaksOff faults s data) (hfaults : ∀ e, faults e → faults' e) :
    BreaksOff faults' s data := by
  obtain ⟨R, hR, hs⟩ := h
  exact ⟨R, ⟨hR.of_ok, fun hs hn hr => (hR.of_error hs hn hr).imp (hfaults _) id⟩, hs⟩

/-- The bytes that a source gives at most may be more than it ever gives. -/
theorem BreaksOff.mono {faults : Error → Prop} {s : σ} {data more : Bytes}
    (h : BreaksOff faults s data) (hmore : data <+: more) : BreaksOff faults s more := by
  obtain ⟨R, hR, hs⟩ := h
  refine ⟨fun s more => ∃ data, R s data ∧ data <+: more, ⟨?_, ?_⟩, data, hs, hmore⟩
  · rintro s s' more piece n ⟨data, hs, rest', rfl⟩ hn hr
    obtain ⟨hne, rest, rfl, hs'⟩ := hR.of_ok hs hn hr
    exact ⟨hne, rest ++ rest', List.append_assoc _ _ _, rest, hs', List.prefix_append _ _⟩
  · rintro s s' more n e ⟨data, hs, -⟩ hn hr
    exact (hR.of_error hs hn hr).imp id fun hs' => ⟨[], hs', List.nil_prefix⟩

/-- Whatever sizes are asked for, a read fails at last, and those before it have given a beginning
of the data. -/
theorem BreaksOff.reads {faults : Error → Prop} {s : σ} {data : Bytes}
    (h : BreaksOff faults s data) {sizes : Nat → Nat} (hpos : ∀ k, 0 < sizes k) :
    ∃ k e, nthRead sizes s k = .error e ∧ faults e ∧ received sizes s k <+: data ∧
      ∀ j, j < k → ∃ piece, nthRead sizes s j = .ok piece ∧ piece ≠ [] := by
  induction hl : data.length using Nat.strongRecOn generalizing s data sizes with
  | ind l ih =>
    have hR := breakage_breaksOff (σ := σ) faults
    rcases hr : read (sizes 0) s with ⟨e | piece, s'⟩
    · have hfirst : nthRead sizes s 0 = .error e := by rw [nthRead, afterReads, hr]
      exact ⟨0, e, hfirst, (hR.of_error h (hpos 0) hr).1, List.nil_prefix,
        fun j hj => absurd hj (Nat.not_lt_zero j)⟩
    · obtain ⟨hne, rest, hdata, hs'⟩ := hR.of_ok h (hpos 0) hr
      have hlt : rest.length < l := by
        have hpiece := List.length_pos_iff.mpr hne
        rw [← hl, hdata, List.length_append]
        omega
      obtain ⟨k, e, hfails, hfault, hbegins, hbefore⟩ :=
        ih rest.length hlt hs' (fun k => hpos (k + 1)) rfl
      have hstep : ∀ k, nthRead sizes s (k + 1) = nthRead (fun i => sizes (i + 1)) s' k := by
        intro k
        rw [nthRead_succ, hr]
      have hfirst : nthRead sizes s 0 = .ok piece := by rw [nthRead, afterReads, hr]
      refine ⟨k + 1, e, (hstep k).trans hfails, hfault, ?_, ?_⟩
      · rw [received_succ, hfirst, hr, hdata]
        exact (List.prefix_append_right_inj _).mpr hbegins
      · rintro (_ | j) hj
        · exact ⟨piece, hfirst, hne⟩
        · rw [hstep j]
          exact hbefore j (Nat.lt_of_succ_lt_succ hj)

/-! ## Parts of larger sources -/

/-- A source of the one kind does as a source of the other kind what it does by itself. -/
structure Embeds (f : σ → τ) : Prop where
  read : ∀ n s, Source.read n (f s) = ((Source.read n s).1, f (Source.read n s).2)
  close : ∀ s, Source.close (f s) = ((Source.close s).1, f (Source.close s).2)

theorem embeds_inl : Embeds (Sum.inl : σ → σ ⊕ τ) :=
  ⟨fun _ _ => rfl, fun _ => rfl⟩

theorem embeds_inr : Embeds (Sum.inr : τ → σ ⊕ τ) :=
  ⟨fun _ _ => rfl, fun _ => rfl⟩

/-- A read of a part. -/
theorem Embeds.of_read {f : σ → τ} (hf : Embeds f) {n : Nat} {s : σ} {t : τ}
    {r : Except Error Bytes} (h : Source.read n (f s) = (r, t)) :
    ∃ s', t = f s' ∧ Source.read n s = (r, s') := by
  rw [hf.read] at h
  obtain ⟨hr, rfl⟩ := Prod.mk.inj h
  exact ⟨_, rfl, by rw [← hr]⟩

theorem Embeds.deliversBut {f : σ → τ} (hf : Embeds f) {faults : Error → Prop} {s : σ}
    {data : Bytes} (h : DeliversBut faults s data) : DeliversBut faults (f s) data := by
  obtain ⟨R, hR, hs⟩ := h
  refine ⟨fun t data => ∃ s, t = f s ∧ R s data, ⟨?_, ?_⟩, s, rfl, hs⟩
  · rintro _ t data piece n ⟨s, rfl, hs⟩ hn hr
    obtain ⟨s', rfl, hread⟩ := hf.of_read hr
    obtain ⟨rest, hdata, hend, hs'⟩ := hR.of_ok hs hn hread
    exact ⟨rest, hdata, hend, s', rfl, hs'⟩
  · rintro _ t data n e ⟨s, rfl, hs⟩ hn hr
    obtain ⟨s', rfl, hread⟩ := hf.of_read hr
    exact (hR.of_error hs hn hread).imp id fun hs' => ⟨s', rfl, hs'⟩

theorem Embeds.breaksOff {f : σ → τ} (hf : Embeds f) {faults : Error → Prop} {s : σ}
    {data : Bytes} (h : BreaksOff faults s data) : BreaksOff faults (f s) data := by
  obtain ⟨R, hR, hs⟩ := h
  refine ⟨fun t data => ∃ s, t = f s ∧ R s data, ⟨?_, ?_⟩, s, rfl, hs⟩
  · rintro _ t data piece n ⟨s, rfl, hs⟩ hn hr
    obtain ⟨s', rfl, hread⟩ := hf.of_read hr
    obtain ⟨hne, rest, hdata, hs'⟩ := hR.of_ok hs hn hread
    exact ⟨hne, rest, hdata, s', rfl, hs'⟩
  · rintro _ t data n e ⟨s, rfl, hs⟩ hn hr
    obtain ⟨s', rfl, hread⟩ := hf.of_read hr
    exact (hR.of_error hs hn hread).imp id fun hs' => ⟨s', rfl, hs'⟩

theorem Embeds.closesQuietly {f : σ → τ} (hf : Embeds f) {s : σ} (h : ClosesQuietly s) :
    ClosesQuietly (f s) := by
  obtain ⟨Q, hs, hQ⟩ := h
  refine ⟨fun t => ∃ s, t = f s ∧ Q s, ⟨s, rfl, hs⟩, ?_⟩
  rintro _ ⟨s, rfl, hs⟩
  obtain ⟨hclose, hread⟩ := hQ s hs
  refine ⟨by rw [hf.close, hclose], fun n => ?_⟩
  rw [hf.read]
  exact ⟨_, rfl, hread n⟩

end TextLines.Source

import TextLines.Source.Memory

/-!
# What a source delivers

The laws of the class `Source` bound what a read gives, but they do not say which bytes it gives.
This module adds that. `Delivers s data` says that the source `s` hands out exactly `data`, in
pieces that nothing is assumed about, and then reports its end. `DeliversBut faults s data` allows
any number of reads to fail on the way, for the reasons in `faults`, as long as a read that fails
consumes nothing.

Both are the largest relations that the reads respect (`Delivery`), so they are proved by naming an
invariant of the source (`Memory.deliversBut`). Proofs about loops over a source work with any
relation that the reads respect; they can then carry along what else is known of the source
(`Delivery.and`).

`Delivers.reads` is the consequence for a caller who reads to the end: whatever sizes it asks for,
what it gets is the data, and nothing comes after that.
-/

namespace TextLines

namespace Source

variable {σ : Type} [Source σ]

/-- `R` relates sources to the bytes that they still have to give, and the reads respect it. -/
structure Delivery (faults : Error → Prop) (R : σ → Bytes → Prop) : Prop where
  /-- A read gives the next bytes, and none only when there are none. -/
  of_ok : ∀ {s s' : σ} {data piece : Bytes} {n : Nat}, R s data → 0 < n →
    read n s = (.ok piece, s') →
      ∃ rest, data = piece ++ rest ∧ (piece = [] → rest = []) ∧ R s' rest
  /-- A read that fails consumes nothing. -/
  of_error : ∀ {s s' : σ} {data : Bytes} {n : Nat} {e : Error}, R s data → 0 < n →
    read n s = (.error e, s') → faults e ∧ R s' data

/-- The source gives `data` and then nothing. Reads may fail for the reasons in `faults`. -/
def DeliversBut (faults : Error → Prop) (s : σ) (data : Bytes) : Prop :=
  ∃ R : σ → Bytes → Prop, Delivery faults R ∧ R s data

/-- The source gives `data` and then nothing, and no read fails. -/
def Delivers (s : σ) (data : Bytes) : Prop :=
  DeliversBut (fun _ => False) s data

/-- No close of the source fails, whatever has been read before. -/
def ClosesQuietly (s : σ) : Prop :=
  ∃ Q : σ → Prop, Q s ∧ ∀ t, Q t → (close t).1 = none ∧ ∀ n, Q (read n t).2

/-- Closing the source comes to the same, whatever has been read before. -/
def ClosesWith (failure : Option Error) (s : σ) : Prop :=
  ∃ Q : σ → Prop, Q s ∧ ∀ t, Q t → (close t).1 = failure ∧ ∀ n, Q (read n t).2

/-! ## One read -/

/-- The reads respect what sources deliver. -/
theorem delivery_deliversBut (faults : Error → Prop) :
    Delivery faults (DeliversBut (σ := σ) faults) := by
  refine ⟨?_, ?_⟩
  · rintro s s' data piece n ⟨R, hR, hs⟩ hn hr
    obtain ⟨rest, hdata, hend, hs'⟩ := hR.of_ok hs hn hr
    exact ⟨rest, hdata, hend, R, hR, hs'⟩
  · rintro s s' data n e ⟨R, hR, hs⟩ hn hr
    obtain ⟨he, hs'⟩ := hR.of_error hs hn hr
    exact ⟨he, R, hR, hs'⟩

/-- What every read keeps can be carried along. -/
theorem Delivery.and {faults : Error → Prop} {R : σ → Bytes → Prop} {Q : σ → Prop}
    (hR : Delivery faults R) (hQ : ∀ s n, Q s → Q (read n s).2) :
    Delivery faults fun s data => R s data ∧ Q s := by
  refine ⟨?_, ?_⟩
  · rintro s s' data piece n ⟨hs, hq⟩ hn hr
    obtain ⟨rest, hdata, hend, hs'⟩ := hR.of_ok hs hn hr
    have hq' := hQ s n hq
    rw [hr] at hq'
    exact ⟨rest, hdata, hend, hs', hq'⟩
  · rintro s s' data n e ⟨hs, hq⟩ hn hr
    obtain ⟨he, hs'⟩ := hR.of_error hs hn hr
    have hq' := hQ s n hq
    rw [hr] at hq'
    exact ⟨he, hs', hq'⟩

/-- A source that does not fail answers every read. -/
theorem Delivers.exists_read {s : σ} {data : Bytes} {n : Nat} (h : Delivers s data)
    (hn : 0 < n) :
    ∃ piece rest s', read n s = (.ok piece, s') ∧ data = piece ++ rest ∧
      (piece = [] → rest = []) ∧ Delivers s' rest := by
  have hR := delivery_deliversBut (σ := σ) fun _ => False
  rcases hr : read n s with ⟨e | piece, s'⟩
  · exact absurd (hR.of_error h hn hr).1 id
  · obtain ⟨rest, hdata, hend, hs'⟩ := hR.of_ok h hn hr
    exact ⟨piece, rest, s', rfl, hdata, hend, hs'⟩

theorem ClosesQuietly.close_eq {s : σ} (h : ClosesQuietly s) : (close s).1 = none := by
  obtain ⟨Q, hs, hQ⟩ := h
  exact (hQ s hs).1

theorem ClosesQuietly.read {s : σ} (h : ClosesQuietly s) (n : Nat) :
    ClosesQuietly (read n s).2 := by
  obtain ⟨Q, hs, hQ⟩ := h
  exact ⟨Q, (hQ s hs).2 n, hQ⟩

theorem ClosesWith.close_eq {failure : Option Error} {s : σ} (h : ClosesWith failure s) :
    (close s).1 = failure := by
  obtain ⟨Q, hs, hQ⟩ := h
  exact (hQ s hs).1

theorem ClosesWith.read {failure : Option Error} {s : σ} (h : ClosesWith failure s) (n : Nat) :
    ClosesWith failure (read n s).2 := by
  obtain ⟨Q, hs, hQ⟩ := h
  exact ⟨Q, (hQ s hs).2 n, hQ⟩

/-! ## Reading to the end -/

/-- The source after so many reads of the given sizes. -/
def afterReads (sizes : Nat → Nat) (s : σ) : Nat → σ
  | 0 => s
  | k + 1 => (read (sizes k) (afterReads sizes s k)).2

/-- What the read with a number gives, counted from zero. -/
def nthRead (sizes : Nat → Nat) (s : σ) (k : Nat) : Except Error Bytes :=
  (read (sizes k) (afterReads sizes s k)).1

theorem afterReads_succ (sizes : Nat → Nat) (s : σ) (k : Nat) :
    afterReads sizes s (k + 1) =
      afterReads (fun i => sizes (i + 1)) (read (sizes 0) s).2 k := by
  induction k with
  | zero => rfl
  | succ k ih => rw [afterReads, ih, afterReads]

theorem nthRead_succ (sizes : Nat → Nat) (s : σ) (k : Nat) :
    nthRead sizes s (k + 1) = nthRead (fun i => sizes (i + 1)) (read (sizes 0) s).2 k := by
  rw [nthRead, afterReads_succ, nthRead]

/-- What so many reads give together. A read that fails gives nothing. -/
def received (sizes : Nat → Nat) (s : σ) : Nat → Bytes
  | 0 => []
  | k + 1 => received sizes s k ++ (nthRead sizes s k).toOption.getD []

theorem received_succ (sizes : Nat → Nat) (s : σ) (k : Nat) :
    received sizes s (k + 1) = (nthRead sizes s 0).toOption.getD [] ++
      received (fun i => sizes (i + 1)) (read (sizes 0) s).2 k := by
  induction k with
  | zero => simp [received]
  | succ k ih => rw [received, ih, received, nthRead_succ, List.append_assoc]

/-- A source that has given everything gives nothing more, however often it is asked. -/
theorem Delivers.nthRead_nil {s : σ} (h : Delivers s []) {sizes : Nat → Nat}
    (hpos : ∀ k, 0 < sizes k) (k : Nat) : nthRead sizes s k = .ok [] := by
  have hall : ∀ k, Delivers (afterReads sizes s k) [] := by
    intro k
    induction k with
    | zero => exact h
    | succ k ih =>
      obtain ⟨piece, rest, s', hr, hdata, -, hs'⟩ := ih.exists_read (hpos k)
      rw [afterReads, hr]
      rwa [(List.append_eq_nil_iff.mp hdata.symm).2] at hs'
  obtain ⟨piece, rest, s', hr, hdata, -, -⟩ := (hall k).exists_read (hpos k)
  rw [nthRead, hr, (List.append_eq_nil_iff.mp hdata.symm).1]

/-- Whatever sizes are asked for, the reads up to the first that gives nothing give the data, and
all later reads give nothing. -/
theorem Delivers.reads {s : σ} {data : Bytes} (h : Delivers s data) {sizes : Nat → Nat}
    (hpos : ∀ k, 0 < sizes k) :
    ∃ pieces : List Bytes, pieces.flatten = data ∧
      (∀ k, (hk : k < pieces.length) → nthRead sizes s k = .ok pieces[k] ∧ pieces[k] ≠ []) ∧
      ∀ k, pieces.length ≤ k → nthRead sizes s k = .ok [] := by
  induction hl : data.length using Nat.strongRecOn generalizing s data sizes with
  | ind l ih =>
    obtain ⟨piece, rest, s', hr, hdata, hend, hs'⟩ := h.exists_read (hpos 0)
    by_cases hp : piece = []
    · have hnil : data = [] := by rw [hdata, hp, hend hp, List.append_nil]
      subst hnil
      exact ⟨[], rfl, fun k hk => absurd hk (Nat.not_lt_zero k),
        fun k _ => h.nthRead_nil hpos k⟩
    · have hlt : rest.length < l := by
        have := List.length_pos_iff.mpr hp
        rw [← hl, hdata, List.length_append]
        omega
      obtain ⟨pieces, hflat, hbefore, hafter⟩ :=
        ih rest.length hlt hs' (fun k => hpos (k + 1)) rfl
      have hstep : ∀ k, nthRead sizes s (k + 1) = nthRead (fun i => sizes (i + 1)) s' k := by
        intro k
        rw [nthRead_succ, hr]
      refine ⟨piece :: pieces, by rw [List.flatten_cons, hflat, hdata], ?_, ?_⟩
      · rintro (_ | k) hk
        · exact ⟨by rw [nthRead, afterReads, hr]; rfl, hp⟩
        · rw [hstep k]
          exact hbefore k (by simpa using hk)
      · rintro (_ | k) hk
        · simp at hk
        · rw [hstep k]
          exact hafter k (by simpa using hk)

end Source

/-! ## Data in memory -/

/-- Data in memory is delivered whatever the size of the pieces. The one read that may be told to
fail does so for the reason it was given. -/
theorem Memory.deliversBut {faults : Error → Prop} {m : Memory} (hstep : 0 < m.step)
    (hopen : m.closed = false) (hfault : ∀ number e, m.readFault = some (number, e) → faults e) :
    Source.DeliversBut faults m m.rest := by
  refine ⟨fun m data => m.rest = data ∧ 0 < m.step ∧ m.closed = false ∧
    ∀ number e, m.readFault = some (number, e) → faults e, ⟨?_, ?_⟩, rfl, hstep, hopen, hfault⟩
  · rintro m m' data piece n ⟨rfl, hstep, hopen, hfault⟩ hn hr
    simp only [Source.read, Memory.read, hopen] at hr
    split at hr
    · simp at hr
    · simp only [Bool.false_eq_true, if_false, Prod.mk.injEq, Except.ok.injEq] at hr
      obtain ⟨rfl, rfl⟩ := hr
      refine ⟨m.rest.drop (min n m.step), (List.take_append_drop _ _).symm, ?_, rfl, hstep,
        rfl, hfault⟩
      intro hnil
      have hmin : min n m.step ≠ 0 := by omega
      rw [(List.take_eq_nil_iff.mp hnil).resolve_left hmin, List.drop_nil]
  · rintro m m' data n e ⟨rfl, hstep, hopen, hfault⟩ hn hr
    simp only [Source.read, Memory.read, hopen] at hr
    split at hr
    · rename_i e' he
      simp only [Prod.mk.injEq, Except.error.injEq] at hr
      obtain ⟨rfl, rfl⟩ := hr
      refine ⟨?_, rfl, hstep, rfl, hfault⟩
      unfold Memory.nextFault at he
      split at he
      · rename_i number e'' hf
        split at he
        · cases he
          exact hfault number _ hf
        · simp at he
      · simp at he
    · simp at hr

theorem Memory.delivers {m : Memory} (hstep : 0 < m.step) (hopen : m.closed = false)
    (hfault : m.readFault = none) : Source.Delivers m m.rest :=
  Memory.deliversBut hstep hopen (by simp [hfault])

theorem Memory.closesQuietly {m : Memory} (h : m.closeFault = none) :
    Source.ClosesQuietly m := by
  refine ⟨fun m => m.closeFault = none, h, ?_⟩
  intro m hm
  refine ⟨?_, fun n => ?_⟩
  · simp only [Source.close, Memory.close]
    split
    · rfl
    · exact hm
  · simp only [Source.read, Memory.read]
    split
    · exact hm
    · split <;> exact hm

/-- A close of data in memory fails whenever it comes, if it is to fail. -/
theorem Memory.closesWith {m : Memory} (hopen : m.closed = false) :
    Source.ClosesWith m.closeFault m := by
  refine ⟨fun t => t.closed = false ∧ t.closeFault = m.closeFault, ⟨hopen, rfl⟩, ?_⟩
  rintro t ⟨hclosed, hfault⟩
  refine ⟨?_, fun n => ?_⟩
  · simp only [Source.close, Memory.close, hclosed, Bool.false_eq_true, if_false, hfault]
  · simp only [Source.read, Memory.read]
    split
    · exact ⟨hclosed, hfault⟩
    · split <;> exact ⟨hclosed, hfault⟩

end TextLines

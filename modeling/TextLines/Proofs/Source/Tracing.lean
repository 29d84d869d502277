import TextLines.Source.Basic

/-!
# What is asked of a source

`Traced` passes everything on to the source inside and writes down every call with what came of it.
`Call.Orderly` is how a source is to be used: nothing is asked of it when it has been closed, and it
is not read again when it has come to its end. `Traced.InUse` and `Traced.Released` are the two
states of a source that is used in this way: reading keeps it in use as long as it has not come to
its end (`Traced.InUse.read`), and closing releases it (`Traced.InUse.close`). It is closed once,
and then there is at most one failure to close it.
-/

namespace TextLines

/-- A call of a source and what came of it. -/
inductive Call where
  | read (given : Except Error Bytes)
  | close (failure : Option Error)

namespace Call

/-- Whether a call closes the source. -/
def isClose : Call → Bool
  | .close _ => true
  | .read _ => false

/-- The failure to close the source, if the call is one. -/
def closeFailure? : Call → Option Error
  | .close failure => failure
  | .read _ => none

/-- How often the source was closed. -/
def closes (calls : List Call) : Nat :=
  calls.countP isClose

/-- The reads have come to the end of the source. -/
def Ended (calls : List Call) : Prop :=
  .read (.ok []) ∈ calls

/-- Nothing was asked of the source after a close, and it was not read when it had come to its end.
The latest call is the first of the list. -/
def Orderly : List Call → Prop
  | [] => True
  | .read _ :: before => closes before = 0 ∧ ¬ Ended before ∧ Orderly before
  | .close _ :: before => closes before = 0 ∧ Orderly before

@[simp] theorem closes_nil : closes [] = 0 := rfl

@[simp] theorem closes_read (given : Except Error Bytes) (before : List Call) :
    closes (.read given :: before) = closes before :=
  List.countP_cons_of_neg (by simp [isClose])

@[simp] theorem closes_close (failure : Option Error) (before : List Call) :
    closes (.close failure :: before) = closes before + 1 :=
  List.countP_cons_of_pos rfl

/-- A source that was not closed has not failed to close. -/
theorem closeFailures_of_unclosed {calls : List Call} (h : closes calls = 0) :
    calls.filterMap closeFailure? = [] := by
  rw [List.filterMap_eq_nil_iff]
  intro call hcall
  cases call with
  | read given => rfl
  | close failure =>
    have hnot := List.countP_eq_zero.mp h _ hcall
    exact absurd rfl hnot

end Call

/-- A source with the calls that were made of it, the latest first. -/
structure Traced (σ : Type) where
  /-- The source that answers. -/
  inner : σ
  /-- The calls. -/
  calls : List Call := []

namespace Traced

variable {σ : Type}

/-- How often the source was closed. -/
def closes (s : Traced σ) : Nat :=
  Call.closes s.calls

/-- The failures to close the source. -/
def closeFailures (s : Traced σ) : List Error :=
  s.calls.filterMap Call.closeFailure?

/-- The source was used as a source is to be used. -/
def Orderly (s : Traced σ) : Prop :=
  Call.Orderly s.calls

variable [Source σ]

/-- Lets the source inside answer and writes the call down. -/
def read (n : Nat) (s : Traced σ) : Except Error Bytes × Traced σ :=
  let (given, inner) := Source.read n s.inner
  (given, { inner, calls := .read given :: s.calls })

/-- Closes the source inside and writes the call down. -/
def close (s : Traced σ) : Option Error × Traced σ :=
  let (failure, inner) := Source.close s.inner
  (failure, { inner, calls := .close failure :: s.calls })

instance : Source (Traced σ) where
  read := read
  close := close
  bytesRead s := Source.bytesRead s.inner
  left s := Source.left s.inner
  read_length := by
    intro n s bs s' h
    simp only [read, Prod.mk.injEq] at h
    exact Source.read_length (Prod.ext h.1 rfl)
  read_left := by
    intro n s bs s' h
    simp only [read, Prod.mk.injEq] at h
    obtain ⟨h, rfl⟩ := h
    exact Source.read_left (Prod.ext h rfl)

theorem calls_of_read {n : Nat} {s s' : Traced σ} {given : Except Error Bytes}
    (h : Source.read n s = (given, s')) : s'.calls = .read given :: s.calls := by
  have hread : s.read n = (given, s') := h
  simp only [read, Prod.mk.injEq] at hread
  rw [← hread.2, ← hread.1]

theorem calls_close (s : Traced σ) :
    (Source.close s).2.calls = .close (Source.close s).1 :: s.calls := rfl

/-! ## A source in use and a source that has been released -/

/-- The source has been used as it should be, and it is not closed. If it is not known to have
`ended`, it has not. -/
structure InUse (s : Traced σ) (ended : Bool) : Prop where
  orderly : s.Orderly
  unclosed : s.closes = 0
  goesOn : ended = false → ¬ Call.Ended s.calls

/-- The source has been used as it should be, and it has been closed once. -/
structure Released (s : Traced σ) : Prop where
  orderly : s.Orderly
  closed : s.closes = 1

omit [Source σ] in
/-- A source of which nothing has been asked is in use. -/
theorem inUse_of_fresh {s : Traced σ} (h : s.calls = []) : s.InUse false := by
  refine ⟨?_, ?_, fun _ => ?_⟩
  · rw [Orderly, h]
    trivial
  · rw [closes, h]
    rfl
  · rw [h]
    exact List.not_mem_nil

omit [Source σ] in
theorem InUse.closeFailures {s : Traced σ} {ended : Bool} (h : s.InUse ended) :
    s.closeFailures = [] :=
  Call.closeFailures_of_unclosed h.unclosed

/-- Reading keeps a source in use as long as it has not come to its end. -/
theorem InUse.read {n : Nat} {s s' : Traced σ} {given : Except Error Bytes} (h : s.InUse false)
    (hread : Source.read n s = (given, s')) : s'.InUse (given matches .ok []) := by
  have hcalls := calls_of_read hread
  refine ⟨?_, ?_, fun hgoesOn => ?_⟩
  · rw [Orderly, hcalls]
    exact ⟨h.unclosed, h.goesOn rfl, h.orderly⟩
  · rw [closes, hcalls, Call.closes_read]
    exact h.unclosed
  · intro hended
    rw [hcalls, Call.Ended] at hended
    rcases List.mem_cons.mp hended with hlast | hbefore
    · obtain rfl := Call.read.inj hlast
      cases hgoesOn
    · exact h.goesOn rfl hbefore

/-- Closing releases a source in use. A failure to close it is the only one there is. -/
theorem InUse.close {s : Traced σ} {ended : Bool} (h : s.InUse ended) :
    (Source.close s).2.Released ∧
      (Source.close s).2.closeFailures = (Source.close s).1.toList := by
  have hcalls := calls_close s
  refine ⟨⟨?_, ?_⟩, ?_⟩
  · rw [Orderly, hcalls]
    exact ⟨h.unclosed, h.orderly⟩
  · rw [closes, hcalls, Call.closes_close, Nat.add_eq_right]
    exact h.unclosed
  · have hbefore : s.calls.filterMap Call.closeFailure? = [] := h.closeFailures
    rw [Traced.closeFailures, hcalls]
    rcases (Source.close s).1 with _ | e
    · exact hbefore
    · show e :: s.calls.filterMap Call.closeFailure? = [e]
      rw [hbefore]

end Traced

end TextLines

import Mathlib.Data.List.Permutation
import TextLines.Proofs.Document.Consumer

/-!
# Going on after a failure

A caller may ask for a line again when an attempt has failed. What the failed attempt had read of
the line is gone by then, and the rest of it is handed out as if it were a line: it has been torn.

`whole_iff_keeps` says when this happens and when it does not, for the splitter and for a stream in
the hands of a caller: the lines are whole if and only if every failure that a line comes after had
consumed nothing, and else one of them was torn. `torn_by_guard_and_by_read` shows that both kinds
of failure can consume a part of a line: the limit on the length of a line, and a read of the
source.
-/

namespace TextLines

open Line (Attempt Account)

theorem Memory.deliversBut_reading {m : Memory} {number : Nat} {fault : ReadFault}
    (hstep : 0 < m.step) (hopen : m.closed = false)
    (hfault : m.readFault = some (number, .reading fault)) :
    Source.DeliversBut Error.IsReading m m.rest := by
  apply Memory.deliversBut hstep hopen
  intro number' e he
  rw [hfault] at he
  obtain ⟨-, rfl⟩ := Prod.mk.inj (Option.some.inj he)
  exact ⟨fault, rfl⟩

variable {σ : Type} [Source σ]

/-- What callers have seen who read a source to wherever they like, going on after failures. -/
inductive SeenOf (source : σ) (chunkBytes maxLineBytes : Nat) : List Attempt → Prop where
  /-- They have asked a splitter for so many lines. -/
  | lines (n : Nat) : SeenOf source chunkBytes maxLineBytes
      ((({ handle := .held source, chunkBytes, maxLineBytes } : Splitter σ).readings n).flatMap
        Splitter.Reading.attempts)
  /-- They have used a stream. -/
  | stream (calls : List (Nat × StreamOp)) : SeenOf source chunkBytes maxLineBytes
      ((Consumer.ofSource source chunkBytes maxLineBytes).run calls).attempts

/-- With what was lost of them put back, the lines that callers have seen are the first of the lines
of the data. -/
theorem SeenOf.whole_isPrefix {source : σ} {data : Bytes}
    (hdata : Source.DeliversBut Error.IsReading source data) {chunkBytes maxLineBytes : Nat}
    {attempts : List Attempt} (h : SeenOf source chunkBytes maxLineBytes attempts) :
    (Account.ofAttempts attempts).whole <+: Line.cut data := by
  have hR := Source.delivery_deliversBut (σ := σ) Error.IsReading
  cases h with
  | lines n =>
    have hstart := Splitter.accounts_of_held hdata chunkBytes maxLineBytes
    exact hstart.readings hR n
  | stream calls =>
    have hstart := Consumer.ofSource_follows hdata chunkBytes maxLineBytes
    obtain ⟨hfollows, -⟩ := Consumer.run_follows hR (fun _ => id) calls hstart
    exact Cursor.Follows.whole_isPrefix hfollows

/-- The lines that were handed out are the first lines of the data if and only if every failure that
a line came after had consumed nothing. If one of them had, the end of a line was handed out in
place of the line. -/
theorem whole_iff_keeps {source : σ} {data : Bytes}
    (hdata : Source.DeliversBut Error.IsReading source data) {chunkBytes maxLineBytes : Nat}
    {attempts : List Attempt} (h : SeenOf source chunkBytes maxLineBytes attempts) :
    (Attempt.lines attempts <+: Line.cut data ↔ Attempt.Keeps attempts) ∧
      (Line.Torn (Line.cut data) (Attempt.lines attempts) ↔ ¬ Attempt.Keeps attempts) := by
  have hwhole := h.whole_isPrefix hdata
  rw [← Account.unbroken_ofAttempts_iff, ← Account.map_line_ofAttempts]
  exact ⟨Account.lines_prefix_iff hwhole, Account.torn_iff hwhole⟩

/-- A read that fails in front of a line does the line no harm. -/
theorem whole_after_first_read :
    let source : Memory :=
      { rest := Bytes.ascii "abcdef\n", step := 4096, readFault := some (1, .reading (.device [])) }
    Source.DeliversBut Error.IsReading source source.rest ∧
      ∃ attempts, SeenOf source 3 0 attempts ∧ Attempt.failure [] ∈ attempts ∧
        Attempt.lines attempts = [Bytes.ascii "abcdef"] ∧
        Attempt.lines attempts <+: Line.cut source.rest := by
  intro source
  have hdata : Source.DeliversBut Error.IsReading source source.rest :=
    Memory.deliversBut_reading (by decide) rfl rfl
  have hattempts : ((({ handle := .held source, chunkBytes := 3, maxLineBytes := 0 } :
      Splitter Memory).readings 2).flatMap Splitter.Reading.attempts) =
        [.failure [], .line (Bytes.ascii "abcdef")] := by
    cbv
  have hseen : SeenOf source 3 0 [.failure [], .line (Bytes.ascii "abcdef")] :=
    hattempts ▸ SeenOf.lines 2
  refine ⟨hdata, _, hseen, List.mem_cons_self, rfl, ?_⟩
  exact (whole_iff_keeps hdata hseen).1.mpr ⟨fun _ => rfl, trivial⟩

/-- A line that is over the limit, and a line in which a read has failed: in both cases the end of
the line is handed out, which is none of the lines. -/
theorem torn_by_guard_and_by_read :
    let guarded : Memory := { rest := Bytes.ascii "abcdef\n", step := 4096 }
    let failing : Memory := { guarded with readFault := some (2, .reading (.device [])) }
    Source.Delivers guarded guarded.rest ∧
      Source.DeliversBut Error.IsReading failing guarded.rest ∧
      Line.cut guarded.rest = [Bytes.ascii "abcdef"] ∧
      (∃ attempts, SeenOf guarded 3 3 attempts ∧ Attempt.lines attempts = [Bytes.ascii "def"]) ∧
      ∃ attempts, SeenOf failing 3 0 attempts ∧ Attempt.lines attempts = [Bytes.ascii "def"] := by
  refine ⟨Memory.delivers (by decide) rfl rfl, Memory.deliversBut_reading (by decide) rfl rfl,
    by decide, ⟨_, .lines 2, by cbv⟩, ⟨_, .stream [(0, .take), (0, .take)], by cbv⟩⟩

end TextLines

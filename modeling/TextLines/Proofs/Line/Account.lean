import TextLines.Proofs.Line.Splitting

/-!
# Keeping account of lines and failures

A caller who goes on after a failure gets lines from a reader that stands somewhere inside a line.
An `Account` of what the caller has seen puts things together again: with every line that was handed
out it keeps what failed attempts had consumed of that line before, and it keeps what they have
consumed since.

The main statement is `Accounts.readLine`: the lines of a text are always those that were handed
out, with what was lost of them put back (`Account.whole`), and then the lines of what is lost
since and of what is ahead. Whether the lines were handed out as they stand in the text is then a
question about the account alone (`Unbroken.map_line`, `torn_iff`), and that is a question about
the failures that lines came after (`unbroken_ofAttempts_iff`).
-/

namespace TextLines

namespace Line

/-- What comes of an attempt to get a line. -/
inductive Attempt where
  /-- A line. -/
  | line (line : Bytes)
  /-- A failure, after this part of a line had been consumed. -/
  | failure (part : Bytes)
  deriving DecidableEq, Repr

/-- The lines that attempts have shown. -/
def Attempt.lines (attempts : List Attempt) : List Bytes :=
  attempts.filterMap fun
    | .line bytes => some bytes
    | .failure _ => none

theorem Attempt.lines_append (attempts more : List Attempt) :
    lines (attempts ++ more) = lines attempts ++ lines more :=
  List.filterMap_append

theorem Attempt.lines_map_line (taken : List Bytes) : lines (taken.map .line) = taken := by
  induction taken with
  | nil => rfl
  | cons line taken ih => exact congrArg (line :: ·) ih

/-- The lines in front of the first failure. -/
def Attempt.beforeFailure : List Attempt → List Bytes
  | .line bytes :: attempts => bytes :: beforeFailure attempts
  | _ => []

theorem Attempt.failure_or_beforeFailure (attempts : List Attempt) :
    (∃ part, .failure part ∈ attempts) ∨
      (beforeFailure attempts).length = attempts.length := by
  induction attempts with
  | nil => exact .inr rfl
  | cons e attempts ih =>
    cases e with
    | failure part => exact .inl ⟨part, List.mem_cons_self⟩
    | line bytes =>
      rcases ih with ⟨part, hmem⟩ | hall
      · exact .inl ⟨part, List.mem_cons_of_mem _ hmem⟩
      · exact .inr (congrArg Nat.succ hall)

/-- Every failure that a line comes after has consumed nothing. -/
def Attempt.Keeps : List Attempt → Prop
  | [] => True
  | .line _ :: attempts => Keeps attempts
  | .failure part :: attempts => (Attempt.lines attempts ≠ [] → part = []) ∧ Keeps attempts

/-- The end of one of the lines was handed out in its place. -/
def Torn (lines handed : List Bytes) : Prop :=
  ∃ (k : Nat) (part line : Bytes), part ≠ [] ∧ handed[k]? = some line ∧
    lines[k]? = some (part ++ line)

/-- A line that was handed out. -/
structure Handed where
  /-- What failed attempts had consumed of the line. -/
  lost : Bytes
  /-- What was handed out of it. -/
  line : Bytes
  deriving DecidableEq, Repr

/-- The line as it stands in the text. -/
def Handed.whole (h : Handed) : Bytes :=
  h.lost ++ h.line

/-- An account of lines and failures. -/
structure Account where
  /-- The lines that were handed out. -/
  handed : List Handed := []
  /-- What failed attempts have consumed since the last line. -/
  lost : Bytes := []

namespace Account

/-- The lines that were handed out, as they stand in the text. -/
def whole (a : Account) : List Bytes :=
  a.handed.map Handed.whole

/-- One more attempt. -/
def add (a : Account) : Attempt → Account
  | .line line => { handed := a.handed ++ [⟨a.lost, line⟩] }
  | .failure part => { a with lost := a.lost ++ part }

/-- More attempts. -/
def addAll (a : Account) (attempts : List Attempt) : Account :=
  attempts.foldl add a

/-- The account of some attempts. -/
def ofAttempts (attempts : List Attempt) : Account :=
  addAll {} attempts

/-- No failed attempt has consumed anything of a line that was handed out. -/
def Unbroken (a : Account) : Prop :=
  ∀ h ∈ a.handed, h.lost = []

@[simp] theorem addAll_nil (a : Account) : a.addAll [] = a := rfl

@[simp] theorem addAll_singleton (a : Account) (e : Attempt) : a.addAll [e] = a.add e := rfl

theorem addAll_cons (a : Account) (e : Attempt) (attempts : List Attempt) :
    a.addAll (e :: attempts) = (a.add e).addAll attempts := rfl

theorem addAll_append (a : Account) (attempts more : List Attempt) :
    a.addAll (attempts ++ more) = (a.addAll attempts).addAll more := by
  rw [addAll, List.foldl_append]
  rfl

theorem ofAttempts_append (attempts more : List Attempt) :
    ofAttempts (attempts ++ more) = (ofAttempts attempts).addAll more :=
  addAll_append {} attempts more

theorem whole_add_line (a : Account) (line : Bytes) :
    (a.add (.line line)).whole = a.whole ++ [a.lost ++ line] := by
  rw [whole, whole, add, List.map_append]
  rfl

@[simp] theorem whole_add_failure (a : Account) (part : Bytes) :
    (a.add (.failure part)).whole = a.whole := rfl

theorem length_whole (a : Account) : a.whole.length = a.handed.length :=
  List.length_map _

/-- An account holds the lines that were handed out. -/
theorem map_line_addAll (a : Account) (attempts : List Attempt) :
    (a.addAll attempts).handed.map Handed.line =
      a.handed.map Handed.line ++ Attempt.lines attempts := by
  induction attempts generalizing a with
  | nil => simp [Attempt.lines]
  | cons e attempts ih =>
    rw [addAll_cons, ih]
    cases e with
    | line line => simp [add, Attempt.lines]
    | failure part => simp [add, Attempt.lines]

theorem map_line_ofAttempts (attempts : List Attempt) :
    (ofAttempts attempts).handed.map Handed.line = Attempt.lines attempts :=
  map_line_addAll {} attempts

/-- Without failures nothing is lost. -/
theorem addAll_of_no_failure {a : Account} {attempts : List Attempt} (ha : a.Unbroken)
    (hlost : a.lost = []) (h : ∀ part, Attempt.failure part ∉ attempts) :
    (a.addAll attempts).Unbroken ∧ (a.addAll attempts).lost = [] := by
  induction attempts generalizing a with
  | nil => exact ⟨ha, hlost⟩
  | cons e attempts ih =>
    have hrest : ∀ part, Attempt.failure part ∉ attempts :=
      fun part hmem => h part (List.mem_cons_of_mem e hmem)
    cases e with
    | failure part => exact absurd List.mem_cons_self (h part)
    | line line =>
      refine ih ?_ rfl hrest
      intro handed hmem
      rcases List.mem_append.mp hmem with hmem | hmem
      · exact ha handed hmem
      · rw [List.mem_singleton.mp hmem]
        exact hlost

/-- The lines of an unbroken account are whole. -/
theorem Unbroken.map_line {a : Account} (h : a.Unbroken) :
    a.handed.map Handed.line = a.whole := by
  refine List.map_congr_left fun handed hmem => ?_
  rw [Handed.whole, h handed hmem, List.nil_append]

/-- Lines that were handed out without failures are whole. -/
theorem whole_addAll_lines (taken : List Bytes) :
    (({} : Account).addAll (taken.map .line)).whole = taken := by
  have hstart : ({} : Account).Unbroken := fun h hmem => absurd hmem List.not_mem_nil
  have hnone : ∀ part, Attempt.failure part ∉ taken.map Attempt.line := by simp
  have hun := (addAll_of_no_failure hstart rfl hnone).1
  rw [← hun.map_line, map_line_addAll, Attempt.lines_map_line]
  rfl

/-- More attempts leave the lines that there are as they are. -/
theorem whole_isPrefix_addAll (a : Account) (attempts : List Attempt) :
    a.whole <+: (a.addAll attempts).whole := by
  induction attempts generalizing a with
  | nil => exact List.prefix_refl _
  | cons e attempts ih =>
    rw [addAll_cons]
    refine List.IsPrefix.trans ?_ (ih _)
    cases e with
    | line line =>
      rw [whole_add_line]
      exact List.prefix_append _ _
    | failure part => exact List.prefix_refl _

/-- The lines in front of the first failure are whole. -/
theorem beforeFailure_isPrefix (attempts : List Attempt) :
    Attempt.beforeFailure attempts <+: (ofAttempts attempts).whole := by
  have hsplit : ∃ more, attempts = (Attempt.beforeFailure attempts).map .line ++ more := by
    induction attempts with
    | nil => exact ⟨[], rfl⟩
    | cons e attempts ih =>
      cases e with
      | failure part => exact ⟨_, rfl⟩
      | line line =>
        obtain ⟨more, hmore⟩ := ih
        exact ⟨more, congrArg (.line line :: ·) hmore⟩
  obtain ⟨more, hmore⟩ := hsplit
  have hwhole := whole_isPrefix_addAll
    (({} : Account).addAll ((Attempt.beforeFailure attempts).map .line)) more
  rwa [whole_addAll_lines, ← addAll_append, ← hmore] at hwhole

/-- If the whole lines are the first of `lines`, one of them was torn if the account is broken. -/
theorem torn_iff {a : Account} {lines : List Bytes} (h : a.whole <+: lines) :
    Torn lines (a.handed.map Handed.line) ↔ ¬ a.Unbroken := by
  have hwhole : ∀ {k : Nat} {handed : Handed}, a.handed[k]? = some handed →
      lines[k]? = some handed.whole := by
    intro k handed hk
    obtain ⟨rest, rfl⟩ := h
    have hmap : a.whole[k]? = some handed.whole := by
      rw [whole, List.getElem?_map, hk]
      rfl
    rw [List.getElem?_append_left (List.getElem?_eq_some_iff.mp hmap).1, hmap]
  constructor
  · rintro ⟨k, part, line, hpart, hline, hlines⟩ hun
    rw [List.getElem?_map] at hline
    obtain ⟨handed, hk, rfl⟩ := Option.map_eq_some_iff.mp hline
    have hnone := hun handed (List.mem_of_getElem? hk)
    rw [hwhole hk, Handed.whole, hnone] at hlines
    exact hpart (List.append_cancel_right (Option.some.inj hlines)).symm
  · intro hbroken
    obtain ⟨handed, hmem, hlost⟩ : ∃ handed ∈ a.handed, handed.lost ≠ [] := by
      simpa [Unbroken] using hbroken
    obtain ⟨k, hk⟩ := List.mem_iff_getElem?.mp hmem
    refine ⟨k, handed.lost, handed.line, hlost, ?_, hwhole hk⟩
    rw [List.getElem?_map, hk]
    rfl

/-- If the whole lines are the first of `lines`, those that were handed out are only if none of them
is broken. -/
theorem lines_prefix_iff {a : Account} {lines : List Bytes} (h : a.whole <+: lines) :
    a.handed.map Handed.line <+: lines ↔ a.Unbroken := by
  constructor
  · intro hline
    have hlen : (a.handed.map Handed.line).length = a.whole.length := by
      rw [whole, List.length_map, List.length_map]
    have heq : a.handed.map Handed.line = a.whole :=
      (List.prefix_of_prefix_length_le hline h hlen.le).eq_of_length hlen
    intro handed hmem
    have hwhole : handed.line = handed.whole := List.map_inj_left.mp heq handed hmem
    rw [Handed.whole] at hwhole
    exact List.append_left_eq_self.mp hwhole.symm
  · intro hun
    rw [hun.map_line]
    exact h

theorem unbroken_add_line (a : Account) (line : Bytes) :
    (a.add (.line line)).Unbroken ↔ a.Unbroken ∧ a.lost = [] := by
  simp [Unbroken, add, or_imp, forall_and]

/-- The next line of an account is broken if something is lost, and later ones if a failure in front
of them has consumed something. -/
theorem unbroken_addAll_iff (a : Account) (attempts : List Attempt) :
    (a.addAll attempts).Unbroken ↔
      a.Unbroken ∧ (Attempt.lines attempts ≠ [] → a.lost = []) ∧ Attempt.Keeps attempts := by
  induction attempts generalizing a with
  | nil => simp [Attempt.Keeps, Attempt.lines]
  | cons e attempts ih =>
    rw [addAll_cons, ih]
    cases e with
    | line line =>
      rw [unbroken_add_line]
      simp [Attempt.Keeps, Attempt.lines, add, and_assoc]
    | failure part =>
      have hlines : Attempt.lines (.failure part :: attempts) = Attempt.lines attempts := rfl
      have hlost : (a.add (.failure part)).lost = a.lost ++ part := rfl
      have hun : (a.add (.failure part)).Unbroken ↔ a.Unbroken := Iff.rfl
      rw [hlines, hlost, hun, Attempt.Keeps, List.append_eq_nil_iff, imp_and, and_assoc]

theorem unbroken_ofAttempts_iff (attempts : List Attempt) :
    (ofAttempts attempts).Unbroken ↔ Attempt.Keeps attempts := by
  rw [ofAttempts, unbroken_addAll_iff]
  simp [Unbroken]

end Account

end Line

namespace Splitter

open Line (Attempt Account)

variable {σ : Type} [Source σ] {faults : Error → Prop} {R : σ → Bytes → Prop}

/-- What a call shows. -/
def Reading.attempts (r : Reading σ) : List Attempt :=
  match r.found with
  | .ok true => [.line r.line]
  | .ok false => []
  | .error _ => [.failure r.line]

/-- The lines of a text are those of the account and then those that are still to come from the
splitter. It has counted the lines that were handed out. -/
def Accounts (R : σ → Bytes → Prop) (limit : Nat) (lines : List Bytes) (a : Account)
    (s : Splitter σ) : Prop :=
  ∃ text, s.Ahead R text ∧ (∀ b ∈ a.lost, Line.isTerminator b = false) ∧
    lines = a.whole ++ Line.cut (a.lost ++ text) ∧ s.lines = a.handed.length ∧
    s.maxLineBytes = limit

omit [Source σ] in
theorem accounts_of_held {src : σ} {data : Bytes} (h : R src data) (chunkBytes limit : Nat) :
    Accounts R limit (Line.cut data) {}
      { handle := .held src, chunkBytes, maxLineBytes := limit } :=
  ⟨data, ahead_of_held h chunkBytes limit, by simp, rfl, rfl, rfl⟩

omit [Source σ] in
theorem Accounts.whole_isPrefix {limit : Nat} {lines : List Bytes} {a : Account} {s : Splitter σ}
    (h : Accounts R limit lines a s) : a.whole <+: lines := by
  obtain ⟨text, -, -, hlines, -⟩ := h
  exact ⟨_, hlines.symm⟩

/-- What a call comes to, in terms of the account. -/
inductive Accounted (R : σ → Bytes → Prop) (faults : Error → Prop) (limit : Nat)
    (lines : List Bytes) (a : Account) : Reading σ → Prop where
  /-- A line, which the account takes up. -/
  | line {line : Bytes} {next : Splitter σ}
      (haccounts : Accounts R limit lines (a.add (.line line)) next) :
      Accounted R faults limit lines a ⟨.ok true, line, next⟩
  /-- The end: of the lines only a last one can be missing, which is lost. -/
  | finished {next : Splitter σ} (haccounts : Accounts R limit lines a next)
      (hlines : lines = a.whole ++ Line.cut a.lost) :
      Accounted R faults limit lines a ⟨.ok false, [], next⟩
  /-- A failure, and what it has consumed is lost. The source has failed or a line is too long. -/
  | failed {e : Error} {part : Bytes} {next : Splitter σ}
      (haccounts : Accounts R limit lines (a.add (.failure part)) next)
      (hcause : faults e ∨ e = .reading (.lineTooLong (a.handed.length + 1) limit) ∧
        ∃ line ∈ lines, ¬ Fits limit line.length) :
      Accounted R faults limit lines a ⟨.error e, part, next⟩

/-- One call. -/
theorem Accounts.readLine (hR : Source.Delivery faults R) {limit : Nat} {lines : List Bytes}
    {a : Account} {s : Splitter σ} (h : Accounts R limit lines a s) :
    Accounted R faults limit lines a s.readLine := by
  obtain ⟨text, hahead, hlost, hlines, hcount, hlimit⟩ := h
  have hout := readLine_outcome hR hahead
  have hset := (readLine_settings s).2.trans hlimit
  rw [hlimit, hcount] at hout
  generalize s.readLine = r at hout hset ⊢
  cases hout with
  | line hcut hahead' hcount' hfits =>
    refine .line ⟨_, hahead', by simp [Account.add], ?_, ?_, hset⟩
    · rw [hlines, Line.cut_append_of_cut_eq_cons hlost hcut, Account.whole_add_line,
        List.append_assoc]
      rfl
    · rw [hcount', Account.add, List.length_append]
      rfl
  | finished htext hahead' hcount' =>
    subst htext
    refine .finished ⟨[], hahead', hlost, hlines, hcount', hset⟩ ?_
    rw [hlines, List.append_nil]
  | @failed e part rest next htext hpart hahead' hcount' hfits hcause =>
    refine .failed ⟨rest, hahead', ?_, ?_, hcount', hset⟩ (hcause.imp id ?_)
    · intro b hb
      rcases List.mem_append.mp hb with hb | hb
      · exact hlost b hb
      · exact hpart b hb
    · rw [hlines, htext, ← List.append_assoc, Account.whole_add_failure]
      rfl
    · rintro ⟨he, line, others, hcut, hover⟩
      refine ⟨he, a.lost ++ line, ?_, fun hfit => hover (hfit.imp id fun hle => ?_)⟩
      · rw [hlines, Line.cut_append_of_cut_eq_cons hlost hcut]
        exact List.mem_append_right _ List.mem_cons_self
      · rw [List.length_append] at hle
        omega

/-- The account of so many calls. -/
theorem Accounts.readings (hR : Source.Delivery faults R) {limit : Nat} {lines : List Bytes}
    {a : Account} {s : Splitter σ} (h : Accounts R limit lines a s) (n : Nat) :
    (a.addAll ((s.readings n).flatMap Reading.attempts)).whole <+: lines := by
  induction n generalizing a s with
  | zero => exact h.whole_isPrefix
  | succ n ih =>
    have hout := h.readLine hR
    rw [Splitter.readings, List.flatMap_cons, Account.addAll_append]
    generalize s.readLine = r at hout ⊢
    cases hout with
    | line haccounts => exact ih haccounts
    | finished haccounts hlines => exact ih haccounts
    | failed haccounts hcause => exact ih haccounts

end Splitter

end TextLines

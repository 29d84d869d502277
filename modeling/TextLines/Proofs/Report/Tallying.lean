import Mathlib.Algebra.Ring.Nat
import Mathlib.Data.List.DropRight
import Mathlib.Data.List.Induction
import Mathlib.Data.List.Nodup
import TextLines.Report.Tally

/-!
# What a tally shows

A tally keeps no history, but what it shows is a function of the history: of what has happened since
the last reset (`Event.sinceReset`). `Tally.Counts` says so for the counters and `Tally.Lists` for
the stages. One event keeps both, so they hold after any sequence of events (`recordAll_follows`).

The stages that are shown are the ones that have begun, however often they were ended and begun
again. Which of them are running (`Event.Runs`) is what the tally knows the beginnings of, and
ending a stage that is not running changes nothing (`Lists.finish_eq`).

What a tally keeps of a stage in its three places is one `Stage`, and an event is an event for each
stage of that name: the tally might as well keep a list of stages (`stages_recordAll`).
-/

namespace TextLines

/-! ## Histories -/

namespace Event

/-- The length of the line that was read. -/
def length? : Event → Option UInt64
  | .line length => some length
  | _ => none

/-- The number of the lines that were read without a look at their lengths. -/
def number? : Event → Option UInt64
  | .lines number => some number
  | _ => none

/-- How many bytes have been consumed altogether. -/
def total? : Event → Option UInt64
  | .bytes total => some total
  | _ => none

/-- The stage that begins. -/
def begun? : Event → Option Bytes
  | .begin name _ => some name
  | _ => none

/-- The events behind the last reset. -/
def sinceReset (events : List Event) : List Event :=
  events.rtakeWhile (· != .reset)

/-- The stage of that name has begun and has not ended since. -/
def Runs (name : Bytes) (events : List Event) : Prop :=
  ∃ before now after, events = before ++ .begin name now :: after ∧
    ∀ later, .finish name later ∉ after

theorem filterMap_append_singleton {α : Type} (f : Event → Option α) (events : List Event)
    (e : Event) : (events ++ [e]).filterMap f = events.filterMap f ++ (f e).toList := by
  rw [List.filterMap_append, List.filterMap_cons, List.filterMap_nil]
  cases f e <;> rfl

/-- A stage runs if it has just begun, or has been running and has not just ended. -/
theorem runs_append_singleton {name : Bytes} {events : List Event} {e : Event} :
    Runs name (events ++ [e]) ↔
      (∃ now, e = .begin name now) ∨ Runs name events ∧ ∀ now, e ≠ .finish name now := by
  constructor
  · rintro ⟨before, now, after, h, hafter⟩
    rcases after.eq_nil_or_concat with rfl | ⟨after, last, rfl⟩
    · obtain ⟨-, hlast⟩ := List.append_inj' h rfl
      exact .inl ⟨now, List.singleton_inj.mp hlast⟩
    · rw [List.concat_eq_append, ← List.cons_append, ← List.append_assoc] at h
      obtain ⟨rfl, hlast⟩ := List.append_inj' h rfl
      obtain rfl := List.singleton_inj.mp hlast
      refine .inr ⟨⟨before, now, after, rfl, fun later hmem => ?_⟩, fun later heq => ?_⟩
      · exact hafter later (by simp [hmem])
      · exact hafter later (by simp [heq])
  · rintro (⟨now, rfl⟩ | ⟨⟨before, now, after, rfl, hafter⟩, hnot⟩)
    · exact ⟨events, now, [], rfl, fun _ => List.not_mem_nil⟩
    · refine ⟨before, now, after ++ [e], by simp, fun later hmem => ?_⟩
      rcases List.mem_append.mp hmem with hmem | hmem
      · exact hafter later hmem
      · exact hnot later (List.mem_singleton.mp hmem).symm

/-- Other events than its own make no difference to whether a stage is running. -/
theorem runs_append_of_ne {name : Bytes} {events : List Event} {e : Event}
    (hbegin : ∀ now, e ≠ .begin name now) (hfinish : ∀ now, e ≠ .finish name now) :
    Runs name (events ++ [e]) ↔ Runs name events := by
  rw [runs_append_singleton, or_iff_right fun ⟨now, h⟩ => hbegin now h, and_iff_left hfinish]

end Event

/-! ## Tallies -/

namespace Tally

variable {events : List Event} {t : Tally}

/-! ### Counters -/

/-- The counters show what has happened, as far as 64 bits go. -/
structure Counts (events : List Event) (t : Tally) : Prop where
  lines : t.lines.toNat = ((events.filterMap Event.length?).length +
    ((events.filterMap Event.number?).map UInt64.toNat).sum) % UInt64.size
  chars : t.chars.toNat = ((events.filterMap Event.length?).map UInt64.toNat).sum % UInt64.size
  bytes : t.bytes = (events.filterMap Event.total?).getLast?.getD 0

/-- What an event does to the counters. -/
theorem counters_record (t : Tally) {e : Event} (he : e ≠ .reset) :
    (t.record e).lines.toNat = (t.lines.toNat + (e.length?.toList.length +
      (e.number?.toList.map UInt64.toNat).sum)) % UInt64.size ∧
    (t.record e).chars.toNat =
      (t.chars.toNat + (e.length?.toList.map UInt64.toNat).sum) % UInt64.size ∧
    (t.record e).bytes = e.total?.getD t.bytes := by
  have hsame : ∀ a : UInt64, a.toNat = a.toNat % UInt64.size := fun a =>
    (Nat.mod_eq_of_lt a.toNat_lt_size).symm
  cases e with
  | line length => exact ⟨UInt64.toNat_add t.lines 1, UInt64.toNat_add t.chars length, rfl⟩
  | lines number =>
    refine ⟨(UInt64.toNat_add t.lines number).trans ?_, hsame t.chars, rfl⟩
    simp [Event.length?, Event.number?]
  | bytes | begin => exact ⟨hsame t.lines, hsame t.chars, rfl⟩
  | finish name now =>
    rw [Tally.record, finish]
    split <;> exact ⟨hsame t.lines, hsame t.chars, rfl⟩
  | reset => exact absurd rfl he

/-- An event is counted. -/
theorem Counts.record (h : t.Counts events) {e : Event} (he : e ≠ .reset) :
    Counts (events ++ [e]) (t.record e) := by
  obtain ⟨hlines, hchars, hbytes⟩ := t.counters_record he
  refine ⟨?_, ?_, ?_⟩
  · rw [hlines, h.lines, Nat.mod_add_mod, Event.filterMap_append_singleton,
      Event.filterMap_append_singleton, List.length_append, List.map_append, List.sum_append,
      Nat.add_add_add_comm]
  · rw [hchars, h.chars, Nat.mod_add_mod, Event.filterMap_append_singleton, List.map_append,
      List.sum_append]
  · rw [hbytes, h.bytes, Event.filterMap_append_singleton, List.getLast?_append]
    cases e.total? <;> rfl

/-! ### Stages -/

/-- The stages show what has begun, each once, in the order in which they began first, and which of
them are running. -/
structure Lists (events : List Event) (t : Tally) : Prop where
  names : t.order = (events.filterMap Event.begun?).eraseDups
  distinct : t.order.Nodup
  running : ∀ name, name ∈ t.since ↔ Event.Runs name events

theorem eraseDups_append_singleton (names : List Bytes) (name : Bytes) :
    (names ++ [name]).eraseDups =
      if name ∈ names.eraseDups then names.eraseDups else names.eraseDups ++ [name] := by
  rw [List.eraseDups_append]
  by_cases h : name ∈ names
  · rw [if_pos (List.mem_eraseDups.mpr h)]
    simp [List.removeAll, h]
  · rw [if_neg (mt List.mem_eraseDups.mp h)]
    simp [List.removeAll, h, List.eraseDups_cons]

/-- A stage that has ended is not running, and all others are as before. -/
theorem mem_since_finish {t : Tally} {name other : Bytes} {now : Nat} :
    other ∈ (t.finish name now).since ↔ name ≠ other ∧ other ∈ t.since := by
  rw [finish]
  split
  · rw [Std.HashMap.mem_erase, beq_eq_false_iff_ne]
  · rename_i hnone
    refine (and_iff_right_of_imp fun hmem heq => ?_).symm
    rw [← heq, Std.HashMap.mem_iff_isSome_getElem?, hnone] at hmem
    cases hmem

theorem lists_nil : Lists [] {} := by
  refine ⟨rfl, List.nodup_nil, fun name => iff_of_false Std.HashMap.not_mem_empty ?_⟩
  rintro ⟨before, now, after, h, -⟩
  cases (List.append_eq_nil_iff.mp h.symm).2

/-- What does not happen to stages is not listed. -/
theorem Lists.of_counters (h : t.Lists events) {e : Event} (hbegun : e.begun? = none)
    (hfinish : ∀ name now, e ≠ .finish name now) {t' : Tally} (horder : t'.order = t.order)
    (hsince : t'.since = t.since) : t'.Lists (events ++ [e]) := by
  refine ⟨?_, horder ▸ h.distinct, fun name => ?_⟩
  · rw [horder, h.names, Event.filterMap_append_singleton, hbegun, Option.toList_none,
      List.append_nil]
  · rw [hsince, h.running, Event.runs_append_of_ne ?_ (hfinish name)]
    rintro now rfl
    cases hbegun

/-- A stage that begins is listed, unless it is listed already. -/
theorem Lists.begin (h : t.Lists events) (name : Bytes) (now : Nat) :
    (t.begin name now).Lists (events ++ [.begin name now]) := by
  refine ⟨?_, ?_, fun other => ?_⟩
  · rw [Event.filterMap_append_singleton, Event.begun?, Option.toList_some,
      eraseDups_append_singleton, ← h.names]
    rfl
  · rw [Tally.begin]
    dsimp only
    split
    · exact h.distinct
    · rename_i hnew
      rw [← List.concat_eq_append]
      exact h.distinct.concat hnew
  · have hnot : ∀ later, Event.begin name now ≠ .finish other later := fun _ => Event.noConfusion
    rw [Tally.begin, Std.HashMap.mem_insert, beq_iff_eq, h.running, Event.runs_append_singleton,
      and_iff_left hnot]
    refine or_congr_left ⟨fun heq => ⟨now, by rw [heq]⟩, ?_⟩
    rintro ⟨later, heq⟩
    exact (Event.begin.inj heq).1

theorem Lists.finish (h : t.Lists events) (name : Bytes) (now : Nat) :
    (t.finish name now).Lists (events ++ [.finish name now]) := by
  have hbegun : (Event.finish name now).begun? = none := rfl
  refine ⟨?_, ?_, fun other => ?_⟩
  · rw [order_finish, h.names, Event.filterMap_append_singleton, hbegun, Option.toList_none,
      List.append_nil]
  · rw [order_finish]
    exact h.distinct
  · rw [mem_since_finish, h.running, Event.runs_append_singleton,
      or_iff_right fun ⟨_, heq⟩ => Event.noConfusion heq, and_comm]
    refine and_congr_right fun _ => ⟨fun hne later heq => hne (Event.finish.inj heq).1, ?_⟩
    rintro hne rfl
    exact hne now rfl

/-- An event is listed. -/
theorem Lists.record (h : t.Lists events) {e : Event} (he : e ≠ .reset) :
    (t.record e).Lists (events ++ [e]) := by
  cases e with
  | line | lines | bytes => exact h.of_counters rfl (fun _ _ => Event.noConfusion) rfl rfl
  | begin name now => exact h.begin name now
  | finish name now => exact h.finish name now
  | reset => exact absurd rfl he

/-- Ending a stage that is not running changes nothing. -/
theorem Lists.finish_eq (h : t.Lists events) {name : Bytes} (hname : ¬ Event.Runs name events)
    (now : Nat) : t.record (.finish name now) = t := by
  have hnone : t.since[name]? = none := by
    rw [← h.running, Std.HashMap.mem_iff_isSome_getElem?] at hname
    exact Option.not_isSome_iff_eq_none.mp hname
  rw [Tally.record, Tally.finish, hnone]

/-! ### Whole runs -/

/-- After any events a tally shows those behind the last reset. -/
theorem recordAll_follows (events : List Event) :
    (recordAll {} events).Counts (Event.sinceReset events) ∧
      (recordAll {} events).Lists (Event.sinceReset events) := by
  induction events using List.reverseRecOn with
  | nil =>
    exact ⟨⟨rfl, rfl, rfl⟩, lists_nil⟩
  | append_singleton events e ih =>
    rw [recordAll_append, Event.sinceReset]
    by_cases he : e = .reset
    · rw [he, List.rtakeWhile_concat_neg _ _ _ (by simp)]
      exact ⟨⟨rfl, rfl, rfl⟩, lists_nil⟩
    · rw [List.rtakeWhile_concat_pos _ _ _ (by simpa using he)]
      exact ⟨ih.1.record he, ih.2.record he⟩

/-- A tally shows what has happened since the last reset: the lines that were read, one by one and
together, the bytes in those that were read one by one, the bytes that were consumed as they were
told last, and the stages that began, each once, in the order of their first beginnings. Ending a
stage that is not running changes nothing. -/
theorem shows_recent (events : List Event) (wallTime : Float) :
    let recent := Event.sinceReset events
    let lengths := recent.filterMap Event.length?
    let tally := recordAll {} events
    let shown := tally.summary wallTime
    shown.lines.toNat =
      (lengths.length + ((recent.filterMap Event.number?).map UInt64.toNat).sum) % UInt64.size ∧
    shown.chars.toNat = (lengths.map UInt64.toNat).sum % UInt64.size ∧
    shown.bytes = (recent.filterMap Event.total?).getLast?.getD 0 ∧
    shown.stages.map Prod.fst = (recent.filterMap Event.begun?).eraseDups ∧
    (shown.stages.map Prod.fst).Nodup ∧
    ∀ name now, ¬ Event.Runs name recent → tally.record (.finish name now) = tally := by
  intro recent lengths tally shown
  obtain ⟨hcounts, hlists⟩ := recordAll_follows events
  have hnames : shown.stages.map Prod.fst = tally.order :=
    List.map_map.trans (List.map_id' tally.order)
  rw [hnames]
  exact ⟨hcounts.lines, hcounts.chars, hcounts.bytes, hlists.names, hlists.distinct,
    fun name now hname => hlists.finish_eq hname now⟩

end Tally

/-! ## Stages one by one -/

/-- All that is kept of a stage. -/
structure Stage where
  /-- What the stage is called. -/
  name : Bytes
  /-- The milliseconds spent in it so far. -/
  spent : UInt64 := 0
  /-- Since when it has been running, if it is. -/
  since : Option Nat := none
  deriving DecidableEq, Repr

namespace Stage

/-- Starts the clock of a stage. -/
def start (now : Nat) (s : Stage) : Stage :=
  { s with since := some now }

/-- Stops the clock of a stage. -/
def stop (now : Nat) (s : Stage) : Stage :=
  match s.since with
  | some before => { s with spent := s.spent + UInt64.ofNat (now - before), since := none }
  | none => s

/-- Changes the stage of that name. -/
def change (name : Bytes) (f : Stage → Stage) (stages : List Stage) : List Stage :=
  stages.map fun s => if s.name = name then f s else s

/-- What an event does to a list of stages. -/
def take (stages : List Stage) : Event → List Stage
  | .begin name now =>
    if (stages.map (·.name)).contains name then change name (start now) stages
    else stages ++ [start now { name }]
  | .finish name now => change name (stop now) stages
  | .reset => []
  | .line _ => stages
  | .lines _ => stages
  | .bytes _ => stages

end Stage

namespace Tally

/-- What is kept of the stage of that name. -/
def stage (t : Tally) (name : Bytes) : Stage where
  name := name
  spent := t.spent.getD name 0
  since := t.since[name]?

/-- The stages in order. -/
def stages (t : Tally) : List Stage :=
  t.order.map t.stage

/-- Times are kept of stages that are listed. -/
structure KeepsListed (t : Tally) : Prop where
  spent : ∀ name ∈ t.spent, name ∈ t.order
  since : ∀ name ∈ t.since, name ∈ t.order

variable {t : Tally}

theorem names_stages (t : Tally) : t.stages.map (·.name) = t.order :=
  List.map_map.trans (List.map_id' t.order)

theorem stages_change (t : Tally) (name : Bytes) (f : Stage → Stage) :
    Stage.change name f t.stages =
      t.order.map fun other => if other = name then f (t.stage other) else t.stage other :=
  List.map_map

theorem stage_begin (t : Tally) (name : Bytes) (now : Nat) (other : Bytes) :
    (t.begin name now).stage other =
      if other = name then (t.stage other).start now else t.stage other := by
  by_cases h : other = name
  · rw [if_pos h, h]
    simp only [stage, begin, Std.HashMap.getElem?_insert_self, Stage.start]
  · rw [if_neg h]
    simp only [stage, begin, Std.HashMap.getElem?_insert, beq_eq_false_iff_ne.mpr (Ne.symm h),
      Bool.false_eq_true, if_false]

theorem stage_finish (t : Tally) (name : Bytes) (now : Nat) (other : Bytes) :
    (t.finish name now).stage other =
      if other = name then (t.stage other).stop now else t.stage other := by
  rw [finish]
  split
  · rename_i before hbefore
    by_cases h : other = name
    · rw [if_pos h, h]
      simp only [stage, Stage.stop, hbefore, Std.HashMap.getD_insert_self,
        Std.HashMap.getElem?_erase_self]
    · rw [if_neg h]
      simp only [stage, Std.HashMap.getD_insert, Std.HashMap.getElem?_erase,
        beq_eq_false_iff_ne.mpr (Ne.symm h), Bool.false_eq_true, if_false]
  · rename_i hnone
    split
    · rename_i h
      simp only [h, stage, Stage.stop, hnone]
    · rfl

theorem KeepsListed.stages_begin (h : t.KeepsListed) (name : Bytes) (now : Nat) :
    (t.begin name now).stages = Stage.take t.stages (.begin name now) := by
  rw [Stage.take, names_stages, stages_change, stages, funext (t.stage_begin name now)]
  by_cases hlisted : name ∈ t.order
  · rw [if_pos (List.contains_iff_mem.mpr hlisted), begin, if_pos hlisted]
  · rw [if_neg (mt List.contains_iff_mem.mp hlisted), begin, if_neg hlisted, List.map_append,
      List.map_singleton, if_pos rfl]
    have hothers : t.order.map (fun other =>
        if other = name then (t.stage other).start now else t.stage other) = t.stages :=
      List.map_congr_left fun other hother => if_neg (ne_of_mem_of_not_mem hother hlisted)
    have hnew : t.stage name = { name } := by
      simp only [stage, Std.HashMap.getD_eq_fallback (mt (h.spent name) hlisted),
        Std.HashMap.getElem?_eq_none (mt (h.since name) hlisted)]
    rw [hothers, hnew]

theorem stages_finish (t : Tally) (name : Bytes) (now : Nat) :
    (t.finish name now).stages = Stage.take t.stages (.finish name now) := by
  rw [Stage.take, stages_change, stages, order_finish, funext (t.stage_finish name now)]

theorem KeepsListed.record (h : t.KeepsListed) (e : Event) : (t.record e).KeepsListed := by
  cases e with
  | line | lines | bytes => exact ⟨h.spent, h.since⟩
  | begin name now =>
    have horder : ∀ other, other = name ∨ other ∈ t.order → other ∈ (t.begin name now).order := by
      intro other hother
      rw [begin]
      dsimp only
      split
      · rename_i hlisted
        exact hother.elim (fun heq => heq ▸ hlisted) id
      · exact List.mem_append.mpr (hother.symm.imp_right List.mem_singleton.mpr)
    refine ⟨fun other hother => horder other (.inr (h.spent other hother)), fun other hother => ?_⟩
    rcases Std.HashMap.mem_insert.mp hother with heq | hmem
    · exact horder other (.inl (eq_of_beq heq).symm)
    · exact horder other (.inr (h.since other hmem))
  | finish name now =>
    rw [Tally.record, finish]
    split
    · rename_i before hbefore
      have hname : name ∈ t.order :=
        h.since name (Std.HashMap.mem_iff_isSome_getElem?.mpr (by rw [hbefore]; rfl))
      refine ⟨fun other hother => ?_, fun other hother => ?_⟩
      · rcases Std.HashMap.mem_insert.mp hother with heq | hmem
        · exact eq_of_beq heq ▸ hname
        · exact h.spent other hmem
      · exact h.since other (Std.HashMap.mem_erase.mp hother).2
    · exact h
  | reset => exact ⟨fun _ hmem => absurd hmem Std.HashMap.not_mem_empty,
      fun _ hmem => absurd hmem Std.HashMap.not_mem_empty⟩

theorem KeepsListed.stages_record (h : t.KeepsListed) (e : Event) :
    (t.record e).stages = Stage.take t.stages e := by
  cases e with
  | begin name now => exact h.stages_begin name now
  | finish name now => exact t.stages_finish name now
  | line | lines | bytes | reset => rfl

/-- What a tally keeps in three places is a list of stages, on which each event acts for itself, and
it is this list that the tally shows. -/
theorem stages_recordAll (events : List Event) (wallTime : Float) :
    (recordAll {} events).stages = events.foldl Stage.take [] ∧
      ((recordAll {} events).summary wallTime).stages =
        (events.foldl Stage.take []).map fun s => (s.name, s.spent) := by
  have hlist : (recordAll {} events).KeepsListed ∧
      (recordAll {} events).stages = events.foldl Stage.take [] := by
    induction events using List.reverseRecOn with
    | nil =>
      exact ⟨⟨fun _ hmem => absurd hmem Std.HashMap.not_mem_empty,
        fun _ hmem => absurd hmem Std.HashMap.not_mem_empty⟩, rfl⟩
    | append_singleton events e ih =>
      obtain ⟨hkeeps, hstages⟩ := ih
      rw [recordAll_append, List.foldl_append, ← hstages]
      exact ⟨hkeeps.record e, hkeeps.stages_record e⟩
  refine ⟨hlist.2, ?_⟩
  rw [← hlist.2, stages, List.map_map]
  rfl

end Tally

end TextLines

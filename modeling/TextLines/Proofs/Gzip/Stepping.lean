import TextLines.Gzip.Member
import TextLines.Proofs.Gzip.Parsing

/-!
# What a step of decompressing depends on

A step reads something from the front of its bits and then decides, from what it has read, how it
goes on. `step_plan` says so once, with a case for every place in a member, and what follows uses
nothing else of the steps:

* A step does not notice how its bits came, and it is the same when more bytes follow, unless there
  were too few bits for it (`step_extends`).
* Behind a step less than a byte is held (`Tight.hold_lt`). `Tight` is the invariant for this; its
  second case is a member that has taken up all bits there were and is waiting for more.
* The output that a member keeps, its length and its checksum stay in step with what is given out
  (`step_grew`).
* The step that ends a member reads at least the size (`size_of_step_ended`).

Room decides nothing but whether a step is taken (`step_room`), so all of this is said of steps that
are taken with all the room in the world.
-/

namespace TextLines.Gzip

open TextLines.Gzip.Parser

/-- What can come of a step when more bytes follow. -/
inductive Step.Extends (more : Bytes) : Step → Step → Prop where
  /-- The same state and the same byte. -/
  | went {m : Member} {e : Option UInt8} {rest rest' : Bits}
      (hrest : Bits.Extends more rest rest') : Extends more (.went m e rest) (.went m e rest')
  /-- Anything, if there were too few bits. -/
  | starved (s : Step) : Extends more .starved s
  /-- The member is complete. -/
  | ended {rest rest' : Bits} (hrest : Bits.Extends more rest rest') :
      Extends more (.ended rest) (.ended rest')
  /-- The same fault. -/
  | fault {fault : Fault} {rest rest' : Bits} (hrest : Bits.Extends more rest rest') :
      Extends more (.fault fault rest) (.fault fault rest')

/-- The bits behind a step that was taken. -/
def Step.rest? : Step → Option Bits
  | .went _ _ rest => some rest
  | .ended rest => some rest
  | _ => none

/-- What a step does when it has read what it needs. -/
inductive Verdict where
  | went (member : Member) (emitted : Option UInt8)
  | ended
  | fault (fault : Fault)

/-- The step, with what stands behind the bits that it has read. -/
def Verdict.inFrontOf (verdict : Verdict) (rest : Bits) : Step :=
  match verdict with
  | .went m e => .went m e rest
  | .ended => .ended rest
  | .fault cause => .fault cause rest

namespace Member

variable {α : Type} {m m' : Member} {bits rest : Bits} {e : Option UInt8}

/-- The output of `m'` is that of `m` and then `out`, and so are its length and its checksum. -/
structure Grew (out : Bytes) (m m' : Member) : Prop where
  output : m'.output = out.reverse ++ m.output
  produced : m'.produced = m.produced + out.length
  crc : m'.crc = Crc32.extend m.crc out

theorem grew_refl (m : Member) (phase : Phase) : Grew [] m { m with phase } :=
  ⟨rfl, rfl, rfl⟩

theorem grew_emit (m : Member) (b : UInt8) (phase : Phase) : Grew [b] m (m.emit b phase) :=
  ⟨rfl, rfl, rfl⟩

theorem Grew.append {a b : Bytes} {m m' m'' : Member} (h : Grew a m m') (h' : Grew b m' m'') :
    Grew (a ++ b) m m'' := by
  refine ⟨?_, ?_, ?_⟩
  · rw [h'.output, h.output, List.reverse_append, List.append_assoc]
  · rw [h'.produced, h.produced, List.length_append, Nat.add_assoc]
  · rw [h'.crc, h.crc, Crc32.extend_append]

/-- How a member takes its next step, when there is room: what it reads, and what it makes of
that. -/
structure Plan (m : Member) (p : Parser α) (verdict : α → Verdict) : Prop where
  regular : Regular p
  consumes : Consumes 0 p
  step_eq : ∀ bits, m.step true bits =
    onParse (p bits) fun value rest => (verdict value).inFrontOf rest
  grew : ∀ value m' e, verdict value = .went m' e → Grew e.toList m m'
  ended : ∀ value, verdict value = .ended → Consumes 32 p

/-- A step that decides nothing is a plan. -/
theorem plan_of_phase {p : Parser α} (phase : α → Phase) (hp : Regular p) (hc : Consumes 0 p)
    (h : ∀ bits, m.step true bits =
      onParse (p bits) fun value rest => .went { m with phase := phase value } none rest) :
    m.Plan p fun value => .went { m with phase := phase value } none := by
  refine ⟨hp, hc, h, fun value m' e hv => ?_, fun value hv => by cases hv⟩
  obtain ⟨rfl, rfl⟩ := Verdict.went.inj hv
  exact grew_refl m _

/-- The place behind the header of a block. -/
def behindHeader : Bool × Block → Phase
  | (last, .stored length) => .stored last length
  | (last, .compressed codes) => .symbols last codes .nothing

/-- The place behind a symbol. -/
def behindSymbol (last : Bool) (codes : Codes) : Symbol → Phase
  | .literal b => .symbols last codes (.bytes [b])
  | .reference length distance => .symbols last codes (.reference length distance)
  | .endOfBlock => .boundary last

/-- Every step follows a plan. -/
theorem step_plan (m : Member) :
    ∃ (α : Type) (p : Parser α) (verdict : α → Verdict), m.Plan p verdict := by
  obtain ⟨phase, output, produced, crc⟩ := m
  have hpure : Regular (Pure.pure () : Parser Unit) ∧ Consumes 0 (Pure.pure () : Parser Unit) :=
    ⟨regular_pure (), consumes_pure ()⟩
  have hnat : ∀ n, Regular (nat n) ∧ Consumes 0 (nat n) := fun n =>
    ⟨regular_nat n, (consumes_nat n).mono (Nat.zero_le n)⟩
  rcases phase with _ | (_ | _) | ⟨last, _ | left⟩ | ⟨last, codes, _ | ⟨length, distance⟩ |
    (_ | ⟨b, bytes⟩)⟩ | _ | _ | fault
  case header =>
    exact ⟨_, _, _, plan_of_phase (fun _ => .boundary false) regular_header
      (consumes_header.mono (Nat.zero_le _)) fun _ => rfl⟩
  case boundary.true =>
    exact ⟨_, _, _, plan_of_phase (fun _ => .checksum) regular_align consumes_align
      fun _ => rfl⟩
  case boundary.false =>
    refine ⟨_, _, _, plan_of_phase behindHeader regular_block
      (consumes_block.mono (Nat.zero_le _)) fun bits => ?_⟩
    show onParse (block bits) _ = onParse (block bits) _
    congr 1
    funext ⟨last, kind⟩ rest
    cases kind <;> rfl
  case stored.zero =>
    exact ⟨_, _, _, plan_of_phase (fun _ => .boundary last) hpure.1 hpure.2
      fun _ => rfl⟩
  case stored.succ =>
    refine ⟨_, nat 8, fun b => .went (emit ⟨.header, output, produced, crc⟩ (UInt8.ofNat b)
      (.stored last left)) (some (UInt8.ofNat b)), (hnat 8).1, (hnat 8).2, fun _ => rfl, ?_,
      by simp⟩
    intro value m' e hv
    obtain ⟨rfl, rfl⟩ := Verdict.went.inj hv
    exact grew_emit _ _ _
  case symbols.nothing =>
    refine ⟨_, _, _, plan_of_phase (behindSymbol last codes) (regular_symbol codes)
      ((consumes_symbol codes).mono (Nat.zero_le _)) fun bits => ?_⟩
    show onParse (symbol codes bits) _ = onParse (symbol codes bits) _
    congr 1
    funext value rest
    cases value <;> rfl
  case symbols.reference =>
    -- A look back too far is the only fault that does not come from what is read.
    by_cases hfar : produced < distance
    · refine ⟨_, _, fun _ => .fault .distanceTooFar, hpure.1, hpure.2, fun bits => ?_, by simp,
        by simp⟩
      show (if produced < distance then _ else _) = _
      rw [if_pos hfar]
      rfl
    · refine ⟨_, _, _, plan_of_phase (fun _ => .symbols last codes
        (.bytes (cycle (output.take distance).reverse [] length))) hpure.1 hpure.2 fun bits => ?_⟩
      show (if produced < distance then _ else _) = _
      rw [if_neg hfar]
      rfl
  case symbols.bytes.nil =>
    exact ⟨_, _, _, plan_of_phase (fun _ => .symbols last codes .nothing) hpure.1 hpure.2
      fun _ => rfl⟩
  case symbols.bytes.cons =>
    refine ⟨_, _, fun _ => .went (emit ⟨.header, output, produced, crc⟩ b
      (.symbols last codes (.bytes bytes))) (some b), hpure.1, hpure.2, fun _ => rfl, ?_, by simp⟩
    intro value m' e hv
    obtain ⟨rfl, rfl⟩ := Verdict.went.inj hv
    exact grew_emit _ _ _
  case checksum =>
    refine ⟨_, nat 32, fun sum => if sum ≠ crc.toNat then .fault .checksum
      else .went ⟨.size, output, produced, crc⟩ none, (hnat 32).1, (hnat 32).2, fun bits => ?_,
      ?_, fun _ _ => consumes_nat 32⟩
    · show onParse (nat 32 bits) _ = onParse (nat 32 bits) _
      congr 1
      funext sum rest
      dsimp only
      split <;> rfl
    · intro sum m' e hv
      split at hv
      · cases hv
      · obtain ⟨rfl, rfl⟩ := Verdict.went.inj hv
        exact grew_refl ⟨.checksum, output, produced, crc⟩ .size
  case size =>
    refine ⟨_, nat 32, fun size => if size ≠ produced % 0x100000000 then .fault .size else .ended,
      (hnat 32).1, (hnat 32).2, fun bits => ?_, ?_, fun _ _ => consumes_nat 32⟩
    · show onParse (nat 32 bits) _ = onParse (nat 32 bits) _
      congr 1
      funext size rest
      dsimp only
      split <;> rfl
    · intro size m' e hv
      split at hv <;> cases hv
  case broken =>
    exact ⟨_, _, fun _ => .fault fault, hpure.1, hpure.2, fun _ => rfl, by simp, by simp⟩

/-- Whether there is room decides at most whether a step is taken. -/
theorem step_room (m : Member) :
    (∀ bits, m.step false bits = .full) ∨ ∀ bits, m.step false bits = m.step true bits := by
  obtain ⟨phase, output, produced, crc⟩ := m
  rcases phase with _ | (_ | _) | ⟨_, _ | _⟩ | ⟨_, _, _ | _ | (_ | _)⟩ | _ | _ | _
  -- These three give out a byte or look back at the output, and nothing else needs room.
  case stored.succ => exact .inl fun _ => rfl
  case symbols.reference => exact .inl fun _ => rfl
  case symbols.bytes.cons => exact .inl fun _ => rfl
  all_goals exact .inr fun _ => rfl

/-! ## What follows -/

theorem step_true_ne_full (m : Member) (bits : Bits) : m.step true bits ≠ .full := by
  obtain ⟨α, p, verdict, hplan⟩ := m.step_plan
  rw [hplan.step_eq]
  rcases p bits with ⟨value, rest⟩ | _ | _
  · show (verdict value).inFrontOf rest ≠ .full
    cases verdict value <;> simp [Verdict.inFrontOf]
  · simp [onParse]
  · simp [onParse]

/-- A step that is taken is taken with room. -/
theorem step_true_of_ne_full {room : Bool} {s : Step} (h : m.step room bits = s)
    (hs : s ≠ .full) : m.step true bits = s := by
  cases room with
  | true => exact h
  | false =>
    rcases m.step_room with hfull | hsame
    · exact absurd (h.symm.trans (hfull bits)) hs
    · rw [← hsame bits, h]

/-- A step is the same when more bytes follow, unless there were too few bits for it. -/
theorem step_extends (m : Member) {more : Bytes} {a b : Bits} (h : Bits.Extends more a b) :
    Step.Extends more (m.step true a) (m.step true b) := by
  obtain ⟨α, p, verdict, hplan⟩ := m.step_plan
  have hstable := hplan.regular.stable h
  rw [hplan.step_eq, hplan.step_eq]
  generalize p a = pa at hstable
  generalize p b = pb at hstable
  cases hstable with
  | @done value rest rest' hrest =>
    show Step.Extends more ((verdict value).inFrontOf rest) ((verdict value).inFrontOf rest')
    cases verdict value with
    | went m' e => exact .went hrest
    | ended => exact .ended hrest
    | fault fault => exact .fault hrest
  | starved => exact .starved _
  | fault hrest => exact .fault hrest

theorem step_went_of_extends {more : Bytes} {a b : Bits} (h : Bits.Extends more a b)
    (hstep : m.step true a = .went m' e rest) :
    ∃ rest', m.step true b = .went m' e rest' ∧ Bits.Extends more rest rest' := by
  have hext := m.step_extends h
  rw [hstep] at hext
  generalize m.step true b = s at hext
  cases hext with
  | went hrest => exact ⟨_, rfl, hrest⟩

theorem step_ended_of_extends {more : Bytes} {a b : Bits} (h : Bits.Extends more a b)
    (hstep : m.step true a = .ended rest) :
    ∃ rest', m.step true b = .ended rest' ∧ Bits.Extends more rest rest' := by
  have hext := m.step_extends h
  rw [hstep] at hext
  generalize m.step true b = s at hext
  cases hext with
  | ended hrest => exact ⟨_, rfl, hrest⟩

theorem step_fault_of_extends {more : Bytes} {a b : Bits} (h : Bits.Extends more a b)
    {fault : Fault} (hstep : m.step true a = .fault fault rest) :
    ∃ rest', m.step true b = .fault fault rest' := by
  have hext := m.step_extends h
  rw [hstep] at hext
  generalize m.step true b = s at hext
  cases hext with
  | fault hrest => exact ⟨_, rfl⟩

/-- The bits suffice for a step or not, however they came. -/
theorem step_starved_of_toList {a b : Bits} (h : a.toList = b.toList)
    (hstep : m.step true a = .starved) : m.step true b = .starved := by
  -- A step from the one string would be a step from the other.
  have hext := m.step_extends (Bits.extends_nil_iff.mpr h.symm)
  rw [hstep] at hext
  generalize m.step true b = s at hext
  cases hext with
  | starved => rfl

theorem rest?_inFrontOf {verdict : Verdict} {mid : Bits}
    (h : (verdict.inFrontOf mid).rest? = some rest) : rest = mid := by
  cases verdict with
  | fault fault => cases h
  | _ => exact (Option.some.inj h).symm

/-- Less than a byte is held, or what is held is all there was and not enough for a step. -/
def Tight (m : Member) (bits : Bits) : Prop :=
  bits.hold.length < 8 ∨ m.step true ⟨bits.hold, []⟩ = .starved

/-- Behind a step less than a byte is held. -/
theorem Tight.hold_lt (ht : m.Tight bits) (h : (m.step true bits).rest? = some rest) :
    rest.hold.length < 8 := by
  obtain ⟨α, p, verdict, hplan⟩ := m.step_plan
  rw [hplan.step_eq] at h
  rcases hp : p bits with ⟨value, mid⟩ | _ | _
  · rw [hp] at h
    obtain rfl := rest?_inFrontOf h
    rcases hplan.regular.frugal hp with hshort | ⟨-, hle, hhold⟩
    · exact hshort
    · rcases ht with hheld | hstarved
      · exact Nat.lt_of_le_of_lt hle hheld
      · -- The bits that were held were enough for this step.
        rw [hplan.step_eq, hhold] at hstarved
        cases hv : verdict value <;> simp [onParse, Verdict.inFrontOf, hv] at hstarved
  · rw [hp] at h
    cases h
  · rw [hp] at h
    cases h

theorem size_of_step_went (h : m.step true bits = .went m' e rest) : rest.size ≤ bits.size := by
  obtain ⟨α, p, verdict, hplan⟩ := m.step_plan
  rw [hplan.step_eq] at h
  obtain ⟨value, mid, hd, h⟩ := onParse_eq_went h
  cases hv : verdict value with
  | went m'' e' =>
    rw [hv] at h
    obtain ⟨-, -, rfl⟩ := Step.went.inj h
    exact hplan.consumes hd
  | _ =>
    rw [hv] at h
    cases h

theorem step_grew (h : m.step true bits = .went m' e rest) : Grew e.toList m m' := by
  obtain ⟨α, p, verdict, hplan⟩ := m.step_plan
  rw [hplan.step_eq] at h
  obtain ⟨value, mid, -, h⟩ := onParse_eq_went h
  cases hv : verdict value with
  | went m'' e' =>
    rw [hv] at h
    obtain ⟨rfl, rfl, -⟩ := Step.went.inj h
    exact hplan.grew value _ _ hv
  | _ =>
    rw [hv] at h
    cases h

theorem size_of_step_ended (h : m.step true bits = .ended rest) :
    rest.size + 32 ≤ bits.size := by
  obtain ⟨α, p, verdict, hplan⟩ := m.step_plan
  rw [hplan.step_eq] at h
  obtain ⟨value, mid, hd, h⟩ := onParse_eq_ended h
  cases hv : verdict value with
  | ended =>
    rw [hv] at h
    obtain rfl := Step.ended.inj h
    exact hplan.ended value hv hd
  | _ =>
    rw [hv] at h
    cases h

end Member

end TextLines.Gzip

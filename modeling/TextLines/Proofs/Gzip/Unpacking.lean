import TextLines.Proofs.Gzip.Stepping

/-!
# What a gzip file holds

`Unpacks m bits text ending` is a declarative trace of decompressing with all bytes at hand and with
room for all output: from the member state `m` and the string `bits`, the text comes out, and then
`ending` says what comes: the file is complete, it has been cut off, or it is damaged. A member may
be followed by another, and one is taken to follow if the next byte is the first of a member.

Nothing of how a file is read shows here: no blocks of input, no sizes of reads. That reading in
pieces comes to the same is another matter.

`Reaches` is the part of a trace inside one member. It is the same when more bytes follow
(`Reaches.extend`), and a trace that is cut short gives a beginning of what the whole trace gives
(`Reaches.cut`).
-/

namespace TextLines.Gzip

/-- What comes behind all that a file holds. -/
inductive Ending where
  /-- The last member is complete, and these bytes stand behind it. -/
  | complete (behind : Bytes)
  /-- The file ends inside a member. -/
  | cut
  /-- A member is damaged. -/
  | damaged (fault : Fault)
  deriving DecidableEq

/-- From the state `m` the bits give `text`, and then `ending` comes. -/
inductive Unpacks : Member → Bits → Bytes → Ending → Prop where
  /-- A step is taken. -/
  | went {m m' : Member} {bits rest : Bits} {e : Option UInt8} {text : Bytes} {ending : Ending}
      (hstep : m.step true bits = .went m' e rest) (hrest : Unpacks m' rest text ending) :
      Unpacks m bits (e.toList ++ text) ending
  /-- The bits do not suffice for a step. -/
  | cut {m : Member} {bits : Bits} (hstep : m.step true bits = .starved) : Unpacks m bits [] .cut
  /-- A fault is found. -/
  | damaged {m : Member} {bits rest : Bits} {fault : Fault}
      (hstep : m.step true bits = .fault fault rest) : Unpacks m bits [] (.damaged fault)
  /-- The member is complete, and no other one follows. -/
  | complete {m : Member} {bits rest : Bits} {behind : Bytes}
      (hstep : m.step true bits = .ended rest)
      (hrest : rest.toList = (Bits.ofBytes behind).toList)
      (hbehind : behind.head? ≠ some 0x1f) : Unpacks m bits [] (.complete behind)
  /-- The member is complete, and another one follows. -/
  | another {m : Member} {bits rest : Bits} {behind text : Bytes} {ending : Ending}
      (hstep : m.step true bits = .ended rest)
      (hrest : rest.toList = (Bits.ofBytes behind).toList)
      (hbehind : behind.head? = some 0x1f)
      (hnext : Unpacks {} (.ofBytes behind) text ending) : Unpacks m bits text ending

namespace Unpacks

variable {m m' : Member} {a b bits rest : Bits} {e : Option UInt8} {text : Bytes} {ending : Ending}

theorem of_went (h : Unpacks m bits text ending) (hstep : m.step true bits = .went m' e rest) :
    ∃ text', text = e.toList ++ text' ∧ Unpacks m' rest text' ending := by
  cases h with
  | went hstep' hrest =>
    rw [hstep'] at hstep
    obtain ⟨rfl, rfl, rfl⟩ := Step.went.inj hstep
    exact ⟨_, rfl, hrest⟩
  | cut hstep' | damaged hstep' | complete hstep' | another hstep' =>
    rw [hstep'] at hstep
    cases hstep

theorem of_starved (h : Unpacks m bits text ending) (hstep : m.step true bits = .starved) :
    text = [] ∧ ending = .cut := by
  cases h with
  | cut => exact ⟨rfl, rfl⟩
  | went hstep' | damaged hstep' | complete hstep' | another hstep' =>
    rw [hstep'] at hstep
    cases hstep

theorem of_fault {fault : Fault} (h : Unpacks m bits text ending)
    (hstep : m.step true bits = .fault fault rest) : text = [] ∧ ending = .damaged fault := by
  cases h with
  | damaged hstep' =>
    rw [hstep'] at hstep
    obtain ⟨rfl, -⟩ := Step.fault.inj hstep
    exact ⟨rfl, rfl⟩
  | went hstep' | cut hstep' | complete hstep' | another hstep' =>
    rw [hstep'] at hstep
    cases hstep

theorem of_ended (h : Unpacks m bits text ending) (hstep : m.step true bits = .ended rest) :
    ∃ behind, rest.toList = (Bits.ofBytes behind).toList ∧
      (behind.head? ≠ some 0x1f ∧ text = [] ∧ ending = .complete behind ∨
        behind.head? = some 0x1f ∧ Unpacks {} (.ofBytes behind) text ending) := by
  cases h with
  | complete hstep' hrest hbehind =>
    rw [hstep'] at hstep
    obtain rfl := Step.ended.inj hstep
    exact ⟨_, hrest, .inl ⟨hbehind, rfl, rfl⟩⟩
  | another hstep' hrest hbehind hnext =>
    rw [hstep'] at hstep
    obtain rfl := Step.ended.inj hstep
    exact ⟨_, hrest, .inr ⟨hbehind, hnext⟩⟩
  | went hstep' | cut hstep' | damaged hstep' =>
    rw [hstep'] at hstep
    cases hstep

/-- How the bits came makes no difference. -/
theorem congr (h : Unpacks m a text ending) (hab : a.toList = b.toList) :
    Unpacks m b text ending := by
  have hext := fun {a b : Bits} (h : a.toList = b.toList) => Bits.extends_nil_iff.mpr h
  induction h generalizing b with
  | went hstep _ ih =>
    obtain ⟨rest', hstep', hrest'⟩ := Member.step_went_of_extends (hext hab) hstep
    exact .went hstep' (ih (Bits.extends_nil_iff.mp hrest'))
  | cut hstep => exact .cut (Member.step_starved_of_toList hab hstep)
  | damaged hstep =>
    obtain ⟨rest', hstep'⟩ := Member.step_fault_of_extends (hext hab) hstep
    exact .damaged hstep'
  | complete hstep hrest hbehind =>
    obtain ⟨rest', hstep', hrest'⟩ := Member.step_ended_of_extends (hext hab) hstep
    exact .complete hstep' ((Bits.extends_nil_iff.mp hrest').symm.trans hrest) hbehind
  | another hstep hrest hbehind hnext =>
    obtain ⟨rest', hstep', hrest'⟩ := Member.step_ended_of_extends (hext hab) hstep
    exact .another hstep' ((Bits.extends_nil_iff.mp hrest').symm.trans hrest) hbehind hnext

/-- Fewer bits than the size of a member takes do not complete a file. -/
theorem ending_of_size_lt (h : Unpacks m bits text ending) (hsize : bits.size < 32)
    (behind : Bytes) : ending ≠ .complete behind := by
  induction h with
  | went hstep _ ih =>
    exact ih (Nat.lt_of_le_of_lt (Member.size_of_step_went hstep) hsize)
  | cut => simp
  | damaged => simp
  | complete hstep | another hstep =>
    have := Member.size_of_step_ended hstep
    omega

end Unpacks

/-! ## Inside a member -/

/-- Steps lead from `m` and `bits` to `m'` and `rest`, and give `out`. -/
inductive Reaches : Member → Bits → Bytes → Member → Bits → Prop where
  /-- No steps. -/
  | refl (m : Member) (bits : Bits) : Reaches m bits [] m bits
  /-- A step, and then others. -/
  | step {m m' m'' : Member} {bits mid rest : Bits} {e : Option UInt8} {out : Bytes}
      (hstep : m.step true bits = .went m' e mid) (hrest : Reaches m' mid out m'' rest) :
      Reaches m bits (e.toList ++ out) m'' rest

namespace Reaches

variable {m m' m'' : Member} {a b bits mid rest : Bits} {out more : Bytes}

theorem trans {out' : Bytes} (h : Reaches m bits out m' mid) (h' : Reaches m' mid out' m'' rest) :
    Reaches m bits (out ++ out') m'' rest := by
  induction h with
  | refl => exact h'
  | step hstep _ ih =>
    rw [List.append_assoc]
    exact .step hstep (ih h')

theorem grew (h : Reaches m bits out m' rest) : Member.Grew out m m' := by
  induction h with
  | refl m => exact Member.grew_refl m m.phase
  | step hstep _ ih => exact (Member.step_grew hstep).append ih

/-- The same steps are taken when more bytes follow. -/
theorem extend (h : Reaches m a out m' rest) (hab : Bits.Extends more a b) :
    ∃ rest', Reaches m b out m' rest' ∧ Bits.Extends more rest rest' := by
  induction h generalizing b with
  | refl m a => exact ⟨b, .refl m b, hab⟩
  | step hstep _ ih =>
    obtain ⟨mid', hstep', hmid'⟩ := Member.step_went_of_extends hab hstep
    obtain ⟨rest', hreach, hrest'⟩ := ih hmid'
    exact ⟨rest', .step hstep' hreach, hrest'⟩

theorem unpacks {text : Bytes} {ending : Ending} (h : Reaches m bits out m' mid)
    (h' : Unpacks m' mid text ending) : Unpacks m bits (out ++ text) ending := by
  induction h with
  | refl => exact h'
  | step hstep _ ih =>
    rw [List.append_assoc]
    exact .went hstep (ih h')

/-- If bytes are missing at the end of a member that has nothing behind it, what comes out is a
beginning of what the member holds, and then the end is missed. -/
theorem cut (h : Reaches m b out m' mid) (hend : m'.step true mid = .ended rest)
    (hrest : rest.toList = []) (hab : Bits.Extends more a b) (hmore : more ≠ []) :
    ∃ text, text <+: out ∧ Unpacks m a text .cut := by
  induction h generalizing a with
  | refl m b =>
    refine ⟨[], List.nil_prefix, ?_⟩
    rcases hs : m.step true a with ⟨m', e, r⟩ | _ | _ | r | ⟨fault, r⟩
    · obtain ⟨r', hstep, -⟩ := Member.step_went_of_extends hab hs
      rw [hend] at hstep
      cases hstep
    · exact .cut hs
    · exact absurd hs (m.step_true_ne_full a)
    · -- The member would be complete without the bytes that are missing.
      obtain ⟨r', hstep, hr'⟩ := Member.step_ended_of_extends hab hs
      rw [hend] at hstep
      obtain rfl := Step.ended.inj hstep
      have hsize := hr'.size_eq
      rw [← Bits.length_toList, hrest, List.length_nil] at hsize
      have := List.length_pos_iff.mpr hmore
      omega
    · obtain ⟨r', hstep⟩ := Member.step_fault_of_extends hab hs
      rw [hend] at hstep
      cases hstep
  | @step m m₁ m₂ b b₁ b₂ e out hstep hreach ih =>
    rcases hs : m.step true a with ⟨m', e', r⟩ | _ | _ | r | ⟨fault, r⟩
    · obtain ⟨r', hstep', hr'⟩ := Member.step_went_of_extends hab hs
      rw [hstep] at hstep'
      obtain ⟨rfl, rfl, rfl⟩ := Step.went.inj hstep'
      obtain ⟨text, htext, hunpacks⟩ := ih hend hr'
      exact ⟨e.toList ++ text, (List.prefix_append_right_inj _).mpr htext, .went hs hunpacks⟩
    · exact ⟨[], List.nil_prefix, .cut hs⟩
    · exact absurd hs (m.step_true_ne_full a)
    · obtain ⟨r', hstep', -⟩ := Member.step_ended_of_extends hab hs
      rw [hstep] at hstep'
      cases hstep'
    · obtain ⟨r', hstep'⟩ := Member.step_fault_of_extends hab hs
      rw [hstep] at hstep'
      cases hstep'

end Reaches

end TextLines.Gzip

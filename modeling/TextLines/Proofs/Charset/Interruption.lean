import Mathlib.Data.List.Permutation
import Mathlib.Tactic.Choose
import TextLines.Proofs.Charset.Decoding
import TextLines.Proofs.Source.Breaking

/-!
# Reading on when the source has failed

A caller may go on reading from a decoder when a read has failed. Whether anything is missing from
what it gets then is a question about the calls that failed. When a call fails, every character that
had been taken from the source as a whole is spent: either it was handed out by an earlier call, or
it is lost. `received_eq_decode_iff` says that nothing is missing at the end if and only if it was
always the former.

A call that fails before it has converted anything loses nothing. A call that has converted text,
ends inside a character and then fails to fetch the rest of it loses that text
(`text_lost_inside_character`).

If the source breaks off for good then so does the decoder, and all that it can have given are the
complete characters (`breaksOff`).
-/

namespace TextLines.Decoder

open Source (nthRead afterReads received)

variable {σ : Type} [Source σ] {faults : Error → Prop} {R : σ → Bytes → Prop}
  {encoding : Encoding} {data : Bytes} {sizes : Nat → Nat}

/-- What a call changes of what has been taken from the source and of what is spent. -/
structure Advances (faults : Error → Prop) (encoding : Encoding) (data : Bytes)
    (r : Except Error Bytes) (before after : Bytes × Bytes) : Prop where
  of_ok : ∀ piece, r = .ok piece →
    after.2 = before.2 ++ piece ∧ (piece = [] → encoding.decode data = before.2)
  of_error : ∀ e, r = .error e →
    faults e ∧ before.2 <+: after.2 ∧ encoding.complete after.1 = after.2

omit [Source σ] in
theorem Given.advances {given spent : Bytes} {r : Except Error Bytes × Decoder σ}
    (h : Given R faults encoding data given spent r) :
    ∃ after : Bytes × Bytes, r.2.Stands R encoding data after.1 after.2 ∧
      Advances faults encoding data r.1 (given, spent) after := by
  cases h with
  | @piece d fetched piece hstands hend =>
    refine ⟨(given ++ fetched, spent ++ piece), hstands, fun piece' hpiece => ?_, by simp⟩
    obtain rfl := Except.ok.inj hpiece
    exact ⟨rfl, hend⟩
  | @failed d e fetched lost hstands hfault hended hlost =>
    refine ⟨(given ++ fetched, spent ++ lost), hstands, by simp, fun e' he => ?_⟩
    obtain rfl := Except.error.inj he
    exact ⟨hfault, List.prefix_append _ _, hlost⟩

/-- What has been taken and what is spent after any number of calls. -/
theorem exists_places (hR : Source.Delivery faults R) {inner : σ} (h : R inner data)
    (encoding : Encoding) (hpos : ∀ k, 0 < sizes k) :
    ∃ place : Nat → Bytes × Bytes, (place 0).2 = [] ∧ ∀ k,
      (afterReads sizes ({ inner, encoding } : Decoder σ) k).Stands R encoding data (place k).1
          (place k).2 ∧
        Advances faults encoding data (nthRead sizes ({ inner, encoding } : Decoder σ) k) (place k)
          (place (k + 1)) := by
  have hstep : ∀ (k : Nat) (before : Bytes × Bytes), ∃ after : Bytes × Bytes,
      (afterReads sizes ({ inner, encoding } : Decoder σ) k).Stands R encoding data before.1
        before.2 →
      (afterReads sizes ({ inner, encoding } : Decoder σ) (k + 1)).Stands R encoding data after.1
          after.2 ∧
        Advances faults encoding data (nthRead sizes ({ inner, encoding } : Decoder σ) k) before
          after := by
    intro k before
    by_cases hstands : (afterReads sizes ({ inner, encoding } : Decoder σ) k).Stands R encoding data
        before.1 before.2
    · obtain ⟨after, hafter, hadvances⟩ := (read_given hR hstands (hpos k)).advances
      exact ⟨after, fun _ => ⟨hafter, hadvances⟩⟩
    · exact ⟨before, fun h => absurd h hstands⟩
  choose next hnext using hstep
  refine ⟨fun k => Nat.rec ([], []) next k, rfl, fun k => ?_⟩
  have hstands : (afterReads sizes ({ inner, encoding } : Decoder σ) k).Stands R encoding data
      (Nat.rec ([], []) next k : Bytes × Bytes).1 (Nat.rec ([], []) next k : Bytes × Bytes).2 := by
    induction k with
    | zero => exact stands_of_inner h encoding
    | succ k ih => exact (hnext k _ ih).1
  exact ⟨hstands, (hnext k _ hstands).2⟩

section

variable {d : Decoder σ} {place : Nat → Bytes × Bytes}

/-- What a caller has got is spent, and nothing else is in it. -/
theorem received_sublist
    (h : ∀ k, Advances faults encoding data (nthRead sizes d k) (place k) (place (k + 1)))
    (k : Nat) :
    (received sizes d k).Sublist (place k).2 := by
  induction k with
  | zero => exact List.nil_sublist _
  | succ k ih =>
    rw [received]
    rcases hr : nthRead sizes d k with e | piece
    · obtain ⟨-, hbegins, -⟩ := (h k).of_error e hr
      show (received sizes d k ++ []).Sublist _
      rw [List.append_nil]
      exact ih.trans hbegins.sublist
    · rw [((h k).of_ok piece hr).1]
      exact ih.append_right piece

/-- Everything that is spent was handed out if and only if every call that failed found everything
handed out. -/
theorem received_eq_spent_iff (hstart : (place 0).2 = [])
    (h : ∀ k, Advances faults encoding data (nthRead sizes d k) (place k) (place (k + 1)))
    (k : Nat) :
    received sizes d k = (place k).2 ↔
      ∀ j, j < k → ∀ e, nthRead sizes d j = .error e →
        received sizes d j = encoding.complete (place (j + 1)).1 := by
  induction k with
  | zero => exact ⟨fun _ j hj => absurd hj (Nat.not_lt_zero j), fun _ => hstart.symm⟩
  | succ k ih =>
    have hsplit : ∀ {P : Nat → Prop}, (∀ j, j < k + 1 → P j) ↔ (∀ j, j < k → P j) ∧ P k :=
      Nat.forall_lt_succ_right
    rw [hsplit, ← ih, received]
    rcases hr : nthRead sizes d k with e | piece
    · obtain ⟨-, hbegins, hcomplete⟩ := (h k).of_error e hr
      have hcall : (∀ e', (.error e : Except Error Bytes) = .error e' →
          received sizes d k = encoding.complete (place (k + 1)).1) ↔
            received sizes d k = (place (k + 1)).2 := by
        rw [hcomplete]
        exact ⟨fun hall => hall e rfl, fun heq _ _ => heq⟩
      rw [hcall]
      show received sizes d k ++ [] = _ ↔ _
      rw [List.append_nil]
      refine ⟨fun heq => ⟨?_, heq⟩, fun hboth => hboth.2⟩
      -- What was handed out cannot be longer than what was spent before the call.
      have hle := (received_sublist h k).length_le
      have hle' := hbegins.length_le
      rw [heq] at hle ⊢
      exact (hbegins.eq_of_length (Nat.le_antisymm hle' hle)).symm
    · have hcall : ∀ e, (.ok piece : Except Error Bytes) = .error e →
          received sizes d k = encoding.complete (place (k + 1)).1 := by simp
      rw [((h k).of_ok piece hr).1]
      show received sizes d k ++ piece = _ ↔ _
      rw [List.append_left_inj]
      exact ⟨fun heq => ⟨heq, hcall⟩, fun hboth => hboth.1⟩

end

/-- A caller goes on reading across failures of the source. What it gets is the decoding of the data
with some of it left out. Nothing is left out if and only if, whenever a call failed, all characters
that had been taken from the source as a whole had been handed out before that call. If the failures
stop, the end is reached. -/
theorem received_eq_decode_iff (hR : Source.Delivery faults R) {inner : σ} (h : R inner data)
    (encoding : Encoding) (hpos : ∀ k, 0 < sizes k) :
    let d : Decoder σ := { inner, encoding }
    ∃ given : Nat → Bytes,
      (∀ k, ∃ rest, data = given k ++ rest ∧ R (afterReads sizes d k).inner rest) ∧
      (∀ k e, nthRead sizes d k = .error e → faults e) ∧
      (∀ k, nthRead sizes d k = .ok [] →
        (received sizes d k).Sublist (encoding.decode data) ∧
        (received sizes d k = encoding.decode data ↔
          ∀ j, j < k → ∀ e, nthRead sizes d j = .error e →
            received sizes d j = encoding.complete (given (j + 1)))) ∧
      ((∃ m, ∀ k, m ≤ k → ∃ piece, nthRead sizes d k = .ok piece) →
        ∃ k, nthRead sizes d k = .ok []) := by
  intro d
  obtain ⟨place, hstart, hplace⟩ := exists_places hR h encoding hpos
  have hadvances := fun k => (hplace k).2
  refine ⟨fun k => (place k).1, fun k => ?_, fun k e he => ((hadvances k).of_error e he).1,
    fun k hend => ?_, ?_⟩
  · obtain ⟨rest, hdata, hinner, -⟩ := (hplace k).1.inner
    exact ⟨rest, hdata, hinner⟩
  · have hall : encoding.decode data = (place k).2 := ((hadvances k).of_ok [] hend).2 rfl
    rw [hall]
    exact ⟨received_sublist hadvances k, received_eq_spent_iff hstart hadvances k⟩
  · rintro ⟨m, hok⟩
    -- Every call that gives something spends some of the decoding.
    have hbound : ∀ k, (place k).2.length ≤ (encoding.decode data).length := by
      intro k
      obtain ⟨text, htext⟩ := (hplace k).1.exists_decode
      rw [htext, List.length_append]
      omega
    by_contra hnever
    have hgrows : ∀ i, i ≤ (place (m + i)).2.length := by
      intro i
      induction i with
      | zero => exact Nat.zero_le _
      | succ i ih =>
        obtain ⟨piece, hpiece⟩ := hok (m + i) (Nat.le_add_right m i)
        have hne : piece ≠ [] := by
          rintro rfl
          exact hnever ⟨m + i, hpiece⟩
        have hlen := List.length_pos_iff.mpr hne
        show i + 1 ≤ (place (m + i + 1)).2.length
        rw [((hadvances (m + i)).of_ok piece hpiece).1, List.length_append]
        omega
    have hlast := hgrows ((encoding.decode data).length + 1)
    have hbound' := hbound (m + ((encoding.decode data).length + 1))
    omega

/-- A read that fails before anything has been taken does no harm. -/
theorem received_eq_decode_first_read :
    let inner : Memory :=
      { rest := [0x61, 0xe2, 0x82, 0xac], step := 3, readFault := some (1, .reading (.device [])) }
    let d : Decoder Memory := { inner, encoding := .plain .utf8 }
    Source.DeliversBut (fun _ => True) inner inner.rest ∧ (∀ k : Nat, 0 < k + 16) ∧
      nthRead (fun k => k + 16) d 0 = .error (.reading (.device [])) ∧
      received (fun k => k + 16) d 3 = (Encoding.plain .utf8).decode inner.rest ∧
      ∃ given : Nat → Bytes, (Encoding.plain .utf8).complete (given 1) = [] := by
  intro inner d
  have hdata : Source.DeliversBut (fun _ => True) inner inner.rest :=
    Memory.deliversBut (by decide) rfl fun _ _ _ => trivial
  have hpos : ∀ k : Nat, 0 < k + 16 := fun k => Nat.succ_pos (k + 15)
  have hfails : nthRead (fun k => k + 16) d 0 = .error (.reading (.device [])) := by cbv
  have hend : nthRead (fun k => k + 16) d 3 = .ok [] := by cbv
  have hall : received (fun k => k + 16) d 3 = (Encoding.plain .utf8).decode inner.rest := by cbv
  obtain ⟨given, -, -, hiff, -⟩ :=
    received_eq_decode_iff (Source.delivery_deliversBut _) hdata (.plain .utf8) hpos
  have hspent := ((hiff 3 hend).2.mp hall) 0 (by decide) _ hfails
  exact ⟨hdata, hpos, hfails, hall, given, hspent.symm⟩

/-- A read that fails where the text before it ends inside a character takes with it what the call
had converted: the letter is missing. -/
theorem text_lost_inside_character :
    let inner : Memory :=
      { rest := [0x61, 0xe2, 0x82, 0xac], step := 3, readFault := some (2, .reading (.device [])) }
    let d : Decoder Memory := { inner, encoding := .plain .utf8 }
    Source.DeliversBut (fun _ => True) inner inner.rest ∧
      nthRead (fun _ => 16) d 0 = .error (.reading (.device [])) ∧
      nthRead (fun _ => 16) d 1 = .ok [0xe2, 0x82, 0xac] ∧
      nthRead (fun _ => 16) d 2 = .ok [] ∧
      received (fun _ => 16) d 2 ≠ (Encoding.plain .utf8).decode inner.rest := by
  intro inner d
  have hdata : Source.DeliversBut (fun _ => True) inner inner.rest :=
    Memory.deliversBut (by decide) rfl fun _ _ _ => trivial
  have hgot : received (fun _ => 16) d 2 = [0xe2, 0x82, 0xac] := by cbv
  have hdecode : (Encoding.plain .utf8).decode inner.rest = [0x61, 0xe2, 0x82, 0xac] := by cbv
  refine ⟨hdata, by cbv, by cbv, by cbv, ?_⟩
  rw [hgot, hdecode]
  decide

/-! ## A source that breaks off -/

theorem refill_breakage (hR : Source.Breakage faults R) {d d' : Decoder σ} {r : Except Error Unit}
    {rest : Bytes} (h : R d.inner rest) (hroom : d.pending.length < inputCapacity)
    (hended : d.ended = false) (hr : d.refill = (r, d')) :
    d'.ended = false ∧ (∃ rest', R d'.inner rest') ∧ ∀ e, r = .error e → R d'.inner [] := by
  have hpos : 0 < inputCapacity - d.pending.length := Nat.sub_pos_of_lt hroom
  unfold refill at hr
  rcases hread : Source.read (inputCapacity - d.pending.length) d.inner with ⟨e | bytes, inner⟩
  · rw [hread] at hr
    obtain ⟨rfl, rfl⟩ := Prod.mk.inj hr
    obtain ⟨-, hinner⟩ := hR.of_error h hpos hread
    exact ⟨hended, ⟨[], hinner⟩, fun _ _ => hinner⟩
  · rw [hread] at hr
    obtain ⟨rfl, rfl⟩ := Prod.mk.inj hr
    obtain ⟨hne, rest', -, hinner⟩ := hR.of_ok h hpos hread
    exact ⟨List.isEmpty_eq_false_iff.mpr hne, ⟨rest', hinner⟩, by simp⟩

omit [Source σ] in
theorem deliver_ended (d : Decoder σ) (c : Charset.Conversion) : (d.deliver c).ended = d.ended := by
  unfold deliver
  split <;> rfl

/-- Producing text does not come to the end of a source that breaks off. -/
theorem produce_breakage (hR : Source.Breakage faults R) {d : Decoder σ} {rest : Bytes}
    (h : R d.inner rest) (hended : d.ended = false) :
    d.produce.2.ended = false ∧ (∃ rest', R d.produce.2.inner rest') ∧
      ∀ e, d.produce.1 = .error e → R d.produce.2.inner [] := by
  fun_induction produce d generalizing rest with
  | case1 d hp he =>
    rw [hended] at he
    cases he
  | case2 d hp he d' hr ih =>
    have hroom : d.pending.length < inputCapacity := by rw [hp]; decide
    obtain ⟨hended', ⟨rest', hinner⟩, -⟩ := refill_breakage hR h hroom hended hr
    exact ih hinner hended'
  | case3 d hp he e d' hr =>
    have hroom : d.pending.length < inputCapacity := by rw [hp]; decide
    obtain ⟨hended', hinner, herror⟩ := refill_breakage hR h hroom hended hr
    exact ⟨hended', hinner, fun _ _ => herror e rfl⟩
  | case4 d hp now c hc he d' hr hnil ih =>
    have hpaused := convertPending_paused hp
    rw [hc] at hpaused
    obtain ⟨hended', ⟨rest', hinner⟩, -⟩ :=
      refill_breakage (d := { d with encoding := now, pending := c.rest }) hR h
        (hpaused.length_lt he.1) hended hr
    exact ih hinner hended'
  | case5 d hp now c hc he d' hr hne =>
    have hpaused := convertPending_paused hp
    rw [hc] at hpaused
    obtain ⟨hended', hinner, -⟩ :=
      refill_breakage (d := { d with encoding := now, pending := c.rest }) hR h
        (hpaused.length_lt he.1) hended hr
    exact ⟨hended', hinner, by simp⟩
  | case6 d hp now c hc he e d' hr =>
    have hpaused := convertPending_paused hp
    rw [hc] at hpaused
    obtain ⟨hended', hinner, herror⟩ :=
      refill_breakage (d := { d with encoding := now, pending := c.rest }) hR h
        (hpaused.length_lt he.1) hended hr
    exact ⟨hended', hinner, fun _ _ => herror e rfl⟩
  | case7 d hp now c hc he hs ih => exact ih h hended
  | case8 d hp now c hc he hs =>
    refine ⟨(deliver_ended _ c).trans hended, ⟨rest, ?_⟩, by simp⟩
    rw [deliver_inner]
    exact h

/-- The decoder is open and inside its text, of which it has `text` at most to hand out. -/
def Inside (R : σ → Bytes → Prop) (d : Decoder σ) (text : Bytes) : Prop :=
  d.closed = false ∧ d.ended = false ∧
    ∃ rest, R d.inner rest ∧ d.ready ++ d.encoding.complete (d.pending ++ rest) <+: text

omit [Source σ] in
/-- What is ready is taken from what the decoder has to hand out. -/
theorem Inside.take {d : Decoder σ} {text : Bytes} (h : d.Inside R text) (hready : d.ready ≠ [])
    {n : Nat} (hn : 0 < n) :
    d.ready.take n ≠ [] ∧ ∃ text', text = d.ready.take n ++ text' ∧
      ({ d with ready := d.ready.drop n } : Decoder σ).Inside R text' := by
  obtain ⟨hopen, hended, rest, hinner, more, rfl⟩ := h
  refine ⟨fun hnil => hready ((List.take_eq_nil_iff.mp hnil).resolve_left (by omega)),
    d.ready.drop n ++ d.encoding.complete (d.pending ++ rest) ++ more, ?_, hopen, hended, rest,
    hinner, List.prefix_append _ _⟩
  rw [← List.append_assoc, ← List.append_assoc, List.take_append_drop]

/-- Producing text inside the text makes some text ready. If it fails it leaves nothing. -/
theorem produce_inside (hR : Source.Breakage faults R) {d : Decoder σ} {text : Bytes}
    (h : d.Inside R text) (hready : d.ready = []) :
    (∀ d', d.produce = (.ok (), d') → d'.Inside R text ∧ d'.ready ≠ []) ∧
      ∀ e d', d.produce = (.error e, d') → faults e ∧ d'.Inside R [] := by
  obtain ⟨hopen, hended, rest, hinner, htext⟩ := h
  rw [hready, List.nil_append] at htext
  obtain ⟨hended', hinner', herror⟩ := produce_breakage hR hinner hended
  have hstands : d.Stands (fun s data => R s data ∨ R s []) d.encoding (d.pending ++ rest) d.pending
      [] := by
    refine ⟨hopen, ⟨rest, rfl, .inl hinner, by simp [hended]⟩, fun _ _ => ?_, fun _ _ => ?_⟩
    · rw [hready]
      rfl
    · rw [hready]
      rfl
  have hproduced := produce_produced hR.delivery hstands hready
  generalize d.produce = r at hproduced hended' hinner' herror ⊢
  cases hproduced with
  | @ready d' piece hstands' hready' =>
    refine ⟨fun d'' hd => ?_, by simp⟩
    obtain ⟨-, rfl⟩ := Prod.mk.inj hd
    obtain ⟨left, hleft, hinner'', -⟩ := hstands'.inner
    have hcomplete := hstands'.complete hended'
    refine ⟨⟨hstands'.isOpen, hended', ?_⟩, fun hnil => ?_⟩
    · -- What the source still has decides what the decoder has, at most.
      rcases hinner'' with hleft' | hdead
      · refine ⟨left, hleft', ?_⟩
        rw [← List.nil_append (d'.ready ++ _), ← hcomplete, ← hleft]
        exact htext
      · refine ⟨[], hdead, ?_⟩
        rw [← List.nil_append (d'.ready ++ _), ← hcomplete, List.append_nil]
        refine List.IsPrefix.trans ?_ htext
        rw [hleft]
        exact Encoding.complete_isPrefix_complete _ _ _
    · rw [(hready' hnil).1] at hended'
      cases hended'
  | @failed d' e piece lost hstands' hfault hready' hended'' hpending =>
    refine ⟨by simp, fun e' d'' hd => ?_⟩
    obtain ⟨he, rfl⟩ := Prod.mk.inj hd
    obtain rfl := Except.error.inj he
    refine ⟨hfault, hstands'.isOpen, hended'', [], herror e rfl, ?_⟩
    rw [hready', List.append_nil, hpending]
    exact List.nil_prefix

/-- A decoder over a source that breaks off breaks off, after complete characters of the data. -/
theorem breaksOff {inner : σ} (h : Source.BreaksOff faults inner data) (encoding : Encoding) :
    Source.BreaksOff faults ({ inner, encoding } : Decoder σ) (encoding.complete data) := by
  have hR := Source.breakage_breaksOff (σ := σ) faults
  have hread : ∀ {d d' : Decoder σ} {text : Bytes} {n : Nat} {r : Except Error Bytes},
      d.Inside (Source.BreaksOff faults) text → 0 < n → d.read n = (r, d') →
      (∀ piece, r = .ok piece → piece ≠ [] ∧
        ∃ text', text = piece ++ text' ∧ d'.Inside (Source.BreaksOff faults) text') ∧
      ∀ e, r = .error e → faults e ∧ d'.Inside (Source.BreaksOff faults) [] := by
    intro d d' text n r h hn hr
    rw [read, if_neg (by omega), h.1, Bool.not_false, Bool.and_true] at hr
    simp only [List.splitAt_eq] at hr
    by_cases hready : d.ready = []
    · obtain ⟨hok, herror⟩ := produce_inside hR h hready
      rw [hready, List.isEmpty_nil, if_pos rfl] at hr
      rcases hp : d.produce with ⟨e | u, d''⟩
      · rw [hp] at hr
        obtain ⟨rfl, rfl⟩ := Prod.mk.inj hr
        refine ⟨by simp, fun e' he => ?_⟩
        obtain rfl := Except.error.inj he
        exact herror e d'' hp
      · rw [hp] at hr
        obtain ⟨rfl, rfl⟩ := Prod.mk.inj hr
        obtain ⟨hinside, hne⟩ := hok d'' hp
        refine ⟨fun piece hpiece => ?_, by simp⟩
        obtain rfl := Except.ok.inj hpiece
        exact hinside.take hne hn
    · rw [List.isEmpty_eq_false_iff.mpr hready, if_neg (by simp)] at hr
      obtain ⟨rfl, rfl⟩ := Prod.mk.inj hr
      refine ⟨fun piece hpiece => ?_, by simp⟩
      obtain rfl := Except.ok.inj hpiece
      exact h.take hready hn
  refine ⟨Inside (Source.BreaksOff faults), ⟨fun h hn hr => (hread h hn hr).1 _ rfl,
    fun h hn hr => (hread h hn hr).2 _ rfl⟩, rfl, rfl, data, h, List.prefix_refl _⟩

end TextLines.Decoder

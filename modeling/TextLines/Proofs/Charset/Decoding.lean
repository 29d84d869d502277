import TextLines.Charset.Decoder
import TextLines.Proofs.Charset.Conversion
import TextLines.Proofs.Source.Delivery

/-!
# A decoder hands out the decoding of its source

`Decoder.Stands` says where a decoder stands in its text: what it has taken from its source
(`given`), what it has made of that and no longer has (`spent`), and that the rest is still there,
as converted text, as pending input, or in the source. A character may be cut wherever the source
likes, so two things are said of the text: with all that is left it makes the decoding of the data,
and as far as the characters that have been taken are complete it is made of what has been taken.

Three steps keep the place: fetching input (`refill_stands`), a pass of conversion
(`convertPending_stands`) and the end of a pass, where what stopped it is replaced
(`deliver_stands`). `produce_produced` is the induction over the loop that puts them together. A
failure inside takes a part of the text with it, which is what the pass had converted.

A decoder over a source that does not fail is such a source again (`delivers`), and so the reads of
it are known (`reads_eq_decode`).
-/

namespace TextLines.Decoder

open Charset (Conversion replacement)

variable {σ : Type} [Source σ] {faults : Error → Prop} {R : σ → Bytes → Prop}
  {encoding : Encoding} {data given spent : Bytes}

/-- The decoder is open. It has taken `given` of the data from its source, and `spent` is what it
has made of that and does not have any more. -/
structure Stands (R : σ → Bytes → Prop) (encoding : Encoding) (data given spent : Bytes)
    (d : Decoder σ) : Prop where
  isOpen : d.closed = false
  inner : ∃ rest, data = given ++ rest ∧ R d.inner rest ∧ (d.ended = true → rest = [])
  decode : ∀ more, (d.ended = true → more = []) → encoding.decode (given ++ more) =
    spent ++ (d.ready ++ d.encoding.decode (d.pending ++ more))
  complete : d.ended = false → ∀ more, encoding.complete (given ++ more) =
    spent ++ (d.ready ++ d.encoding.complete (d.pending ++ more))

omit [Source σ] in
/-- A fresh decoder has taken nothing. -/
theorem stands_of_inner {inner : σ} (h : R inner data) (encoding : Encoding) :
    ({ inner, encoding } : Decoder σ).Stands R encoding data [] [] :=
  ⟨rfl, ⟨data, rfl, h, by simp⟩, fun _ _ => rfl, fun _ _ => rfl⟩

omit [Source σ] in
/-- Converted text that is put back into an empty decoder is not spent. -/
theorem Stands.with_ready {d : Decoder σ} {piece : Bytes} (hready : d.ready = [])
    (h : d.Stands R encoding data given (spent ++ piece)) :
    ({ d with ready := piece } : Decoder σ).Stands R encoding data given spent := by
  refine ⟨h.isOpen, h.inner, fun more he => ?_, fun he more => ?_⟩
  · rw [h.decode more he, hready, List.nil_append, List.append_assoc]
  · rw [h.complete he, hready, List.nil_append, List.append_assoc]

/-! ## Fetching input -/

/-- Fetching moves input from the source to the decoder. -/
theorem refill_stands (hR : Source.Delivery faults R) {d d' : Decoder σ} {r : Except Error Unit}
    (h : d.Stands R encoding data given spent) (hroom : d.pending.length < inputCapacity)
    (hended : d.ended = false) (hr : d.refill = (r, d')) :
    (r = .ok () → ∃ piece, d'.Stands R encoding data (given ++ piece) spent) ∧
      ∀ e, r = .error e → faults e ∧ d'.Stands R encoding data given spent ∧ d'.ended = false ∧
        d'.pending = d.pending ∧ d'.encoding = d.encoding := by
  obtain ⟨hopen, ⟨rest, hdata, hinner, -⟩, hdecode, hcomplete⟩ := h
  have hpos : 0 < inputCapacity - d.pending.length := Nat.sub_pos_of_lt hroom
  unfold refill at hr
  rcases hread : Source.read (inputCapacity - d.pending.length) d.inner with ⟨e | bytes, inner⟩
  · rw [hread] at hr
    obtain ⟨rfl, rfl⟩ := Prod.mk.inj hr
    obtain ⟨hfault, hinner'⟩ := hR.of_error hinner hpos hread
    refine ⟨by simp, fun e' he' => ?_⟩
    obtain rfl := Except.error.inj he'
    have hnot : ¬ d.ended = true := by simp [hended]
    exact ⟨hfault, ⟨hopen, ⟨rest, hdata, hinner', fun he => absurd he hnot⟩, hdecode, hcomplete⟩,
      hended, rfl, rfl⟩
  · rw [hread] at hr
    obtain ⟨rfl, rfl⟩ := Prod.mk.inj hr
    obtain ⟨rest', rfl, hend, hinner'⟩ := hR.of_ok hinner hpos hread
    have hnot : ¬ d.ended = true := by simp [hended]
    refine ⟨fun _ => ⟨bytes, hopen, ⟨rest', ?_, hinner', ?_⟩, fun more _ => ?_, fun _ more => ?_⟩,
      by simp⟩
    · rw [hdata, List.append_assoc]
    · exact fun he => hend (List.isEmpty_iff.mp he)
    · rw [List.append_assoc, hdecode _ fun he => absurd he hnot, List.append_assoc]
    · rw [List.append_assoc, hcomplete hended, List.append_assoc]

/-! ## Conversion -/

/-- What a pass of conversion has left, and why, when the encoding is now `encoding`. -/
inductive Paused (encoding : Encoding) : Conversion → Prop where
  /-- Nothing. -/
  | exhausted {text : Bytes} : Paused encoding ⟨text, [], .exhausted⟩
  /-- A byte that stands for nothing. -/
  | malformed {text rest : Bytes} {b : UInt8}
      (hdecode : ∀ more, encoding.decode (b :: rest ++ more) =
        replacement ++ encoding.decode (rest ++ more))
      (hcomplete : ∀ more, encoding.complete (b :: rest ++ more) =
        replacement ++ encoding.complete (rest ++ more)) :
      Paused encoding ⟨text, b :: rest, .malformed⟩
  /-- The beginning of a character. -/
  | incomplete {text rest : Bytes} (hlength : rest.length < 6)
      (hdecode : encoding.decode rest = replacement) (hcomplete : encoding.complete rest = []) :
      Paused encoding ⟨text, rest, .incomplete⟩
  /-- Text for which there is no room. -/
  | full {text rest : Bytes} (htext : text ≠ []) : Paused encoding ⟨text, rest, .full⟩

theorem Paused.length_lt {encoding : Encoding} {c : Conversion} (h : Paused encoding c)
    (hstop : c.stop = .incomplete) : c.rest.length < inputCapacity := by
  cases h with
  | incomplete hlength => exact Nat.lt_trans hlength (by decide)
  | _ => cases hstop

theorem Paused.complete_rest {encoding : Encoding} {c : Conversion} (h : Paused encoding c)
    (hstop : c.stop = .incomplete) : encoding.complete c.rest = [] := by
  cases h with
  | incomplete _ _ hcomplete => exact hcomplete
  | _ => cases hstop

theorem Paused.rest_eq_nil {encoding : Encoding} {c : Conversion} (h : Paused encoding c)
    (hstop : c.stop = .exhausted) : c.rest = [] := by
  cases h with
  | exhausted => rfl
  | _ => cases hstop

omit [Source σ] in
/-- What a pass has converted and the decoding of what it has left make the decoding of the input,
whatever comes behind it. -/
theorem convertPending_decode (d : Decoder σ) (more : Bytes) :
    d.encoding.decode (d.pending ++ more) =
      d.convertPending.2.text ++ d.convertPending.1.decode (d.convertPending.2.rest ++ more) := by
  unfold convertPending
  rcases hs : d.encoding.settle d.pending with _ | ⟨charset, rest⟩
  · rfl
  · rw [Encoding.decode_of_settle (Encoding.settle_append hs more), Encoding.decode_plain]
    exact Charset.convert_decode charset outputCapacity rest more

omit [Source σ] in
theorem convertPending_complete (d : Decoder σ) (more : Bytes) :
    d.encoding.complete (d.pending ++ more) =
      d.convertPending.2.text ++ d.convertPending.1.complete (d.convertPending.2.rest ++ more) := by
  unfold convertPending
  rcases hs : d.encoding.settle d.pending with _ | ⟨charset, rest⟩
  · rfl
  · rw [Encoding.complete_of_settle (Encoding.settle_append hs more), Encoding.complete_plain]
    exact Charset.convert_complete charset outputCapacity rest more

omit [Source σ] in
theorem convertPending_paused {d : Decoder σ} (hp : d.pending ≠ []) :
    Paused d.convertPending.1 d.convertPending.2 := by
  unfold convertPending
  rcases hs : d.encoding.settle d.pending with _ | ⟨charset, rest⟩
  · have hlen := Encoding.length_of_settle_none hs
    exact .incomplete (by omega) (Encoding.decode_of_settle_none hs hp)
      (Encoding.complete_of_settle_none hs)
  · have hstopped : charset.Stopped (charset.convert outputCapacity rest) :=
      Charset.convert_stopped charset rest (by decide)
    dsimp only
    generalize charset.convert outputCapacity rest = c at hstopped ⊢
    cases hstopped with
    | exhausted => exact .exhausted
    | @malformed text rest b hfirst =>
      have hstays : ∀ more, charset.first b (rest ++ more) = .malformed := by
        intro more
        rw [Charset.first_append (by rw [hfirst]; simp), hfirst]
      refine .malformed (fun more => ?_) fun more => ?_
      · rw [Encoding.decode_plain, Encoding.decode_plain, List.cons_append,
          Charset.decode_malformed (hstays more)]
      · rw [Encoding.complete_plain, Encoding.complete_plain, List.cons_append,
          Charset.complete_malformed (hstays more)]
    | @incomplete text rest b hfirst =>
      have hlen := Charset.length_of_incomplete hfirst
      refine .incomplete (Nat.succ_lt_succ hlen) ?_ ?_
      · rw [Encoding.decode_plain, Charset.decode_incomplete hfirst]
      · rw [Encoding.complete_plain, Charset.complete_incomplete hfirst]
    | full htext => exact .full htext

omit [Source σ] in
/-- A pass of conversion spends what it has converted. -/
theorem convertPending_stands {d : Decoder σ} (h : d.Stands R encoding data given spent)
    (hready : d.ready = []) (hp : d.pending ≠ []) {now : Encoding} {c : Conversion}
    (hc : d.convertPending = (now, c)) :
    Paused now c ∧ ({ d with encoding := now, pending := c.rest } : Decoder σ).Stands R encoding
      data given (spent ++ c.text) := by
  have hpaused := convertPending_paused hp
  have hdecode := d.convertPending_decode
  have hcomplete := d.convertPending_complete
  rw [hc] at hpaused hdecode hcomplete
  refine ⟨hpaused, h.isOpen, h.inner, fun more he => ?_, fun he more => ?_⟩
  · rw [h.decode more he, hready, List.nil_append, List.nil_append, hdecode, List.append_assoc]
  · rw [h.complete he, hready, List.nil_append, List.nil_append, hcomplete, List.append_assoc]

/-! ## Delivering -/

theorem replaced_of_some {text ready : Bytes} (h : replaced text = some ready) :
    ready = text ++ replacement := by
  unfold replaced at h
  split at h
  · exact (Option.some.inj h).symm
  · cases h

/-- There is always room for a replacement in an empty buffer. -/
theorem ne_nil_of_replaced {text : Bytes} (h : replaced text = none) : text ≠ [] := by
  rintro rfl
  unfold replaced at h
  rw [if_pos (by decide)] at h
  cases h

omit [Source σ] in
/-- A pass that has nothing to wait for hands out what it has converted, with a replacement for what
has stopped it if there is room. It always hands out something, unless there was nothing. -/
theorem deliver_stands {d : Decoder σ} {c : Conversion}
    (h : ({ d with pending := c.rest } : Decoder σ).Stands R encoding data given (spent ++ c.text))
    (hready : d.ready = []) (hpaused : Paused d.encoding c)
    (hwait : ¬ (c.stop = .incomplete ∧ d.ended = false))
    (hsome : ¬ (c.stop = .exhausted ∧ c.text.isEmpty = true)) :
    (d.deliver c).Stands R encoding data given spent ∧ (d.deliver c).ready ≠ [] := by
  have hplain : ({ d with pending := c.rest, ready := c.text } : Decoder σ).Stands R encoding data
      given spent := h.with_ready (d := { d with pending := c.rest }) hready
  obtain ⟨hopen, ⟨rest, hdata, hinner, hended⟩, hdecode, hcomplete⟩ := id hplain
  have hreplacement : replacement ≠ [] := by simp [replacement, Charset.encodeUtf8]
  cases hpaused with
  | exhausted =>
    refine ⟨hplain, fun hnil => hsome ⟨rfl, ?_⟩⟩
    exact List.isEmpty_iff.mpr hnil
  | full hfull => exact ⟨hplain, hfull⟩
  | @malformed text tail b hdecode' hcomplete' =>
    unfold deliver
    rcases hr : replaced text with _ | ready
    · exact ⟨hplain, ne_nil_of_replaced hr⟩
    · obtain rfl := replaced_of_some hr
      refine ⟨⟨hopen, ⟨rest, hdata, hinner, hended⟩, fun more he => ?_, fun he more => ?_⟩,
        by simp [hreplacement]⟩
      · rw [hdecode more he, hdecode', List.append_assoc]
        rfl
      · rw [hcomplete he, hcomplete', List.append_assoc]
        rfl
  | @incomplete text tail hlength hdecode' =>
    -- The source has nothing more, so that this is all that remains.
    have hend : d.ended = true := by simpa using hwait
    have hlast := hdecode [] fun _ => rfl
    rw [List.append_nil, List.append_nil, hdecode'] at hlast
    unfold deliver
    rcases hr : replaced text with _ | ready
    · exact ⟨hplain, ne_nil_of_replaced hr⟩
    · obtain rfl := replaced_of_some hr
      refine ⟨⟨hopen, ⟨rest, hdata, hinner, hended⟩, fun more he => ?_, fun he => ?_⟩,
        by simp [hreplacement]⟩
      · rw [he hend, List.append_nil, hlast, List.append_nil, Encoding.decode_nil, List.append_nil]
      · have he' : d.ended = false := he
        rw [hend] at he'
        cases he'

/-! ## Producing -/

/-- What producing text can come to. -/
inductive Produced (R : σ → Bytes → Prop) (faults : Error → Prop) (encoding : Encoding)
    (data given spent : Bytes) : Except Error Unit × Decoder σ → Prop where
  /-- Some text is ready, unless nothing is left. -/
  | ready {d : Decoder σ} {piece : Bytes}
      (hstands : d.Stands R encoding data (given ++ piece) spent)
      (hready : d.ready = [] → d.ended = true ∧ encoding.decode data = spent) :
      Produced R faults encoding data given spent (.ok (), d)
  /-- The source inside has failed, and what the pass had converted is spent. Nothing is left of the
  characters that have been taken, except for the beginning of one. -/
  | failed {d : Decoder σ} {e : Error} {piece lost : Bytes}
      (hstands : d.Stands R encoding data (given ++ piece) (spent ++ lost)) (hfault : faults e)
      (hready : d.ready = []) (hended : d.ended = false)
      (hpending : d.encoding.complete d.pending = []) :
      Produced R faults encoding data given spent (.error e, d)

omit [Source σ] in
theorem Produced.of_fetched {piece : Bytes} {r : Except Error Unit × Decoder σ}
    (h : Produced R faults encoding data (given ++ piece) spent r) :
    Produced R faults encoding data given spent r := by
  cases h with
  | ready hstands hready =>
    rw [List.append_assoc] at hstands
    exact .ready hstands hready
  | failed hstands hfault hready hended hpending =>
    rw [List.append_assoc] at hstands
    exact .failed hstands hfault hready hended hpending

theorem produce_produced (hR : Source.Delivery faults R) {d : Decoder σ}
    (h : d.Stands R encoding data given spent) (hready : d.ready = []) :
    Produced R faults encoding data given spent d.produce := by
  fun_induction produce d generalizing given spent with
  | case1 d hp he =>
    obtain ⟨rest, hdata, -, hended⟩ := h.inner
    have hdecode := h.decode [] fun _ => rfl
    rw [hready, hp, List.append_nil, List.append_nil, Encoding.decode_nil, List.append_nil,
      List.append_nil] at hdecode
    rw [← List.append_nil given] at h
    refine .ready h fun _ => ⟨he, ?_⟩
    rw [hdata, hended he, List.append_nil, hdecode]
  | case2 d hp he d' hr ih =>
    have hroom : d.pending.length < inputCapacity := by rw [hp]; decide
    obtain ⟨piece, hstands⟩ := (refill_stands hR h hroom (by simpa using he) hr).1 rfl
    exact (ih hstands ((refill_ready hr).trans hready)).of_fetched
  | case3 d hp he e d' hr =>
    have hroom : d.pending.length < inputCapacity := by rw [hp]; decide
    obtain ⟨hfault, hstands, hended, hpending, -⟩ :=
      (refill_stands hR h hroom (by simpa using he) hr).2 e rfl
    rw [← List.append_nil given, ← List.append_nil spent] at hstands
    refine .failed hstands hfault ((refill_ready hr).trans hready) hended ?_
    rw [hpending, hp, Encoding.complete_nil]
  | case4 d hp now c hc he d' hr hnil ih =>
    obtain ⟨hpaused, hpass⟩ := convertPending_stands h hready hp hc
    obtain ⟨piece, hstands⟩ := (refill_stands hR hpass (hpaused.length_lt he.1) he.2 hr).1 rfl
    rw [List.isEmpty_iff.mp hnil, List.append_nil] at hstands
    exact (ih hstands ((refill_ready hr).trans hready)).of_fetched
  | case5 d hp now c hc he d' hr hne =>
    obtain ⟨hpaused, hpass⟩ := convertPending_stands h hready hp hc
    obtain ⟨piece, hstands⟩ := (refill_stands hR hpass (hpaused.length_lt he.1) he.2 hr).1 rfl
    have hstands' := hstands.with_ready ((refill_ready hr).trans hready)
    exact .ready hstands' fun hnil => absurd (List.isEmpty_iff.mpr hnil) hne
  | case6 d hp now c hc he e d' hr =>
    obtain ⟨hpaused, hpass⟩ := convertPending_stands h hready hp hc
    obtain ⟨hfault, hstands, hended, hpending, hencoding⟩ :=
      (refill_stands hR hpass (hpaused.length_lt he.1) he.2 hr).2 e rfl
    rw [← List.append_nil given] at hstands
    refine .failed hstands hfault ((refill_ready hr).trans hready) hended ?_
    rw [hpending, hencoding]
    exact hpaused.complete_rest he.1
  | case7 d hp now c hc he hs ih =>
    obtain ⟨hpaused, hpass⟩ := convertPending_stands h hready hp hc
    rw [hpaused.rest_eq_nil hs.1, List.isEmpty_iff.mp hs.2, List.append_nil] at hpass
    exact ih hpass hready
  | case8 d hp now c hc he hs =>
    obtain ⟨hpaused, hpass⟩ := convertPending_stands h hready hp hc
    obtain ⟨hstands, hsome⟩ :=
      deliver_stands (d := { d with encoding := now }) hpass hready hpaused he hs
    rw [← List.append_nil given] at hstands
    exact .ready hstands fun hnil => absurd hnil hsome

/-! ## Reading -/

omit [Source σ] in
/-- What is taken from the text that is ready is spent. -/
theorem Stands.take {d : Decoder σ} (h : d.Stands R encoding data given spent) (n : Nat) :
    ({ d with ready := d.ready.drop n } : Decoder σ).Stands R encoding data given
      (spent ++ d.ready.take n) := by
  have hsplit : ∀ text, spent ++ (d.ready ++ text) =
      spent ++ d.ready.take n ++ (d.ready.drop n ++ text) := by
    intro text
    rw [List.append_assoc, ← List.append_assoc (d.ready.take n), List.take_append_drop]
  refine ⟨h.isOpen, h.inner, fun more he => ?_, fun he more => ?_⟩
  · rw [h.decode more he, hsplit]
  · rw [h.complete he, hsplit]

/-- What a read can come to. -/
inductive Given (R : σ → Bytes → Prop) (faults : Error → Prop) (encoding : Encoding)
    (data given spent : Bytes) : Except Error Bytes × Decoder σ → Prop where
  /-- The next of the text, and nothing only at its end. -/
  | piece {d : Decoder σ} {fetched piece : Bytes}
      (hstands : d.Stands R encoding data (given ++ fetched) (spent ++ piece))
      (hend : piece = [] → encoding.decode data = spent) :
      Given R faults encoding data given spent (.ok piece, d)
  /-- A failure of the source, with which a part of the text is lost: with it all characters are
  spent that have been taken as a whole. -/
  | failed {d : Decoder σ} {e : Error} {fetched lost : Bytes}
      (hstands : d.Stands R encoding data (given ++ fetched) (spent ++ lost)) (hfault : faults e)
      (hended : d.ended = false) (hlost : encoding.complete (given ++ fetched) = spent ++ lost) :
      Given R faults encoding data given spent (.error e, d)

theorem read_given (hR : Source.Delivery faults R) {d : Decoder σ}
    (h : d.Stands R encoding data given spent) {n : Nat} (hn : 0 < n) :
    Given R faults encoding data given spent (d.read n) := by
  have htake : ∀ {d' : Decoder σ} {fetched : Bytes},
      d'.Stands R encoding data (given ++ fetched) spent →
      (d'.ready = [] → encoding.decode data = spent) →
      Given R faults encoding data given spent
        (.ok (d'.ready.take n), { d' with ready := d'.ready.drop n }) := by
    intro d' fetched hstands hready
    refine .piece (hstands.take n) fun hnil => hready ?_
    exact (List.take_eq_nil_iff.mp hnil).resolve_left (by omega)
  rw [read, if_neg (by omega), h.isOpen, Bool.not_false, Bool.and_true]
  simp only [List.splitAt_eq]
  by_cases hready : d.ready = []
  · have hproduced := produce_produced hR h hready
    rw [hready, List.isEmpty_nil, if_pos rfl]
    generalize d.produce = r at hproduced ⊢
    cases hproduced with
    | ready hstands hready' => exact htake hstands fun hnil => (hready' hnil).2
    | @failed d' e piece lost hstands hfault hready' hended hpending =>
      refine .failed hstands hfault hended ?_
      have hcomplete := hstands.complete hended []
      rw [List.append_nil, List.append_nil, hready', hpending, List.append_nil, List.append_nil]
        at hcomplete
      exact hcomplete
  · rw [List.isEmpty_eq_false_iff.mpr hready, if_neg (by simp)]
    rw [← List.append_nil given] at h
    exact htake h fun hnil => absurd hnil hready

/-! ## Without failures -/

/-- The decoder is open and has `text` to hand out. -/
def Ahead (R : σ → Bytes → Prop) (d : Decoder σ) (text : Bytes) : Prop :=
  ∃ encoding data given spent, d.Stands R encoding data given spent ∧
    encoding.decode data = spent ++ text

omit [Source σ] in
/-- A fresh decoder has the decoding of the data ahead. -/
theorem ahead_of_inner {inner : σ} {data : Bytes} (h : R inner data) (encoding : Encoding) :
    ({ inner, encoding } : Decoder σ).Ahead R (encoding.decode data) :=
  ⟨encoding, data, [], [], stands_of_inner h encoding, rfl⟩

omit [Source σ] in
/-- What is spent is the beginning of the decoding. -/
theorem Stands.exists_decode {d : Decoder σ} (h : d.Stands R encoding data given spent) :
    ∃ text, encoding.decode data = spent ++ text := by
  obtain ⟨rest, hdata, -, hended⟩ := h.inner
  exact ⟨_, hdata ▸ h.decode rest hended⟩

/-- The reads of decoders respect what is ahead, if no read inside fails. -/
theorem delivery_ahead (hR : Source.Delivery (fun _ => False) R) :
    Source.Delivery (fun _ => False) (Ahead R : Decoder σ → Bytes → Prop) := by
  refine ⟨?_, ?_⟩
  · rintro d d' text piece n ⟨encoding, data, given, spent, h, htext⟩ hn hr
    have hgiven := read_given hR h hn
    have hr' : d.read n = (.ok piece, d') := hr
    rw [hr'] at hgiven
    cases hgiven with
    | piece hstands hend =>
      obtain ⟨rest, hrest⟩ := hstands.exists_decode
      have hsplit : text = piece ++ rest := by
        rw [htext, List.append_assoc] at hrest
        exact List.append_cancel_left hrest
      refine ⟨rest, hsplit, fun hnil => ?_, encoding, data, _, _, hstands, hrest⟩
      have hempty : text = [] := by
        rw [hend hnil] at htext
        exact List.append_right_eq_self.mp htext.symm
      rw [hempty] at hsplit
      exact (List.append_eq_nil_iff.mp hsplit.symm).2
  · rintro d d' text n e ⟨encoding, data, given, spent, h, htext⟩ hn hr
    have hgiven := read_given hR h hn
    have hr' : d.read n = (.error e, d') := hr
    rw [hr'] at hgiven
    cases hgiven with
    | failed _ hfault => exact absurd hfault id

/-- A decoder over a source that delivers some data delivers the decoding of the data. -/
theorem delivers {inner : σ} {data : Bytes} (h : Source.Delivers inner data)
    (encoding : Encoding) :
    Source.Delivers ({ inner, encoding } : Decoder σ) (encoding.decode data) :=
  ⟨Ahead Source.Delivers, delivery_ahead (Source.delivery_deliversBut _),
    ahead_of_inner h encoding⟩

theorem refill_keeps {Q : σ → Prop} (hQ : ∀ s n, Q s → Q (Source.read n s).2) {d d' : Decoder σ}
    {r : Except Error Unit} (h : Q d.inner) (hr : d.refill = (r, d')) : Q d'.inner := by
  have hread := hQ d.inner (inputCapacity - d.pending.length) h
  unfold refill at hr
  split at hr
  all_goals
    rename_i hsource
    rw [hsource] at hread
    rw [← (Prod.mk.inj hr).2]
    exact hread

theorem produce_keeps {Q : σ → Prop} (hQ : ∀ s n, Q s → Q (Source.read n s).2) {d : Decoder σ}
    (h : Q d.inner) : Q d.produce.2.inner := by
  fun_induction produce d with
  | case1 => exact h
  | case2 d hp he d' hr ih => exact ih (refill_keeps hQ h hr)
  | case3 d hp he e d' hr => exact refill_keeps hQ h hr
  | case4 d hp now c hc he d' hr hnil ih =>
    exact ih (refill_keeps (d := { d with encoding := now, pending := c.rest }) hQ h hr)
  | case5 d hp now c hc he d' hr =>
    show Q d'.inner
    exact refill_keeps (d := { d with encoding := now, pending := c.rest }) hQ h hr
  | case6 d hp now c hc he e d' hr =>
    exact refill_keeps (d := { d with encoding := now, pending := c.rest }) hQ h hr
  | case7 d hp now c hc he hs ih => exact ih h
  | case8 d hp now c hc he hs =>
    rw [deliver_inner]
    exact h

/-- What every read of the source inside keeps, every read of the decoder keeps. -/
theorem read_keeps {Q : σ → Prop} (hQ : ∀ s n, Q s → Q (Source.read n s).2) {d : Decoder σ}
    (h : Q d.inner) (n : Nat) : Q (d.read n).2.inner := by
  have hproduced := produce_keeps hQ h
  rw [read]
  split
  · exact h
  · dsimp only
    split
    · rcases hp : d.produce with ⟨e | u, d'⟩
      all_goals
        rw [hp] at hproduced
        exact hproduced
    · exact h

/-- A decoder closes as quietly as its source. -/
theorem closesQuietly {inner : σ} (h : Source.ClosesQuietly inner) (encoding : Encoding) :
    Source.ClosesQuietly ({ inner, encoding } : Decoder σ) := by
  refine ⟨fun d => Source.ClosesQuietly d.inner, h, fun d hd => ⟨hd.close_eq, fun n => ?_⟩⟩
  exact read_keeps (fun s n hs => hs.read n) hd n

/-- Whatever the pieces in which the source inside delivers its data and whatever the sizes that are
asked for, the reads of a decoder give the decoding of the data, piece by piece, and then nothing
for ever. -/
theorem reads_eq_decode {inner : σ} {data : Bytes} (h : Source.Delivers inner data)
    (encoding : Encoding) {sizes : Nat → Nat} (hpos : ∀ k, 0 < sizes k) :
    ∃ pieces : List Bytes, pieces.flatten = encoding.decode data ∧
      (∀ k, (hk : k < pieces.length) →
        Source.nthRead sizes ({ inner, encoding } : Decoder σ) k = .ok pieces[k] ∧
          pieces[k] ≠ []) ∧
      ∀ k, pieces.length ≤ k →
        Source.nthRead sizes ({ inner, encoding } : Decoder σ) k = .ok [] :=
  (delivers h encoding).reads hpos

/-- A character is cut by the end of a piece, a byte means nothing, and the end of the data cuts
another character. -/
theorem reads_eq_decode_byte_by_byte :
    let inner : Memory := { rest := [0x61, 0xe2, 0x82, 0xac, 0xff, 0xe2, 0x82], step := 1 }
    Source.Delivers inner inner.rest ∧
      ∃ pieces : List Bytes,
        pieces.flatten = [0x61, 0xe2, 0x82, 0xac, 0xef, 0xbf, 0xbd, 0xef, 0xbf, 0xbd] ∧
        ∀ k, (hk : k < pieces.length) →
          Source.nthRead (fun k => k + 1)
            ({ inner, encoding := .plain .utf8 } : Decoder Memory) k = .ok pieces[k] := by
  intro inner
  have h : Source.Delivers inner inner.rest := Memory.delivers (by decide) rfl rfl
  have hpos : ∀ k, 0 < k + 1 := Nat.succ_pos
  obtain ⟨pieces, hflat, hreads, -⟩ := reads_eq_decode h (.plain .utf8) hpos
  have hdecode : (Encoding.plain .utf8).decode inner.rest =
      [0x61, 0xe2, 0x82, 0xac, 0xef, 0xbf, 0xbd, 0xef, 0xbf, 0xbd] := by
    cbv
  exact ⟨h, pieces, hflat.trans hdecode, fun k hk => (hreads k hk).1⟩

end TextLines.Decoder

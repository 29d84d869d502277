import TextLines.Charset.Convert
import TextLines.Source.Basic

/-!
# Decoding sources

A `Decoder` reads a source in some encoding and hands the text out in UTF-8. Between the two it
keeps a little input that is not converted yet and the converted text that nobody has asked for.

Input is fetched only when there is none, or when what there is ends inside a character. Converted
text is produced only when all of the last has been handed out. If fetching fails in the middle of
a pass, what that pass had already converted is gone: the position in the input has moved on.

A closed decoder produces nothing any more, but still hands out what it had produced.
-/

namespace TextLines

open Charset (replacement)

/-- A source whose text is converted to UTF-8. -/
structure Decoder (σ : Type) where
  /-- The source of the encoded text. -/
  inner : σ
  /-- How the text is encoded; a character set once the start of the text has been seen. -/
  encoding : Encoding
  /-- Input that is not converted yet. -/
  pending : Bytes := []
  /-- Converted text that is not handed out yet. -/
  ready : Bytes := []
  /-- Whether the source inside has reported its end. -/
  ended : Bool := false
  /-- Whether the decoder has been closed. -/
  closed : Bool := false

namespace Decoder

/-- How much input is held at most. -/
def inputCapacity : Nat := 16384

/-- How much converted text is held at most. -/
def outputCapacity : Nat := 65536

variable {σ : Type} [Source σ]

/-- Puts a decoder in front of a source. -/
def ofSource (inner : σ) (name path : Bytes) : Except Error (Decoder σ) :=
  match Encoding.ofName? name with
  | some encoding => .ok { inner, encoding }
  | none => .error (.opening path (.unknownEncoding name))

/-- Fetches input behind what there is; what comes then is the end if there is none. -/
def refill (d : Decoder σ) : Except Error Unit × Decoder σ :=
  match Source.read (inputCapacity - d.pending.length) d.inner with
  | (.ok bytes, inner) =>
    (.ok (), { d with inner, pending := d.pending ++ bytes, ended := bytes.isEmpty })
  | (.error e, inner) => (.error e, { d with inner })

/-- Converted text with a replacement character behind it, if there is room for one. -/
def replaced (text : Bytes) : Option Bytes :=
  if text.length + replacement.length ≤ outputCapacity then some (text ++ replacement) else none

/-- Converts what is pending. Without a settled character set all of it is incomplete. -/
def convertPending (d : Decoder σ) : Encoding × Charset.Conversion :=
  match d.encoding.settle d.pending with
  | some (charset, text) => (.plain charset, charset.convert outputCapacity text)
  | none => (d.encoding, ⟨[], d.pending, .incomplete⟩)

theorem refill_ok {d d' : Decoder σ} (h : d.refill = (.ok (), d')) :
    d'.pending.length + Source.left d'.inner ≤ d.pending.length + Source.left d.inner ∧
      (Source.left d'.inner < Source.left d.inner ∨
        Source.left d'.inner ≤ Source.left d.inner ∧ d'.ended = true) := by
  unfold refill at h
  split at h
  · rename_i bytes inner hr
    simp only [Prod.mk.injEq, true_and] at h
    subst h
    have hl := Source.read_left hr
    cases bytes with
    | nil => simp at hl ⊢; omega
    | cons b bytes => simp at hl ⊢; omega
  · simp at h

theorem refill_ready {d d' : Decoder σ} {r : Except Error Unit} (h : d.refill = (r, d')) :
    d'.ready = d.ready := by
  unfold refill at h
  split at h <;> simp only [Prod.mk.injEq] at h <;> simp [← h.2]

/-- After fetching, less is left in the source, or its end is known. -/
theorem measure_refill {d d' : Decoder σ} (n : Nat)
    (h : d.refill = (.ok (), d')) (he : d.ended = false) :
    Prod.Lex (· < ·) (Prod.Lex (· < ·) (· < ·))
      (Source.left d'.inner, (!d'.ended).toNat, d'.pending.length)
      (Source.left d.inner, (!d.ended).toNat, n) := by
  obtain ⟨_, hl | ⟨hl, hd⟩⟩ := refill_ok h
  · exact Prod.Lex.left _ _ hl
  · rcases Nat.lt_or_eq_of_le hl with hlt | heq
    · exact Prod.Lex.left _ _ hlt
    · rw [heq, hd, he]
      exact Prod.Lex.right _ (Prod.Lex.left _ _ (by decide))

/-- The decoder after a pass that has nothing to wait for: what stopped the pass is replaced. -/
def deliver (d : Decoder σ) (c : Charset.Conversion) : Decoder σ :=
  match c.stop, replaced c.text with
  | .malformed, some ready => { d with pending := c.rest.tail, ready }
  | .incomplete, some ready => { d with pending := [], ready }
  | _, _ => { d with pending := c.rest, ready := c.text }

/-- Produces text until there is some or everything has been delivered. -/
def produce (d : Decoder σ) : Except Error Unit × Decoder σ :=
  if _hp : d.pending = [] then
    if _he : d.ended then (.ok (), d)
    else
      match _hr : d.refill with
      | (.ok (), d') => produce d'
      | (.error e, d') => (.error e, d')
  else
    let (encoding, c) := d.convertPending
    if _he : c.stop = .incomplete ∧ d.ended = false then
      match _hr : refill { d with encoding, pending := c.rest } with
      | (.ok (), d') => if c.text.isEmpty then produce d' else (.ok (), { d' with ready := c.text })
      | (.error e, d') => (.error e, d')
    else if c.stop = .exhausted ∧ c.text.isEmpty then produce { d with encoding, pending := [] }
    else (.ok (), { d with encoding }.deliver c)
termination_by (Source.left d.inner, (!d.ended).toNat, d.pending.length)
decreasing_by
  · exact measure_refill _ _hr (by simpa using _he)
  · exact (measure_refill d.pending.length _hr _he.2 :)
  · exact Prod.Lex.right _ (Prod.Lex.right _ (by simpa using List.length_pos_iff.mpr _hp))

/-! ## Decoders are sources -/

/-- A bound on the text still to come: six bytes for each byte of input. -/
def left (d : Decoder σ) : Nat :=
  d.ready.length + 6 * (d.pending.length + Source.left d.inner)

/-- Hands out converted text, after producing some if there is none. -/
def read (n : Nat) (d : Decoder σ) : Except Error Bytes × Decoder σ :=
  if n = 0 then (.ok [], d)
  else
    let deliver (d : Decoder σ) : Except Error Bytes × Decoder σ :=
      let (piece, ready) := d.ready.splitAt n
      (.ok piece, { d with ready })
    if d.ready.isEmpty && !d.closed then
      match d.produce with
      | (.ok (), d') => deliver d'
      | (.error e, d') => (.error e, d')
    else deliver d

/-- Closes the source inside. -/
def close (d : Decoder σ) : Option Error × Decoder σ :=
  let (e, inner) := Source.close d.inner
  (e, { d with inner, closed := true })

omit [Source σ] in
theorem convertPending_length {d : Decoder σ} {encoding : Encoding} {c : Charset.Conversion}
    (h : d.convertPending = (encoding, c)) :
    c.text.length + 6 * c.rest.length ≤ 6 * d.pending.length ∧
      (d.pending ≠ [] → c.stop ≠ .exhausted → c.rest ≠ []) := by
  unfold convertPending at h
  split at h
  · rename_i charset text hs
    simp only [Prod.mk.injEq] at h
    have hl := Encoding.settle_length hs
    have hc := Charset.convert_length charset outputCapacity text
    rw [← h.2]
    exact ⟨by omega, fun _ hn => Charset.convert_rest_ne_nil charset outputCapacity text hn⟩
  · simp only [Prod.mk.injEq] at h
    rw [← h.2]
    exact ⟨by simp, fun hp _ => hp⟩

theorem replaced_length {text ready : Bytes} (h : replaced text = some ready) :
    ready.length = text.length + 3 := by
  unfold replaced at h
  split at h
  · simp only [Option.some.injEq] at h
    simp [← h, Charset.length_replacement]
  · simp at h

omit [Source σ] in
theorem deliver_length (d : Decoder σ) (c : Charset.Conversion)
    (h : c.stop ≠ .exhausted → c.rest ≠ []) :
    (d.deliver c).ready.length + 6 * (d.deliver c).pending.length ≤
      c.text.length + 6 * c.rest.length := by
  have hpos : c.stop ≠ .exhausted → 0 < c.rest.length := fun hs => List.length_pos_iff.mpr (h hs)
  unfold deliver
  split
  · rename_i hs hr
    have := replaced_length hr
    have := hpos (by simp [hs])
    simp only [List.length_tail]
    omega
  · rename_i hs hr
    have := replaced_length hr
    have := hpos (by simp [hs])
    simp only [List.length_nil]
    omega
  · simp

omit [Source σ] in
theorem deliver_inner (d : Decoder σ) (c : Charset.Conversion) :
    (d.deliver c).inner = d.inner := by
  unfold deliver
  split <;> rfl

/-- Producing text takes it from what was left. -/
theorem produce_left {d d' : Decoder σ} (h : d.produce = (.ok (), d')) :
    d'.left ≤ d.left := by
  fun_induction produce d with
  | case1 d =>
    simp only [Prod.mk.injEq, true_and] at h
    exact Nat.le_of_eq (by rw [h])
  | case2 d hp he d'' hr ih =>
    have hd := (refill_ok hr).1
    have hy : d''.ready = d.ready := refill_ready hr
    refine Nat.le_trans (ih h) ?_
    simp only [left, hy]
    omega
  | case3 => simp at h
  | case4 d hp encoding c hc he d'' hr htext ih =>
    have hd := (refill_ok hr).1
    have hy := refill_ready hr
    have hl := (convertPending_length hc).1
    refine Nat.le_trans (ih h) ?_
    simp only [left, hy] at hd ⊢
    omega
  | case5 d hp encoding c hc he d'' hr =>
    have hd := (refill_ok hr).1
    have hl := (convertPending_length hc).1
    simp only [Prod.mk.injEq, true_and] at h
    simp only [← h, left] at hd ⊢
    omega
  | case6 => simp at h
  | case7 d hp encoding c hc he hs ih =>
    refine Nat.le_trans (ih h) ?_
    simp only [left, List.length_nil]
    omega
  | case8 d hp encoding c hc he hs =>
    have hl := convertPending_length hc
    have hd := deliver_length { d with encoding } c (hl.2 hp)
    simp only [Prod.mk.injEq, true_and] at h
    simp only [← h, left, deliver_inner]
    omega

theorem read_length {n : Nat} {d d' : Decoder σ} {bs : Bytes} (h : d.read n = (.ok bs, d')) :
    bs.length ≤ n := by
  unfold read at h
  split at h
  · simp only [Prod.mk.injEq, Except.ok.injEq] at h
    simp [← h.1]
  · split at h
    · split at h
      · simp only [List.splitAt_eq, Prod.mk.injEq, Except.ok.injEq] at h
        rw [← h.1, List.length_take]
        exact Nat.min_le_left _ _
      · simp at h
    · simp only [List.splitAt_eq, Prod.mk.injEq, Except.ok.injEq] at h
      rw [← h.1, List.length_take]
      exact Nat.min_le_left _ _

theorem read_left {n : Nat} {d d' : Decoder σ} {bs : Bytes} (h : d.read n = (.ok bs, d')) :
    bs.length + d'.left ≤ d.left := by
  unfold read at h
  split at h
  · simp only [Prod.mk.injEq, Except.ok.injEq] at h
    simp [← h.1, ← h.2]
  · split at h
    · split at h
      · rename_i d'' hd
        have := produce_left hd
        simp only [List.splitAt_eq, Prod.mk.injEq, Except.ok.injEq] at h
        simp only [← h.1, ← h.2, left, List.length_take, List.length_drop] at this ⊢
        omega
      · simp at h
    · simp only [List.splitAt_eq, Prod.mk.injEq, Except.ok.injEq] at h
      simp only [← h.1, ← h.2, left, List.length_take, List.length_drop]
      omega

instance : Source (Decoder σ) where
  read := read
  close := close
  bytesRead d := Source.bytesRead d.inner
  left := left
  read_length := read_length
  read_left := read_left

end Decoder

end TextLines

import TextLines.Proofs.Charset.Decoding
import TextLines.Proofs.Gzip.Streaming
import TextLines.Proofs.Source.Breaking
import TextLines.Source.File

/-!
# What has been consumed of a file at its end

A source counts the bytes that it has taken from the file underneath, which are not those that it
has handed out. `Source.Consumes P s` says that `P` holds of that number when the source reports its
end, whatever sizes it has been asked for by then and whether or not reads have failed before.

A plain file has been consumed as a whole (`FileSource.consumes`). A gzip file has been consumed up
to some of what stands behind its last member (`GzipSource.consumes`). A decoder does not report its
end before the source inside has, and so it has consumed the same (`Decoder.consumes`).
-/

namespace TextLines

namespace Source

variable {σ τ : Type} [Source σ] [Source τ] {P : Nat → Prop}

/-- `P` holds of the number of the bytes that have been consumed when the source reports its end. -/
def Consumes (P : Nat → Prop) (s : σ) : Prop :=
  ∃ Q : σ → Prop, Q s ∧ ∀ t n, Q t → Q (read n t).2 ∧
    (0 < n → (read n t).1 = .ok [] → P (bytesRead (read n t).2))

theorem Consumes.read {s : σ} (h : Consumes P s) (n : Nat) : Consumes P (read n s).2 := by
  obtain ⟨Q, hs, hQ⟩ := h
  exact ⟨Q, (hQ s n hs).1, hQ⟩

theorem Consumes.at_end {s : σ} (h : Consumes P s) {n : Nat} (hn : 0 < n)
    (hend : (Source.read n s).1 = .ok []) : P (bytesRead (Source.read n s).2) := by
  obtain ⟨Q, hs, hQ⟩ := h
  exact (hQ s n hs).2 hn hend

theorem Consumes.mono {P' : Nat → Prop} {s : σ} (h : Consumes P s)
    (himp : ∀ taken, P taken → P' taken) : Consumes P' s := by
  obtain ⟨Q, hs, hQ⟩ := h
  exact ⟨Q, hs, fun t n ht => ⟨(hQ t n ht).1, fun hn hend => himp _ ((hQ t n ht).2 hn hend)⟩⟩

theorem Embeds.consumes {f : σ → τ} (hf : Embeds f) (hbytes : ∀ s, bytesRead (f s) = bytesRead s)
    {s : σ} (h : Consumes P s) : Consumes P (f s) := by
  refine ⟨fun t => ∃ s, t = f s ∧ Consumes P s, ⟨s, rfl, h⟩, ?_⟩
  rintro _ n ⟨s, rfl, hs⟩
  rw [hf.read, hbytes]
  exact ⟨⟨_, rfl, hs.read n⟩, fun hn hend => hs.at_end hn hend⟩

end Source

/-! ## Files -/

namespace FileSource

/-- What has been read of an open file and what is left of it are the file. -/
theorem read_sum {s : FileSource} (hopen : s.isOpen = true) (n : Nat) :
    (s.read n).2.isOpen = true ∧ (s.read n).2.served + (s.read n).2.left = s.served + s.left := by
  rw [read, hopen, Bool.true_and]
  split
  · cases hrest : s.rest with
    | content bytes =>
      refine ⟨rfl, ?_⟩
      simp only [List.splitAt_eq, left, hrest, List.length_take, List.length_drop]
      omega
    | zeros count =>
      refine ⟨rfl, ?_⟩
      simp only [left, hrest]
      omega
    | unreadable errno => exact ⟨hopen, rfl⟩
  · exact ⟨hopen, rfl⟩

/-- A read gives nothing only if nothing is left. -/
theorem left_of_read_nil {s : FileSource} (hopen : s.isOpen = true) {n : Nat} (hn : 0 < n)
    (hend : (s.read n).1 = .ok []) : (s.read n).2.left = 0 := by
  have hask : (s.isOpen && n != 0) = true := by
    rw [hopen, Bool.true_and, bne_iff_ne]
    omega
  rw [read, if_pos hask] at hend ⊢
  cases hrest : s.rest with
  | content bytes =>
    rw [hrest] at hend
    simp only [List.splitAt_eq] at hend
    have hbytes := (List.take_eq_nil_iff.mp (Except.ok.inj hend)).resolve_left (Nat.ne_of_gt hn)
    simp only [List.splitAt_eq, left, hbytes, List.drop_nil, List.length_nil]
  | zeros count =>
    rw [hrest] at hend
    have hsize : min n count = 0 := (List.replicate_eq_nil_iff 0).mp (Except.ok.inj hend)
    simp only [left]
    omega
  | unreadable errno =>
    rw [hrest] at hend
    cases hend

/-- When a plain file reports its end all of it has been consumed. -/
theorem consumes (path : Bytes) (rest : Files.Opened) :
    Source.Consumes (· = ({ path, rest } : FileSource).left) ({ path, rest } : FileSource) := by
  refine ⟨fun s => s.isOpen = true ∧ s.served + s.left = ({ path, rest } : FileSource).left,
    ⟨rfl, Nat.zero_add _⟩, ?_⟩
  rintro s n ⟨hopen, hsum⟩
  obtain ⟨hopen', hsum'⟩ := read_sum hopen n
  refine ⟨⟨hopen', hsum'.trans hsum⟩, fun hn hend => ?_⟩
  have hleft := left_of_read_nil hopen hn hend
  rw [hleft, hsum] at hsum'
  exact hsum'

end FileSource

namespace GzipSource

/-- When a gzip file reports its end it has been consumed up to some of what stands behind its last
member. -/
theorem consumes {fs : Files.FileSystem} {path content : Bytes} {s : GzipSource}
    (hs : ofPath fs path = .ok s) (hfile : fs.openFile path = .ok (.content content)) :
    Source.Consumes (fun taken => ∀ text behind,
      Gzip.Unpacks {} (.ofBytes content) text (.complete behind) →
        ∃ unread, unread <:+ behind ∧ taken + unread.length = content.length) s := by
  refine ⟨fun s => ∀ text behind, Gzip.Unpacks {} (.ofBytes content) text (.complete behind) →
    s.served + s.rest.length = content.length ∧ ∃ left, s.Owes left (.complete behind), ?_, ?_⟩
  · intro text behind h
    obtain ⟨howes, -, hsum⟩ := owes_of_ofPath hs hfile h
    exact ⟨hsum, text, howes⟩
  · intro s n h
    have hsum := (s.read_file n).2
    refine ⟨fun text behind hunpacks => ?_, fun hn hend text behind hunpacks => ?_⟩
    · obtain ⟨hfile, left, howes⟩ := h text behind hunpacks
      refine ⟨hsum.trans hfile, ?_⟩
      rcases Nat.eq_zero_or_pos n with rfl | hn
      · have hread : (Source.read 0 s).2 = s := by
          simp [Source.read, read]
        rw [hread]
        exact ⟨left, howes⟩
      · exact ⟨_, (read_of_complete howes hn).2.1⟩
    · obtain ⟨hfile, left, howes⟩ := h text behind hunpacks
      exact ⟨_, rest_of_read_nil howes hn hend, hsum.trans hfile⟩

end GzipSource

/-! ## Decoders -/

namespace Decoder

open Charset (replacement)

variable {σ : Type} [Source σ] {P : Nat → Prop}

omit [Source σ] in
/-- A pass that has nothing to wait for hands out something, unless there was nothing. -/
theorem deliver_ready {d : Decoder σ} {c : Charset.Conversion} (hpaused : Paused d.encoding c)
    (hsome : ¬ (c.stop = .exhausted ∧ c.text.isEmpty = true)) : (d.deliver c).ready ≠ [] := by
  have hreplacement : replacement ≠ [] := by simp [replacement, Charset.encodeUtf8]
  cases hpaused with
  | exhausted => exact fun hnil => hsome ⟨rfl, List.isEmpty_iff.mpr hnil⟩
  | full hfull => exact hfull
  | @malformed text | @incomplete text =>
    unfold deliver
    rcases hr : replaced text with _ | ready
    · exact ne_nil_of_replaced hr
    · obtain rfl := replaced_of_some hr
      simp [hreplacement]

/-- Producing comes to nothing only if the source inside has reported its end. -/
theorem produce_ended {d d' : Decoder σ} (hready : d.ready = []) (h : d.produce = (.ok (), d'))
    (hnone : d'.ready = []) : d'.ended = true := by
  fun_induction produce d with
  | case1 d hp he =>
    rw [← (Prod.mk.inj h).2]
    exact he
  | case2 d hp he d'' hr ih => exact ih ((refill_ready hr).trans hready) h
  | case3 d hp he e d'' hr => cases (Prod.mk.inj h).1
  | case4 d hp now c hc he d'' hr htext ih => exact ih ((refill_ready hr).trans hready) h
  | case5 d hp now c hc he d'' hr htext =>
    obtain ⟨-, rfl⟩ := Prod.mk.inj h
    exact absurd (List.isEmpty_iff.mpr hnone) htext
  | case6 d hp now c hc he e d'' hr => cases (Prod.mk.inj h).1
  | case7 d hp now c hc he hs ih => exact ih hready h
  | case8 d hp now c hc he hs =>
    have hpaused := convertPending_paused hp
    rw [hc] at hpaused
    obtain ⟨-, rfl⟩ := Prod.mk.inj h
    exact absurd hnone (deliver_ready (d := { d with encoding := now }) hpaused hs)

/-- The decoder is open, and `P` holds of what has been consumed if the source inside has reported
its end. -/
structure Spends (P : Nat → Prop) (d : Decoder σ) : Prop where
  isOpen : d.closed = false
  inner : Source.Consumes P d.inner
  ended : d.ended = true → P (Source.bytesRead d.inner)

theorem Spends.refill {d d' : Decoder σ} {r : Except Error Unit} (h : d.Spends P)
    (hroom : d.pending.length < inputCapacity) (hended : d.ended = false)
    (hr : d.refill = (r, d')) : d'.Spends P := by
  have hinner := h.inner.read (inputCapacity - d.pending.length)
  have hend := h.inner.at_end (Nat.sub_pos_of_lt hroom)
  unfold Decoder.refill at hr
  rcases hread : Source.read (inputCapacity - d.pending.length) d.inner with ⟨e | bytes, inner⟩
  · rw [hread] at hr hinner
    obtain ⟨-, rfl⟩ := Prod.mk.inj hr
    refine ⟨h.isOpen, hinner, fun he => ?_⟩
    cases hended.symm.trans he
  · rw [hread] at hr hinner hend
    obtain ⟨-, rfl⟩ := Prod.mk.inj hr
    refine ⟨h.isOpen, hinner, fun he => hend ?_⟩
    rw [List.isEmpty_iff.mp he]

omit [Source σ] in
/-- There is room for input behind a character that has been cut. -/
theorem length_of_incomplete {d : Decoder σ} {now : Encoding} {c : Charset.Conversion}
    (hp : d.pending ≠ []) (hc : d.convertPending = (now, c)) (hstop : c.stop = .incomplete) :
    c.rest.length < inputCapacity := by
  have hpaused := convertPending_paused hp
  rw [hc] at hpaused
  exact hpaused.length_lt hstop

theorem Spends.produce {d : Decoder σ} (h : d.Spends P) : d.produce.2.Spends P := by
  fun_induction Decoder.produce d with
  | case1 => exact h
  | case2 d hp he d' hr ih => exact ih (h.refill (by rw [hp]; decide) (by simpa using he) hr)
  | case3 d hp he e d' hr => exact h.refill (by rw [hp]; decide) (by simpa using he) hr
  | case4 d hp now c hc he d' hr htext ih =>
    have hpass : ({ d with encoding := now, pending := c.rest } : Decoder σ).Spends P :=
      ⟨h.isOpen, h.inner, h.ended⟩
    exact ih (hpass.refill (length_of_incomplete hp hc he.1) he.2 hr)
  | case5 d hp now c hc he d' hr htext =>
    have hpass : ({ d with encoding := now, pending := c.rest } : Decoder σ).Spends P :=
      ⟨h.isOpen, h.inner, h.ended⟩
    have hspends := hpass.refill (length_of_incomplete hp hc he.1) he.2 hr
    exact ⟨hspends.isOpen, hspends.inner, hspends.ended⟩
  | case6 d hp now c hc he e d' hr =>
    have hpass : ({ d with encoding := now, pending := c.rest } : Decoder σ).Spends P :=
      ⟨h.isOpen, h.inner, h.ended⟩
    exact hpass.refill (length_of_incomplete hp hc he.1) he.2 hr
  | case7 d hp now c hc he hs ih => exact ih ⟨h.isOpen, h.inner, h.ended⟩
  | case8 d hp now c hc he hs =>
    show (({ d with encoding := now } : Decoder σ).deliver c).Spends P
    unfold deliver
    split <;> exact ⟨h.isOpen, h.inner, h.ended⟩

/-- A read keeps this, and it gives nothing only behind the end of the source inside. -/
theorem Spends.read {d : Decoder σ} (h : d.Spends P) (n : Nat) :
    (d.read n).2.Spends P ∧
      (0 < n → (d.read n).1 = .ok [] → P (Source.bytesRead (d.read n).2.inner)) := by
  rw [Decoder.read]
  split
  · exact ⟨h, fun hn => absurd hn (by omega)⟩
  · rename_i hn
    have hnil : ∀ {text : Bytes}, Except.ok (ε := Error) (text.take n) = .ok [] → text = [] :=
      fun hpiece => (List.take_eq_nil_iff.mp (Except.ok.inj hpiece)).resolve_left hn
    simp only [h.isOpen, Bool.not_false, Bool.and_true, List.splitAt_eq]
    by_cases hready : d.ready = []
    · have hspends := h.produce
      rw [hready, List.isEmpty_nil, if_pos rfl]
      rcases hproduce : d.produce with ⟨e | u, d'⟩
      · rw [hproduce] at hspends
        exact ⟨hspends, fun _ hpiece => by cases hpiece⟩
      · rw [hproduce] at hspends
        refine ⟨⟨hspends.isOpen, hspends.inner, hspends.ended⟩, fun _ hpiece => ?_⟩
        exact hspends.ended (produce_ended hready hproduce (hnil hpiece))
    · rw [List.isEmpty_eq_false_iff.mpr hready, if_neg (by simp)]
      refine ⟨⟨rfl, h.inner, h.ended⟩, fun _ hpiece => ?_⟩
      exact absurd (hnil hpiece) hready

/-- When a decoder reports its end the source inside has reported its own. -/
theorem consumes {inner : σ} (h : Source.Consumes P inner) (encoding : Encoding) :
    Source.Consumes P ({ inner, encoding } : Decoder σ) :=
  ⟨Spends P, ⟨rfl, h, fun he => by cases he⟩, fun _ n hd => hd.read n⟩

end Decoder

end TextLines

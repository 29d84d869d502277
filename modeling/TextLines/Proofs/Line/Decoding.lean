import Mathlib.Data.List.Forall2
import TextLines.Proofs.Charset.Accepting
import TextLines.Proofs.Line.Cut

/-!
# The lines of a decoded text

In a character set whose units are single bytes (`Charset.Narrow`) a byte that ends a line stands
for itself, and it is a part of no other character: not even a malformed or unfinished character in
front of it reaches across it. So the terminators of a text are those of its decoding
(`Charset.Narrow.filter_decode`), and the lines of the decoding are the lines of the text, each
decoded by itself (`Charset.Narrow.cut_decode`).

There is one difference between a line of a text and a text of its own. Where a text ends inside a
character what is left of the character is replaced as a whole, but where a line does so its
terminator shows that the character is malformed. `Charset.Whole` excludes this.
-/

namespace TextLines

open Bytes
open Line (isTerminator Unterminated)

namespace Line

/-- A text without a terminator, or the part in front of its first. -/
theorem unterminated_or_exists (text : Bytes) :
    Unterminated text ∨ ∃ piece t rest, text = piece ++ t :: rest ∧ Unterminated piece ∧
      isTerminator t = true := by
  induction text with
  | nil => exact .inl (List.forall_mem_nil _)
  | cons b text ih =>
    cases hb : isTerminator b with
    | true => exact .inr ⟨[], b, text, rfl, List.forall_mem_nil _, hb⟩
    | false =>
      rcases ih with h | ⟨piece, t, rest, rfl, hpiece, ht⟩
      · exact .inl (List.forall_mem_cons.mpr ⟨hb, h⟩)
      · exact .inr ⟨b :: piece, t, rest, rfl, List.forall_mem_cons.mpr ⟨hb, hpiece⟩, ht⟩

theorem unterminated_iff {text : Bytes} : Unterminated text ↔ text.filter isTerminator = [] := by
  rw [List.filter_eq_nil_iff]
  exact forall₂_congr fun b _ => Bool.eq_false_iff

theorem length_dropLf_le (afterCr : Bool) (text : Bytes) :
    (dropLf afterCr text).length ≤ text.length := by
  unfold dropLf
  split
  · exact Nat.le_succ _
  · exact Nat.le_refl _

theorem eq_of_isTerminator {b : UInt8} (h : isTerminator b = true) : b = lf ∨ b = cr := by
  rwa [isTerminator, Bool.or_eq_true, beq_iff_eq, beq_iff_eq] at h

/-- A byte beyond ASCII ends no line. -/
theorem isTerminator_of_le {b : UInt8} (h : 0x80 ≤ b) : isTerminator b = false := by
  rw [Bool.eq_false_iff]
  intro ht
  rcases eq_of_isTerminator ht with rfl | rfl
  · exact absurd h (by decide)
  · exact absurd h (by decide)

end Line

namespace Charset

variable {charset : Charset} {b t : UInt8} {rest : Bytes} {code extra : Nat}

theorem isTerminator_of_isContinuation {c : UInt8} (h : isContinuation c = true) :
    isTerminator c = false := by
  rw [isContinuation, Bool.and_eq_true, decide_eq_true_eq] at h
  exact Line.isTerminator_of_le h.1

/-- What is written for a number ends no line, unless the number does. -/
theorem unterminated_encodeUtf8 (hcode : Writable code)
    (hsmall : code < 0x80 → isTerminator (UInt8.ofNat code) = false) :
    Unterminated (encodeUtf8 code) := by
  rcases encodeUtf8_cases hcode.1 with ⟨hlt, hbytes⟩ | ⟨lead, extra, hlead, -, -, hbytes⟩
  · rw [hbytes]
    exact List.forall_mem_singleton.mpr (hsmall hlt)
  · rw [hbytes]
    exact List.forall_mem_cons.mpr ⟨Line.isTerminator_of_le hlead,
      fun c hc => isTerminator_of_isContinuation (isContinuation_of_mem hc)⟩

theorem unterminated_replacement : Unterminated replacement :=
  unterminated_encodeUtf8 writable_replacement fun h => absurd h (by decide)

/-! ## Character sets of single bytes -/

/-- The units of the character set are single bytes. -/
inductive Narrow : Charset → Prop where
  | utf8 : Narrow .utf8
  | ascii : Narrow .ascii
  | oneByte (table : Table) : Narrow (.oneByte table)

theorem Table.codePoint?_terminator (table : Table) (ht : isTerminator t = true) :
    table.codePoint? t = some t.toNat := by
  rcases Line.eq_of_isTerminator ht with rfl | rfl <;> cases table <;> rfl

namespace Narrow

/-- A byte that ends a line stands for itself. -/
theorem first_terminator (h : charset.Narrow) (ht : isTerminator t = true) (rest : Bytes) :
    charset.first t rest = .character t.toNat 0 := by
  cases h with
  | utf8 => rcases Line.eq_of_isTerminator ht with rfl | rfl <;> rfl
  | ascii => rcases Line.eq_of_isTerminator ht with rfl | rfl <;> rfl
  | oneByte table => rw [first, table.codePoint?_terminator ht]

/-- A character of ASCII stands for itself, if it stands for a character of ASCII. -/
theorem code_eq (h : charset.Narrow) (hfirst : charset.first b rest = .character code extra)
    (hsmall : code < 0x80) : code = b.toNat := by
  cases h with
  | utf8 =>
    cases frontUtf8_of_first hfirst with
    | ascii => rfl
    | @long payload trail behind hrest hlead htrail hleast hhalf =>
      have hge : 0x80 ≤ utf8Least trail.length := by
        unfold utf8Least
        split <;> omega
      omega
  | ascii =>
    rw [first] at hfirst
    split at hfirst
    · exact (First.character.inj hfirst).1.symm
    · cases hfirst
  | oneByte table =>
    rw [first] at hfirst
    split at hfirst
    · rename_i hcode
      obtain ⟨rfl, -⟩ := First.character.inj hfirst
      exact (Table.codePoint?_eq_some hcode).2 hsmall
    · cases hfirst

/-- No byte of a character ends a line but the first. -/
theorem unterminated_take (h : charset.Narrow)
    (hfirst : charset.first b rest = .character code extra) : Unterminated (rest.take extra) := by
  cases h with
  | utf8 =>
    cases frontUtf8_of_first hfirst with
    | ascii => exact List.forall_mem_nil _
    | @long payload trail behind hrest hlead htrail =>
      rw [hrest, List.take_left]
      exact fun c hc => isTerminator_of_isContinuation (htrail c hc)
  | ascii =>
    rw [first] at hfirst
    split at hfirst
    · obtain ⟨-, rfl⟩ := First.character.inj hfirst
      exact List.forall_mem_nil _
    · cases hfirst
  | oneByte table =>
    rw [first] at hfirst
    split at hfirst
    · obtain ⟨-, rfl⟩ := First.character.inj hfirst
      exact List.forall_mem_nil _
    · cases hfirst

/-- Only in UTF-8 can a character be unfinished, and then the rest does not end a line. -/
theorem of_incomplete (h : charset.Narrow) (hfirst : charset.first b rest = .incomplete) :
    charset = .utf8 ∧ Unterminated rest := by
  cases h with
  | utf8 =>
    cases frontUtf8_of_first hfirst with
    | incomplete hb hrest =>
      exact ⟨rfl, fun c hc => isTerminator_of_isContinuation (hrest c hc)⟩
  | ascii =>
    rw [first] at hfirst
    split at hfirst <;> cases hfirst
  | oneByte table =>
    rw [first] at hfirst
    split at hfirst <;> cases hfirst

/-- What is written for a character ends no line if its first byte does not. -/
theorem unterminated_encodeUtf8 (h : charset.Narrow) (hb : isTerminator b = false)
    (hfirst : charset.first b rest = .character code extra) : Unterminated (encodeUtf8 code) := by
  refine Charset.unterminated_encodeUtf8 (writable_of_first hfirst) fun hsmall => ?_
  rwa [h.code_eq hfirst hsmall, UInt8.ofNat_toNat]

theorem encodeUtf8_terminator (ht : isTerminator t = true) : encodeUtf8 t.toNat = [t] := by
  rcases Line.eq_of_isTerminator ht with rfl | rfl <;> rfl

/-- The decoding of a text whose first byte ends a line. -/
theorem decode_terminator (h : charset.Narrow) (ht : isTerminator t = true) (rest : Bytes) :
    charset.decode (t :: rest) = t :: charset.decode rest := by
  rw [decode_character (h.first_terminator ht rest), encodeUtf8_terminator ht, List.drop_zero,
    List.singleton_append]

/-! ## Terminators -/

/-- The bytes that end lines in a text are those that end lines in its decoding. -/
theorem filter_decode (h : charset.Narrow) (text : Bytes) :
    (charset.decode text).filter isTerminator = text.filter isTerminator := by
  have hnone : replacement.filter isTerminator = [] :=
    Line.unterminated_iff.mp unterminated_replacement
  have hnot : ∀ {b rest}, charset.first b rest = .malformed ∨ charset.first b rest = .incomplete →
      isTerminator b = false := by
    rintro b rest hfirst
    rw [Bool.eq_false_iff]
    intro ht
    rw [h.first_terminator ht] at hfirst
    rcases hfirst with hfirst | hfirst <;> cases hfirst
  fun_induction decode charset text with
  | case1 => rfl
  | case2 b rest code extra hfirst ih =>
    cases hb : isTerminator b with
    | true =>
      obtain ⟨rfl, rfl⟩ := First.character.inj (hfirst.symm.trans (h.first_terminator hb rest))
      rw [encodeUtf8_terminator hb, List.filter_append, ih, List.filter_singleton,
        List.filter_cons, hb]
      rfl
    | false =>
      have htake := Line.unterminated_iff.mp (h.unterminated_take hfirst)
      have hcode := Line.unterminated_iff.mp (h.unterminated_encodeUtf8 hb hfirst)
      rw [List.filter_append, hcode, ih, List.filter_cons, hb, List.nil_append]
      conv_rhs => rw [← List.take_append_drop extra rest, List.filter_append, htake]
      rfl
  | case3 b rest hfirst ih =>
    rw [List.filter_append, hnone, ih, List.filter_cons, hnot (.inl hfirst), List.nil_append]
    rfl
  | case4 b rest hfirst =>
    rw [hnone, List.filter_cons, hnot (.inr hfirst),
      Line.unterminated_iff.mp (h.of_incomplete hfirst).2]
    rfl

end Narrow

/-! ## Lines -/

/-- The text does not end inside a character. -/
inductive Whole (charset : Charset) : Bytes → Prop where
  | nil : Whole charset []
  | character {b : UInt8} {rest : Bytes} {code extra : Nat}
      (hfirst : charset.first b rest = .character code extra)
      (hrest : Whole charset (rest.drop extra)) : Whole charset (b :: rest)
  | malformed {b : UInt8} {rest : Bytes} (hfirst : charset.first b rest = .malformed)
      (hrest : Whole charset rest) : Whole charset (b :: rest)

theorem Accepts.whole {text : Bytes} (h : charset.Accepts text) : charset.Whole text := by
  induction h with
  | nil => exact .nil
  | character hfirst _ ih => exact .character hfirst ih

/-- In the sets in which every character is one byte no text ends inside a character. -/
theorem Narrow.whole (h : charset.Narrow) (hne : charset ≠ .utf8) (text : Bytes) :
    charset.Whole text := by
  fun_induction decode charset text with
  | case1 => exact .nil
  | case2 b rest code extra hfirst ih => exact .character hfirst ih
  | case3 b rest hfirst ih => exact .malformed hfirst ih
  | case4 b rest hfirst => exact absurd (h.of_incomplete hfirst).1 hne

namespace Narrow

/-- A terminator decides what stands in front of it: nothing there is unfinished, and no character
reaches across it. -/
theorem first_append_terminator (h : charset.Narrow) (ht : isTerminator t = true) (b : UInt8)
    (piece rest : Bytes) :
    charset.first b (piece ++ t :: rest) = .malformed ∨
      ∃ code extra, charset.first b (piece ++ t :: rest) = .character code extra ∧
        extra ≤ piece.length := by
  have hmem : t ∈ piece ++ t :: rest := List.mem_append_right _ List.mem_cons_self
  rcases hfirst : charset.first b (piece ++ t :: rest) with ⟨code, extra⟩ | _ | _
  · refine .inr ⟨code, extra, rfl, Nat.le_of_not_lt fun hlt => ?_⟩
    have htake := h.unterminated_take hfirst
    rw [List.take_append, List.take_of_length_le (Nat.le_of_lt hlt)] at htake
    obtain ⟨n, hn⟩ := Nat.exists_eq_add_one_of_ne_zero (Nat.sub_ne_zero_of_lt hlt)
    rw [hn, List.take_succ_cons] at htake
    have hterminator := htake t (List.mem_append_right _ List.mem_cons_self)
    rw [ht] at hterminator
    cases hterminator
  · exact .inl rfl
  · have hterminator := (h.of_incomplete hfirst).2 t hmem
    rw [ht] at hterminator
    cases hterminator

/-- What stands in front of a terminator does not depend on what comes behind it. -/
theorem first_append (h : charset.Narrow) (ht : isTerminator t = true) (b : UInt8)
    (piece rest : Bytes) :
    charset.first b (piece ++ t :: rest) = charset.first b (piece ++ [t]) := by
  have hone : charset.first b (piece ++ [t]) ≠ .incomplete := by
    rcases h.first_append_terminator ht b piece [] with hfirst | ⟨code, extra, hfirst, -⟩
    · rw [hfirst]
      exact First.noConfusion
    · rw [hfirst]
      exact First.noConfusion
  rw [List.append_cons, Charset.first_append hone]

/-- What a line comes out as in front of its terminator, whatever comes behind that: the decoding of
the line, unless it ends inside a character. -/
theorem exists_decode_append (h : charset.Narrow) (ht : isTerminator t = true) {piece : Bytes}
    (hpiece : Unterminated piece) :
    ∃ text, Unterminated text ∧ (charset.Whole piece → text = charset.decode piece) ∧
      ∀ rest, charset.decode (piece ++ t :: rest) = text ++ t :: charset.decode rest := by
  induction hl : piece.length using Nat.strongRecOn generalizing piece with
  | ind l ih =>
    rcases piece with _ | ⟨b, piece⟩
    · exact ⟨[], List.forall_mem_nil _, fun _ => (decode_nil charset).symm,
        fun rest => h.decode_terminator ht rest⟩
    obtain ⟨hb, hrest⟩ := List.forall_mem_cons.mp hpiece
    have hstays : ∀ {front}, charset.first b (piece ++ [t]) = front →
        ∀ rest, charset.first b (piece ++ t :: rest) = front :=
      fun hfront rest => (h.first_append ht b piece rest).trans hfront
    -- A line that is whole begins as it does in front of the terminator.
    have hwhole : charset.first b piece ≠ .incomplete →
        charset.first b (piece ++ [t]) = charset.first b piece :=
      fun hfirst => Charset.first_append hfirst [t]
    rcases h.first_append_terminator ht b piece [] with hfirst | ⟨code, extra, hfirst, hextra⟩
    · obtain ⟨text, htext, hdecode, happend⟩ :=
        ih piece.length (by rw [← hl, List.length_cons]; omega) hrest rfl
      refine ⟨replacement ++ text, ?_, fun hp => ?_, fun rest => ?_⟩
      · exact List.forall_mem_append.mpr ⟨unterminated_replacement, htext⟩
      · cases hp with
        | character hfirst' =>
          rw [hwhole (by rw [hfirst']; exact First.noConfusion), hfirst'] at hfirst
          cases hfirst
        | malformed hfirst' hp => rw [decode_malformed hfirst', hdecode hp]
      · rw [List.cons_append, decode_malformed (hstays hfirst rest), happend, List.append_assoc]
    · obtain ⟨text, htext, hdecode, happend⟩ :=
        ih (piece.drop extra).length (by rw [← hl, List.length_cons, List.length_drop]; omega)
          (fun c hc => hrest c (List.mem_of_mem_drop hc)) rfl
      refine ⟨encodeUtf8 code ++ text, ?_, fun hp => ?_, fun rest => ?_⟩
      · exact List.forall_mem_append.mpr ⟨h.unterminated_encodeUtf8 hb hfirst, htext⟩
      · cases hp with
        | character hfirst' hp =>
          rw [hwhole (by rw [hfirst']; exact First.noConfusion), hfirst'] at hfirst
          obtain ⟨rfl, rfl⟩ := First.character.inj hfirst
          rw [decode_character hfirst', hdecode hp]
        | malformed hfirst' =>
          rw [hwhole (by rw [hfirst']; exact First.noConfusion), hfirst'] at hfirst
          cases hfirst
      · rw [List.cons_append, decode_character (hstays hfirst rest),
          List.drop_append_of_le_length hextra, happend, List.append_assoc]

/-- The decoding of a text begins with a line feed only if the text does. -/
theorem exists_decode_cons (h : charset.Narrow) (b : UInt8) (rest : Bytes) :
    ∃ c more, charset.decode (b :: rest) = c :: more ∧ (c = lf → b = lf) := by
  have hfront : ∀ front : Bytes, front ≠ [] → Unterminated front → ∀ more,
      ∃ c more', front ++ more = c :: more' ∧ (c = lf → b = lf) := by
    rintro (_ | ⟨c, front⟩) hne hunterminated more
    · exact absurd rfl hne
    · refine ⟨c, front ++ more, rfl, ?_⟩
      rintro rfl
      cases hunterminated lf List.mem_cons_self
  cases hb : isTerminator b with
  | true => exact ⟨b, _, h.decode_terminator hb rest, id⟩
  | false =>
    rcases hfirst : charset.first b rest with ⟨code, extra⟩ | _ | _
    · rw [decode_character hfirst]
      exact hfront _ (encodeUtf8_ne_nil code) (h.unterminated_encodeUtf8 hb hfirst) _
    · rw [decode_malformed hfirst]
      exact hfront _ (encodeUtf8_ne_nil _) unterminated_replacement _
    · rw [decode_incomplete hfirst, ← List.append_nil replacement]
      exact hfront _ (encodeUtf8_ne_nil _) unterminated_replacement _

/-- A line feed behind a carriage return is one in the decoding. -/
theorem dropLf_decode (h : charset.Narrow) (afterCr : Bool) (rest : Bytes) :
    Line.dropLf afterCr (charset.decode rest) = charset.decode (Line.dropLf afterCr rest) := by
  cases afterCr with
  | false => rw [Line.dropLf_false, Line.dropLf_false]
  | true =>
    rcases rest with _ | ⟨b, rest⟩
    · rw [decode_nil, Line.dropLf_nil, decode_nil]
    by_cases hb : b = lf
    · subst hb
      rw [h.decode_terminator rfl, Line.dropLf_lf_cons, Line.dropLf_lf_cons]
    · obtain ⟨c, more, hdecode, hc⟩ := h.exists_decode_cons b rest
      rw [Line.dropLf_cons_of_ne hb, hdecode, Line.dropLf_cons_of_ne (mt hc hb)]

/-- The lines of a decoding are the lines of the text, each decoded by itself unless it ends inside
a character. -/
theorem cut_decode (h : charset.Narrow) (text : Bytes) :
    List.Forall₂ (fun line out => charset.Whole line → out = charset.decode line)
      (Line.cut text) (Line.cut (charset.decode text)) := by
  induction hl : text.length using Nat.strongRecOn generalizing text with
  | ind l ih =>
    rcases Line.unterminated_or_exists text with htext | ⟨piece, t, rest, rfl, hpiece, ht⟩
    · have hdecode : Unterminated (charset.decode text) := by
        rw [Line.unterminated_iff, h.filter_decode, ← Line.unterminated_iff]
        exact htext
      rw [Line.cut_of_unterminated htext, Line.cut_of_unterminated hdecode]
      rcases text with _ | ⟨b, rest⟩
      · rw [decode_nil]
        exact .nil
      · obtain ⟨c, more, hcons, -⟩ := h.exists_decode_cons b rest
        rw [hcons, if_neg (List.cons_ne_nil _ _), if_neg (List.cons_ne_nil _ _), ← hcons]
        exact .cons (fun _ => rfl) .nil
    · obtain ⟨out, hout, hwhole, happend⟩ := h.exists_decode_append ht hpiece
      rw [happend, Line.cut_append_terminator hpiece ht, Line.cut_append_terminator hout ht,
        h.dropLf_decode]
      refine .cons hwhole (ih _ ?_ _ rfl)
      have hshort := Line.length_dropLf_le (t == cr) rest
      rw [← hl, List.length_append, List.length_cons]
      omega

end Narrow

end Charset

end TextLines

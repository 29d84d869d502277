import TextLines.Proofs.Charset.Accepting

/-!
# Well-formed UTF-8

A byte string is well-formed UTF-8 if it is the UTF-8 form of some characters (`Bytes.IsUtf8`). That
is less than the decoder accepts, which reads numbers beyond the last plane as well
(`Bytes.IsUtf8.accepts`).

An ASCII byte is a character and part of no other, so it can be taken as a boundary: a text is
well-formed exactly if what stands in front of the byte is, and what stands behind it
(`Bytes.isUtf8_append_cons_iff`). It makes no difference then whether ASCII texts are put between
other texts (`Bytes.isUtf8_join_iff`), or in the place of ASCII bytes (`Bytes.isUtf8_flatMap_iff`).
-/

namespace TextLines.Bytes

/-- The text is the UTF-8 form of some characters. -/
def IsUtf8 (text : Bytes) : Prop :=
  ∃ characters : List Char, utf8 characters = text

/-- Nothing but ASCII. -/
def IsAscii (text : Bytes) : Prop :=
  ∀ b ∈ text, b < 0x80

theorem all_eq_true_iff {text : Bytes} : text.all (· < 0x80) = true ↔ IsAscii text := by
  rw [List.all_eq_true]
  exact forall₂_congr fun _ _ => decide_eq_true_iff

-- The bytes of the text are looked at one by one, rather than all bytes there are.
instance : DecidablePred IsAscii := fun _ => decidable_of_iff _ all_eq_true_iff

variable {front back word text : Bytes} {b : UInt8}

theorem isUtf8_nil : IsUtf8 [] :=
  ⟨[], rfl⟩

theorem IsUtf8.append (hfront : IsUtf8 front) (hback : IsUtf8 back) : IsUtf8 (front ++ back) := by
  obtain ⟨first, rfl⟩ := hfront
  obtain ⟨second, rfl⟩ := hback
  exact ⟨first ++ second, utf8_append first second⟩

/-- What is well-formed is accepted by the decoder. -/
theorem IsUtf8.accepts (h : IsUtf8 text) : Charset.utf8.Accepts text := by
  obtain ⟨characters, rfl⟩ := h
  exact Charset.accepts_utf8 characters

/-! ## ASCII bytes -/

theorem isUtf8_of_ascii (hb : b < 0x80) : IsUtf8 [b] := by
  have hsmall : b.toNat < 0x80 := Charset.toNat_lt_of_ascii hb
  have hvalid : b.toUInt32.isValidChar := .inl (by rw [UInt8.toNat_toUInt32]; omega)
  have hcode : (Char.mk b.toUInt32 hvalid).toNat = b.toNat := UInt8.toNat_toUInt32 b
  refine ⟨[⟨b.toUInt32, hvalid⟩], ?_⟩
  rw [utf8_cons, ← Charset.encodeUtf8_toNat, hcode, Charset.encodeUtf8, if_pos hsmall,
    UInt8.ofNat_toNat]
  rfl

theorem IsAscii.isUtf8 (h : IsAscii text) : IsUtf8 text := by
  induction text with
  | nil => exact isUtf8_nil
  | cons b text ih =>
    obtain ⟨hb, htext⟩ := List.forall_mem_cons.mp h
    exact (isUtf8_of_ascii hb).append (ih htext)

/-- A character with an ASCII byte in its form is that byte. -/
theorem utf8EncodeChar_eq_of_mem {c : Char} (hmem : b ∈ String.utf8EncodeChar c) (hb : b < 0x80) :
    String.utf8EncodeChar c = [b] := by
  have hsmall : c.toNat < 0x80 := Nat.lt_of_not_le fun hlarge =>
    absurd hb (UInt8.not_lt.mpr (Charset.le_of_mem_utf8EncodeChar hlarge hmem))
  rw [← Charset.encodeUtf8_toNat, Charset.encodeUtf8, if_pos hsmall] at hmem ⊢
  rw [List.mem_singleton.mp hmem]

/-- An ASCII byte divides a text into two. -/
theorem isUtf8_append_cons_iff (hb : b < 0x80) :
    IsUtf8 (front ++ b :: back) ↔ IsUtf8 front ∧ IsUtf8 back := by
  constructor
  · rintro ⟨characters, htext⟩
    -- The characters are taken from the front until the byte is one of them.
    induction characters generalizing front with
    | nil => exact absurd htext.symm (List.append_ne_nil_of_right_ne_nil _ (List.cons_ne_nil _ _))
    | cons c characters ih =>
      rw [utf8_cons] at htext
      rcases List.append_eq_append_iff.mp htext with ⟨between, rfl, hrest⟩ | ⟨between, hc, hrest⟩
      · obtain ⟨hbetween, hback⟩ := ih hrest
        exact ⟨IsUtf8.append ⟨[c], List.append_nil _⟩ hbetween, hback⟩
      · rcases List.cons_eq_append_iff.mp hrest with ⟨rfl, hrest⟩ | ⟨between, rfl, hrest⟩
        · obtain ⟨-, hback⟩ := @ih [] hrest.symm
          refine ⟨⟨[c], ?_⟩, hback⟩
          rw [utf8_cons, hc, List.append_nil]
          exact List.append_nil _
        · have hmem : b ∈ String.utf8EncodeChar c := hc ▸ List.mem_append_right _ List.mem_cons_self
          rw [utf8EncodeChar_eq_of_mem hmem hb] at hc
          obtain ⟨rfl, hnil⟩ | ⟨front, -, hnil⟩ := List.cons_eq_append_iff.mp hc
          · obtain rfl : between = [] := (List.cons.inj hnil).2
            exact ⟨isUtf8_nil, characters, (List.cons.inj hrest).2.symm⟩
          · exact absurd hnil.symm (List.append_ne_nil_of_right_ne_nil _ (List.cons_ne_nil _ _))
  · rintro ⟨hfront, hback⟩
    exact hfront.append ((isUtf8_of_ascii hb).append hback)

/-- An ASCII text divides a text into two. -/
theorem isUtf8_append_append_iff (hascii : IsAscii word) (hne : word ≠ []) :
    IsUtf8 (front ++ (word ++ back)) ↔ IsUtf8 front ∧ IsUtf8 back := by
  induction word generalizing front with
  | nil => exact absurd rfl hne
  | cons b word ih =>
    obtain ⟨hb, hword⟩ := List.forall_mem_cons.mp hascii
    rw [List.cons_append, isUtf8_append_cons_iff hb]
    rcases word with _ | ⟨c, word⟩
    · rfl
    · have hrest := @ih [] hword (List.cons_ne_nil _ _)
      rw [List.nil_append, and_iff_right isUtf8_nil] at hrest
      rw [hrest]

theorem isUtf8_append_iff_left (hascii : IsAscii word) :
    IsUtf8 (text ++ word) ↔ IsUtf8 text := by
  rcases word with _ | ⟨b, word⟩
  · rw [List.append_nil]
  · rw [← List.append_nil (b :: word), isUtf8_append_append_iff hascii (List.cons_ne_nil _ _),
      and_iff_left isUtf8_nil]

theorem isUtf8_append_iff_right (hascii : IsAscii word) :
    IsUtf8 (word ++ text) ↔ IsUtf8 text := by
  rcases word with _ | ⟨b, word⟩
  · rfl
  · rw [← List.nil_append (b :: word ++ text),
      isUtf8_append_append_iff hascii (List.cons_ne_nil _ _), and_iff_right isUtf8_nil]

/-! ## Joining and replacing -/

/-- Texts with ASCII between them. -/
theorem isUtf8_join_iff {separator : Bytes} (hascii : IsAscii separator) (hne : separator ≠ [])
    {pieces : List Bytes} : IsUtf8 (join separator pieces) ↔ ∀ piece ∈ pieces, IsUtf8 piece := by
  fun_induction join separator pieces with
  | case1 => exact iff_of_true isUtf8_nil (List.forall_mem_nil _)
  | case2 piece => exact List.forall_mem_singleton.symm
  | case3 piece rest hrest ih =>
    rw [List.append_assoc, isUtf8_append_append_iff hascii hne, ih, List.forall_mem_cons]

/-- Texts in which ASCII bytes have been replaced by ASCII texts, and no other bytes. -/
theorem isUtf8_flatMap_iff {replace : UInt8 → Bytes}
    (hascii : ∀ b < 0x80, IsAscii (replace b) ∧ replace b ≠ [])
    (hother : ∀ b, 0x80 ≤ b → replace b = [b]) :
    IsUtf8 (text.flatMap replace) ↔ IsUtf8 text := by
  -- What comes in front is not replaced and may end inside a character.
  have hgeneral : ∀ front, IsUtf8 (front ++ text.flatMap replace) ↔ IsUtf8 (front ++ text) := by
    induction text with
    | nil => exact fun _ => Iff.rfl
    | cons b text ih =>
      intro front
      rw [List.flatMap_cons]
      rcases Nat.lt_or_ge b.toNat 0x80 with hb | hb
      · have hsmall : b < 0x80 := UInt8.lt_iff_toNat_lt.mpr hb
        obtain ⟨hreplaced, hne⟩ := hascii b hsmall
        rw [isUtf8_append_append_iff hreplaced hne, isUtf8_append_cons_iff hsmall]
        exact and_congr_right fun _ => ih []
      · rw [hother b (UInt8.le_iff_toNat_le.mpr hb), List.singleton_append]
        have hnext := ih (front ++ [b])
        rwa [List.append_assoc, List.append_assoc] at hnext
  exact hgeneral []

end TextLines.Bytes

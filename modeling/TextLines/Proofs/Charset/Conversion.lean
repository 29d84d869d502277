import TextLines.Charset.Convert

/-!
# Converting a text in pieces

A conversion stops where it cannot go on, and the bytes that follow decide how it goes on from
there. This is sound because what stands at the front of a text does not change when more bytes
come, unless the text was too short to tell (`first_append`), and because it is never too short by
much (`length_of_incomplete`).

`convert_decode` is the consequence for a conversion: whatever comes behind its input, what it has
converted and the decoding of what it has left make the decoding of the whole. What can be said of
its rest depends on why it stopped (`Stopped`). `settle_append` adds the mark at the start of a
text, so that `Encoding.decode` is reached piece by piece as well.

`complete` is the decoding of a text whose end is not known to be the end: a character that it cuts
off is left out. It is the part of the decoding that nothing can change any more
(`complete_isPrefix`), and a conversion takes from it what it takes from `decode`
(`convert_complete`).
-/

namespace TextLines

namespace Charset

/-! ## The front of a text -/

theorem utf8Lead_le {b : UInt8} {extra payload : Nat} (h : utf8Lead b = some (extra, payload)) :
    extra ≤ 5 := by
  unfold utf8Lead at h
  repeat' split at h
  all_goals
    simp only [Option.some.injEq, Prod.mk.injEq, reduceCtorEq] at h
  all_goals omega

theorem firstUtf8_append {b : UInt8} {rest : Bytes} (h : firstUtf8 b rest ≠ .incomplete)
    (more : Bytes) : firstUtf8 b (rest ++ more) = firstUtf8 b rest := by
  unfold firstUtf8 at h ⊢
  by_cases hb : b < 0x80
  · rw [if_pos hb, if_pos hb]
  · rw [if_neg hb] at h ⊢
    rw [if_neg hb]
    rcases hl : utf8Lead b with _ | ⟨extra, payload⟩
    · rfl
    · rw [hl] at h
      dsimp only at h ⊢
      have htake : (rest ++ more).take extra =
          rest.take extra ++ more.take (extra - rest.length) := List.take_append
      by_cases hall : (rest.take extra).all isContinuation = true
      · -- A sound beginning that is not incomplete is long enough, so that nothing is added to it.
        rw [hall] at h
        simp only [Bool.not_true, Bool.false_eq_true, if_false] at h
        have hlen : ¬ (rest.take extra).length < extra := by
          intro hlt
          rw [if_pos hlt] at h
          exact h rfl
        have hle : extra ≤ rest.length := by
          rw [List.length_take] at hlen
          omega
        rw [List.take_append_of_le_length hle]
      · have hall' : (rest.take extra).all isContinuation = false := by simpa using hall
        have hmore : ((rest ++ more).take extra).all isContinuation = false := by
          rw [htake, List.all_append, hall', Bool.false_and]
        rw [hmore, hall']
        rfl

theorem firstUtf16_append {order : ByteOrder} {b : UInt8} {rest : Bytes}
    (h : firstUtf16 order b rest ≠ .incomplete) (more : Bytes) :
    firstUtf16 order b (rest ++ more) = firstUtf16 order b rest := by
  rcases rest with _ | ⟨b1, _ | ⟨b2, _ | ⟨b3, rest⟩⟩⟩
  · exact absurd rfl h
  -- A first unit that is not the half of a pair decides alone.
  · simp only [firstUtf16, List.cons_append, List.nil_append] at h ⊢
    split
    · rfl
    · split
      · rfl
      · simp_all
  · simp only [firstUtf16, List.cons_append, List.nil_append] at h ⊢
    split
    · rfl
    · split
      · rfl
      · simp_all
  · rfl

theorem firstUtf32_append {order : ByteOrder} {b : UInt8} {rest : Bytes}
    (h : firstUtf32 order b rest ≠ .incomplete) (more : Bytes) :
    firstUtf32 order b (rest ++ more) = firstUtf32 order b rest := by
  rcases rest with _ | ⟨b1, _ | ⟨b2, _ | ⟨b3, rest⟩⟩⟩
  · exact absurd rfl h
  · exact absurd rfl h
  · exact absurd rfl h
  · rfl

/-- What stands at the front of a text stays there, unless the text is too short to tell. -/
theorem first_append {charset : Charset} {b : UInt8} {rest : Bytes}
    (h : charset.first b rest ≠ .incomplete) (more : Bytes) :
    charset.first b (rest ++ more) = charset.first b rest := by
  cases charset with
  | utf8 => exact firstUtf8_append h more
  | ascii => rfl
  | oneByte table => rfl
  | utf16 order => exact firstUtf16_append h more
  | utf32 order => exact firstUtf32_append h more

/-- A text that is too short to tell what stands at its front is short. -/
theorem length_of_incomplete {charset : Charset} {b : UInt8} {rest : Bytes}
    (h : charset.first b rest = .incomplete) : rest.length < 5 := by
  cases charset with
  | utf8 =>
    simp only [first, firstUtf8] at h
    split at h
    · cases h
    · split at h
      · cases h
      · rename_i extra payload hl
        have hextra := utf8Lead_le hl
        split at h
        · cases h
        · split at h
          · rename_i hlt
            rw [List.length_take] at hlt
            omega
          · split at h <;> cases h
  | ascii =>
    simp only [first] at h
    split at h <;> cases h
  | oneByte table =>
    simp only [first] at h
    split at h <;> cases h
  | utf16 order =>
    rcases rest with _ | ⟨b1, _ | ⟨b2, _ | ⟨b3, rest⟩⟩⟩
    case cons.cons.cons =>
      simp only [first, firstUtf16] at h
      repeat' split at h
      all_goals cases h
    all_goals simp only [List.length_nil, List.length_cons]
    all_goals omega
  | utf32 order =>
    rcases rest with _ | ⟨b1, _ | ⟨b2, _ | ⟨b3, rest⟩⟩⟩
    case cons.cons.cons =>
      simp only [first, firstUtf32] at h
      split at h <;> cases h
    all_goals simp only [List.length_nil, List.length_cons]
    all_goals omega

/-- A character is made of bytes that are there. -/
theorem extra_le_length {charset : Charset} {b : UInt8} {rest : Bytes} {code extra : Nat}
    (h : charset.first b rest = .character code extra) : extra ≤ rest.length := by
  cases charset with
  | utf8 =>
    simp only [first, firstUtf8] at h
    split at h
    · cases h
      exact Nat.zero_le _
    · split at h
      · cases h
      · split at h
        · cases h
        · split at h
          · cases h
          · rename_i hlen
            split at h
            · cases h
            · cases h
              rw [List.length_take] at hlen
              omega
  | ascii =>
    simp only [first] at h
    split at h <;> cases h
    exact Nat.zero_le _
  | oneByte table =>
    simp only [first] at h
    split at h <;> cases h
    exact Nat.zero_le _
  | utf16 order =>
    rcases rest with _ | ⟨b1, _ | ⟨b2, _ | ⟨b3, rest⟩⟩⟩
    all_goals
      simp only [first, firstUtf16] at h
      repeat' split at h
    all_goals simp only [First.character.injEq, reduceCtorEq] at h
    all_goals
      simp only [List.length_cons, List.length_nil]
      omega
  | utf32 order =>
    rcases rest with _ | ⟨b1, _ | ⟨b2, _ | ⟨b3, rest⟩⟩⟩
    all_goals
      simp only [first, firstUtf32] at h
      repeat' split at h
    all_goals simp only [First.character.injEq, reduceCtorEq] at h
    all_goals
      simp only [List.length_cons]
      omega

/-! ## Whole texts -/

theorem decode_nil (charset : Charset) : charset.decode [] = [] := by
  rw [decode]

theorem decode_character {charset : Charset} {b : UInt8} {rest : Bytes} {code extra : Nat}
    (h : charset.first b rest = .character code extra) :
    charset.decode (b :: rest) = encodeUtf8 code ++ charset.decode (rest.drop extra) := by
  rw [decode, h]

theorem decode_malformed {charset : Charset} {b : UInt8} {rest : Bytes}
    (h : charset.first b rest = .malformed) :
    charset.decode (b :: rest) = replacement ++ charset.decode rest := by
  rw [decode, h]

theorem decode_incomplete {charset : Charset} {b : UInt8} {rest : Bytes}
    (h : charset.first b rest = .incomplete) : charset.decode (b :: rest) = replacement := by
  rw [decode, h]

/-- The UTF-8 form of a text up to a character that its end cuts off. -/
def complete (charset : Charset) (text : Bytes) : Bytes :=
  match text with
  | [] => []
  | b :: rest =>
    match charset.first b rest with
    | .character code extra => encodeUtf8 code ++ charset.complete (rest.drop extra)
    | .malformed => replacement ++ charset.complete rest
    | .incomplete => []
termination_by text.length
decreasing_by
  · simp only [List.length_drop, List.length_cons]
    omega
  · simp

theorem complete_nil (charset : Charset) : charset.complete [] = [] := by
  rw [complete]

theorem complete_character {charset : Charset} {b : UInt8} {rest : Bytes} {code extra : Nat}
    (h : charset.first b rest = .character code extra) :
    charset.complete (b :: rest) = encodeUtf8 code ++ charset.complete (rest.drop extra) := by
  rw [complete, h]

theorem complete_malformed {charset : Charset} {b : UInt8} {rest : Bytes}
    (h : charset.first b rest = .malformed) :
    charset.complete (b :: rest) = replacement ++ charset.complete rest := by
  rw [complete, h]

theorem complete_incomplete {charset : Charset} {b : UInt8} {rest : Bytes}
    (h : charset.first b rest = .incomplete) : charset.complete (b :: rest) = [] := by
  rw [complete, h]

/-- Complete characters stay what they are when more comes, for whatever makes a text of the
characters one by one. -/
theorem complete_isPrefix_of_character {charset : Charset} {f : Bytes → Bytes}
    (hcharacter : ∀ b rest code extra, charset.first b rest = .character code extra →
      f (b :: rest) = encodeUtf8 code ++ f (rest.drop extra))
    (hmalformed : ∀ b rest, charset.first b rest = .malformed →
      f (b :: rest) = replacement ++ f rest)
    (text more : Bytes) : charset.complete text <+: f (text ++ more) := by
  fun_induction complete charset text with
  | case1 => exact List.nil_prefix
  | case2 b rest code extra hfirst ih =>
    have hstays : charset.first b (rest ++ more) = .character code extra := by
      rw [first_append (by rw [hfirst]; simp), hfirst]
    rw [List.cons_append, hcharacter _ _ _ _ hstays,
      List.drop_append_of_le_length (extra_le_length hfirst)]
    exact (List.prefix_append_right_inj _).mpr ih
  | case3 b rest hfirst ih =>
    have hstays : charset.first b (rest ++ more) = .malformed := by
      rw [first_append (by rw [hfirst]; simp), hfirst]
    rw [List.cons_append, hmalformed _ _ hstays]
    exact (List.prefix_append_right_inj _).mpr ih
  | case4 => exact List.nil_prefix

theorem complete_isPrefix (charset : Charset) (text more : Bytes) :
    charset.complete text <+: charset.decode (text ++ more) :=
  complete_isPrefix_of_character (fun _ _ _ _ => decode_character) (fun _ _ => decode_malformed)
    text more

theorem complete_isPrefix_complete (charset : Charset) (text more : Bytes) :
    charset.complete text <+: charset.complete (text ++ more) :=
  complete_isPrefix_of_character (fun _ _ _ _ => complete_character)
    (fun _ _ => complete_malformed) text more

/-- A conversion takes character by character from the front of its input, and so it does from
whatever makes a text of the characters one by one. -/
theorem convertFrom_of_character {charset : Charset} {f : Bytes → Bytes}
    (hf : ∀ b rest code extra, charset.first b rest = .character code extra →
      f (b :: rest) = encodeUtf8 code ++ f (rest.drop extra))
    (room : Nat) (done input more : Bytes) :
    done.reverse ++ f (input ++ more) =
      (charset.convertFrom room done input).text ++
        f ((charset.convertFrom room done input).rest ++ more) := by
  fun_induction convertFrom charset room done input with
  | case1 | case2 | case3 | case4 => rfl
  | case5 room done b rest code extra hfirst bytes hroom ih =>
    have hstays : charset.first b (rest ++ more) = .character code extra := by
      rw [first_append (by rw [hfirst]; simp), hfirst]
    rw [List.cons_append, hf _ _ _ _ hstays,
      List.drop_append_of_le_length (extra_le_length hfirst), ← ih, List.reverse_append,
      List.reverse_reverse, List.append_assoc]

/-- What a conversion has converted and the decoding of what it has left make the decoding of the
whole, whatever comes behind it. -/
theorem convert_decode (charset : Charset) (room : Nat) (input more : Bytes) :
    charset.decode (input ++ more) = (charset.convert room input).text ++
      charset.decode ((charset.convert room input).rest ++ more) :=
  convertFrom_of_character (fun _ _ _ _ => decode_character) room [] input more

theorem convert_complete (charset : Charset) (room : Nat) (input more : Bytes) :
    charset.complete (input ++ more) = (charset.convert room input).text ++
      charset.complete ((charset.convert room input).rest ++ more) :=
  convertFrom_of_character (fun _ _ _ _ => complete_character) room [] input more

theorem convertFrom_rest_suffix (charset : Charset) (room : Nat) (done input : Bytes) :
    (charset.convertFrom room done input).rest <:+ input := by
  fun_induction convertFrom charset room done input with
  | case1 | case2 | case3 | case4 => exact List.suffix_refl _
  | case5 room done b rest code extra hfirst bytes hroom ih =>
    apply ih.trans
    apply (List.drop_suffix extra rest).trans
    exact List.suffix_cons b rest

/-- What a conversion leaves is the end of its input. -/
theorem convert_rest_suffix (charset : Charset) (room : Nat) (input : Bytes) :
    (charset.convert room input).rest <:+ input :=
  convertFrom_rest_suffix charset room [] input

theorem convertFrom_text_length (charset : Charset) (room : Nat) (done input : Bytes) :
    (charset.convertFrom room done input).text.length ≤ done.length + room := by
  fun_induction convertFrom charset room done input with
  | case1 | case2 | case3 | case4 => simp
  | case5 room done b rest code extra hfirst bytes hroom ih =>
    rw [List.length_append, List.length_reverse] at ih
    omega

/-- What a conversion makes fits into its room. -/
theorem convert_text_length (charset : Charset) (room : Nat) (input : Bytes) :
    (charset.convert room input).text.length ≤ room := by
  have h := convertFrom_text_length charset room [] input
  rwa [List.length_nil, Nat.zero_add] at h

/-- What a conversion has left, and why. -/
inductive Stopped (charset : Charset) : Conversion → Prop where
  /-- Nothing. -/
  | exhausted {text : Bytes} : Stopped charset ⟨text, [], .exhausted⟩
  /-- A byte that does not begin a character. -/
  | malformed {text rest : Bytes} {b : UInt8} (hfirst : charset.first b rest = .malformed) :
      Stopped charset ⟨text, b :: rest, .malformed⟩
  /-- The beginning of a character. -/
  | incomplete {text rest : Bytes} {b : UInt8} (hfirst : charset.first b rest = .incomplete) :
      Stopped charset ⟨text, b :: rest, .incomplete⟩
  /-- A character for which there is no room behind others. -/
  | full {text rest : Bytes} {b : UInt8} (htext : text ≠ []) :
      Stopped charset ⟨text, b :: rest, .full⟩

theorem convertFrom_stopped (charset : Charset) {room : Nat} {done : Bytes} (input : Bytes)
    (h : 6 ≤ room ∨ done ≠ []) : Stopped charset (charset.convertFrom room done input) := by
  fun_induction convertFrom charset room done input with
  | case1 => exact .exhausted
  | case2 room done b rest hfirst => exact .malformed hfirst
  | case3 room done b rest hfirst => exact .incomplete hfirst
  | case4 room done b rest code extra hfirst bytes hroom =>
    have hlen : bytes.length ≤ 6 := length_encodeUtf8_le code
    refine .full ?_
    rcases h with hroom' | hdone
    · omega
    · simpa using hdone
  | case5 room done b rest code extra hfirst bytes hroom ih =>
    refine ih (.inr ?_)
    have hne := encodeUtf8_ne_nil code
    simp [bytes, hne]

/-- A conversion with room for a character stops for one of these reasons. -/
theorem convert_stopped (charset : Charset) {room : Nat} (input : Bytes) (h : 6 ≤ room) :
    Stopped charset (charset.convert room input) :=
  convertFrom_stopped charset input (.inl h)

end Charset

namespace Encoding

/-- More text does not change what the start of a text has settled. -/
theorem settle_append {encoding : Encoding} {text rest : Bytes} {charset : Charset}
    (h : encoding.settle text = some (charset, rest)) (more : Bytes) :
    encoding.settle (text ++ more) = some (charset, rest ++ more) := by
  unfold settle at h ⊢
  split at h
  · cases h
    rfl
  all_goals
    split at h
    all_goals
      simp only [Option.some.injEq, Prod.mk.injEq, reduceCtorEq] at h
    all_goals
      obtain ⟨rfl, rfl⟩ := h
      simp_all

/-- What settles a character set stands at the start of the text. -/
theorem settle_suffix {encoding : Encoding} {text rest : Bytes} {charset : Charset}
    (h : encoding.settle text = some (charset, rest)) : rest <:+ text := by
  unfold settle at h
  split at h
  · cases h
    exact List.suffix_refl _
  · split at h
    · cases h
      exact List.suffix_append [0xff, 0xfe] _
    · cases h
      exact List.suffix_append [0xfe, 0xff] _
    · cases h
      exact List.suffix_refl _
    · cases h
  · split at h
    · cases h
      exact List.suffix_append [0xff, 0xfe, 0, 0] _
    · cases h
      exact List.suffix_append [0, 0, 0xfe, 0xff] _
    · cases h
      exact List.suffix_refl _
    · cases h

/-- A text that settles nothing is short. -/
theorem length_of_settle_none {encoding : Encoding} {text : Bytes}
    (h : encoding.settle text = none) : text.length < 4 := by
  rcases text with _ | ⟨a, _ | ⟨b, _ | ⟨c, _ | ⟨d, rest⟩⟩⟩⟩
  case cons.cons.cons.cons =>
    -- Four bytes always settle the character set.
    unfold settle at h
    split at h
    · cases h
    · split at h
      all_goals simp_all
    · split at h
      · cases h
      · cases h
      · cases h
      · rename_i hshort
        exact (hshort a b c d rest rfl).elim
  all_goals simp only [List.length_nil, List.length_cons]
  all_goals omega

theorem decode_of_settle {encoding : Encoding} {text rest : Bytes} {charset : Charset}
    (h : encoding.settle text = some (charset, rest)) :
    encoding.decode text = charset.decode rest := by
  rw [decode, h]

theorem decode_plain (charset : Charset) (text : Bytes) :
    (Encoding.plain charset).decode text = charset.decode text :=
  decode_of_settle rfl

theorem decode_nil (encoding : Encoding) : encoding.decode [] = [] := by
  cases encoding with
  | plain charset => rw [decode_plain, Charset.decode_nil]
  | markedUtf16 | markedUtf32 => rfl

/-- The UTF-8 form of a text up to a character that its end cuts off. -/
def complete (encoding : Encoding) (text : Bytes) : Bytes :=
  match encoding.settle text with
  | some (charset, rest) => charset.complete rest
  | none => []

theorem complete_of_settle {encoding : Encoding} {text rest : Bytes} {charset : Charset}
    (h : encoding.settle text = some (charset, rest)) :
    encoding.complete text = charset.complete rest := by
  rw [complete, h]

theorem complete_plain (charset : Charset) (text : Bytes) :
    (Encoding.plain charset).complete text = charset.complete text :=
  complete_of_settle rfl

theorem complete_of_settle_none {encoding : Encoding} {text : Bytes}
    (h : encoding.settle text = none) : encoding.complete text = [] := by
  rw [complete, h]

theorem complete_nil (encoding : Encoding) : encoding.complete [] = [] := by
  cases encoding with
  | plain charset => rw [complete_plain, Charset.complete_nil]
  | markedUtf16 | markedUtf32 => rfl

/-- Complete characters stay what they are when more comes. -/
theorem complete_isPrefix (encoding : Encoding) (text more : Bytes) :
    encoding.complete text <+: encoding.decode (text ++ more) := by
  rcases hs : encoding.settle text with _ | ⟨charset, rest⟩
  · rw [complete_of_settle_none hs]
    exact List.nil_prefix
  · rw [complete_of_settle hs, decode_of_settle (settle_append hs more)]
    exact charset.complete_isPrefix rest more

theorem complete_isPrefix_complete (encoding : Encoding) (text more : Bytes) :
    encoding.complete text <+: encoding.complete (text ++ more) := by
  rcases hs : encoding.settle text with _ | ⟨charset, rest⟩
  · rw [complete_of_settle_none hs]
    exact List.nil_prefix
  · rw [complete_of_settle hs, complete_of_settle (settle_append hs more)]
    exact charset.complete_isPrefix_complete rest more

/-- A text that is not empty and settles nothing is the beginning of a character. -/
theorem decode_of_settle_none {encoding : Encoding} {text : Bytes}
    (h : encoding.settle text = none) (hne : text ≠ []) :
    encoding.decode text = Charset.replacement := by
  rw [decode, h]
  simp only [List.isEmpty_eq_false_iff.mpr hne, Bool.false_eq_true, if_false]

end Encoding

end TextLines

import TextLines.Proofs.Charset.Decoding
import TextLines.Proofs.Charset.Units

/-!
# Texts that need no replacement

A text is accepted by a character set if it is a sequence of characters (`Charset.Accepts`). Reading
such a text replaces nothing.

UTF-8 has one way only to write a character: what is written for the code point of a character in a
text are the bytes that stand there (`FrontUtf8.encodeUtf8_eq`). So a text that UTF-8 accepts is its
own decoding, and no other text is (`utf8_accepts_iff`). Whatever a text is decoded from, the
outcome consists of numbers that UTF-8 can write (`writable_of_first`) and is such a text
(`Encoding.accepts_decode`).

For decoders this means that a second pass in UTF-8 changes nothing, however the text is cut in the
one and in the other (`Decoder.reads_again`).
-/

namespace TextLines

namespace Charset

/-! ## The front of a text in UTF-8 -/

/-- What can stand at the front of a text in UTF-8. -/
inductive FrontUtf8 (b : UInt8) (rest : Bytes) : First → Prop where
  /-- A character of one byte. -/
  | ascii (hb : b < 0x80) : FrontUtf8 b rest (.character b.toNat 0)
  /-- A first byte with as many others as it asks for. -/
  | long {payload : Nat} {trail behind : Bytes} (hrest : rest = trail ++ behind)
      (hlead : utf8Lead b = some (trail.length, payload))
      (htrail : ∀ c ∈ trail, isContinuation c = true)
      (hleast : utf8Least trail.length ≤ utf8Payload payload trail)
      (hhalf : isSurrogate (utf8Payload payload trail) = false) :
      FrontUtf8 b rest (.character (utf8Payload payload trail) trail.length)
  /-- A byte that begins no character, or one that cannot be gone on with. -/
  | malformed (hb : 0x80 ≤ b) : FrontUtf8 b rest .malformed
  /-- A first byte with which the text ends too early. -/
  | incomplete (hb : 0x80 ≤ b) (hrest : ∀ c ∈ rest, isContinuation c = true) :
      FrontUtf8 b rest .incomplete

theorem frontUtf8_of_first {b : UInt8} {rest : Bytes} {front : First}
    (h : Charset.utf8.first b rest = front) : FrontUtf8 b rest front := by
  subst h
  show FrontUtf8 b rest (firstUtf8 b rest)
  fun_cases firstUtf8 b rest
  case case1 hb => exact .ascii hb
  case case2 hb hlead => exact .malformed (UInt8.not_lt.mp hb)
  case case3 hb extra payload hlead more hall => exact .malformed (UInt8.not_lt.mp hb)
  case case4 hb extra payload hlead more hall hshort =>
    rw [Bool.not_eq_true', Bool.not_eq_false, List.all_eq_true] at hall
    have hmore : more = rest := by
      rw [List.length_take] at hshort
      exact List.take_of_length_le (by omega)
    exact .incomplete (UInt8.not_lt.mp hb) (hmore ▸ hall)
  case case5 hb extra payload hlead more hall hlong code hbad =>
    exact .malformed (UInt8.not_lt.mp hb)
  case case6 hb extra payload hlead more hall hlong code hgood =>
    rw [Bool.not_eq_true', Bool.not_eq_false, List.all_eq_true] at hall
    rw [Bool.or_eq_true, decide_eq_true_eq, not_or, Nat.not_lt] at hgood
    have hlength : more.length = extra := by
      rw [List.length_take] at hlong ⊢
      omega
    have hrest : rest = more ++ rest.drop extra := (List.take_append_drop extra rest).symm
    have hfront := FrontUtf8.long hrest (hlength.symm ▸ hlead) hall (hlength.symm ▸ hgood.1)
      (eq_false_of_ne_true hgood.2)
    rwa [hlength] at hfront

/-! ## What UTF-8 writes -/

/-- A number that UTF-8 has bytes for. -/
def Writable (code : Nat) : Prop :=
  code < 0x80000000 ∧ isSurrogate code = false

instance : DecidablePred Writable := fun _ => inferInstanceAs (Decidable (_ ∧ _))

theorem Scalar.writable {code : Nat} (h : Scalar code) : Writable code := by
  obtain ⟨hcode, hhalf⟩ := h
  exact ⟨by omega, hhalf⟩

theorem toNat_of_isContinuation {b : UInt8} (h : isContinuation b = true) :
    0x80 ≤ b.toNat ∧ b.toNat < 0xc0 := by
  rw [isContinuation, Bool.and_eq_true, decide_eq_true_eq, decide_eq_true_eq,
    UInt8.le_iff_toNat_le, UInt8.lt_iff_toNat_lt] at h
  exact h

/-- Continuation bytes are what is written for them behind what has been gathered. -/
theorem utf8Trail_utf8Payload {payload : Nat} {trail : Bytes}
    (h : ∀ c ∈ trail, isContinuation c = true) :
    utf8Payload payload trail / 64 ^ trail.length = payload ∧
      utf8Trail (utf8Payload payload trail) trail.length = trail := by
  induction trail generalizing payload with
  | nil => exact ⟨Nat.div_one _, rfl⟩
  | cons c trail ih =>
    obtain ⟨hc, htrail⟩ := List.forall_mem_cons.mp h
    obtain ⟨hlow, hhigh⟩ := toNat_of_isContinuation hc
    obtain ⟨hdiv, hwrites⟩ := @ih (payload * 64 + (c.toNat - 0x80)) htrail
    have hstep : utf8Payload payload (c :: trail) =
        utf8Payload (payload * 64 + (c.toNat - 0x80)) trail := by
      rw [utf8Payload, List.foldl_cons, utf8Payload]
    refine ⟨?_, ?_⟩
    · rw [hstep, List.length_cons, Nat.pow_succ, ← Nat.div_div_eq_div_mul, hdiv]
      omega
    · rw [hstep, List.length_cons, utf8Trail, hwrites, Nat.shiftRight_eq_div_pow, Nat.pow_mul]
      show UInt8.ofNat (0x80 + _ / 64 ^ trail.length % 64) :: trail = c :: trail
      have hbyte : 0x80 + (payload * 64 + (c.toNat - 0x80)) % 64 = c.toNat := by omega
      rw [hdiv, hbyte, UInt8.ofNat_toNat]

/-- A number that needs so many bytes behind the first is written with that first byte. -/
theorem encodeUtf8_of_lead {b : UInt8} {code extra : Nat}
    (hlead : utf8Lead b = some (extra, code / 64 ^ extra)) (hleast : utf8Least extra ≤ code) :
    encodeUtf8 code = b :: utf8Trail code extra ∧ code < 0x80000000 := by
  have hbyte : ∀ n, n = b.toNat → UInt8.ofNat n = b := fun n hn => by rw [hn, UInt8.ofNat_toNat]
  have hlt := b.toNat_lt
  unfold utf8Lead at hlead
  simp only [UInt8.le_iff_toNat_le, UInt8.lt_iff_toNat_lt, UInt8.reduceToNat] at hlead
  simp only [encodeUtf8, Nat.shiftRight_eq_div_pow]
  repeat' split at hlead
  all_goals simp only [Option.some.injEq, Prod.mk.injEq, reduceCtorEq] at hlead
  all_goals
    obtain ⟨rfl, hpayload⟩ := hlead
    simp only [utf8Least, Nat.reducePow] at hleast hpayload ⊢
  · rw [if_neg (by omega), if_pos (by omega), hbyte _ (by omega)]
    exact ⟨rfl, by omega⟩
  · rw [if_neg (by omega), if_neg (by omega), if_pos (by omega), hbyte _ (by omega)]
    exact ⟨rfl, by omega⟩
  · rw [if_neg (by omega), if_neg (by omega), if_neg (by omega), if_pos (by omega),
      hbyte _ (by omega)]
    exact ⟨rfl, by omega⟩
  · rw [if_neg (by omega), if_neg (by omega), if_neg (by omega), if_neg (by omega),
      if_pos (by omega), hbyte _ (by omega)]
    exact ⟨rfl, by omega⟩
  · rw [if_neg (by omega), if_neg (by omega), if_neg (by omega), if_neg (by omega),
      if_neg (by omega), hbyte _ (by omega)]
    exact ⟨rfl, by omega⟩

theorem toNat_lt_of_ascii {b : UInt8} (h : b < 0x80) : b.toNat < 0x80 :=
  UInt8.lt_iff_toNat_lt.mp h

/-- What is written for a character in a text are the bytes that stand there. -/
theorem FrontUtf8.encodeUtf8_eq {b : UInt8} {rest : Bytes} {code extra : Nat}
    (h : FrontUtf8 b rest (.character code extra)) :
    encodeUtf8 code = b :: rest.take extra ∧ code < 0x80000000 := by
  cases h with
  | ascii hb =>
    have hsmall := toNat_lt_of_ascii hb
    rw [encodeUtf8, if_pos hsmall, UInt8.ofNat_toNat]
    exact ⟨rfl, by omega⟩
  | @long payload trail behind hrest hlead htrail hleast hhalf =>
    obtain ⟨hdiv, hwrites⟩ := @utf8Trail_utf8Payload payload trail htrail
    have hwritten := encodeUtf8_of_lead (hdiv.symm ▸ hlead) hleast
    rw [hwrites] at hwritten
    rwa [hrest, List.take_left]

/-! ## What decodings consist of -/

/-- A character in a table has a number that UTF-8 can write, and ASCII characters stand for
themselves. -/
theorem Table.forall_codePoint (t : Table) : ∀ n < 256, ∀ c ∈ t.codePoint? (UInt8.ofNat n),
    Writable c ∧ (c < 0x80 → c = n) := by
  cases t <;> decide +kernel

theorem Table.codePoint?_eq_some {t : Table} {b : UInt8} {code : Nat}
    (h : t.codePoint? b = some code) : Writable code ∧ (code < 0x80 → code = b.toNat) :=
  t.forall_codePoint b.toNat b.toNat_lt code (by rwa [UInt8.ofNat_toNat])

/-- Every character of every character set can be written. -/
theorem writable_of_first {charset : Charset} {b : UInt8} {rest : Bytes} {code extra : Nat}
    (h : charset.first b rest = .character code extra) : Writable code := by
  cases charset with
  | utf8 =>
    have hfront := frontUtf8_of_first h
    refine ⟨hfront.encodeUtf8_eq.2, ?_⟩
    cases hfront with
    | ascii hb =>
      have hsmall := toNat_lt_of_ascii hb
      rw [isSurrogate_eq_false_iff]
      omega
    | long _ _ _ _ hhalf => exact hhalf
  | ascii =>
    rw [first] at h
    split at h
    · rename_i hb
      have hsmall := toNat_lt_of_ascii hb
      obtain ⟨rfl, -⟩ := First.character.inj h
      rw [Writable, isSurrogate_eq_false_iff]
      omega
    · cases h
  | oneByte table =>
    rw [first] at h
    split at h
    · rename_i hcode
      obtain ⟨rfl, -⟩ := First.character.inj h
      exact (Table.codePoint?_eq_some hcode).1
    · cases h
  | utf16 order =>
    cases front16_of_first h with
    | @single c _ hsingle =>
      have hlt := order.unit16_lt b c
      exact ⟨by omega, hsingle⟩
    | pair hhigh hlow hcode => exact hcode ▸ (scalar_pairCode hhigh hlow).writable
  | utf32 order =>
    cases front32_of_first h with
    | scalar hscalar => exact hscalar.writable

/-! ## Accepted texts -/

/-- The text is a sequence of characters. -/
inductive Accepts (charset : Charset) : Bytes → Prop where
  | nil : Accepts charset []
  | character {b : UInt8} {rest : Bytes} {code extra : Nat}
      (hfirst : charset.first b rest = .character code extra)
      (hrest : Accepts charset (rest.drop extra)) : Accepts charset (b :: rest)

/-- A text that UTF-8 accepts is its own decoding. -/
theorem Accepts.decode_utf8 {text : Bytes} (h : Charset.utf8.Accepts text) :
    Charset.utf8.decode text = text := by
  induction h with
  | nil => exact decode_nil _
  | @character b rest code extra hfirst _ ih =>
    rw [decode_character hfirst, ih, (frontUtf8_of_first hfirst).encodeUtf8_eq.1,
      List.cons_append, List.take_append_drop]

/-- What is written for a number is accepted in front of what is accepted. -/
theorem Accepts.encodeUtf8_append {code : Nat} {text : Bytes} (hcode : Writable code)
    (h : Charset.utf8.Accepts text) : Charset.utf8.Accepts (encodeUtf8 code ++ text) := by
  obtain ⟨b, rest, hbytes, hfirst⟩ := firstUtf8_encodeUtf8 hcode.1 hcode.2
  have hread : Charset.utf8.first b (rest ++ text) = .character code rest.length := hfirst text
  rw [hbytes, List.cons_append]
  refine .character hread ?_
  rwa [List.drop_left]

theorem writable_replacement : Writable 0xfffd := by
  decide

theorem accepts_replacement : Charset.utf8.Accepts replacement :=
  List.append_nil replacement ▸ Accepts.nil.encodeUtf8_append writable_replacement

/-- What is written for any characters is accepted. -/
theorem accepts_utf8 (text : List Char) : Charset.utf8.Accepts (Bytes.utf8 text) := by
  induction text with
  | nil => exact .nil
  | cons c text ih =>
    have hscalar : Scalar c.toNat := isScalar_toNat c
    rw [Bytes.utf8_cons, ← encodeUtf8_toNat]
    exact ih.encodeUtf8_append hscalar.writable

/-- Every decoding is a text that UTF-8 accepts. -/
theorem accepts_decode (charset : Charset) (text : Bytes) :
    Charset.utf8.Accepts (charset.decode text) := by
  fun_induction decode charset text with
  | case1 => exact .nil
  | case2 b rest code extra hfirst ih => exact ih.encodeUtf8_append (writable_of_first hfirst)
  | case3 b rest hfirst ih => exact ih.encodeUtf8_append writable_replacement
  | case4 b rest hfirst => exact accepts_replacement

/-- UTF-8 accepts the texts that are their own decodings, and no others. -/
theorem utf8_accepts_iff {text : Bytes} :
    Charset.utf8.Accepts text ↔ Charset.utf8.decode text = text :=
  ⟨Accepts.decode_utf8, fun h => h ▸ accepts_decode .utf8 text⟩

end Charset

/-- Whatever a text is decoded from, UTF-8 accepts it. -/
theorem Encoding.accepts_decode (encoding : Encoding) (text : Bytes) :
    Charset.utf8.Accepts (encoding.decode text) := by
  rw [decode]
  split
  · exact Charset.accepts_decode _ _
  · split
    · exact .nil
    · exact Charset.accepts_replacement

/-! ## Decoding what has been decoded -/

/-- The reads give these pieces, none of which is empty, and then nothing for ever. -/
def Source.ReadsAs {σ : Type} [Source σ] (sizes : Nat → Nat) (s : σ) (pieces : List Bytes) : Prop :=
  (∀ k, (hk : k < pieces.length) → nthRead sizes s k = .ok pieces[k] ∧ pieces[k] ≠ []) ∧
    ∀ k, pieces.length ≤ k → nthRead sizes s k = .ok []

namespace Decoder

variable {σ : Type} [Source σ]

/-- What a decoder gives is UTF-8 without any fault, and the data itself if that is such a text. So
a second decoder for UTF-8 gives it once more, whether it reads from the first decoder or from any
other source of it, in whatever pieces the two are given their data and are asked for the text. -/
theorem reads_again {inner : σ} {data : Bytes} (h : Source.Delivers inner data)
    (encoding : Encoding) {sizes : Nat → Nat} (hpos : ∀ k, 0 < sizes k) :
    ∃ pieces : List Bytes, pieces.flatten = encoding.decode data ∧
      Source.ReadsAs sizes ({ inner, encoding } : Decoder σ) pieces ∧
      Charset.utf8.Accepts pieces.flatten ∧
      (encoding = .plain .utf8 → (pieces.flatten = data ↔ Charset.utf8.Accepts data)) ∧
      Source.Delivers ({ inner, encoding } : Decoder σ) pieces.flatten ∧
      ∀ {τ : Type} [Source τ] {again : τ}, Source.Delivers again pieces.flatten →
        ∀ {sizes' : Nat → Nat}, (∀ k, 0 < sizes' k) → ∃ pieces' : List Bytes,
          pieces'.flatten = pieces.flatten ∧ Source.ReadsAs sizes'
            ({ inner := again, encoding := .plain .utf8 } : Decoder τ) pieces' := by
  have hdelivers := delivers h encoding
  obtain ⟨pieces, hflat, hreads⟩ := hdelivers.reads hpos
  have haccepts : Charset.utf8.Accepts pieces.flatten := hflat ▸ encoding.accepts_decode data
  refine ⟨pieces, hflat, hreads, haccepts, ?_, hflat ▸ hdelivers, ?_⟩
  · rintro rfl
    rw [hflat, Encoding.decode_plain, Charset.utf8_accepts_iff]
  · intro τ _ again hagain sizes' hpos'
    obtain ⟨pieces', hflat', hreads'⟩ := (delivers hagain (.plain .utf8)).reads hpos'
    rw [Encoding.decode_plain, haccepts.decode_utf8] at hflat'
    exact ⟨pieces', hflat', hreads'⟩

/-- A mark, a character, a second half without a first, what it makes of the rest, and a second
decoder in front of the first. -/
theorem reads_again_lone_half :
    let inner : Memory :=
      { rest := [0xff, 0xfe, 0x41, 0, 0, 0xdc, 0xac, 0x20, 0x3d], step := 2 }
    let first : Decoder Memory := { inner, encoding := .markedUtf16 }
    let second : Decoder (Decoder Memory) := { inner := first, encoding := .plain .utf8 }
    let text : Bytes :=
      [0x41, 0xef, 0xbf, 0xbd, 0xea, 0xb3, 0x9c, 0xe3, 0xb4, 0xa0]
    Source.Delivers inner inner.rest ∧
      ∃ pieces pieces' : List Bytes, pieces.flatten = text ∧ pieces'.flatten = text ∧
        Source.ReadsAs (fun _ => 5) first pieces ∧
        Source.ReadsAs (fun k => k + 1) second pieces' := by
  intro inner first second text
  have h : Source.Delivers inner inner.rest := Memory.delivers (by decide) rfl rfl
  have hpos : Nat → 0 < 5 := fun _ => by decide
  have hdecode : Encoding.markedUtf16.decode inner.rest = text := by
    cbv
  obtain ⟨pieces, hflat, hreads, -, -, hdelivers, hagain⟩ := reads_again h .markedUtf16 hpos
  obtain ⟨pieces', hflat', hreads'⟩ := hagain hdelivers Nat.succ_pos
  exact ⟨h, pieces, pieces', hflat.trans hdecode, hflat'.trans (hflat.trans hdecode), hreads,
    hreads'⟩

end Decoder

end TextLines

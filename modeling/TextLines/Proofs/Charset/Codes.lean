import TextLines.Proofs.Charset.Writing

/-!
# Texts as code points

`Charset.codes` are the code points that the decoding of a text consists of (`decode_eq_flatMap`).
UTF-8 reads them back one by one (`codes_flatMap_encodeUtf8`), so nothing is lost when texts are
compared by their code points instead of their bytes (`flatMap_encodeUtf8_eq_iff`).
-/

namespace TextLines

namespace Charset

/-- The code points of the decoding of a text. -/
def codes (charset : Charset) (text : Bytes) : List Nat :=
  match text with
  | [] => []
  | b :: rest =>
    match charset.first b rest with
    | .character code extra => code :: charset.codes (rest.drop extra)
    | .malformed => 0xfffd :: charset.codes rest
    | .incomplete => [0xfffd]
termination_by text.length
decreasing_by
  · simp only [List.length_drop, List.length_cons]
    omega
  · simp

theorem codes_nil (charset : Charset) : charset.codes [] = [] := by
  rw [codes]

theorem codes_character {charset : Charset} {b : UInt8} {rest : Bytes} {code extra : Nat}
    (h : charset.first b rest = .character code extra) :
    charset.codes (b :: rest) = code :: charset.codes (rest.drop extra) := by
  rw [codes, h]

theorem codes_malformed {charset : Charset} {b : UInt8} {rest : Bytes}
    (h : charset.first b rest = .malformed) :
    charset.codes (b :: rest) = 0xfffd :: charset.codes rest := by
  rw [codes, h]

theorem codes_incomplete {charset : Charset} {b : UInt8} {rest : Bytes}
    (h : charset.first b rest = .incomplete) : charset.codes (b :: rest) = [0xfffd] := by
  rw [codes, h]

/-- A decoding is what is written for its code points. -/
theorem decode_eq_flatMap (charset : Charset) (text : Bytes) :
    charset.decode text = (charset.codes text).flatMap encodeUtf8 := by
  fun_induction codes charset text with
  | case1 => exact decode_nil charset
  | case2 b rest code extra hfirst ih => rw [decode_character hfirst, ih, List.flatMap_cons]
  | case3 b rest hfirst ih =>
    rw [decode_malformed hfirst, ih, List.flatMap_cons]
    rfl
  | case4 b rest hfirst =>
    rw [decode_incomplete hfirst, List.flatMap_singleton]
    rfl

/-- A number that stands for a character. -/
def Scalar (code : Nat) : Prop :=
  code < 0x110000 ∧ isSurrogate code = false

instance : DecidablePred Scalar := fun _ => inferInstanceAs (Decidable (_ ∧ _))

/-- What is written for code points is read as these code points. -/
theorem codes_flatMap_encodeUtf8 {codes : List Nat} (h : ∀ code ∈ codes, Scalar code) :
    Charset.utf8.codes (codes.flatMap encodeUtf8) = codes := by
  induction codes with
  | nil => exact codes_nil _
  | cons code codes ih =>
    obtain ⟨hcode, hrest⟩ := List.forall_mem_cons.mp h
    have hsmall : code < 0x80000000 := Nat.lt_trans hcode.1 (by decide)
    obtain ⟨b, rest, hbytes, hfirst⟩ := firstUtf8_encodeUtf8 hsmall hcode.2
    have hread : Charset.utf8.first b (rest ++ codes.flatMap encodeUtf8) =
        .character code rest.length := hfirst _
    rw [List.flatMap_cons, hbytes, List.cons_append, codes_character hread, List.drop_left,
      ih hrest]

/-- Different code points are written differently. -/
theorem flatMap_encodeUtf8_eq_iff {codes codes' : List Nat} (h : ∀ code ∈ codes, Scalar code)
    (h' : ∀ code ∈ codes', Scalar code) :
    codes.flatMap encodeUtf8 = codes'.flatMap encodeUtf8 ↔ codes = codes' := by
  refine ⟨fun heq => ?_, fun heq => heq ▸ rfl⟩
  rw [← codes_flatMap_encodeUtf8 h, heq, codes_flatMap_encodeUtf8 h']

/-- If a character set has characters only, then so have its texts. -/
theorem scalar_of_mem_codes {charset : Charset}
    (h : ∀ b rest code extra, charset.first b rest = .character code extra → Scalar code)
    (text : Bytes) : ∀ code ∈ charset.codes text, Scalar code := by
  have hreplacement : Scalar 0xfffd := by decide
  fun_induction codes charset text with
  | case1 => exact List.forall_mem_nil _
  | case2 b rest code extra hfirst ih =>
    exact List.forall_mem_cons.mpr ⟨h b rest code extra hfirst, ih⟩
  | case3 b rest hfirst ih => exact List.forall_mem_cons.mpr ⟨hreplacement, ih⟩
  | case4 b rest hfirst =>
    exact List.forall_mem_cons.mpr ⟨hreplacement, List.forall_mem_nil _⟩

end Charset

end TextLines

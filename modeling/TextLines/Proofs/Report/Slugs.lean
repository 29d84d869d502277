import TextLines.Report.Slug

/-!
# The lengths of slugs

A slug has the length that is asked for, as far as there is enough to cut (`makeSlug_lengths`),
and a slug for a smaller length begins the slug for a greater one. Two ends of the numbers of 32
bits break this: the greatest length, which cannot be rounded up to whole bytes, and names so long
that their own length wraps around. What the digits for the greatest length are rests on
`overflowBytes`; nothing else does.
-/

namespace TextLines

open Bytes
open Files (Path.fileName)

/-! ## Numbers of 32 bits -/

/-- The number is one of 32 bits with a sign. -/
def Fits32 (n : Int) : Prop :=
  -0x80000000 ≤ n ∧ n ≤ greatest32

instance : DecidablePred Fits32 := fun _ => inferInstanceAs (Decidable (_ ∧ _))

theorem wrap32_of_fits {n : Int} (h : Fits32 n) : wrap32 n = n := by
  obtain ⟨hlow, hhigh⟩ := h
  rw [greatest32] at hhigh
  rw [wrap32, Int.bmod_def]
  omega

/-- Wrapping around makes no number greater that is not negative. -/
theorem wrap32_natCast_le (n : Nat) : wrap32 n ≤ n := by
  rw [wrap32, Int.bmod_def]
  omega

/-- Only the greatest number has no successor. -/
theorem fits32_succ_iff {n : Int} (h : Fits32 n) : Fits32 (n + 1) ↔ n ≠ greatest32 := by
  unfold Fits32 greatest32 at *
  omega

/-! ## Cutting -/

section Cutting

variable {text : Bytes} {length : Int}

theorem cutTo_eq_take (h : Fits32 text.length) (length : Int) :
    cutTo length text = text.take length.toNat := by
  rw [cutTo, wrap32_of_fits h]
  split
  · rfl
  · rw [List.take_of_length_le]
    omega

/-- A text has the length it is cut to if its own length tells that it is longer. -/
theorem length_cutTo_iff (hpos : 0 < length) :
    ((cutTo length text).length : Int) = min length text.length ↔
      (length < text.length → length < wrap32 text.length) := by
  have hle := wrap32_natCast_le text.length
  rw [cutTo]
  split
  · rw [List.length_take]
    omega
  · omega

theorem cutTo_prefix_cutTo {shorter : Int} (h : shorter ≤ length) :
    cutTo shorter text <+: cutTo length text := by
  rw [cutTo, cutTo]
  split
  · split
    · exact List.take_prefix_take_left (by omega)
    · exact List.take_prefix _ _
  · split
    · exact absurd ‹_› (by omega)
    · exact List.prefix_refl _

end Cutting

/-! ## Digits of hashes -/

section Digits

variable {key : Bytes} {length : Int}

theorem hex_take (bytes : Bytes) (n : Nat) : hex (bytes.take n) = (hex bytes).take (2 * n) := by
  induction n generalizing bytes with
  | zero => rw [List.take_zero, Nat.mul_zero, List.take_zero, hex, List.flatMap_nil]
  | succ n ih =>
    cases bytes with
    | nil => rfl
    | cons b rest =>
      simp only [hex, List.take_succ_cons, List.flatMap_cons] at ih ⊢
      rw [ih]
      rfl

theorem length_hex_hash (key : Bytes) : (hex (Sha256.hash key)).length = 64 := by
  rw [length_hex, Sha256.length_hash]

/-- The digits of a slug for a positive length are those of so many bytes, cut to the length. -/
theorem hashPrefix_of_pos (key : Bytes) (hpos : 0 < length) :
    hashPrefix key length =
      (hex (Sha256.hash key)).take (min length.toNat (2 * bytesFor length)) := by
  have hshort : Fits32 (hex ((Sha256.hash key).take (bytesFor length))).length := by
    rw [length_hex, List.length_take, Sha256.length_hash]
    unfold Fits32 greatest32
    omega
  rw [hashPrefix, if_neg (Int.not_le.mpr hpos), cutTo_eq_take hshort, hex_take, List.take_take]

theorem bytesFor_of_ne (hne : length ≠ greatest32) (hpos : 0 < length) :
    bytesFor length = min 32 ((length.toNat + 1) / 2) := by
  rw [bytesFor, if_neg hne]
  omega

/-- Below the greatest length a slug has as many digits as are asked for, or all. -/
theorem hashPrefix_eq_take (hne : length ≠ greatest32) :
    hashPrefix key length = (hex (Sha256.hash key)).take length.toNat := by
  by_cases hpos : 0 < length
  · rw [hashPrefix_of_pos key hpos, List.take_eq_take_iff, length_hex_hash,
      bytesFor_of_ne hne hpos]
    omega
  · rw [hashPrefix, if_pos (Int.not_lt.mp hpos), Int.toNat_of_nonpos (Int.not_lt.mp hpos),
      List.take_zero]

/-- For the greatest length only the first byte is left. -/
theorem hashPrefix_greatest32 (key : Bytes) :
    hashPrefix key greatest32 = (hex (Sha256.hash key)).take 2 := by
  have hbytes : bytesFor greatest32 = 1 := by decide
  rw [hashPrefix_of_pos key (by decide), hbytes]
  rfl

theorem length_hashPrefix (hne : length ≠ greatest32) :
    (hashPrefix key length).length = min length.toNat 64 := by
  rw [hashPrefix_eq_take hne, List.length_take, length_hex_hash]

theorem length_hashPrefix_greatest32 (key : Bytes) : (hashPrefix key greatest32).length = 2 := by
  rw [hashPrefix_greatest32, List.length_take, length_hex_hash]
  rfl

/-- There is a digit for every positive length but the greatest. -/
theorem hashPrefix_ne_nil (key : Bytes) (hpos : 0 < length) (hne : length ≠ greatest32) :
    hashPrefix key length ≠ [] := by
  rw [Ne, ← List.length_eq_zero_iff, length_hashPrefix hne]
  omega

theorem length_hashPrefix_iff (key : Bytes) :
    ((hashPrefix key length).length : Int) = max 0 (min length 64) ↔ length ≠ greatest32 := by
  by_cases hne : length = greatest32
  · rw [hne, length_hashPrefix_greatest32]
    decide
  · rw [length_hashPrefix hne]
    refine iff_of_true ?_ hne
    omega

/-- The digits for a smaller length begin the digits for a greater one, but for the greatest. -/
theorem hashPrefix_prefix_iff {shorter : Int} (hfits : Fits32 length) (hpos : 0 < shorter)
    (hle : shorter ≤ length) :
    hashPrefix key shorter <+: hashPrefix key length ↔
      length ≠ greatest32 ∨ shorter ≤ 2 ∨ shorter = length := by
  by_cases heq : shorter = length
  · subst heq
    exact iff_of_true (List.prefix_refl _) (.inr (.inr rfl))
  have hshorter : shorter ≠ greatest32 := by
    unfold Fits32 greatest32 at *
    omega
  by_cases hne : length = greatest32
  · rw [hashPrefix_eq_take hshorter, hne, hashPrefix_greatest32]
    constructor
    · intro h
      have hlength := h.length_le
      rw [List.length_take, List.length_take, length_hex_hash] at hlength
      omega
    · intro h
      exact List.take_prefix_take_left (by omega)
  · refine iff_of_true ?_ (.inl hne)
    rw [hashPrefix_eq_take hshorter, hashPrefix_eq_take hne]
    exact List.take_prefix_take_left (by omega)

end Digits

/-! ## Slugs -/

/-- What the program names a report directory is what the mode says, for paths whose names are
shorter than 32 bits count. -/
theorem makeSlug_eq_slug {key : Bytes} (hname : Fits32 (Path.fileName key).length)
    (mode : Bytes) (length : Int) :
    makeSlug key mode length =
      slug (if mode == ascii "basename" then .fileName else .hashPrefix) key length := by
  rw [makeSlug]
  by_cases hpos : length ≤ 0
  · rw [if_pos hpos]
    split
    · rw [slug, Int.toNat_of_nonpos hpos, List.take_zero]
    · rw [slug, hashPrefix, if_pos hpos]
  · rw [if_neg hpos]
    split
    · exact cutTo_eq_take hname length
    · rfl

/-- The length of a slug is the one asked for, from none to all of what is cut, but for two cases:
the digits of a hash for the greatest length, whose successor is no number of 32 bits, and a file
name whose length in 32 bits is not above a length that it exceeds. A slug for a smaller length
begins the slug for a greater one, the digits for the greatest length apart. -/
theorem makeSlug_lengths (key : Bytes) {length : Int} (hfits : Fits32 length) :
    let digits := hex (Sha256.hash key)
    let name := Path.fileName key
    (Fits32 (length + 1) ↔ length ≠ greatest32) ∧
    (hashPrefix key length = digits.take (max 0 (min length 64)).toNat ↔ length ≠ greatest32) ∧
    (∀ mode, mode ≠ ascii "basename" →
      (((makeSlug key mode length).length : Int) = max 0 (min length 64) ↔
        length ≠ greatest32)) ∧
    (((makeSlug key (ascii "basename") length).length : Int) = max 0 (min length name.length) ↔
      (0 < length → length < name.length → length < wrap32 name.length)) ∧
    ∀ mode shorter, 0 < shorter → shorter ≤ length →
      (makeSlug key mode shorter <+: makeSlug key mode length ↔
        mode = ascii "basename" ∨ length ≠ greatest32 ∨ shorter ≤ 2 ∨ shorter = length) := by
  intro digits name
  have hdigits : ∀ mode, mode ≠ ascii "basename" → ∀ n, makeSlug key mode n = hashPrefix key n := by
    intro mode hmode n
    rw [makeSlug, beq_eq_false_iff_ne.mpr hmode, if_neg Bool.false_ne_true]
    split
    · rw [hashPrefix, if_pos ‹_›]
    · rfl
  have hname : ∀ n, 0 < n → makeSlug key (ascii "basename") n = cutTo n name := by
    intro n hn
    rw [makeSlug, if_neg (Int.not_le.mpr hn), if_pos (beq_self_eq_true _)]
  refine ⟨fits32_succ_iff hfits, ?_, fun mode hmode => ?_, ?_, fun mode shorter hpos hle => ?_⟩
  · constructor
    · intro h
      refine (length_hashPrefix_iff key).mp ?_
      rw [h, List.length_take, length_hex_hash]
      omega
    · intro hne
      rw [hashPrefix_eq_take hne, List.take_eq_take_iff, length_hex_hash]
      omega
  · rw [hdigits mode hmode]
    exact length_hashPrefix_iff key
  · by_cases hpos : 0 < length
    · rw [hname length hpos, ← length_cutTo_iff hpos, Int.max_eq_right (by omega)]
      exact ⟨fun h _ => h, fun h => h hpos⟩
    · rw [makeSlug, if_pos (Int.not_lt.mp hpos), List.length_nil]
      refine iff_of_true ?_ fun h => absurd h hpos
      omega
  · by_cases hmode : mode = ascii "basename"
    · rw [hmode, hname shorter hpos, hname length (Int.lt_of_lt_of_le hpos hle)]
      exact iff_of_true (cutTo_prefix_cutTo hle) (.inl rfl)
    · rw [hdigits mode hmode, hdigits mode hmode, hashPrefix_prefix_iff hfits hpos hle,
        or_iff_right hmode]

/-- A name is cut to four bytes. -/
theorem makeSlug_lengths_four :
    Fits32 4 ∧ (makeSlug (ascii "data/file.txt") (ascii "basename") 4).length = 4 ∧
      makeSlug (ascii "data/file.txt") (ascii "hashprefix") 3 <+:
        makeSlug (ascii "data/file.txt") (ascii "hashprefix") 4 := by
  have hfits : Fits32 4 := by decide
  obtain ⟨-, -, -, hname, hbegins⟩ := makeSlug_lengths (ascii "data/file.txt") hfits
  have hlength := hname.mpr fun _ _ => by decide
  refine ⟨hfits, ?_, (hbegins (ascii "hashprefix") 3 (by decide) (by decide)).mpr ?_⟩
  · exact Int.ofNat.inj (hlength.trans (by decide))
  · exact .inr (.inl (by decide))

/-- The greatest length gives two digits instead of all. -/
theorem hashPrefix_of_greatest :
    Fits32 greatest32 ∧ ¬ Fits32 (greatest32 + 1) ∧ (hashPrefix (ascii "k") greatest32).length = 2 ∧
      hashPrefix (ascii "k") greatest32 ≠
        (hex (Sha256.hash (ascii "k"))).take (max 0 (min greatest32 64)).toNat := by
  have hfits : Fits32 greatest32 := by decide
  have htwo := length_hashPrefix_greatest32 (ascii "k")
  refine ⟨hfits, fun h => (fits32_succ_iff hfits).mp h rfl, htwo, fun heq => ?_⟩
  rw [heq, List.length_take, length_hex_hash] at htwo
  exact absurd htwo (by decide)

end TextLines

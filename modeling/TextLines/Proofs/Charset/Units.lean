import TextLines.Proofs.Charset.Codes

/-!
# Texts in units of two and of four bytes

What a text of units says can be told without its bytes: `codes16` and `codes32` read it unit by
unit, with U+FFFD for a unit that is no character and not the half of a pair. The unit behind such a
unit is read as if it followed a character.

`Front16` and `Front32` list what a decoder can find at the front of the bytes of such a text.
-/

namespace TextLines

namespace Charset

/-! ## Reading by units -/

/-- The first half of a pair. -/
def IsHigh (unit : Nat) : Prop :=
  0xd800 ≤ unit ∧ unit < 0xdc00

/-- The second half of a pair. -/
def IsLow (unit : Nat) : Prop :=
  0xdc00 ≤ unit ∧ unit ≤ 0xdfff

instance : DecidablePred IsHigh := fun _ => inferInstanceAs (Decidable (_ ∧ _))

instance : DecidablePred IsLow := fun _ => inferInstanceAs (Decidable (_ ∧ _))

theorem isSurrogate_iff (unit : Nat) : isSurrogate unit = true ↔ IsHigh unit ∨ IsLow unit := by
  rw [isSurrogate, Bool.and_eq_true, decide_eq_true_eq, decide_eq_true_eq, IsHigh, IsLow]
  omega

theorem isSurrogate_eq_false_iff (unit : Nat) :
    isSurrogate unit = false ↔ unit < 0xd800 ∨ 0xdfff < unit := by
  rw [isSurrogate, Bool.and_eq_false_iff, decide_eq_false_iff_not, decide_eq_false_iff_not]
  omega

/-- The character of a pair. -/
def pairCode (high low : Nat) : Nat :=
  0x10000 + (high - 0xd800) * 0x400 + (low - 0xdc00)

/-- The character of a unit of two bytes without a partner. -/
def singleCode (unit : Nat) : Nat :=
  if isSurrogate unit then 0xfffd else unit

/-- The code points of units of two bytes. -/
def codes16 : List Nat → List Nat
  | [] => []
  | [unit] => [singleCode unit]
  | unit :: unit' :: units =>
    if IsHigh unit ∧ IsLow unit' then pairCode unit unit' :: codes16 units
    else singleCode unit :: codes16 (unit' :: units)

/-- The code points of units of four bytes. -/
def codes32 (units : List Nat) : List Nat :=
  units.map fun unit => if Scalar unit then unit else 0xfffd

end Charset

namespace ByteOrder

/-- The units of two bytes in a text. -/
def units16 (order : ByteOrder) : Bytes → List Nat
  | a :: b :: rest => order.unit16 a b :: order.units16 rest
  | _ => []

/-- The units of four bytes in a text. -/
def units32 (order : ByteOrder) : Bytes → List Nat
  | a :: b :: c :: d :: rest => order.unit32 a b c d :: order.units32 rest
  | _ => []

theorem unit16_little (a b : UInt8) : little.unit16 a b = a.toNat + 256 * b.toNat := rfl

theorem unit16_big (a b : UInt8) : big.unit16 a b = 256 * a.toNat + b.toNat := rfl

theorem unit16_lt (order : ByteOrder) (a b : UInt8) : order.unit16 a b < 0x10000 := by
  have ha := a.toNat_lt
  have hb := b.toNat_lt
  cases order
  all_goals
    rw [unit16]
    omega

/-- Different bytes make different units. -/
theorem unit16_inj {order : ByteOrder} {a b c d : UInt8} (h : order.unit16 a b = order.unit16 c d) :
    a = c ∧ b = d := by
  have ha := a.toNat_lt
  have hb := b.toNat_lt
  have hc := c.toNat_lt
  have hd := d.toNat_lt
  rw [← UInt8.toNat_inj, ← UInt8.toNat_inj]
  cases order with
  | little =>
    rw [unit16_little, unit16_little] at h
    omega
  | big =>
    rw [unit16_big, unit16_big] at h
    omega

theorem length_units16 (order : ByteOrder) (text : Bytes) :
    (order.units16 text).length = text.length / 2 := by
  fun_induction units16 order text with
  | case1 a b rest ih =>
    simp only [List.length_cons, ih]
    omega
  | case2 text hshort =>
    rcases text with _ | ⟨a, _ | ⟨b, rest⟩⟩
    case cons.cons => exact absurd rfl (hshort a b rest)
    all_goals simp

theorem length_units32 (order : ByteOrder) (text : Bytes) :
    (order.units32 text).length = text.length / 4 := by
  fun_induction units32 order text with
  | case1 a b c d rest ih =>
    simp only [List.length_cons, ih]
    omega
  | case2 text hshort =>
    rcases text with _ | ⟨a, _ | ⟨b, _ | ⟨c, _ | ⟨d, rest⟩⟩⟩⟩
    case cons.cons.cons.cons => exact absurd rfl (hshort a b c d rest)
    all_goals simp

theorem lt_of_mem_units16 (order : ByteOrder) (text : Bytes) :
    ∀ unit ∈ order.units16 text, unit < 0x10000 := by
  fun_induction units16 order text with
  | case1 a b rest ih => exact List.forall_mem_cons.mpr ⟨order.unit16_lt a b, ih⟩
  | case2 => exact List.forall_mem_nil _

end ByteOrder

namespace Charset

variable {order : ByteOrder}

theorem singleCode_lt {unit : Nat} (h : unit < 0x10000) : singleCode unit < 0x10000 := by
  rw [singleCode]
  split
  · decide
  · exact h

theorem scalar_singleCode {unit : Nat} (h : unit < 0x10000) : Scalar (singleCode unit) := by
  rw [singleCode]
  split
  · decide
  · rename_i hsingle
    have hcode : unit < 0x110000 := by omega
    exact ⟨hcode, eq_false_of_ne_true hsingle⟩

theorem scalar_pairCode {high low : Nat} (hhigh : IsHigh high) (hlow : IsLow low) :
    Scalar (pairCode high low) := by
  have hcode : 0x10000 ≤ pairCode high low ∧ pairCode high low < 0x110000 := by
    unfold IsHigh at hhigh
    unfold IsLow at hlow
    unfold pairCode
    omega
  refine ⟨hcode.2, (isSurrogate_eq_false_iff _).mpr (.inr ?_)⟩
  omega

theorem scalar_of_mem_codes16 {units : List Nat} (h : ∀ unit ∈ units, unit < 0x10000) :
    ∀ code ∈ codes16 units, Scalar code := by
  fun_induction codes16 units with
  | case1 => exact List.forall_mem_nil _
  | case2 unit => exact List.forall_mem_singleton.mpr (scalar_singleCode (h _ List.mem_cons_self))
  | case3 unit unit' units hpair ih =>
    exact List.forall_mem_cons.mpr ⟨scalar_pairCode hpair.1 hpair.2,
      ih fun u hu => h u (List.mem_cons_of_mem _ (List.mem_cons_of_mem _ hu))⟩
  | case4 unit unit' units hpair ih =>
    exact List.forall_mem_cons.mpr ⟨scalar_singleCode (h _ List.mem_cons_self),
      ih fun u hu => h u (List.mem_cons_of_mem _ hu)⟩

theorem scalar_of_mem_codes32 (units : List Nat) : ∀ code ∈ codes32 units, Scalar code := by
  intro code hcode
  obtain ⟨unit, -, rfl⟩ := List.mem_map.mp hcode
  split
  · assumption
  · decide

/-! ## The front of a text -/

/-- What can stand at the front of a text in units of two bytes. -/
inductive Front16 (order : ByteOrder) : UInt8 → Bytes → First → Prop where
  /-- A unit that is a character. -/
  | single {a b : UInt8} {rest : Bytes} (h : isSurrogate (order.unit16 a b) = false) :
      Front16 order a (b :: rest) (.character (order.unit16 a b) 1)
  /-- Two halves of a pair. -/
  | pair {a b c d : UInt8} {rest : Bytes} {code : Nat} (hhigh : IsHigh (order.unit16 a b))
      (hlow : IsLow (order.unit16 c d))
      (hcode : code = pairCode (order.unit16 a b) (order.unit16 c d)) :
      Front16 order a (b :: c :: d :: rest) (.character code 3)
  /-- A second half without a first. -/
  | low {a b : UInt8} {rest : Bytes} (h : IsLow (order.unit16 a b)) :
      Front16 order a (b :: rest) .malformed
  /-- A first half without a second. -/
  | high {a b c d : UInt8} {rest : Bytes} (hhigh : IsHigh (order.unit16 a b))
      (hlow : ¬ IsLow (order.unit16 c d)) : Front16 order a (b :: c :: d :: rest) .malformed
  /-- A byte that is left over. -/
  | byte {a : UInt8} : Front16 order a [] .incomplete
  /-- A first half with which the text ends. -/
  | last {a b : UInt8} {rest : Bytes} (hhigh : IsHigh (order.unit16 a b))
      (hshort : rest.length < 2) : Front16 order a (b :: rest) .incomplete

theorem front16_of_first {a : UInt8} {rest : Bytes} {front : First}
    (h : (Charset.utf16 order).first a rest = front) : Front16 order a rest front := by
  subst h
  show Front16 order a rest (firstUtf16 order a rest)
  fun_cases firstUtf16 order a rest
  case case1 => exact .byte
  case case2 b rest unit hsingle =>
    rw [Bool.not_eq_true'] at hsingle
    exact .single hsingle
  case case3 b rest unit hhalf hlow =>
    rw [Bool.not_eq_true', Bool.not_eq_false, isSurrogate_iff] at hhalf
    exact .low (hhalf.resolve_left fun hhigh => Nat.not_le.mpr hhigh.2 hlow)
  case case4 b unit hhalf hhigh c d rest unit' hlow =>
    rw [Bool.not_eq_true', Bool.not_eq_false, isSurrogate_iff] at hhalf
    rw [Bool.and_eq_true, decide_eq_true_eq, decide_eq_true_eq] at hlow
    exact .pair (hhalf.resolve_right fun h => hhigh h.1) hlow rfl
  case case5 b unit hhalf hhigh c d rest unit' hlow =>
    rw [Bool.not_eq_true', Bool.not_eq_false, isSurrogate_iff] at hhalf
    rw [Bool.and_eq_true, decide_eq_true_eq, decide_eq_true_eq] at hlow
    exact .high (hhalf.resolve_right fun h => hhigh h.1) hlow
  case case6 b rest unit hhalf hhigh hshort =>
    rw [Bool.not_eq_true', Bool.not_eq_false, isSurrogate_iff] at hhalf
    refine .last (hhalf.resolve_right fun h => hhigh h.1) ?_
    rcases rest with _ | ⟨c, _ | ⟨d, rest⟩⟩
    case cons.cons => exact absurd rfl (hshort c d rest)
    all_goals simp

theorem first_of_single {a b : UInt8} (h : isSurrogate (order.unit16 a b) = false) (rest : Bytes) :
    (Charset.utf16 order).first a (b :: rest) = .character (order.unit16 a b) 1 := by
  simp only [first, firstUtf16, h, Bool.not_false, if_true]

theorem first_of_last {a b : UInt8} {rest : Bytes} (hhigh : IsHigh (order.unit16 a b))
    (hshort : rest.length < 2) : (Charset.utf16 order).first a (b :: rest) = .incomplete := by
  have hhalf := (isSurrogate_iff _).mpr (.inl hhigh)
  have hfirst : ¬ 0xdc00 ≤ order.unit16 a b := Nat.not_le.mpr hhigh.2
  rcases rest with _ | ⟨c, _ | ⟨d, rest⟩⟩
  case cons.cons =>
    simp only [List.length_cons] at hshort
    omega
  all_goals
    simp only [first, firstUtf16, hhalf, hfirst, Bool.not_true, Bool.false_eq_true, if_false]

/-- What can stand at the front of a text in units of four bytes. -/
inductive Front32 (order : ByteOrder) : UInt8 → Bytes → First → Prop where
  | scalar {a b c d : UInt8} {rest : Bytes} (h : Scalar (order.unit32 a b c d)) :
      Front32 order a (b :: c :: d :: rest) (.character (order.unit32 a b c d) 3)
  | other {a b c d : UInt8} {rest : Bytes} (h : ¬ Scalar (order.unit32 a b c d)) :
      Front32 order a (b :: c :: d :: rest) .malformed
  | last {a : UInt8} {rest : Bytes} (hshort : rest.length < 3) : Front32 order a rest .incomplete

theorem front32_of_first {a : UInt8} {rest : Bytes} {front : First}
    (h : (Charset.utf32 order).first a rest = front) : Front32 order a rest front := by
  subst h
  show Front32 order a rest (firstUtf32 order a rest)
  fun_cases firstUtf32 order a rest
  case case1 b c d rest code hother =>
    refine .other fun hscalar => ?_
    rw [Bool.or_eq_true, decide_eq_true_eq] at hother
    rcases hother with hlarge | hhalf
    · exact Nat.not_lt.mpr hlarge hscalar.1
    · rw [hscalar.2] at hhalf
      cases hhalf
  case case2 b c d rest code hscalar =>
    rw [Bool.or_eq_true, decide_eq_true_eq, not_or, Nat.not_le] at hscalar
    exact .scalar ⟨hscalar.1, eq_false_of_ne_true hscalar.2⟩
  case case3 hshort =>
    refine .last ?_
    rcases rest with _ | ⟨b, _ | ⟨c, _ | ⟨d, rest⟩⟩⟩
    case cons.cons.cons => exact absurd rfl (hshort b c d rest)
    all_goals simp

end Charset

end TextLines

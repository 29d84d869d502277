import TextLines.Proofs.Charset.Units
import TextLines.Proofs.Charset.Decoding
import TextLines.Line.Cut

/-!
# Decoders that fall out of step

Where nothing begins a decoder passes over one byte, whatever the size of a unit. So it reads the
bytes behind a unit that is no character in other units than those in which they were written, and
it reads a text as its units (`Charset.codes16`, `Charset.codes32`) only as long as it stays in step
with them (`Wide.InStep`). Every unit of four bytes must be a character. Among the units of two
bytes every half must have its partner, except that the first half of a pair may be the last unit:
it is taken as a whole, because its end is missing. One more text is read right by chance, when the
bytes between its last two units look like such a half.

Nothing else brings a decoder back in step (`Wide.decode_eq_iff`). A second byte that is passed over
would be too much, since each of them costs a character of its own (`length_le_unitCount`,
`length_le_codes`). And without one the decoder would have to find the same characters one byte
further on, which makes all bytes of the text the same (`codes_shifted_ne`).
-/

namespace TextLines

namespace Charset

variable {order : ByteOrder}

/-! ## Counting units -/

/-- How many units of two bytes code points take. -/
def unitCount (codes : List Nat) : Nat :=
  (codes.map fun code => if code < 0x10000 then 1 else 2).sum

theorem le_pairCode (high low : Nat) : 0x10000 ≤ pairCode high low := by
  unfold pairCode
  omega

theorem unitCount_cons_of_lt {code : Nat} (h : code < 0x10000) (codes : List Nat) :
    unitCount (code :: codes) = unitCount codes + 1 := by
  rw [unitCount, List.map_cons, List.sum_cons, if_pos h, Nat.add_comm]
  rfl

theorem unitCount_cons_of_le {code : Nat} (h : 0x10000 ≤ code) (codes : List Nat) :
    unitCount (code :: codes) = unitCount codes + 2 := by
  rw [unitCount, List.map_cons, List.sum_cons, if_neg (Nat.not_lt.mpr h), Nat.add_comm]
  rfl

/-- Read by units, every unit is accounted for. -/
theorem unitCount_codes16 {units : List Nat} (h : ∀ unit ∈ units, unit < 0x10000) :
    unitCount (codes16 units) = units.length := by
  fun_induction codes16 units with
  | case1 => rfl
  | case2 unit =>
    rw [unitCount_cons_of_lt (singleCode_lt (h _ List.mem_cons_self))]
    rfl
  | case3 unit unit' units hpair ih =>
    have hrest := ih fun u hu => h u (List.mem_cons_of_mem _ (List.mem_cons_of_mem _ hu))
    rw [unitCount_cons_of_le (le_pairCode unit unit'), hrest]
    rfl
  | case4 unit unit' units hpair ih =>
    have hrest := ih fun u hu => h u (List.mem_cons_of_mem _ hu)
    rw [unitCount_cons_of_lt (singleCode_lt (h _ List.mem_cons_self)), hrest]
    rfl

/-- A decoder makes no less of a text than there are units, but for one byte: what it passes over is
a character of its own, and only the end of the text can hold three bytes that count as one. -/
theorem length_le_unitCount (order : ByteOrder) (text : Bytes) :
    text.length ≤ 2 * unitCount ((Charset.utf16 order).codes text) + 1 := by
  fun_induction codes (Charset.utf16 order) text with
  | case1 => exact Nat.zero_le _
  | case2 b rest code extra hfirst ih =>
    cases front16_of_first hfirst with
    | @single c rest hsingle =>
      rw [unitCount_cons_of_lt (order.unit16_lt b c)]
      simp only [List.length_cons, List.drop_succ_cons, List.drop_zero] at ih ⊢
      omega
    | pair hhigh hlow hcode =>
      rw [unitCount_cons_of_le (hcode ▸ le_pairCode _ _)]
      simp only [List.length_cons, List.drop_succ_cons, List.drop_zero] at ih ⊢
      omega
  | case3 b rest hfirst ih =>
    rw [unitCount_cons_of_lt (by decide), List.length_cons]
    omega
  | case4 b rest hfirst =>
    rw [unitCount_cons_of_lt (by decide)]
    cases front16_of_first hfirst with
    | byte => simp
    | last hhigh hshort =>
      simp only [List.length_cons]
      omega

/-- Whole units behind a byte that is passed over cannot all be read. -/
theorem codes_ne_of_skipped {text : Bytes} (hwhole : text.length % 2 = 0) :
    0xfffd :: (Charset.utf16 order).codes text ≠ codes16 (order.units16 text) := by
  intro heq
  have hcount := congrArg unitCount heq
  rw [unitCount_cons_of_lt (by decide), unitCount_codes16 (order.lt_of_mem_units16 text),
    order.length_units16] at hcount
  have hlength := length_le_unitCount order text
  omega

/-! ## One byte further on -/

theorem codes16_cons_eq_cons {unit code : Nat} {units codes : List Nat}
    (h : codes16 (unit :: units) = code :: codes) :
    (code = singleCode unit ∧ codes = codes16 units) ∨
      ∃ unit' units', units = unit' :: units' ∧ IsHigh unit ∧ IsLow unit' ∧
        code = pairCode unit unit' ∧ codes = codes16 units' := by
  rcases units with _ | ⟨unit', units⟩
  · obtain ⟨rfl, rfl⟩ := List.cons.inj h
    exact .inl ⟨rfl, rfl⟩
  · rw [codes16] at h
    split at h
    · rename_i hpair
      obtain ⟨rfl, rfl⟩ := List.cons.inj h
      exact .inr ⟨unit', units, rfl, hpair.1, hpair.2, rfl, rfl⟩
    · obtain ⟨rfl, rfl⟩ := List.cons.inj h
      exact .inl ⟨rfl, rfl⟩

/-- A unit that reads like the next one, one byte further on, in big-endian order. -/
theorem eq_of_unit16_eq {b c d : UInt8}
    (h : ByteOrder.big.unit16 b c = singleCode (ByteOrder.big.unit16 c d)) : d = b := by
  have hc := c.toNat_lt
  have hd := d.toNat_lt
  unfold singleCode at h
  split at h
  · rename_i hhalf
    rw [isSurrogate_iff, IsHigh, IsLow, ByteOrder.unit16_big] at hhalf
    rw [ByteOrder.unit16_big] at h
    omega
  · obtain ⟨rfl, rfl⟩ := ByteOrder.unit16_inj h
    rfl

/-- In little-endian order the byte that two units share tells whether both are halves. -/
theorem ne_of_little {a b c d : UInt8}
    (hhalf : isSurrogate (ByteOrder.little.unit16 a b) = true)
    (hsingle : isSurrogate (ByteOrder.little.unit16 b c) = false) :
    ByteOrder.little.unit16 b c ≠ singleCode (ByteOrder.little.unit16 c d) := by
  intro h
  have ha := a.toNat_lt
  have hb := b.toNat_lt
  rw [isSurrogate_iff, IsHigh, IsLow, ByteOrder.unit16_little] at hhalf
  rw [isSurrogate_eq_false_iff] at hsingle
  unfold singleCode at h
  split at h
  · rw [ByteOrder.unit16_little] at h
    omega
  · obtain ⟨rfl, rfl⟩ := ByteOrder.unit16_inj h
    rw [ByteOrder.unit16_little] at hsingle
    omega

theorem pairCode_inj {high low high' low' : Nat} (hhigh : IsHigh high) (hlow : IsLow low)
    (hhigh' : IsHigh high') (hlow' : IsLow low') (h : pairCode high low = pairCode high' low') :
    high = high' ∧ low = low' := by
  unfold IsHigh at hhigh hhigh'
  unfold IsLow at hlow hlow'
  unfold pairCode at h
  omega

/-- A pair is not found again one byte further on: its halves would be the same. -/
theorem ne_of_pair {b c d e f : UInt8} (hhigh : IsHigh (order.unit16 b c))
    (hlow : IsLow (order.unit16 d e)) (h : order.unit16 b c = order.unit16 c d) :
    order.unit16 d e ≠ order.unit16 e f := by
  intro h'
  obtain ⟨rfl, rfl⟩ := ByteOrder.unit16_inj h
  obtain ⟨rfl, rfl⟩ := ByteOrder.unit16_inj h'
  exact Nat.not_le.mpr hhigh.2 hlow.1

theorem isSurrogate_big {b : UInt8} (hb : b.toNat < 0xd8 ∨ 0xdf < b.toNat) (c : UInt8) :
    isSurrogate (ByteOrder.big.unit16 b c) = false := by
  have hc := c.toNat_lt
  rw [isSurrogate_eq_false_iff, ByteOrder.unit16_big]
  omega

/-- If the first byte belongs to no half, the same characters one byte further on would have to be
made of the same bytes up to the end, and there a byte is left over. -/
theorem codes_shifted_ne {b : UInt8} {rest : Bytes} (hb : b.toNat < 0xd8 ∨ 0xdf < b.toNat)
    (hwhole : rest.length % 2 = 0) :
    (Charset.utf16 .big).codes (b :: rest) ≠ codes16 (ByteOrder.big.units16 rest) := by
  fun_induction ByteOrder.units16 .big rest generalizing b with
  | case1 c d rest ih =>
    intro heq
    rw [codes_character (first_of_single (isSurrogate_big hb c) (d :: rest))] at heq
    rcases codes16_cons_eq_cons heq.symm with ⟨hcode, hrest⟩ | ⟨u, units, -, -, -, hcode, -⟩
    · obtain rfl := eq_of_unit16_eq hcode
      refine ih hb ?_ hrest
      simp only [List.length_cons] at hwhole
      omega
    · have hlt := ByteOrder.big.unit16_lt b c
      have hle := le_pairCode (ByteOrder.big.unit16 c d) u
      omega
  | case2 rest hshort =>
    rcases rest with _ | ⟨c, _ | ⟨d, rest⟩⟩
    · intro heq
      rw [codes_incomplete rfl] at heq
      cases heq
    · cases hwhole
    · exact absurd rfl (hshort c d rest)

/-- One byte behind a half that has no partner, what follows is only read right if it is the last
unit and the text seems to end with the first half of a pair. -/
theorem codes_shifted_iff {a b : UInt8} {rest : Bytes}
    (hhalf : isSurrogate (order.unit16 a b) = true) (hwhole : rest.length % 2 = 0) :
    (Charset.utf16 order).codes (b :: rest) = codes16 (order.units16 rest) ↔
      ∃ c d, rest = [c, d] ∧ IsHigh (order.unit16 b c) ∧
        singleCode (order.unit16 c d) = 0xfffd := by
  constructor
  · intro heq
    -- The first character would have to be there again one byte further on.
    generalize hfirst : (Charset.utf16 order).first b rest = front
    cases front16_of_first hfirst with
    | @single c rest hsingle =>
      -- Only in big-endian order does the shared byte leave open what the next unit is.
      cases order with
      | big =>
        refine absurd heq (codes_shifted_ne ?_ hwhole)
        have hc := c.toNat_lt
        rw [isSurrogate_eq_false_iff, ByteOrder.unit16_big] at hsingle
        omega
      | little =>
        rcases rest with _ | ⟨d, rest⟩
        · cases hwhole
        rw [codes_character hfirst] at heq
        rcases codes16_cons_eq_cons heq.symm with ⟨hcode, -⟩ | ⟨u, units, -, -, -, hcode, -⟩
        · exact absurd hcode (ne_of_little hhalf hsingle)
        · have hlt := ByteOrder.little.unit16_lt b c
          have hle := le_pairCode (ByteOrder.little.unit16 c d) u
          omega
    | @pair c d e rest code hhigh hlow hcode =>
      rcases rest with _ | ⟨f, rest⟩
      · exact absurd hwhole (show ¬ 3 % 2 = 0 by decide)
      rw [codes_character hfirst] at heq
      rcases codes16_cons_eq_cons heq.symm with ⟨hcode', -⟩ | ⟨u, units, hunits, hh, hl, hcode', -⟩
      · have hlt := singleCode_lt (order.unit16_lt c d)
        have hle := le_pairCode (order.unit16 b c) (order.unit16 d e)
        omega
      · obtain ⟨rfl, rfl⟩ := List.cons.inj hunits
        rw [hcode] at hcode'
        obtain ⟨hsame, hsame'⟩ := pairCode_inj hhigh hlow hh hl hcode'
        exact absurd hsame' (ne_of_pair hhigh hlow hsame)
    | low | high =>
      rw [codes_malformed hfirst] at heq
      exact absurd heq (codes_ne_of_skipped hwhole)
    | byte =>
      rw [codes_incomplete hfirst] at heq
      cases heq
    | @last c rest hhigh hshort =>
      rcases rest with _ | ⟨d, _ | ⟨e, rest⟩⟩
      · cases hwhole
      · rw [codes_incomplete hfirst] at heq
        obtain ⟨hlast, -⟩ := List.cons.inj heq
        exact ⟨c, d, rfl, hhigh, hlast.symm⟩
      · simp only [List.length_cons] at hshort
        omega
  · rintro ⟨c, d, rfl, hhigh, hlast⟩
    rw [codes_incomplete (first_of_last hhigh (show [d].length < 2 from Nat.one_lt_two))]
    show [0xfffd] = [singleCode (order.unit16 c d)]
    rw [hlast]

/-! ## Staying in step -/

/-- A text in units of two bytes whose units a decoder reads as they are. -/
inductive InStep16 (order : ByteOrder) : Bytes → Prop where
  | nil : InStep16 order []
  | single {a b : UInt8} {rest : Bytes} (h : isSurrogate (order.unit16 a b) = false)
      (hrest : InStep16 order rest) : InStep16 order (a :: b :: rest)
  | pair {a b c d : UInt8} {rest : Bytes} (hhigh : IsHigh (order.unit16 a b))
      (hlow : IsLow (order.unit16 c d)) (hrest : InStep16 order rest) :
      InStep16 order (a :: b :: c :: d :: rest)
  /-- The text ends with the first half of a pair. -/
  | last {a b : UInt8} (hhigh : IsHigh (order.unit16 a b)) : InStep16 order [a, b]
  /-- A half without its partner and one more unit, which is U+FFFD too, and the bytes between them
  are the first half of a pair. -/
  | across {a b c d : UInt8} (hhalf : isSurrogate (order.unit16 a b) = true)
      (hpair : ¬ (IsHigh (order.unit16 a b) ∧ IsLow (order.unit16 c d)))
      (hhigh : IsHigh (order.unit16 b c)) (hlast : singleCode (order.unit16 c d) = 0xfffd) :
      InStep16 order [a, b, c, d]

theorem codes16_of_single {unit : Nat} (h : isSurrogate unit = false) (units : List Nat) :
    codes16 (unit :: units) = unit :: codes16 units := by
  have hcode : singleCode unit = unit := by rw [singleCode, h, if_neg Bool.false_ne_true]
  rcases units with _ | ⟨unit', units⟩
  · show [singleCode unit] = [unit]
    rw [hcode]
  · have hpair : ¬ (IsHigh unit ∧ IsLow unit') := by
      intro hpair
      rw [(isSurrogate_iff unit).mpr (.inl hpair.1)] at h
      cases h
    rw [codes16, if_neg hpair, hcode]

/-- A half without a partner is U+FFFD, and the next unit is read as if it had been a character. -/
theorem codes16_of_half {unit : Nat} {units : List Nat} (h : isSurrogate unit = true)
    (hpair : IsHigh unit → ∀ unit' ∈ units.head?, ¬ IsLow unit') :
    codes16 (unit :: units) = 0xfffd :: codes16 units := by
  have hcode : singleCode unit = 0xfffd := if_pos h
  rcases units with _ | ⟨unit', units⟩
  · show [singleCode unit] = [0xfffd]
    rw [hcode]
  · rw [codes16, if_neg fun hboth => hpair hboth.1 unit' rfl hboth.2, hcode]

theorem inStep16_single_iff {a b : UInt8} {rest : Bytes}
    (h : isSurrogate (order.unit16 a b) = false) :
    InStep16 order (a :: b :: rest) ↔ InStep16 order rest := by
  have hhalf : ¬ (IsHigh (order.unit16 a b) ∨ IsLow (order.unit16 a b)) := by
    rw [← isSurrogate_iff, h]
    exact Bool.false_ne_true
  refine ⟨fun hstep => ?_, .single h⟩
  cases hstep with
  | single _ hrest => exact hrest
  | pair hhigh | last hhigh => exact absurd (.inl hhigh) hhalf
  | across hhalf' => exact absurd ((isSurrogate_iff _).mp hhalf') hhalf

theorem inStep16_pair_iff {a b c d : UInt8} {rest : Bytes} (hhigh : IsHigh (order.unit16 a b))
    (hlow : IsLow (order.unit16 c d)) :
    InStep16 order (a :: b :: c :: d :: rest) ↔ InStep16 order rest := by
  refine ⟨fun hstep => ?_, .pair hhigh hlow⟩
  cases hstep with
  | single h =>
    rw [(isSurrogate_iff _).mpr (.inl hhigh)] at h
    cases h
  | pair _ _ hrest => exact hrest
  | across _ hpair => exact absurd ⟨hhigh, hlow⟩ hpair

/-- Where nothing begins there is a half, and if it is a first one then no second one follows. -/
theorem Front16.exists_half {a : UInt8} {text : Bytes} (h : Front16 order a text .malformed) :
    ∃ b rest, text = b :: rest ∧ isSurrogate (order.unit16 a b) = true ∧
      (IsHigh (order.unit16 a b) →
        ∃ c d rest', rest = c :: d :: rest' ∧ ¬ IsLow (order.unit16 c d)) := by
  cases h with
  | @low b rest hlow =>
    refine ⟨b, rest, rfl, (isSurrogate_iff _).mpr (.inr hlow), ?_⟩
    intro hhigh
    exact absurd hlow.1 (Nat.not_le.mpr hhigh.2)
  | @high b c d rest hhigh hlow =>
    exact ⟨b, c :: d :: rest, rfl, (isSurrogate_iff _).mpr (.inl hhigh),
      fun _ => ⟨c, d, rest, rfl, hlow⟩⟩

theorem inStep16_half_iff {a b : UInt8} {rest : Bytes}
    (hhalf : isSurrogate (order.unit16 a b) = true)
    (hpair : IsHigh (order.unit16 a b) →
      ∃ c d rest', rest = c :: d :: rest' ∧ ¬ IsLow (order.unit16 c d)) :
    InStep16 order (a :: b :: rest) ↔ ∃ c d, rest = [c, d] ∧ IsHigh (order.unit16 b c) ∧
      singleCode (order.unit16 c d) = 0xfffd := by
  constructor
  · intro hstep
    cases hstep with
    | single h =>
      rw [hhalf] at h
      cases h
    | pair hhigh hlow =>
      obtain ⟨c, d, rest', heq, hlow'⟩ := hpair hhigh
      cases heq
      exact absurd hlow hlow'
    | last hhigh =>
      obtain ⟨c, d, rest', heq, -⟩ := hpair hhigh
      cases heq
    | across _ _ hhigh hlast => exact ⟨_, _, rfl, hhigh, hlast⟩
  · rintro ⟨c, d, rfl, hhigh, hlast⟩
    refine .across hhalf ?_ hhigh hlast
    rintro ⟨hhigh', hlow⟩
    obtain ⟨c', d', rest', heq, hlow'⟩ := hpair hhigh'
    cases heq
    exact hlow' hlow

/-- A decoder reads a text of whole units of two bytes as its units exactly if it stays in step. -/
theorem codes_utf16_iff {text : Bytes} (hwhole : text.length % 2 = 0) :
    (Charset.utf16 order).codes text = codes16 (order.units16 text) ↔ InStep16 order text := by
  fun_induction codes (Charset.utf16 order) text with
  | case1 => exact iff_of_true rfl .nil
  | case2 a rest code extra hfirst ih =>
    cases front16_of_first hfirst with
    | @single b rest hsingle =>
      rw [List.drop_succ_cons, List.drop_zero] at ih ⊢
      rw [ByteOrder.units16, codes16_of_single hsingle, List.cons_inj_right,
        inStep16_single_iff hsingle]
      refine ih ?_
      simp only [List.length_cons] at hwhole
      omega
    | @pair b c d rest code hhigh hlow hcode =>
      have hunits : codes16 (order.units16 (a :: b :: c :: d :: rest)) =
          code :: codes16 (order.units16 rest) := by
        rw [ByteOrder.units16, ByteOrder.units16, codes16, if_pos ⟨hhigh, hlow⟩, hcode]
      rw [List.drop_succ_cons, List.drop_succ_cons, List.drop_succ_cons, List.drop_zero] at ih ⊢
      rw [hunits, List.cons_inj_right, inStep16_pair_iff hhigh hlow]
      refine ih ?_
      simp only [List.length_cons] at hwhole
      omega
  | case3 a rest hfirst =>
    obtain ⟨b, rest, rfl, hhalf, hpair⟩ := (front16_of_first hfirst).exists_half
    have hunits : codes16 (order.units16 (a :: b :: rest)) =
        0xfffd :: codes16 (order.units16 rest) := by
      rw [ByteOrder.units16]
      refine codes16_of_half hhalf fun hhigh => ?_
      obtain ⟨c, d, rest', rfl, hlow⟩ := hpair hhigh
      rw [ByteOrder.units16, List.head?_cons]
      intro unit' hunit'
      obtain rfl := Option.mem_some.mp hunit'
      exact hlow
    rw [hunits, List.cons_inj_right, inStep16_half_iff hhalf hpair]
    refine codes_shifted_iff hhalf ?_
    simp only [List.length_cons] at hwhole
    omega
  | case4 a rest hfirst =>
    cases front16_of_first hfirst with
    | byte => cases hwhole
    | @last b rest hhigh hshort =>
      obtain rfl : rest = [] := by
        refine List.length_eq_zero_iff.mp ?_
        simp only [List.length_cons] at hwhole
        omega
      have hcode : singleCode (order.unit16 a b) = 0xfffd :=
        if_pos ((isSurrogate_iff _).mpr (.inl hhigh))
      refine iff_of_true ?_ (.last hhigh)
      show [0xfffd] = [singleCode (order.unit16 a b)]
      rw [hcode]

/-! ## Units of four bytes -/

/-- What a decoder passes over is a character of its own, so that it makes no less of a text than
there are units. -/
theorem length_le_codes (order : ByteOrder) (text : Bytes) :
    text.length ≤ 4 * ((Charset.utf32 order).codes text).length := by
  fun_induction codes (Charset.utf32 order) text with
  | case1 => exact Nat.zero_le _
  | case2 a rest code extra hfirst ih =>
    cases front32_of_first hfirst
    simp only [List.length_cons, List.drop_succ_cons, List.drop_zero] at ih ⊢
    omega
  | case3 a rest hfirst ih =>
    simp only [List.length_cons]
    omega
  | case4 a rest hfirst =>
    cases front32_of_first hfirst with
    | last hshort =>
      simp only [List.length_cons, List.length_nil]
      omega

/-- A decoder reads a text of whole units of four bytes as its units exactly if every unit is a
character. -/
theorem codes_utf32_iff {text : Bytes} (hwhole : text.length % 4 = 0) :
    (Charset.utf32 order).codes text = codes32 (order.units32 text) ↔
      ∀ unit ∈ order.units32 text, Scalar unit := by
  fun_induction codes (Charset.utf32 order) text with
  | case1 => exact iff_of_true rfl (List.forall_mem_nil _)
  | case2 a rest code extra hfirst ih =>
    cases front32_of_first hfirst with
    | @scalar b c d rest hscalar =>
      rw [List.drop_succ_cons, List.drop_succ_cons, List.drop_succ_cons, List.drop_zero] at ih ⊢
      rw [ByteOrder.units32, codes32, List.map_cons, if_pos hscalar, List.cons_inj_right,
        List.forall_mem_cons, and_iff_right hscalar]
      refine ih ?_
      simp only [List.length_cons] at hwhole
      omega
  | case3 a rest hfirst =>
    cases front32_of_first hfirst with
    | @other b c d rest hother =>
      have hlength := length_le_codes order (b :: c :: d :: rest)
      refine iff_of_false ?_ ?_
      · intro heq
        have hcount := congrArg List.length heq
        rw [codes32, List.length_map, ByteOrder.length_units32] at hcount
        simp only [List.length_cons] at hcount hlength hwhole
        omega
      · intro hall
        exact hother (hall _ List.mem_cons_self)
  | case4 a rest hfirst =>
    cases front32_of_first hfirst with
    | last hshort =>
      simp only [List.length_cons] at hwhole
      omega

end Charset

/-! ## Both sizes -/

open Charset (codes16 codes32 encodeUtf8)

/-- The character sets with units of two and of four bytes. -/
inductive Wide where
  | utf16 (order : ByteOrder)
  | utf32 (order : ByteOrder)

namespace Wide

/-- As a character set. -/
def charset : Wide → Charset
  | .utf16 order => .utf16 order
  | .utf32 order => .utf32 order

/-- The bytes of a unit. -/
def width : Wide → Nat
  | .utf16 _ => 2
  | .utf32 _ => 4

/-- The code points of a text, read unit by unit. -/
def codes : Wide → Bytes → List Nat
  | .utf16 order, text => codes16 (order.units16 text)
  | .utf32 order, text => codes32 (order.units32 text)

/-- The UTF-8 form of a text, read unit by unit. -/
def decode (wide : Wide) (text : Bytes) : Bytes :=
  (wide.codes text).flatMap encodeUtf8

/-- A text whose units a decoder reads as they are. -/
def InStep : Wide → Bytes → Prop
  | .utf16 order, text => Charset.InStep16 order text
  | .utf32 order, text => ∀ unit ∈ order.units32 text, Charset.Scalar unit

theorem scalar_of_mem_codes (wide : Wide) (text : Bytes) :
    ∀ code ∈ wide.codes text, Charset.Scalar code := by
  cases wide with
  | utf16 order => exact Charset.scalar_of_mem_codes16 (order.lt_of_mem_units16 text)
  | utf32 order => exact Charset.scalar_of_mem_codes32 (order.units32 text)

theorem scalar_of_mem_charset_codes (wide : Wide) (text : Bytes) :
    ∀ code ∈ wide.charset.codes text, Charset.Scalar code := by
  refine Charset.scalar_of_mem_codes ?_ text
  intro b rest code extra hfirst
  cases wide with
  | utf16 order =>
    cases Charset.front16_of_first hfirst with
    | single hsingle => exact ⟨Nat.lt_trans (order.unit16_lt _ _) (by decide), hsingle⟩
    | pair hhigh hlow hcode => exact hcode ▸ Charset.scalar_pairCode hhigh hlow
  | utf32 order =>
    cases Charset.front32_of_first hfirst with
    | scalar hscalar => exact hscalar

/-- A decoder reads a text of whole units as its units exactly if it stays in step. -/
theorem decode_eq_iff {wide : Wide} {text : Bytes} (hwhole : text.length % wide.width = 0) :
    wide.charset.decode text = wide.decode text ↔ wide.InStep text := by
  rw [Charset.decode_eq_flatMap, decode, Charset.flatMap_encodeUtf8_eq_iff
    (wide.scalar_of_mem_charset_codes text) (wide.scalar_of_mem_codes text)]
  cases wide with
  | utf16 order => exact Charset.codes_utf16_iff hwhole
  | utf32 order => exact Charset.codes_utf32_iff hwhole

end Wide

namespace Decoder

variable {σ : Type} [Source σ]

/-- Whatever the pieces in which the source inside delivers a text of whole units and whatever the
sizes that are asked for, the reads of a decoder give what the units say exactly if it stays in step
with them. -/
theorem reads_eq_units_iff {inner : σ} {data : Bytes} (h : Source.Delivers inner data) (wide : Wide)
    (hwhole : data.length % wide.width = 0) {sizes : Nat → Nat} (hpos : ∀ k, 0 < sizes k) :
    ∃ pieces : List Bytes, (pieces.flatten = wide.decode data ↔ wide.InStep data) ∧
      (∀ k, (hk : k < pieces.length) →
        Source.nthRead sizes ({ inner, encoding := .plain wide.charset } : Decoder σ) k =
          .ok pieces[k] ∧ pieces[k] ≠ []) ∧
      ∀ k, pieces.length ≤ k →
        Source.nthRead sizes ({ inner, encoding := .plain wide.charset } : Decoder σ) k =
          .ok [] := by
  obtain ⟨pieces, hflat, hreads, hend⟩ := (delivers h (.plain wide.charset)).reads hpos
  refine ⟨pieces, ?_, hreads, hend⟩
  rw [hflat, Encoding.decode_plain]
  exact Wide.decode_eq_iff hwhole

/-- A character, a pair and the first half of another at the end. -/
theorem reads_eq_units_cut_pair :
    let inner : Memory := { rest := [0x41, 0, 0x3d, 0xd8, 0, 0xde, 0x3d, 0xd8], step := 3 }
    let wide := Wide.utf16 .little
    Source.Delivers inner inner.rest ∧ inner.rest.length % wide.width = 0 ∧
      ∃ pieces : List Bytes, pieces.flatten = [0x41, 0xf0, 0x9f, 0x98, 0x80, 0xef, 0xbf, 0xbd] ∧
        ∀ k, (hk : k < pieces.length) →
          Source.nthRead (fun k => k + 1)
            ({ inner, encoding := .plain wide.charset } : Decoder Memory) k = .ok pieces[k] := by
  intro inner wide
  have h : Source.Delivers inner inner.rest := Memory.delivers (by decide) rfl rfl
  have hwhole : inner.rest.length % wide.width = 0 := by decide
  have hstep : wide.InStep inner.rest :=
    .single (by decide) (.pair (by decide) (by decide) (.last (by decide)))
  obtain ⟨pieces, hflat, hreads, -⟩ := reads_eq_units_iff h wide hwhole Nat.succ_pos
  have hdecode : wide.decode inner.rest = [0x41, 0xf0, 0x9f, 0x98, 0x80, 0xef, 0xbf, 0xbd] := by
    decide
  exact ⟨h, hwhole, pieces, (hflat.mpr hstep).trans hdecode, fun k hk => (hreads k hk).1⟩

/-- The second half of a pair without the first, a line feed and a letter: the units say two lines,
and the decoder finds two other characters on one. -/
theorem reads_ne_units_lone_half :
    let inner : Memory := { rest := [0, 0xdc, 0x0a, 0, 0x41, 0], step := 4096 }
    let wide := Wide.utf16 .little
    Encoding.ofName? (Bytes.ascii "UTF-16LE") = some (.plain wide.charset) ∧
      inner.rest.length % wide.width = 0 ∧
      wide.decode inner.rest = [0xef, 0xbf, 0xbd, 0x0a, 0x41] ∧
      Line.cut (wide.decode inner.rest) = [[0xef, 0xbf, 0xbd], [0x41]] ∧
      ∃ pieces : List Bytes,
        pieces.flatten = [0xef, 0xbf, 0xbd, 0xe0, 0xab, 0x9c, 0xe4, 0x84, 0x80, 0xef, 0xbf, 0xbd] ∧
        Line.cut pieces.flatten = [pieces.flatten] ∧
        (∀ k, (hk : k < pieces.length) →
          Source.nthRead (fun _ => 64)
            ({ inner, encoding := .plain wide.charset } : Decoder Memory) k = .ok pieces[k]) ∧
        ∀ k, pieces.length ≤ k →
          Source.nthRead (fun _ => 64)
            ({ inner, encoding := .plain wide.charset } : Decoder Memory) k = .ok [] := by
  intro inner wide
  have h : Source.Delivers inner inner.rest := Memory.delivers (by decide) rfl rfl
  have hname : Encoding.ofName? (Bytes.ascii "UTF-16LE") = some (.plain wide.charset) := by
    rw [Encoding.ofName?, Encoding.normalName, Encoding.dropOptions_of_lt (by decide)]
    decide
  have hdecode : wide.charset.decode inner.rest =
      [0xef, 0xbf, 0xbd, 0xe0, 0xab, 0x9c, 0xe4, 0x84, 0x80, 0xef, 0xbf, 0xbd] := by
    cbv
  have hpos : Nat → 0 < 64 := fun _ => by decide
  obtain ⟨pieces, hflat, hreads, hend⟩ := (delivers h (.plain wide.charset)).reads hpos
  rw [Encoding.decode_plain, hdecode] at hflat
  refine ⟨hname, by decide, by decide, by decide, pieces, hflat, ?_, fun k hk => (hreads k hk).1,
    hend⟩
  rw [hflat]
  decide

end Decoder

end TextLines

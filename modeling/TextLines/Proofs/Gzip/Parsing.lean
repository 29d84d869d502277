import TextLines.Gzip.Block

/-!
# Parsers see bits and nothing else

Bits come to a parser in bytes that arrive one block after another, and some of them have been
taken out of their bytes before. A parser must not notice. There are two sides to this.

* What it reads depends on the bits alone, and it is the same when more bytes follow, unless the
  string was too short to read anything (`Stable`). `Bits.Extends more a b` says that `b` has the
  bits of `a` and then those of the bytes `more`; with no more bytes it says that the two are the
  same string.
* It takes a byte apart only when all bits in front of it are used up (`Frugal`). So behind what it
  has read less than a byte is held, or it has not touched the whole bytes at all.

`Regular` has both. It is put together along the structure of a parser, like `Consumes`.
-/

namespace TextLines.Gzip

namespace Bits

/-- The bits of some bytes. -/
def ofBytes (bytes : Bytes) : Bits :=
  ⟨[], bytes⟩

/-- `b` has the bits of `a` and then those of `more`. -/
def Extends (more : Bytes) (a b : Bits) : Prop :=
  b.toList = a.toList ++ (ofBytes more).toList

theorem length_toList (bits : Bits) : bits.toList.length = bits.size := by
  have h := size_absorb bits
  simpa [absorb, size] using h

@[simp] theorem toList_ofBytes_nil : (ofBytes []).toList = [] := rfl

theorem toList_ofBytes_append (a b : Bytes) :
    (ofBytes (a ++ b)).toList = (ofBytes a).toList ++ (ofBytes b).toList := by
  simp [ofBytes, toList]

theorem toList_append (bits : Bits) (more : Bytes) :
    (bits.append more).toList = bits.toList ++ (ofBytes more).toList := by
  simp [append, toList, ofBytes]

theorem extends_append (bits : Bits) (more : Bytes) : Extends more bits (bits.append more) :=
  toList_append bits more

theorem extends_ofBytes (bytes more : Bytes) :
    Extends more (ofBytes bytes) (ofBytes (bytes ++ more)) :=
  toList_ofBytes_append bytes more

theorem extends_nil_iff {a b : Bits} : Extends [] a b ↔ a.toList = b.toList := by
  rw [Extends, toList_ofBytes_nil, List.append_nil]
  exact eq_comm

theorem toList_absorb (bits : Bits) : bits.absorb.toList = bits.toList := by
  simp [absorb, toList]

theorem Extends.size_eq {more : Bytes} {a b : Bits} (h : Extends more a b) :
    b.size = a.size + 8 * more.length := by
  have hlen := congrArg List.length h
  rw [List.length_append, length_toList, length_toList, length_toList] at hlen
  rw [hlen]
  simp [ofBytes, size]

/-- The number that some bits write, least significant first. -/
def number : List Bool → Nat
  | [] => 0
  | b :: rest => b.toNat + 2 * number rest

theorem number_ofByte (b : UInt8) : number (ofByte b) = b.toNat := by
  have hall : ∀ i : Fin 256, number (ofByte (UInt8.ofNat i)) = i := by decide +kernel
  have hb := hall ⟨b.toNat, b.toNat_lt⟩
  simpa using hb

theorem ofByte_injective {a b : UInt8} (h : ofByte a = ofByte b) : a = b := by
  apply UInt8.toNat_inj.mp
  rw [← number_ofByte, ← number_ofByte, h]

/-- Bytes can be told from their bits. -/
theorem ofBytes_injective {a b : Bytes} (h : (ofBytes a).toList = (ofBytes b).toList) :
    a = b := by
  have hlen : a.length = b.length := by
    have := congrArg List.length h
    rw [length_toList, length_toList] at this
    simp only [ofBytes, size, List.length_nil] at this
    omega
  induction a generalizing b with
  | nil => exact (List.length_eq_zero_iff.mp hlen.symm).symm
  | cons x a ih =>
    rcases b with _ | ⟨y, b⟩
    · simp at hlen
    · have hsplit : ofByte x ++ (ofBytes a).toList = ofByte y ++ (ofBytes b).toList := h
      obtain ⟨hxy, hab⟩ := List.append_inj hsplit rfl
      rw [ofByte_injective hxy, ih hab (by simpa using hlen)]

/-- If less than a byte is held, bits that make whole bytes are whole bytes. -/
theorem eq_ofBytes {bits : Bits} {bytes : Bytes} (hhold : bits.hold.length < 8)
    (h : bits.toList = (ofBytes bytes).toList) : bits = ofBytes bytes := by
  have hlen : bits.size = (ofBytes bytes).size := by
    rw [← length_toList, ← length_toList, h]
  have hnil : bits.hold = [] := by
    apply List.length_eq_zero_iff.mp
    simp only [size, ofBytes, List.length_nil] at hlen
    omega
  obtain ⟨hold, ahead⟩ := bits
  obtain rfl : hold = [] := hnil
  rw [ofBytes_injective h, ofBytes]

theorem toList_of_next? {bits rest : Bits} {bit : Bool} (h : bits.next? = some (bit, rest)) :
    bits.toList = bit :: rest.toList := by
  unfold next? at h
  split at h <;> simp only [Option.some.injEq, Prod.mk.injEq, reduceCtorEq] at h
  · obtain ⟨rfl, rfl⟩ := h
    rfl
  · obtain ⟨rfl, rfl⟩ := h
    rfl

theorem next?_of_toList {bits : Bits} {bit : Bool} {others : List Bool}
    (h : bits.toList = bit :: others) :
    ∃ rest, bits.next? = some (bit, rest) ∧ rest.toList = others := by
  rcases hn : bits.next? with _ | ⟨first, rest⟩
  · have hempty : bits.toList = [] := by
      unfold next? at hn
      split at hn
      · cases hn
      · rfl
      · cases hn
    rw [hempty] at h
    cases h
  · rw [toList_of_next? hn] at h
    obtain ⟨rfl, rfl⟩ := List.cons.inj h
    exact ⟨rest, rfl, rfl⟩

/-- What aligning drops depends on the number of bits alone. -/
theorem toList_align (bits : Bits) :
    bits.align.toList = bits.toList.drop (bits.toList.length % 8) := by
  have hmod : bits.toList.length % 8 = bits.hold.length % 8 := by
    rw [length_toList, size]
    omega
  have hle : bits.hold.length % 8 ≤ bits.hold.length := Nat.mod_le _ _
  rw [hmod, align, toList, toList, List.drop_append_of_le_length hle]

end Bits

/-! ## What parsers may depend on -/

/-- What can come of a parse when more bytes follow. -/
inductive Parse.Extends {α : Type} (more : Bytes) : Parse α → Parse α → Prop where
  /-- The same value. -/
  | done {value : α} {rest rest' : Bits} (hrest : Bits.Extends more rest rest') :
      Extends more (.done value rest) (.done value rest')
  /-- Anything, if there was nothing yet. -/
  | starved (p : Parse α) : Extends more .starved p
  /-- The same fault. -/
  | fault {fault : Fault} {rest rest' : Bits} (hrest : Bits.Extends more rest rest') :
      Extends more (.fault fault rest) (.fault fault rest')

namespace Parser

variable {α β : Type}

/-- What the parser reads depends on the bits alone and stays when more bytes follow. -/
def Stable (p : Parser α) : Prop :=
  ∀ ⦃more : Bytes⦄ ⦃a b : Bits⦄, Bits.Extends more a b → Parse.Extends more (p a) (p b)

/-- The parser takes a byte apart only when all bits in front of it are used up. -/
def Frugal (p : Parser α) : Prop :=
  ∀ ⦃bits : Bits⦄ ⦃value : α⦄ ⦃rest : Bits⦄, p bits = .done value rest →
    rest.hold.length < 8 ∨ rest.ahead = bits.ahead ∧ rest.hold.length ≤ bits.hold.length ∧
      p ⟨bits.hold, []⟩ = .done value ⟨rest.hold, []⟩

/-- The parser does not notice how the bits came. -/
structure Regular (p : Parser α) : Prop where
  stable : Stable p
  frugal : Frugal p

theorem regular_pure (value : α) : Regular (Pure.pure value : Parser α) := by
  refine ⟨fun more a b h => .done h, fun bits v rest h => .inr ?_⟩
  obtain ⟨rfl, rfl⟩ := pure_eq_done.mp h
  exact ⟨rfl, Nat.le_refl _, rfl⟩

theorem regular_fail (fault : Fault) : Regular (fail fault : Parser α) :=
  ⟨fun _ _ _ h => .fault h, fun _ _ _ h => absurd h fail_ne_done⟩

theorem stable_bind {p : Parser α} {q : α → Parser β} (hp : Stable p)
    (hq : ∀ value, Stable (q value)) : Stable (p >>= q) := by
  intro more a b h
  have hstable := hp h
  show Parse.Extends more (bind p q a) (bind p q b)
  unfold bind
  generalize p a = pa at hstable
  generalize p b = pb at hstable
  cases hstable with
  | done hrest => exact hq _ hrest
  | starved => exact .starved _
  | fault hrest => exact .fault hrest

theorem frugal_bind {p : Parser α} {q : α → Parser β} (hp : Frugal p)
    (hq : ∀ value, Frugal (q value)) : Frugal (p >>= q) := by
  intro bits v rest h
  obtain ⟨value, mid, hpd, hqd⟩ := bind_eq_done.mp h
  rcases hq value hqd with hshort | ⟨hahead, hle, hqhold⟩
  · exact .inl hshort
  rcases hp hpd with hshort | ⟨hahead', hle', hphold⟩
  · exact .inl (Nat.lt_of_le_of_lt hle hshort)
  · refine .inr ⟨hahead.trans hahead', Nat.le_trans hle hle', ?_⟩
    exact bind_eq_done.mpr ⟨value, _, hphold, hqhold⟩

/-- What comes after a parser may depend on what it has read. -/
theorem Regular.andThen {p : Parser α} {q : α → Parser β} (hp : Regular p)
    (hq : ∀ value, Regular (q value)) : Regular (p >>= q) :=
  ⟨stable_bind hp.stable fun value => (hq value).stable,
    frugal_bind hp.frugal fun value => (hq value).frugal⟩

theorem regular_bit : Regular bit := by
  refine ⟨fun more a b h => ?_, fun bits value rest h => ?_⟩
  · unfold bit
    rcases ha : a.next? with _ | ⟨first, rest⟩
    · exact .starved _
    · rw [Bits.Extends, Bits.toList_of_next? ha, List.cons_append] at h
      obtain ⟨rest', hb, hrest'⟩ := Bits.next?_of_toList h
      rw [hb]
      exact .done hrest'
  · unfold bit at h
    obtain ⟨hold, ahead⟩ := bits
    cases hold with
    | cons first hold =>
      simp only [Bits.next?, Parse.done.injEq] at h
      obtain ⟨rfl, rfl⟩ := h
      exact .inr ⟨rfl, by simp, rfl⟩
    | nil =>
      cases ahead with
      | nil => simp [Bits.next?] at h
      | cons b ahead =>
        simp only [Bits.next?, Parse.done.injEq] at h
        obtain ⟨rfl, rfl⟩ := h
        exact .inl (by simp [Bits.ofByte])

theorem regular_align : Regular align := by
  refine ⟨fun more a b h => ?_, fun bits value rest h => ?_⟩
  · refine .done ?_
    have hlen : b.toList.length % 8 = a.toList.length % 8 := by
      rw [Bits.length_toList, Bits.length_toList, h.size_eq]
      omega
    have hle : a.toList.length % 8 ≤ a.toList.length := Nat.mod_le _ _
    rw [Bits.Extends, Bits.toList_align, Bits.toList_align, hlen, h,
      List.drop_append_of_le_length hle]
  · simp only [align, Parse.done.injEq, true_and] at h
    subst h
    exact .inr ⟨rfl, by simp [Bits.align], rfl⟩

theorem regular_nat (n : Nat) : Regular (nat n) := by
  induction n with
  | zero => exact regular_pure 0
  | succ n ih =>
    exact regular_bit.andThen fun low => ih.andThen fun high => regular_pure _

theorem regular_bytes (n : Nat) : Regular (bytes n) := by
  induction n with
  | zero => exact regular_pure []
  | succ n ih =>
    exact (regular_nat 8).andThen fun b => ih.andThen fun rest => regular_pure _

end Parser

open TextLines.Gzip.Parser

/-! ## The parsers of a member -/

theorem textFrom_of_done {read : Bytes} {bits rest : Bits} {b : Nat}
    (h : nat 8 bits = .done b rest) :
    textFrom read bits =
      if b = 0 then .done (0 :: read).reverse rest
      else textFrom (UInt8.ofNat b :: read) rest := by
  rw [textFrom]
  split <;> rename_i hn <;> rw [h] at hn
  · obtain ⟨rfl, rfl⟩ := Parse.done.inj hn
    rfl
  · rename_i hne
    obtain ⟨rfl, rfl⟩ := Parse.done.inj hn
    rw [if_neg hne]
  · cases hn
  · cases hn

theorem stable_textFrom (read : Bytes) : Stable (textFrom read) := by
  intro more a b h
  fun_induction textFrom read a generalizing b with
  | case1 read a rest hn =>
    have hstable := (regular_nat 8).stable h
    rw [hn] at hstable
    generalize hnb : nat 8 b = pb at hstable
    cases hstable with
    | done hrest =>
      rw [textFrom_of_done hnb, if_pos rfl]
      exact .done hrest
  | case2 read a byte rest hne hn ih =>
    have hstable := (regular_nat 8).stable h
    rw [hn] at hstable
    generalize hnb : nat 8 b = pb at hstable
    cases hstable with
    | done hrest =>
      rw [textFrom_of_done hnb, if_neg hne]
      exact ih hrest
  | case3 => exact .starved _
  | case4 read a fault rest hn =>
    have hstable := (regular_nat 8).stable h
    rw [hn] at hstable
    generalize hnb : nat 8 b = pb at hstable
    cases hstable with
    | fault hrest =>
      rw [textFrom, hnb]
      exact .fault hrest

theorem frugal_textFrom (read : Bytes) : Frugal (textFrom read) := by
  intro bits value rest h
  fun_induction textFrom read bits with
  | case1 read bits rest' hn =>
    obtain ⟨rfl, rfl⟩ := Parse.done.inj h
    rcases (regular_nat 8).frugal hn with hshort | ⟨hahead, hle, hhold⟩
    · exact .inl hshort
    · refine .inr ⟨hahead, hle, ?_⟩
      rw [textFrom_of_done hhold, if_pos rfl]
  | case2 read bits byte mid hne hn ih =>
    rcases ih h with hshort | ⟨hahead, hle, hrest⟩
    · exact .inl hshort
    rcases (regular_nat 8).frugal hn with hshort | ⟨hahead', hle', hhold⟩
    · exact .inl (Nat.lt_of_le_of_lt hle hshort)
    · refine .inr ⟨hahead.trans hahead', Nat.le_trans hle hle', ?_⟩
      rw [textFrom_of_done hhold, if_neg hne]
      exact hrest
  | case3 => cases h
  | case4 => cases h

theorem regular_textFrom (read : Bytes) : Regular (textFrom read) :=
  ⟨stable_textFrom read, frugal_textFrom read⟩

theorem regular_optional (flags bit : Nat) {p : Parser Bytes} (hp : Regular p) :
    Regular (optional flags bit p) := by
  unfold optional
  split
  · exact hp
  · exact regular_pure []

theorem regular_header : Regular header := by
  refine (regular_bytes 2).andThen fun magic => ?_
  split
  · exact regular_fail _
  refine (regular_nat 8).andThen fun method => (regular_nat 8).andThen fun flags => ?_
  split
  · exact regular_fail _
  split
  · exact regular_fail _
  refine (regular_bytes 6).andThen fun fixed => ?_
  refine (regular_optional flags 2 ?_).andThen fun extra => ?_
  · refine (regular_nat 8).andThen fun low => (regular_nat 8).andThen fun high => ?_
    exact (regular_bytes _).andThen fun _ => regular_pure _
  refine (regular_optional flags 3 (regular_textFrom [])).andThen fun name => ?_
  refine (regular_optional flags 4 (regular_textFrom [])).andThen fun comment => ?_
  split
  · refine (regular_nat 16).andThen fun sum => ?_
    dsimp only
    split
    · exact regular_fail _
    · exact regular_pure _
  · exact regular_pure _

theorem Code.regular_decodeFrom (symbols : Array Nat) (word first index : Nat)
    (counts : List Nat) : Regular (decodeFrom symbols word first index counts) := by
  induction counts generalizing word first index with
  | nil => exact regular_pure none
  | cons count counts ih =>
    refine regular_bit.andThen fun b => ?_
    dsimp only
    split
    · exact regular_pure _
    · exact ih _ _ _

theorem Code.regular_decode (code : Code) : Regular code.decode :=
  regular_decodeFrom code.symbols 0 0 0 code.counts

theorem regular_threeBits (n : Nat) : Regular (threeBits n) := by
  induction n with
  | zero => exact regular_pure []
  | succ n ih =>
    exact (regular_nat 3).andThen fun _ => ih.andThen fun _ => regular_pure _

theorem regular_lengthsFrom (code : Code) (left : Nat) (read : List Nat) :
    Regular (lengthsFrom code left read) := by
  induction left using Nat.strongRecOn generalizing read with
  | ind left ih =>
    unfold lengthsFrom
    split
    · exact regular_pure _
    · refine (Code.regular_decode code).andThen fun symbol => ?_
      split
      · refine (regular_nat 2).andThen fun more => ?_
        split
        · exact regular_fail _
        · split
          · exact regular_fail _
          · exact ih _ (by omega) _
      · refine (regular_nat 3).andThen fun more => ?_
        split
        · exact regular_fail _
        · exact ih _ (by omega) _
      · refine (regular_nat 7).andThen fun more => ?_
        split
        · exact regular_fail _
        · exact ih _ (by omega) _
      · exact ih _ (by omega) _
      · exact ih _ (by omega) _

theorem regular_codes : Regular codes := by
  refine (regular_nat 5).andThen fun literals => (regular_nat 5).andThen fun distances => ?_
  refine (regular_nat 4).andThen fun given => ?_
  dsimp only
  split
  · exact regular_fail _
  refine (regular_threeBits _).andThen fun inOrder => ?_
  split
  · exact regular_fail _
  refine (regular_lengthsFrom _ _ _).andThen fun all => ?_
  split
  · exact regular_fail _
  split
  · exact regular_fail _
  split
  · exact regular_fail _
  · exact regular_pure _

theorem regular_block : Regular block := by
  refine regular_bit.andThen fun last => (regular_nat 2).andThen fun kind => ?_
  split
  · refine regular_align.andThen fun _ => (regular_nat 16).andThen fun length => ?_
    refine (regular_nat 16).andThen fun complement => ?_
    split
    · exact regular_fail _
    · exact regular_pure _
  · exact regular_pure _
  · exact regular_codes.andThen fun _ => regular_pure _
  · exact regular_fail _

theorem regular_tableNumber (table : List (Nat × Nat)) (symbol : Nat) (fault : Fault) :
    Regular (tableNumber table symbol fault) := by
  unfold tableNumber
  split
  · exact regular_fail _
  · exact (regular_nat _).andThen fun _ => regular_pure _

theorem regular_symbol (codes : Codes) : Regular (symbol codes) := by
  refine (Code.regular_decode codes.literals).andThen fun s => ?_
  split
  · exact regular_fail _
  split
  · exact regular_pure _
  split
  · exact regular_pure _
  refine (regular_tableNumber _ _ _).andThen fun length => ?_
  refine (Code.regular_decode codes.distances).andThen fun d => ?_
  split
  · exact regular_fail _
  · exact (regular_tableNumber _ _ _).andThen fun _ => regular_pure _

end TextLines.Gzip

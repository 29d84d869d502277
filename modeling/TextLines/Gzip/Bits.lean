import TextLines.Gzip.Fault

/-!
# Reading bits

Compressed data is a string of bits that arrives in bytes, each with its least significant bit
first. `Bits` is such a string: some bits that have been taken out of their bytes, and the bytes
behind them. A `Parser` reads from the front of it. It may also find that the string is too short
to say anything yet (`starved`), and then it has read nothing: the same parser is run again, from
the same place, when more bytes have come.

`Consumes k p` says that `p` uses up at least `k` bits when it succeeds. It is put together along
the parser's own structure and is what loops over bits terminate by.
-/

namespace TextLines.Gzip

/-- A string of bits. -/
structure Bits where
  /-- Bits in front of the whole bytes. -/
  hold : List Bool
  /-- Whole bytes. -/
  ahead : Bytes
  deriving DecidableEq, Repr

namespace Bits

/-- The bits of a byte, least significant first. -/
def ofByte (b : UInt8) : List Bool :=
  [b &&& 1 != 0, b &&& 2 != 0, b &&& 4 != 0, b &&& 8 != 0, b &&& 16 != 0, b &&& 32 != 0,
    b &&& 64 != 0, b &&& 128 != 0]

/-- All bits in order. -/
def toList (bits : Bits) : List Bool :=
  bits.hold ++ bits.ahead.flatMap ofByte

/-- The number of bits. -/
def size (bits : Bits) : Nat :=
  bits.hold.length + 8 * bits.ahead.length

/-- The first bit and the others. -/
def next? : Bits → Option (Bool × Bits)
  | ⟨bit :: hold, ahead⟩ => some (bit, ⟨hold, ahead⟩)
  | ⟨[], []⟩ => none
  | ⟨[], b :: ahead⟩ => some (b &&& 1 != 0, ⟨(ofByte b).tail, ahead⟩)

/-- The string without the rest of the byte it is in. -/
def align (bits : Bits) : Bits :=
  ⟨bits.hold.drop (bits.hold.length % 8), bits.ahead⟩

/-- The same bits, none of them in whole bytes. -/
def absorb (bits : Bits) : Bits :=
  ⟨bits.toList, []⟩

/-- The string with bytes added behind it. -/
def append (bits : Bits) (bytes : Bytes) : Bits :=
  ⟨bits.hold, bits.ahead ++ bytes⟩

theorem size_next? {bits rest : Bits} {bit : Bool} (h : bits.next? = some (bit, rest)) :
    rest.size + 1 = bits.size := by
  unfold next? at h
  split at h <;> simp only [Option.some.injEq, Prod.mk.injEq, reduceCtorEq] at h
  · rw [← h.2]
    simp only [size, List.length_cons]
    omega
  · rw [← h.2]
    simp only [size, ofByte, List.tail_cons, List.length_cons, List.length_nil]
    omega

theorem size_align_le (bits : Bits) : bits.align.size ≤ bits.size := by
  simp only [align, size, List.length_drop]
  omega

theorem size_absorb (bits : Bits) : bits.absorb.size = bits.size := by
  have h : ∀ bytes : Bytes, (bytes.flatMap ofByte).length = 8 * bytes.length := by
    intro bytes
    induction bytes with
    | nil => rfl
    | cons b bytes ih =>
      simp only [List.flatMap_cons, List.length_append, ih, ofByte, List.length_cons,
        List.length_nil]
      omega
  simp only [absorb, size, toList, List.length_append, h, List.length_nil]
  omega

theorem size_append (bits : Bits) (bytes : Bytes) :
    (bits.append bytes).size = bits.size + 8 * bytes.length := by
  simp only [append, size, List.length_append]
  omega

end Bits

/-! ## Parsers -/

/-- What reading from the front of a string of bits gives. -/
inductive Parse (α : Type) where
  /-- A value, and the bits behind those it was read from. -/
  | done (value : α) (rest : Bits)
  /-- Nothing yet: the string is too short. -/
  | starved
  /-- The data is damaged; so much of the string had not been looked at. -/
  | fault (fault : Fault) (rest : Bits)

/-- A way to read values. -/
def Parser (α : Type) : Type := Bits → Parse α

namespace Parser

/-- Reads nothing. -/
@[inline] def pure {α : Type} (value : α) : Parser α :=
  fun bits => .done value bits

/-- Reads one thing and then another that depends on it. -/
@[inline] def bind {α β : Type} (p : Parser α) (q : α → Parser β) : Parser β :=
  fun bits =>
    match p bits with
    | .done value rest => q value rest
    | .starved => .starved
    | .fault fault rest => .fault fault rest

instance : Monad Parser where
  pure := pure
  bind := bind

/-- Finds a fault. -/
def fail {α : Type} (fault : Fault) : Parser α :=
  fun bits => .fault fault bits

/-- Reads one bit. -/
def bit : Parser Bool :=
  fun bits =>
    match bits.next? with
    | some (b, rest) => .done b rest
    | none => .starved

/-- Passes over the rest of the byte. -/
def align : Parser Unit :=
  fun bits => .done () bits.align

/-- Reads a number of so many bits, least significant first. -/
def nat : Nat → Parser Nat
  | 0 => pure 0
  | n + 1 => do
    let low ← bit
    let high ← nat n
    return low.toNat + 2 * high

/-- Reads so many whole bytes. -/
def bytes : Nat → Parser Bytes
  | 0 => pure []
  | n + 1 => do
    let b ← nat 8
    let rest ← bytes n
    return UInt8.ofNat b :: rest

/-! ### Successful runs -/

theorem pure_eq_done {α : Type} {value v : α} {bits rest : Bits} :
    (Pure.pure value : Parser α) bits = .done v rest ↔ value = v ∧ bits = rest := by
  simp [Pure.pure, pure]

theorem bind_eq_done {α β : Type} {p : Parser α} {q : α → Parser β} {bits rest : Bits} {v : β} :
    (p >>= q) bits = .done v rest ↔
      ∃ value mid, p bits = .done value mid ∧ q value mid = .done v rest := by
  simp only [Bind.bind, bind]
  cases p bits with
  | done value mid =>
    constructor
    · exact fun h => ⟨value, mid, rfl, h⟩
    · rintro ⟨_, _, hp, hq⟩
      cases hp
      exact hq
  | starved => simp
  | fault => simp

theorem fail_ne_done {α : Type} {fault : Fault} {bits rest : Bits} {v : α} :
    (fail fault : Parser α) bits ≠ .done v rest := by
  simp [fail]

/-! ### What parsers use up -/

/-- Whether a parser that succeeds uses up at least `k` bits. -/
def Consumes {α : Type} (k : Nat) (p : Parser α) : Prop :=
  ∀ ⦃bits value rest⦄, p bits = .done value rest → rest.size + k ≤ bits.size

theorem consumes_pure {α : Type} (value : α) : Consumes 0 (pure value) := by
  intro bits v rest h
  simp only [pure, Parse.done.injEq] at h
  simp [h.2]

theorem consumes_bind {α β : Type} {j k : Nat} {p : Parser α} {q : α → Parser β}
    (hp : Consumes j p) (hq : ∀ value, Consumes k (q value)) : Consumes (j + k) (bind p q) := by
  intro bits v rest h
  simp only [bind] at h
  split at h
  · rename_i value mid hm
    have := hp hm
    have := hq value h
    omega
  · simp at h
  · simp at h

theorem Consumes.mono {α : Type} {j k : Nat} {p : Parser α} (h : Consumes k p) (hjk : j ≤ k) :
    Consumes j p := by
  intro bits v rest hd
  have := h hd
  omega

/-- What comes after a parser can only use up more. -/
theorem Consumes.andThen {α β : Type} {k : Nat} {p : Parser α} {q : α → Parser β}
    (hp : Consumes k p) (hq : ∀ value, Consumes 0 (q value)) : Consumes k (p >>= q) :=
  consumes_bind hp hq

theorem consumes_fail {α : Type} (k : Nat) (fault : Fault) :
    Consumes k (fail fault : Parser α) := by
  intro bits v rest h
  simp [fail] at h

theorem consumes_bit : Consumes 1 bit := by
  intro bits v rest h
  simp only [bit] at h
  split at h
  · rename_i b r hn
    simp only [Parse.done.injEq] at h
    have := Bits.size_next? hn
    rw [← h.2]
    omega
  · simp at h

theorem consumes_align : Consumes 0 align := by
  intro bits v rest h
  simp only [align, Parse.done.injEq, true_and] at h
  rw [← h]
  exact Bits.size_align_le bits

theorem consumes_nat (n : Nat) : Consumes n (nat n) := by
  induction n with
  | zero => exact consumes_pure 0
  | succ n ih =>
    refine (consumes_bind consumes_bit fun low => consumes_bind ih fun high =>
      consumes_pure (low.toNat + 2 * high)).mono ?_
    omega

theorem consumes_bytes (n : Nat) : Consumes (8 * n) (bytes n) := by
  induction n with
  | zero => exact consumes_pure []
  | succ n ih =>
    refine (consumes_bind (consumes_nat 8) fun b => consumes_bind ih fun rest =>
      consumes_pure (UInt8.ofNat b :: rest)).mono ?_
    omega

/-- A number of `n` bits is below the `n`-th power of two. -/
theorem nat_lt {n : Nat} {bits rest : Bits} {value : Nat} (h : nat n bits = .done value rest) :
    value < 1 <<< n := by
  rw [Nat.one_shiftLeft]
  induction n generalizing bits rest value with
  | zero =>
    simp only [nat, pure, Parse.done.injEq] at h
    simp [← h.1]
  | succ n ih =>
    obtain ⟨low, mid, _, h⟩ := bind_eq_done.mp h
    obtain ⟨high, mid', hh, h⟩ := bind_eq_done.mp h
    have := ih hh
    have : low.toNat ≤ 1 := by cases low <;> simp
    rw [← (pure_eq_done.mp h).1, Nat.pow_succ]
    omega

end Parser

end TextLines.Gzip

import TextLines.Gzip.Block

/-!
# Decompressing a member

A `Member` is the state of decompressing one gzip member: the place in its structure, and the
output so far. `step` takes the smallest step from there. It may need more bits than there are, or
room for output that there is not; then nothing has happened.

Only output needs room. A step that decides what comes next, the symbol after the last byte that
fitted, say, or a block header or the trailer, is taken without any. So damage right behind the
last byte that was asked for shows at once.

Every step is paid for: `weight` measures what the state still owes in output and transitions, and
`step_paid` says, with a case for every place in a member, that a step gives out no more than it
uses up, each bit being worth `bitWorth`.
-/

namespace TextLines.Gzip

/-- Output that is due inside a compressed block. -/
inductive Due where
  /-- None: the next symbol decides. -/
  | nothing
  /-- So many bytes as they stand so far back, if there is that much output. -/
  | reference (length distance : Nat)
  /-- These bytes. -/
  | bytes (bytes : Bytes)

/-- A place in the structure of a member. -/
inductive Phase where
  /-- In front of the header. -/
  | header
  /-- Behind the header or a block; `last` tells whether it was the last block. -/
  | boundary (last : Bool)
  /-- In a block of stored bytes, so many of which are to come. -/
  | stored (last : Bool) (left : Nat)
  /-- In a compressed block. -/
  | symbols (last : Bool) (codes : Codes) (due : Due)
  /-- In front of the checksum. -/
  | checksum
  /-- In front of the size. -/
  | size
  /-- Where the data is damaged. -/
  | broken (fault : Fault)

/-- The state of decompressing a member. -/
structure Member where
  /-- The place in its structure. -/
  phase : Phase := .header
  /-- The output so far, last byte first. -/
  output : Bytes := []
  /-- The length of the output. -/
  produced : Nat := 0
  /-- The checksum of the output. -/
  crc : UInt32 := 0

/-- What a step comes to. -/
inductive Step where
  /-- The next state, with a byte of output or none. -/
  | went (member : Member) (emitted : Option UInt8) (rest : Bits)
  /-- There are too few bits. -/
  | starved
  /-- There is output and no room for it. -/
  | full
  /-- The member is complete. -/
  | ended (rest : Bits)
  /-- The member is damaged. -/
  | fault (fault : Fault) (rest : Bits)

/-- `n` bytes of `rest` and then of `segment` over and over. -/
def cycle (segment : Bytes) : Bytes → Nat → Bytes
  | _, 0 => []
  | b :: rest, n + 1 => b :: cycle segment rest n
  | [], n + 1 =>
    match segment with
    | [] => []
    | b :: rest => b :: cycle segment rest n

namespace Member

/-- The member with one more byte of output. -/
def emit (m : Member) (b : UInt8) (phase : Phase) : Member where
  phase := phase
  output := b :: m.output
  produced := m.produced + 1
  crc := Crc32.step m.crc b

/-- Goes on from what a parser has read. -/
def onParse {α : Type} (p : Parse α) (next : α → Bits → Step) : Step :=
  match p with
  | .done value rest => next value rest
  | .starved => .starved
  | .fault fault rest => .fault fault rest

/-- The next step. -/
def step (m : Member) (room : Bool) (bits : Bits) : Step :=
  match m.phase with
  | .header =>
    onParse (header bits) fun _ rest => .went { m with phase := .boundary false } none rest
  | .boundary true => .went { m with phase := .checksum } none bits.align
  | .boundary false =>
    onParse (block bits) fun
      | (last, .stored length), rest => .went { m with phase := .stored last length } none rest
      | (last, .compressed codes), rest =>
        .went { m with phase := .symbols last codes .nothing } none rest
  | .stored last 0 => .went { m with phase := .boundary last } none bits
  | .stored last (left + 1) =>
    if room then
      onParse (Parser.nat 8 bits) fun b rest =>
        .went (m.emit (UInt8.ofNat b) (.stored last left)) (some (UInt8.ofNat b)) rest
    else .full
  | .symbols last codes .nothing =>
    onParse (symbol codes bits) fun
      | .literal b, rest => .went { m with phase := .symbols last codes (.bytes [b]) } none rest
      | .reference length distance, rest =>
        .went { m with phase := .symbols last codes (.reference length distance) } none rest
      | .endOfBlock, rest => .went { m with phase := .boundary last } none rest
  | .symbols last codes (.reference length distance) =>
    if !room then .full
    else if m.produced < distance then .fault .distanceTooFar bits
    else
      let bytes := cycle (m.output.take distance).reverse [] length
      .went { m with phase := .symbols last codes (.bytes bytes) } none bits
  | .symbols last codes (.bytes []) =>
    .went { m with phase := .symbols last codes .nothing } none bits
  | .symbols last codes (.bytes (b :: bytes)) =>
    if room then .went (m.emit b (.symbols last codes (.bytes bytes))) (some b) bits else .full
  | .checksum =>
    onParse (Parser.nat 32 bits) fun sum rest =>
      if sum ≠ m.crc.toNat then .fault .checksum rest
      else .went { m with phase := .size } none rest
  | .size =>
    onParse (Parser.nat 32 bits) fun size rest =>
      if size ≠ m.produced % 0x100000000 then .fault .size rest else .ended rest
  | .broken fault => .fault fault bits

/-! ## What steps cost -/

/-- What one bit pays for. -/
def bitWorth : Nat := 600

/-- What is due in a block: two for each byte, and the steps around them. -/
def dueWeight : Due → Nat
  | .nothing => 2
  | .reference length _ => 2 * length + 4
  | .bytes bytes => 2 * bytes.length + 3

/-- What a place owes before more bits are used. -/
def phaseWeight : Phase → Nat
  | .boundary _ => 1
  | .stored _ _ => 2
  | .symbols _ _ due => dueWeight due
  | _ => 0

/-- What a member owes before more bits are used. -/
def weight (m : Member) : Nat :=
  phaseWeight m.phase

theorem length_cycle_le (segment rest : Bytes) (n : Nat) : (cycle segment rest n).length ≤ n := by
  induction n generalizing rest with
  | zero => cases rest <;> simp [cycle]
  | succ n ih =>
    cases rest with
    | cons b rest => simpa [cycle] using ih rest
    | nil =>
      cases segment with
      | nil => simp [cycle]
      | cons b rest => simpa [cycle] using ih rest

/-- A step from `m` is paid for. If it goes on, it owes less than before by what it gives out and
one more, and gives out nothing without room. If it ends the member, it has used up bits. -/
def Paid (m : Member) (room : Bool) (bits : Bits) : Step → Prop
  | .went m' e rest =>
    m'.weight + bitWorth * rest.size + e.toList.length + 1 ≤ m.weight + bitWorth * bits.size ∧
      (room = false → e = none)
  | .ended rest => rest.size < bits.size
  | .starved | .full | .fault _ _ => True

section

variable {m : Member} {room : Bool} {bits : Bits}

/-- A step that only goes to another place is paid for by the bits that it has read, or by what the
old place owed. -/
theorem paid_move {phase : Phase} {rest : Bits}
    (h : phaseWeight phase + bitWorth * rest.size + 1 ≤
      phaseWeight m.phase + bitWorth * bits.size) :
    m.Paid room bits (.went { m with phase } none rest) :=
  ⟨h, fun _ => rfl⟩

/-- A step that gives out a byte pays for it too, and it has room. -/
theorem paid_emit {phase : Phase} {b : UInt8} {rest : Bits} (hroom : room = true)
    (h : phaseWeight phase + bitWorth * rest.size + 2 ≤
      phaseWeight m.phase + bitWorth * bits.size) :
    m.Paid room bits (.went (m.emit b phase) (some b) rest) := by
  refine ⟨h, fun hfull => ?_⟩
  rw [hroom] at hfull
  cases hfull

/-- What a parser does not read costs nothing. -/
theorem paid_onParse {α : Type} {p : Parse α} {next : α → Bits → Step}
    (h : ∀ value rest, p = .done value rest → m.Paid room bits (next value rest)) :
    m.Paid room bits (onParse p next) := by
  cases p with
  | done value rest => exact h value rest rfl
  | starved => trivial
  | fault => trivial

end

/-- Every step is paid for. -/
theorem step_paid (m : Member) (room : Bool) (bits : Bits) :
    m.Paid room bits (m.step room bits) := by
  obtain ⟨phase, output, produced, crc⟩ := m
  rcases phase with _ | (_ | _) | ⟨last, _ | left⟩ | ⟨last, codes, _ | ⟨length, distance⟩ |
    (_ | ⟨b, bytes⟩)⟩ | _ | _ | fault
  case header =>
    refine paid_onParse fun _ rest hread => paid_move ?_
    have := consumes_header hread
    simp only [phaseWeight, bitWorth]
    omega
  case boundary.true =>
    refine paid_move ?_
    have := bits.size_align_le
    simp only [phaseWeight, bitWorth]
    omega
  case boundary.false =>
    refine paid_onParse fun (last, kind) rest hread => ?_
    have := consumes_block hread
    cases kind with
    | stored length =>
      refine paid_move ?_
      simp only [phaseWeight, bitWorth]
      omega
    | compressed codes =>
      refine paid_move ?_
      simp only [phaseWeight, dueWeight, bitWorth]
      omega
  case stored.zero => exact paid_move (by simp only [phaseWeight]; omega)
  case stored.succ =>
    cases room with
    | false => trivial
    | true =>
      refine paid_onParse fun b rest hread => paid_emit rfl ?_
      have := Parser.consumes_nat 8 hread
      simp only [phaseWeight, bitWorth]
      omega
  case symbols.nothing =>
    refine paid_onParse fun symbol rest hread => ?_
    have := consumes_symbol _ hread
    cases symbol with
    | literal b =>
      refine paid_move ?_
      simp only [phaseWeight, dueWeight, bitWorth, List.length_singleton]
      omega
    | reference length distance =>
      -- One bit has to be worth the longest reference.
      have := symbol_length hread
      refine paid_move ?_
      simp only [phaseWeight, dueWeight, bitWorth, maxReference] at this ⊢
      omega
    | endOfBlock =>
      refine paid_move ?_
      simp only [phaseWeight, dueWeight, bitWorth]
      omega
  case symbols.reference =>
    cases room with
    | false => trivial
    | true =>
      show Paid _ _ _ (if produced < distance then _ else _)
      split
      · trivial
      · refine paid_move ?_
        have := length_cycle_le (output.take distance).reverse [] length
        simp only [phaseWeight, dueWeight]
        omega
  case symbols.bytes.nil => exact paid_move (by simp only [phaseWeight, dueWeight]; omega)
  case symbols.bytes.cons =>
    cases room with
    | false => trivial
    | true =>
      refine paid_emit rfl ?_
      simp only [phaseWeight, dueWeight, List.length_cons]
      omega
  case checksum =>
    refine paid_onParse fun sum rest hread => ?_
    have := Parser.consumes_nat 32 hread
    split
    · trivial
    · refine paid_move ?_
      simp only [phaseWeight, bitWorth]
      omega
  case size =>
    refine paid_onParse fun size rest hread => ?_
    have := Parser.consumes_nat 32 hread
    split
    · trivial
    · show rest.size < bits.size
      omega
  case broken => trivial

/-- A step that goes on costs at least what it gives and one more. -/
theorem step_cost {m m' : Member} {room : Bool} {bits rest : Bits} {e : Option UInt8}
    (h : m.step room bits = .went m' e rest) :
    m'.weight + bitWorth * rest.size + e.toList.length + 1 ≤ m.weight + bitWorth * bits.size := by
  have hpaid := m.step_paid room bits
  rw [h] at hpaid
  exact hpaid.1

/-- Without room nothing is given out. -/
theorem step_emits_none {m m' : Member} {bits rest : Bits} {e : Option UInt8}
    (h : m.step false bits = .went m' e rest) : e = none := by
  have hpaid := m.step_paid false bits
  rw [h] at hpaid
  exact hpaid.2 rfl

/-- The step that ends a member uses up the bits of the size. -/
theorem step_ended {m : Member} {room : Bool} {bits rest : Bits}
    (h : m.step room bits = .ended rest) : rest.size < bits.size := by
  have hpaid := m.step_paid room bits
  rw [h] at hpaid
  exact hpaid

/-! ## What has been read -/

theorem onParse_eq_went {α : Type} {p : Parse α} {next : α → Bits → Step} {m : Member}
    {e : Option UInt8} {rest : Bits} (h : onParse p next = .went m e rest) :
    ∃ value mid, p = .done value mid ∧ next value mid = .went m e rest := by
  cases p with
  | done value mid => exact ⟨value, mid, rfl, h⟩
  | starved => simp [onParse] at h
  | fault => simp [onParse] at h

theorem onParse_eq_ended {α : Type} {p : Parse α} {next : α → Bits → Step} {rest : Bits}
    (h : onParse p next = .ended rest) :
    ∃ value mid, p = .done value mid ∧ next value mid = .ended rest := by
  cases p with
  | done value mid => exact ⟨value, mid, rfl, h⟩
  | starved => simp [onParse] at h
  | fault => simp [onParse] at h

end Member

end TextLines.Gzip

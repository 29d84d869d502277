import TextLines.Proofs.Gzip.Unpacking

/-!
# Members as they are written

`Packed` is a well-formed gzip member, field by field: a header with any of its optional parts,
compressed data that gives the text, the checksum of the text and its length. Numbers are written
with their lowest byte first. Compressed data is what the steps between the header and the trailer
accept in one piece (`IsDeflate`).

The lemmas go from what is written to what is read. Each field is read back by its parser
(`nat_ofBytes`, `header_ofBytes`), and so the steps lead through a whole member and use all of it
(`Packed.reaches`). A file of members unpacks to their texts, one after another (`unpacks_members`),
and a file that ends inside a member to a beginning of them (`unpacks_of_torn`).

A text may be stored as it stands, so there is a member for every text (`Packed.stored`).
-/

namespace TextLines.Gzip

open TextLines.Gzip.Parser

/-! ## Reading back what is written -/

namespace Bits

theorem number_append (bits others : List Bool) :
    number (bits ++ others) = number bits + 1 <<< bits.length * number others := by
  rw [Nat.one_shiftLeft]
  induction bits with
  | nil => simp [number]
  | cons b bits ih =>
    rw [List.cons_append, number, ih, number, List.length_cons, Nat.pow_succ, Nat.mul_add,
      Nat.mul_comm _ 2, Nat.mul_assoc, Nat.add_assoc]

theorem number_ofBytes_cons (b : UInt8) (rest : Bytes) :
    number (ofBytes (b :: rest)).toList = b.toNat + 256 * number (ofBytes rest).toList := by
  show number (ofByte b ++ (ofBytes rest).toList) = _
  rw [number_append, number_ofByte]
  rfl

end Bits

open Bits (ofBytes number)

/-- The lowest bytes of a number, lowest first. -/
def littleEndian : Nat → Nat → Bytes
  | 0, _ => []
  | n + 1, value => UInt8.ofNat value :: littleEndian n (value / 256)

@[simp] theorem length_littleEndian (n value : Nat) : (littleEndian n value).length = n := by
  induction n generalizing value with
  | zero => rfl
  | succ n ih => rw [littleEndian, List.length_cons, ih]

theorem number_littleEndian_two (value : Nat) :
    number (ofBytes (littleEndian 2 value)).toList = value % 65536 := by
  simp only [littleEndian, Bits.number_ofBytes_cons, UInt8.toNat_ofNat', Bits.toList_ofBytes_nil,
    number]
  omega

theorem number_littleEndian_four (value : Nat) :
    number (ofBytes (littleEndian 4 value)).toList = value % 0x100000000 := by
  simp only [littleEndian, Bits.number_ofBytes_cons, UInt8.toNat_ofNat', Bits.toList_ofBytes_nil,
    number]
  omega

namespace Parser

theorem bind_of_done {α β : Type} {p : Parser α} {q : α → Parser β} {bits rest : Bits} {value : α}
    (h : p bits = .done value rest) : (p >>= q) bits = q value rest := by
  show bind p q bits = _
  rw [bind, h]

/-- Behind what is read from whole bytes less than a byte is held. -/
theorem Regular.hold_lt {α : Type} {p : Parser α} (hp : Regular p) {bits rest : Bits} {value : α}
    (hbits : bits.hold.length < 8) (h : p bits = .done value rest) : rest.hold.length < 8 := by
  rcases hp.frugal h with hshort | ⟨-, hle, -⟩
  · exact hshort
  · omega

theorem nat_of_toList {bits : Bits} {front others : List Bool}
    (h : bits.toList = front ++ others) :
    ∃ rest, nat front.length bits = .done (number front) rest ∧ rest.toList = others := by
  induction front generalizing bits with
  | nil => exact ⟨bits, rfl, h⟩
  | cons b front ih =>
    obtain ⟨mid, hnext, hmid⟩ := Bits.next?_of_toList h
    obtain ⟨rest, hnat, hrest⟩ := ih hmid
    refine ⟨rest, ?_, hrest⟩
    have hbit : bit bits = .done b mid := by rw [bit, hnext]
    exact bind_eq_done.mpr ⟨b, mid, hbit, bind_eq_done.mpr ⟨_, rest, hnat, rfl⟩⟩

/-- The bits of whole bytes are read as the number that they write. -/
theorem nat_of_toList_ofBytes {n : Nat} {bytes more : Bytes} {bits : Bits}
    (hn : n = 8 * bytes.length) (h : bits.toList = (ofBytes (bytes ++ more)).toList) :
    ∃ rest, nat n bits = .done (number (ofBytes bytes).toList) rest ∧
      rest.toList = (ofBytes more).toList := by
  have hlen : (ofBytes bytes).toList.length = n := by
    rw [hn, Bits.length_toList, Bits.size]
    simp [ofBytes]
  rw [Bits.toList_ofBytes_append] at h
  rw [← hlen]
  exact nat_of_toList h

theorem nat_ofBytes {n : Nat} {bytes : Bytes} (hn : n = 8 * bytes.length) (more : Bytes) :
    nat n (ofBytes (bytes ++ more)) = .done (number (ofBytes bytes).toList) (ofBytes more) := by
  obtain ⟨rest, hnat, hrest⟩ :=
    nat_of_toList_ofBytes hn (rfl : (ofBytes (bytes ++ more)).toList = _)
  rw [hnat, Bits.eq_ofBytes ((regular_nat n).hold_lt (by simp [ofBytes]) hnat) hrest]

theorem nat_byte (b : UInt8) (more : Bytes) :
    nat 8 (ofBytes (b :: more)) = .done b.toNat (ofBytes more) := by
  have h : nat 8 (ofBytes ([b] ++ more)) = .done (number (ofBytes [b]).toList) (ofBytes more) :=
    nat_ofBytes (by simp) more
  rw [Bits.number_ofBytes_cons, Bits.toList_ofBytes_nil] at h
  exact h

theorem bytes_ofBytes (front more : Bytes) :
    bytes front.length (ofBytes (front ++ more)) = .done front (ofBytes more) := by
  induction front with
  | nil => rfl
  | cons b front ih =>
    refine bind_eq_done.mpr ⟨_, _, nat_byte b (front ++ more), ?_⟩
    refine bind_eq_done.mpr ⟨_, _, ih, ?_⟩
    rw [UInt8.ofNat_toNat]
    rfl

end Parser

theorem textFrom_ofBytes {text : Bytes} (htext : 0 ∉ text) (read more : Bytes) :
    textFrom read (ofBytes (text ++ 0 :: more)) =
      .done (read.reverse ++ text ++ [0]) (ofBytes more) := by
  induction text generalizing read with
  | nil =>
    rw [List.nil_append, textFrom_of_done (nat_byte 0 more)]
    simp
  | cons b text ih =>
    rw [List.mem_cons, not_or] at htext
    obtain ⟨hb, htext⟩ := htext
    have hne : b.toNat ≠ 0 := fun h => hb (UInt8.toNat_inj.mp h).symm
    rw [List.cons_append, textFrom_of_done (nat_byte b _), if_neg hne, ih htext,
      UInt8.ofNat_toNat]
    simp

/-! ## Headers -/

/-- What the header of a member says. -/
structure Header where
  /-- Whether the content is declared to be text. -/
  isText : Bool := false
  /-- The time, the level of compression and the system. -/
  fixed : Bytes
  /-- An extra field. -/
  extra : Option Bytes := none
  /-- The name of the file. -/
  name : Option Bytes := none
  /-- A comment. -/
  comment : Option Bytes := none
  /-- Whether the header has a checksum. -/
  checked : Bool := false
  length_fixed : fixed.length = 6
  length_extra : ∀ field ∈ extra, field.length < 65536
  name_text : ∀ text ∈ name, 0 ∉ text
  comment_text : ∀ text ∈ comment, 0 ∉ text

/-- The flags for the optional parts of a header. -/
def headerFlags (isText checked extra name comment : Bool) : Nat :=
  isText.toNat + 2 * checked.toNat + 4 * extra.toNat + 8 * name.toNat + 16 * comment.toNat

/-- A text with the zero byte that ends it. -/
def textField : Option Bytes → Bytes
  | none => []
  | some text => text ++ [0]

/-- A field with its length in front. -/
def extraField : Option Bytes → Bytes
  | none => []
  | some field => littleEndian 2 field.length ++ field

namespace Header

variable (h : Header)

/-- The flags of a header. -/
def flags : Nat :=
  headerFlags h.isText h.checked h.extra.isSome h.name.isSome h.comment.isSome

/-- What the checksum of a header covers. -/
def covered : Bytes :=
  [0x1f, 0x8b] ++ [8, UInt8.ofNat h.flags] ++ h.fixed ++ extraField h.extra ++ textField h.name ++
    textField h.comment

/-- The checksum, if there is one. -/
def checkField : Bytes :=
  if h.checked then littleEndian 2 (Crc32.ofBytes h.covered).toNat else []

/-- The header as it is written. -/
def bytes : Bytes :=
  h.covered ++ h.checkField

end Header

theorem headerFlags_testBit (isText checked extra name comment : Bool) :
    let flags := headerFlags isText checked extra name comment
    flags < 32 ∧ flags.testBit 1 = checked ∧ flags.testBit 2 = extra ∧ flags.testBit 3 = name ∧
      flags.testBit 4 = comment := by
  revert isText checked extra name comment
  decide

theorem optional_ofBytes {flags bit : Nat} {p : Parser Bytes} {present : Bool} {field : Bytes}
    (hflag : flags.testBit bit = present) (more : Bytes)
    (hp : present = true → p (ofBytes (field ++ more)) = .done field (ofBytes more))
    (habsent : present = false → field = []) :
    optional flags bit p (ofBytes (field ++ more)) = .done field (ofBytes more) := by
  rw [optional, hflag]
  cases present with
  | true => exact hp rfl
  | false =>
    rw [habsent rfl]
    rfl

theorem optional_textField {flags bit : Nat} {text : Option Bytes}
    (hflag : flags.testBit bit = text.isSome) (htext : ∀ t ∈ text, 0 ∉ t) (more : Bytes) :
    optional flags bit (textFrom []) (ofBytes (textField text ++ more)) =
      .done (textField text) (ofBytes more) := by
  apply optional_ofBytes hflag more
  · intro hsome
    obtain ⟨t, rfl⟩ := Option.isSome_iff_exists.mp hsome
    have h := textFrom_ofBytes (htext t rfl) [] more
    simpa [textField] using h
  · intro hnone
    rw [Option.isSome_eq_false_iff, Option.isNone_iff_eq_none] at hnone
    rw [hnone, textField]

/-- A header is read as it is written. -/
theorem header_ofBytes (h : Header) (more : Bytes) :
    header (ofBytes (h.bytes ++ more)) = .done () (ofBytes more) := by
  have hbits : h.flags < 32 ∧ h.flags.testBit 1 = h.checked ∧ h.flags.testBit 2 = h.extra.isSome ∧
      h.flags.testBit 3 = h.name.isSome ∧ h.flags.testBit 4 = h.comment.isSome :=
    headerFlags_testBit h.isText h.checked h.extra.isSome h.name.isSome h.comment.isSome
  obtain ⟨hlt, hcheck, hextra, hname, hcomment⟩ := hbits
  have hflags : (UInt8.ofNat h.flags).toNat = h.flags := by
    rw [UInt8.toNat_ofNat']
    exact Nat.mod_eq_of_lt (Nat.lt_trans hlt (by decide))
  have hsplit : h.bytes ++ more = [0x1f, 0x8b] ++ (8 :: UInt8.ofNat h.flags :: (h.fixed ++
      (extraField h.extra ++ (textField h.name ++ (textField h.comment ++
        (h.checkField ++ more)))))) := by
    simp [Header.bytes, Header.covered]
  rw [hsplit]
  refine bind_eq_done.mpr ⟨_, _, bytes_ofBytes [0x1f, 0x8b] _, ?_⟩
  rw [if_neg (by simp)]
  refine bind_eq_done.mpr ⟨_, _, nat_byte 8 _, ?_⟩
  refine bind_eq_done.mpr ⟨_, _, nat_byte _ _, ?_⟩
  rw [hflags, if_neg (by decide), if_neg (Nat.not_le.mpr hlt)]
  have hfixed := bytes_ofBytes h.fixed (extraField h.extra ++ (textField h.name ++
    (textField h.comment ++ (h.checkField ++ more))))
  rw [h.length_fixed] at hfixed
  refine bind_eq_done.mpr ⟨_, _, hfixed, ?_⟩
  refine bind_eq_done.mpr ⟨extraField h.extra, _, optional_ofBytes hextra _ ?_ ?_, ?_⟩
  · intro hsome
    obtain ⟨field, hfield⟩ := Option.isSome_iff_exists.mp hsome
    have hlen := h.length_extra field hfield
    rw [hfield, extraField, littleEndian, littleEndian, littleEndian]
    refine bind_eq_done.mpr ⟨_, _, nat_byte _ _, ?_⟩
    refine bind_eq_done.mpr ⟨_, _, nat_byte _ _, ?_⟩
    have hlow : (UInt8.ofNat field.length).toNat + 256 * (UInt8.ofNat (field.length / 256)).toNat =
        field.length := by
      rw [UInt8.toNat_ofNat', UInt8.toNat_ofNat']
      omega
    rw [hlow]
    refine bind_eq_done.mpr ⟨_, _, bytes_ofBytes field _, ?_⟩
    rw [UInt8.ofNat_toNat, UInt8.ofNat_toNat]
    rfl
  · intro hnone
    rw [Option.isSome_eq_false_iff, Option.isNone_iff_eq_none] at hnone
    rw [hnone, extraField]
  refine bind_eq_done.mpr ⟨_, _, optional_textField hname h.name_text _, ?_⟩
  refine bind_eq_done.mpr ⟨_, _, optional_textField hcomment h.comment_text _, ?_⟩
  by_cases hchecked : h.checked = true
  · have hfield : h.checkField = littleEndian 2 (Crc32.ofBytes h.covered).toNat := by
      rw [Header.checkField, if_pos hchecked]
    rw [if_pos (hcheck.trans hchecked), hfield]
    have hlen := length_littleEndian 2 (Crc32.ofBytes h.covered).toNat
    refine bind_eq_done.mpr ⟨_, _, nat_ofBytes (by rw [hlen]) more, ?_⟩
    rw [number_littleEndian_two, if_neg]
    · rfl
    · intro hne
      exact hne rfl
  · have hfield : h.checkField = [] := by rw [Header.checkField, if_neg hchecked]
    rw [if_neg (by rw [hcheck]; exact hchecked), hfield]
    rfl

/-- Bytes that begin like a header and do not go on like one are none. -/
theorem header_of_notMagic {b : UInt8} (hb : b ≠ 0x8b) (more : Bytes) :
    header (ofBytes (0x1f :: b :: more)) = .fault .headerMagic (ofBytes more) := by
  have hread : bytes 2 (ofBytes (0x1f :: b :: more)) = .done [0x1f, b] (ofBytes more) :=
    bytes_ofBytes [0x1f, b] more
  have hmagic : ([0x1f, b] : Bytes) ≠ [0x1f, 0x8b] := by simpa using hb
  rw [header, bind_of_done hread, if_pos hmagic, fail]

/-! ## Steps around the blocks -/

namespace Member

variable {m : Member} {bits rest : Bits}

theorem step_of_header (hphase : m.phase = .header) (h : header bits = .done () rest) :
    m.step true bits = .went { m with phase := .boundary false } none rest := by
  simp only [step, hphase, h, onParse]

theorem step_fault_of_header {fault : Fault} (hphase : m.phase = .header)
    (h : header bits = .fault fault rest) : m.step true bits = .fault fault rest := by
  simp only [step, hphase, h, onParse]

theorem step_of_boundary (hphase : m.phase = .boundary true) :
    m.step true bits = .went { m with phase := .checksum } none bits.align := by
  simp only [step, hphase]

theorem step_of_checksum (hphase : m.phase = .checksum)
    (h : nat 32 bits = .done m.crc.toNat rest) :
    m.step true bits = .went { m with phase := .size } none rest := by
  simp only [step, hphase, h, onParse]
  exact if_neg fun hne => hne rfl

theorem step_of_size (hphase : m.phase = .size)
    (h : nat 32 bits = .done (m.produced % 0x100000000) rest) :
    m.step true bits = .ended rest := by
  simp only [step, hphase, h, onParse]
  exact if_neg fun hne => hne rfl

end Member

/-! ## Members -/

/-- Whether the steps behind a header take `data` as the blocks of a member, up to the last bits of
its last byte, and give `text`. -/
def IsDeflate (data text : Bytes) : Prop :=
  ∃ m rest, Reaches { phase := .boundary false } (ofBytes data) text m rest ∧
    m.phase = .boundary true ∧ rest.hold.length < 8 ∧ rest.ahead = []

/-- The checksum and the length of a text. -/
def trailer (text : Bytes) : Bytes :=
  littleEndian 4 (Crc32.ofBytes text).toNat ++ littleEndian 4 text.length

/-- A well-formed member. -/
structure Packed where
  /-- Its header. -/
  header : Header
  /-- Its blocks. -/
  data : Bytes
  /-- What it holds. -/
  text : Bytes
  isDeflate : IsDeflate data text

namespace Packed

variable (p : Packed)

/-- The member as it is written. -/
def bytes : Bytes :=
  p.header.bytes ++ (p.data ++ trailer p.text)

/-- A member begins with these four bytes, and more than six follow. -/
theorem bytes_eq : ∃ (flags : UInt8) (more : Bytes),
    p.bytes = 0x1f :: 0x8b :: 8 :: flags :: more ∧ flags < 32 ∧ 6 ≤ more.length := by
  have hflags : p.header.flags < 32 := (headerFlags_testBit _ _ _ _ _).1
  refine ⟨UInt8.ofNat p.header.flags, _, by
    simp only [bytes, Header.bytes, Header.covered, List.cons_append, List.nil_append,
      List.append_assoc]; rfl, ?_, ?_⟩
  · rw [UInt8.lt_iff_toNat_lt, UInt8.toNat_ofNat', Nat.mod_eq_of_lt (by omega)]
    exact hflags
  · rw [List.length_append, p.header.length_fixed]
    omega

/-- The steps lead through a whole member, and its end uses up all that is left. -/
theorem reaches : ∃ m mid rest, Reaches {} (ofBytes p.bytes) p.text m mid ∧
    m.step true mid = .ended rest ∧ rest.toList = [] := by
  obtain ⟨m, tail, hreach, hphase, hhold, hahead⟩ := p.isDeflate
  obtain ⟨tail', hblocks, htail'⟩ := hreach.extend (Bits.extends_ofBytes p.data (trailer p.text))
  have hcrc : m.crc = Crc32.ofBytes p.text := hblocks.grew.crc
  have hproduced : m.produced = p.text.length := hblocks.grew.produced.trans (Nat.zero_add _)
  -- The trailer begins at the next whole byte.
  have halign : tail'.align.toList = (ofBytes (trailer p.text)).toList := by
    have htail : tail.toList = tail.hold := by simp [Bits.toList, hahead]
    rw [Bits.Extends, htail] at htail'
    have hmod : (tail.hold ++ (ofBytes (trailer p.text)).toList).length % 8 = tail.hold.length := by
      rw [List.length_append, Bits.length_toList]
      simp only [Bits.size, ofBytes, List.length_nil]
      omega
    rw [Bits.toList_align, htail', hmod, List.drop_left]
  obtain ⟨atSize, hsum, hatSize⟩ := nat_of_toList_ofBytes (n := 32) (by simp) halign
  rw [← List.append_nil (littleEndian 4 p.text.length)] at hatSize
  obtain ⟨rest, hsize, hrest⟩ := nat_of_toList_ofBytes (n := 32) (by simp) hatSize
  rw [number_littleEndian_four, Nat.mod_eq_of_lt (UInt32.toNat_lt _), ← hcrc] at hsum
  rw [number_littleEndian_four, ← hproduced] at hsize
  have hfrom := Member.step_of_header (m := {}) rfl
    (header_ofBytes p.header (p.data ++ trailer p.text))
  have hto := Member.step_of_checksum (m := { m with phase := .checksum }) rfl hsum
  have hend := Member.step_of_size (m := { m with phase := .size }) rfl hsize
  refine ⟨_, atSize, rest, .step hfrom ?_, hend, hrest⟩
  have hall := hblocks.trans (.step (Member.step_of_boundary hphase) (.step hto (.refl _ _)))
  rw [Option.toList_none, List.nil_append, List.nil_append, List.append_nil] at hall
  exact hall

/-- With more bytes behind it a member is unpacked just the same. -/
theorem reaches_before (behind : Bytes) :
    ∃ m mid rest, Reaches {} (ofBytes (p.bytes ++ behind)) p.text m mid ∧
      m.step true mid = .ended rest ∧ rest.toList = (ofBytes behind).toList := by
  obtain ⟨m, mid, rest, hreach, hend, hrest⟩ := p.reaches
  obtain ⟨mid', hreach', hmid'⟩ := hreach.extend (Bits.extends_ofBytes p.bytes behind)
  obtain ⟨rest', hend', hrest'⟩ := Member.step_ended_of_extends hmid' hend
  refine ⟨m, mid', rest', hreach', hend', ?_⟩
  rw [hrest', hrest, List.nil_append]

end Packed

variable {members : List Packed} {behind text : Bytes} {ending : Ending}

/-- What the members are, one after another. -/
def fileOf (members : List Packed) : Bytes :=
  (members.map Packed.bytes).flatten

/-- What the members hold, one after another. -/
def textOf (members : List Packed) : Bytes :=
  (members.map Packed.text).flatten

/-- A file of members may go on with anything that begins like a member. -/
theorem unpacks_append (members : List Packed) (hbehind : behind.head? = some 0x1f)
    (h : Unpacks {} (ofBytes behind) text ending) :
    Unpacks {} (ofBytes (fileOf members ++ behind)) (textOf members ++ text) ending := by
  induction members with
  | nil => exact h
  | cons p members ih =>
    show Unpacks {} (ofBytes ((p.bytes ++ fileOf members) ++ behind))
      ((p.text ++ textOf members) ++ text) ending
    rw [List.append_assoc, List.append_assoc]
    obtain ⟨m, mid, rest, hreach, hend, hrest⟩ := p.reaches_before (fileOf members ++ behind)
    refine hreach.unpacks (.another hend hrest ?_ ih)
    cases members with
    | nil => exact hbehind
    | cons q members =>
      obtain ⟨flags, more, hq, -⟩ := q.bytes_eq
      show ((q.bytes ++ fileOf members) ++ behind).head? = some 0x1f
      rw [hq]
      rfl

/-- A file of members with something behind it that does not begin like a member. -/
theorem unpacks_members (hne : members ≠ []) (hbehind : behind.head? ≠ some 0x1f) :
    Unpacks {} (ofBytes (fileOf members ++ behind)) (textOf members) (.complete behind) := by
  obtain ⟨front, last, rfl⟩ := List.eq_nil_or_concat members |>.resolve_left hne
  obtain ⟨m, mid, rest, hreach, hend, hrest⟩ := last.reaches_before behind
  obtain ⟨flags, more, hlast, -⟩ := last.bytes_eq
  have hhead : (last.bytes ++ behind).head? = some 0x1f := by
    rw [hlast]
    rfl
  have hall := unpacks_append front hhead
    (hreach.unpacks (.complete hend hrest hbehind))
  simpa [fileOf, textOf] using hall

/-- A file of members with something behind them that begins like a member and is none. -/
theorem unpacks_notMagic {b : UInt8} (hb : b ≠ 0x8b) (more : Bytes) :
    Unpacks {} (ofBytes (fileOf members ++ 0x1f :: b :: more)) (textOf members)
      (.damaged .headerMagic) := by
  have hstep := Member.step_fault_of_header (m := {}) rfl (header_of_notMagic hb more)
  have h : Unpacks {} (ofBytes (fileOf members ++ 0x1f :: b :: more)) (textOf members ++ []) _ :=
    unpacks_append members rfl (.damaged hstep)
  rwa [List.append_nil] at h

/-- If a file of members ends inside one of them, what comes out is a beginning of what they hold,
and then the end is missed. -/
theorem unpacks_torn {torn : Bytes} (hbegins : torn <+: fileOf members)
    (htorn : ∀ k, 0 < k → torn ≠ fileOf (members.take k)) :
    ∃ text, text <+: textOf members ∧ Unpacks {} (ofBytes torn) text .cut := by
  induction members generalizing torn with
  | nil =>
    obtain rfl : torn = [] := List.prefix_nil.mp hbegins
    exact ⟨[], List.nil_prefix, .cut rfl⟩
  | cons p members ih =>
    have hfile : fileOf (p :: members) = p.bytes ++ fileOf members := rfl
    have htext : textOf (p :: members) = p.text ++ textOf members := rfl
    rw [htext]
    have hfirst : torn ≠ p.bytes := by
      have h := htorn 1 (by omega)
      rwa [List.take_succ_cons, List.take_zero, fileOf, List.map_singleton, List.flatten_singleton]
        at h
    obtain ⟨missing, hmissing⟩ := hbegins
    rw [hfile] at hmissing
    rcases List.append_eq_append_iff.mp hmissing with ⟨lost, hp, -⟩ | ⟨beyond, rfl, hbeyond⟩
    · -- The file ends inside the first member.
      obtain ⟨m, mid, rest, hreach, hend, hrest⟩ := p.reaches
      have hlost : lost ≠ [] := by
        rintro rfl
        exact hfirst (by rw [hp, List.append_nil])
      rw [hp] at hreach
      obtain ⟨text, htext, h⟩ := hreach.cut hend hrest (Bits.extends_ofBytes torn lost) hlost
      exact ⟨text, htext.trans (List.prefix_append _ _), h⟩
    · have hne : beyond ≠ [] := by
        rintro rfl
        exact hfirst (List.append_nil _)
      have htorn' : ∀ k, 0 < k → beyond ≠ fileOf (members.take k) := by
        rintro k - rfl
        exact htorn (k + 1) (by omega) rfl
      obtain ⟨text, htext, h⟩ := ih ⟨missing, hbeyond.symm⟩ htorn'
      obtain ⟨m, mid, rest, hreach, hend, hrest⟩ := p.reaches_before beyond
      have hhead : beyond.head? = some 0x1f := by
        rcases members with _ | ⟨q, members⟩
        · cases beyond with
          | nil => exact absurd rfl hne
          | cons b beyond => cases hbeyond
        · obtain ⟨flags, more, hq, -⟩ := q.bytes_eq
          rcases beyond with _ | ⟨b, beyond⟩
          · exact absurd rfl hne
          · have hb : q.bytes ++ fileOf members = b :: beyond ++ missing := hbeyond
            rw [hq] at hb
            rw [← (List.cons.inj hb).1, List.head?_cons]
      exact ⟨p.text ++ text, (List.prefix_append_right_inj _).mpr htext,
        hreach.unpacks (.another hend hrest hhead h)⟩

/-! ## Stored members -/

/-- A text of less than 64 KiB as a block of its own. -/
def storedBlock (last : Bool) (text : Bytes) : Bytes :=
  last.toUInt8 :: (littleEndian 2 text.length ++ (littleEndian 2 (65535 - text.length) ++ text))

/-- A text as blocks that store it. -/
def storedBlocks (text : Bytes) : Bytes :=
  if text.length ≤ 65535 then storedBlock true text
  else storedBlock false (text.take 65535) ++ storedBlocks (text.drop 65535)
termination_by text.length
decreasing_by
  rw [List.length_drop]
  omega

theorem block_ofBytes {text : Bytes} (hlen : text.length ≤ 65535) (last : Bool) (more : Bytes) :
    block (ofBytes (storedBlock last text ++ more)) =
      .done (last, .stored text.length) (ofBytes (text ++ more)) := by
  have hbytes : storedBlock last text ++ more = last.toUInt8 :: (littleEndian 2 text.length ++
      (littleEndian 2 (65535 - text.length) ++ (text ++ more))) := by
    simp [storedBlock]
  have hlow := number_littleEndian_two text.length
  have hhigh := number_littleEndian_two (65535 - text.length)
  rw [hbytes]
  -- The first three bits, and then the rest of their byte is passed over.
  refine bind_eq_done.mpr ⟨last, ⟨(Bits.ofByte last.toUInt8).tail, _⟩, by cases last <;> rfl, ?_⟩
  refine bind_eq_done.mpr ⟨0, ⟨[false, false, false, false, false], _⟩, by cases last <;> rfl, ?_⟩
  refine bind_eq_done.mpr ⟨(), ofBytes _, rfl, ?_⟩
  refine bind_eq_done.mpr ⟨_, _, nat_ofBytes (by simp) _, ?_⟩
  refine bind_eq_done.mpr ⟨_, _, nat_ofBytes (by simp) _, ?_⟩
  rw [hlow, hhigh, Nat.mod_eq_of_lt (by omega), if_neg (by omega)]
  rfl

theorem reaches_stored {m : Member} {last : Bool} {text : Bytes}
    (hphase : m.phase = .stored last text.length) (more : Bytes) :
    ∃ m', Reaches m (ofBytes (text ++ more)) text m' (ofBytes more) ∧
      m'.phase = .boundary last := by
  induction text generalizing m with
  | nil =>
    have hstep : m.step true (ofBytes more) =
        .went { m with phase := .boundary last } none (ofBytes more) := by
      simp only [Member.step, hphase, List.length_nil]
    exact ⟨_, .step hstep (.refl _ _), rfl⟩
  | cons b text ih =>
    have hstep : m.step true (ofBytes (b :: (text ++ more))) =
        .went (m.emit b (.stored last text.length)) (some b) (ofBytes (text ++ more)) := by
      simp only [Member.step, hphase, List.length_cons, nat_byte, Member.onParse,
        UInt8.ofNat_toNat, if_true]
    obtain ⟨m', hreach, hm'⟩ := ih (m := m.emit b (.stored last text.length)) rfl
    exact ⟨m', .step hstep hreach, hm'⟩

theorem reaches_storedBlock {m : Member} {text : Bytes} (hphase : m.phase = .boundary false)
    (hlen : text.length ≤ 65535) (last : Bool) (more : Bytes) :
    ∃ m', Reaches m (ofBytes (storedBlock last text ++ more)) text m' (ofBytes more) ∧
      m'.phase = .boundary last := by
  have hstep : m.step true (ofBytes (storedBlock last text ++ more)) =
      .went { m with phase := .stored last text.length } none (ofBytes (text ++ more)) := by
    simp only [Member.step, hphase, block_ofBytes hlen, Member.onParse]
  obtain ⟨m', hreach, hm'⟩ := reaches_stored (m := { m with phase := .stored last text.length })
    rfl more
  exact ⟨m', .step hstep hreach, hm'⟩

theorem reaches_storedBlocks {m : Member} (text : Bytes) (hphase : m.phase = .boundary false) :
    ∃ m', Reaches m (ofBytes (storedBlocks text)) text m' (ofBytes []) ∧
      m'.phase = .boundary true := by
  fun_induction storedBlocks text generalizing m with
  | case1 text hlen =>
    have h := reaches_storedBlock hphase hlen true []
    rwa [List.append_nil] at h
  | case2 text hlen ih =>
    have hshort : (text.take 65535).length ≤ 65535 := List.length_take_le _ _
    obtain ⟨m₁, hfirst, hphase₁⟩ := reaches_storedBlock hphase hshort false
      (storedBlocks (text.drop 65535))
    obtain ⟨m₂, hothers, hphase₂⟩ := ih hphase₁
    have hall := hfirst.trans hothers
    rw [List.take_append_drop] at hall
    exact ⟨m₂, hall, hphase₂⟩

theorem isDeflate_storedBlocks (text : Bytes) : IsDeflate (storedBlocks text) text := by
  obtain ⟨m, hreach, hphase⟩ := reaches_storedBlocks (m := { phase := .boundary false })
    text rfl
  exact ⟨m, ofBytes [], hreach, hphase, by decide, rfl⟩

/-- A header that says nothing. -/
def Header.plain : Header where
  fixed := List.replicate 6 0
  length_fixed := rfl
  length_extra := by simp
  name_text := by simp
  comment_text := by simp

/-- The member that stores a text. -/
def Packed.stored (text : Bytes) : Packed where
  header := .plain
  data := storedBlocks text
  text := text
  isDeflate := isDeflate_storedBlocks text

theorem Packed.length_bytes_stored {text : Bytes} (h : text.length ≤ 65535) :
    (stored text).bytes.length = text.length + 23 := by
  have hblocks : (storedBlocks text).length = text.length + 5 := by
    rw [storedBlocks, if_pos h, storedBlock]
    simp only [List.length_cons, List.length_append, length_littleEndian]
    omega
  have htrailer : (trailer text).length = 8 := by simp [trailer]
  show (Header.plain.bytes ++ (storedBlocks text ++ trailer text)).length = _
  rw [List.length_append, List.length_append, hblocks, htrailer]
  show 10 + (text.length + 5 + 8) = _
  omega

end TextLines.Gzip

import TextLines.Bytes

/-!
# Character sets of one byte

In most of these sets a byte below 128 is the ASCII character and the bytes from 128 up are given by
a table. The tables list only the stretch that is irregular; a zero in a table stands for a byte
that means nothing. The national form of ASCII for Norwegian has letters in place of brackets and
nothing from 128 up.
-/

namespace TextLines.Charset

/-- The character sets in which every character is one byte. -/
inductive Table where
  | latin1
  | latin2
  | latin9
  | windows1251
  | windows1252
  | koi8R
  | norwegian
  deriving DecidableEq, Repr

/-- The upper half of Latin-2 from 160 on. -/
def latin2From160 : List Nat := [
   0x00a0, 0x0104, 0x02d8, 0x0141, 0x00a4, 0x013d, 0x015a, 0x00a7,
   0x00a8, 0x0160, 0x015e, 0x0164, 0x0179, 0x00ad, 0x017d, 0x017b,
   0x00b0, 0x0105, 0x02db, 0x0142, 0x00b4, 0x013e, 0x015b, 0x02c7,
   0x00b8, 0x0161, 0x015f, 0x0165, 0x017a, 0x02dd, 0x017e, 0x017c,
   0x0154, 0x00c1, 0x00c2, 0x0102, 0x00c4, 0x0139, 0x0106, 0x00c7,
   0x010c, 0x00c9, 0x0118, 0x00cb, 0x011a, 0x00cd, 0x00ce, 0x010e,
   0x0110, 0x0143, 0x0147, 0x00d3, 0x00d4, 0x0150, 0x00d6, 0x00d7,
   0x0158, 0x016e, 0x00da, 0x0170, 0x00dc, 0x00dd, 0x0162, 0x00df,
   0x0155, 0x00e1, 0x00e2, 0x0103, 0x00e4, 0x013a, 0x0107, 0x00e7,
   0x010d, 0x00e9, 0x0119, 0x00eb, 0x011b, 0x00ed, 0x00ee, 0x010f,
   0x0111, 0x0144, 0x0148, 0x00f3, 0x00f4, 0x0151, 0x00f6, 0x00f7,
   0x0159, 0x016f, 0x00fa, 0x0171, 0x00fc, 0x00fd, 0x0163, 0x02d9]

/-- The bytes in which Latin-9 differs from Latin-1, with their characters. -/
def latin9Changes : List (UInt8 × Nat) := [
  (0xa4, 0x20ac), (0xa6, 0x0160), (0xa8, 0x0161), (0xb4, 0x017d),
  (0xb8, 0x017e), (0xbc, 0x0152), (0xbd, 0x0153), (0xbe, 0x0178)]

/-- The Cyrillic Windows set from 128 to 191. -/
def windows1251From128 : List Nat := [
   0x0402, 0x0403, 0x201a, 0x0453, 0x201e, 0x2026, 0x2020, 0x2021,
   0x20ac, 0x2030, 0x0409, 0x2039, 0x040a, 0x040c, 0x040b, 0x040f,
   0x0452, 0x2018, 0x2019, 0x201c, 0x201d, 0x2022, 0x2013, 0x2014,
   0, 0x2122, 0x0459, 0x203a, 0x045a, 0x045c, 0x045b, 0x045f,
   0x00a0, 0x040e, 0x045e, 0x0408, 0x00a4, 0x0490, 0x00a6, 0x00a7,
   0x0401, 0x00a9, 0x0404, 0x00ab, 0x00ac, 0x00ad, 0x00ae, 0x0407,
   0x00b0, 0x00b1, 0x0406, 0x0456, 0x0491, 0x00b5, 0x00b6, 0x00b7,
   0x0451, 0x2116, 0x0454, 0x00bb, 0x0458, 0x0405, 0x0455, 0x0457]

/-- The Western Windows set from 128 to 159. -/
def windows1252From128 : List Nat := [
   0x20ac, 0, 0x201a, 0x0192, 0x201e, 0x2026, 0x2020, 0x2021,
   0x02c6, 0x2030, 0x0160, 0x2039, 0x0152, 0, 0x017d, 0,
   0, 0x2018, 0x2019, 0x201c, 0x201d, 0x2022, 0x2013, 0x2014,
   0x02dc, 0x2122, 0x0161, 0x203a, 0x0153, 0, 0x017e, 0x0178]

/-- The upper half of KOI8-R. -/
def koi8RFrom128 : List Nat := [
   0x2500, 0x2502, 0x250c, 0x2510, 0x2514, 0x2518, 0x251c, 0x2524,
   0x252c, 0x2534, 0x253c, 0x2580, 0x2584, 0x2588, 0x258c, 0x2590,
   0x2591, 0x2592, 0x2593, 0x2320, 0x25a0, 0x2219, 0x221a, 0x2248,
   0x2264, 0x2265, 0x00a0, 0x2321, 0x00b0, 0x00b2, 0x00b7, 0x00f7,
   0x2550, 0x2551, 0x2552, 0x0451, 0x2553, 0x2554, 0x2555, 0x2556,
   0x2557, 0x2558, 0x2559, 0x255a, 0x255b, 0x255c, 0x255d, 0x255e,
   0x255f, 0x2560, 0x2561, 0x0401, 0x2562, 0x2563, 0x2564, 0x2565,
   0x2566, 0x2567, 0x2568, 0x2569, 0x256a, 0x256b, 0x256c, 0x00a9,
   0x044e, 0x0430, 0x0431, 0x0446, 0x0434, 0x0435, 0x0444, 0x0433,
   0x0445, 0x0438, 0x0439, 0x043a, 0x043b, 0x043c, 0x043d, 0x043e,
   0x043f, 0x044f, 0x0440, 0x0441, 0x0442, 0x0443, 0x0436, 0x0432,
   0x044c, 0x044b, 0x0437, 0x0448, 0x044d, 0x0449, 0x0447, 0x044a,
   0x042e, 0x0410, 0x0411, 0x0426, 0x0414, 0x0415, 0x0424, 0x0413,
   0x0425, 0x0418, 0x0419, 0x041a, 0x041b, 0x041c, 0x041d, 0x041e,
   0x041f, 0x042f, 0x0420, 0x0421, 0x0422, 0x0423, 0x0416, 0x0412,
   0x042c, 0x042b, 0x0417, 0x0428, 0x042d, 0x0429, 0x0427, 0x042a]

/-- The bytes in which the Norwegian form differs from ASCII, with their characters. -/
def norwegianChanges : List (UInt8 × Nat) := [
  (0x5b, 0x00c6), (0x5c, 0x00d8), (0x5d, 0x00c5), (0x7b, 0x00e6), (0x7c, 0x00f8), (0x7d, 0x00e5),
  (0x7e, 0x203e)]

/-- The entry of a table whose first entry belongs to the byte `start`; none for a zero. -/
def entry? (table : List Nat) (start : Nat) (b : UInt8) : Option Nat :=
  match table[b.toNat - start]? with
  | some 0 => none
  | some c => some c
  | none => none

/-- The code point of a byte. -/
def Table.codePoint? (t : Table) (b : UInt8) : Option Nat :=
  if b < 128 then
    match t with
    | .norwegian => some ((norwegianChanges.lookup b).getD b.toNat)
    | _ => some b.toNat
  else
    match t with
    | .latin1 => some b.toNat
    | .latin2 => if b < 160 then some b.toNat else entry? latin2From160 160 b
    | .latin9 =>
      match latin9Changes.lookup b with
      | some c => some c
      | none => some b.toNat
    | .windows1251 =>
      if b < 192 then entry? windows1251From128 128 b else some (0x0410 + (b.toNat - 192))
    | .windows1252 => if b < 160 then entry? windows1252From128 128 b else some b.toNat
    | .koi8R => entry? koi8RFrom128 128 b
    | .norwegian => none

end TextLines.Charset

import TextLines.Charset.Basic

/-!
# Encodings by name

An `Encoding` is what a user names: a character set, or one of the two that leave the order of
their bytes to a mark at the start of the text. `settle` looks for that mark.

A system has converters for hundreds of encodings. `Encoding` has the fifteen of `Encoding.names`,
under every name that the system knows for them. The name of any other encoding is treated as one
that no converter has.

Names are compared without regard to case. They may hold letters, digits and a few signs; anything
else in a name is passed over, as are blanks, commas and slashes at its end and the options that
may follow two slashes. A slash that is last among the signs that count says nothing either, for
every full name ends in two. The empty name stands for the encoding of the C locale, which is ASCII.
-/

namespace TextLines

open Bytes

/-- What a text is declared to be encoded in. -/
inductive Encoding where
  /-- A character set in which every byte belongs to a character. -/
  | plain (charset : Charset)
  /-- UTF-16 in the order that a mark at the start tells, little-endian without one. -/
  | markedUtf16
  /-- UTF-32 in the order that a mark at the start tells, little-endian without one. -/
  | markedUtf32
  deriving DecidableEq, Repr

namespace Encoding

/-- The character set of a text and the text without its mark; nothing if the text is too short to
tell. -/
def settle (encoding : Encoding) (text : Bytes) : Option (Charset × Bytes) :=
  match encoding with
  | .plain charset => some (charset, text)
  | .markedUtf16 =>
    match text with
    | 0xff :: 0xfe :: rest => some (.utf16 .little, rest)
    | 0xfe :: 0xff :: rest => some (.utf16 .big, rest)
    | _ :: _ :: _ => some (.utf16 .little, text)
    | _ => none
  | .markedUtf32 =>
    match text with
    | 0xff :: 0xfe :: 0 :: 0 :: rest => some (.utf32 .little, rest)
    | 0 :: 0 :: 0xfe :: 0xff :: rest => some (.utf32 .big, rest)
    | _ :: _ :: _ :: _ :: _ => some (.utf32 .little, text)
    | _ => none

/-! ## Names -/

/-- Whether a byte is passed over at the end of a name. -/
def isTrailing (b : UInt8) : Bool :=
  isSpace b || b == 44 || b == slash

/-- Whether a byte counts in a name. -/
def isNameByte (b : UInt8) : Bool :=
  isDigit b || isLetter b || b == 95 || b == 45 || b == 46 || b == 44 || b == 58 || b == slash

/-- A name, last byte first, without what is passed over at its end. Behind two slashes everything
from the last slash or comma on is an option and is left out, as often as that is so. -/
def dropOptions (reversed : Bytes) : Bytes :=
  let name := reversed.dropWhile isTrailing
  if 2 ≤ name.count slash then
    let before := (name.dropWhile fun b => b != slash && b != 44).tail
    if _h : before.length < reversed.length then dropOptions before else before
  else name
termination_by reversed.length
decreasing_by simpa [before, name] using _h

/-- A name as it is compared. -/
def normalName (name : Bytes) : Bytes :=
  let counting := (dropOptions (untilNul name).reverse).filter isNameByte
  (counting.dropWhile (· == slash)).reverse.map upperByte

/-- The encodings that there are converters for, each with all of its names. -/
def names : List (Encoding × List String) := [
  (.plain .utf8, ["UTF-8", "UTF8", "ISO-IR-193", "OSF05010001", "ISO-10646/UTF8",
    "ISO-10646/UTF-8"]),
  (.plain .ascii, ["ANSI_X3.4-1968", "", "ANSI_X3.4", "ANSI_X3.4-1986", "ISO-IR-6",
    "ISO_646.IRV:1991", "ASCII", "ISO646-US", "US-ASCII", "US", "IBM367", "CP367", "CSASCII",
    "OSF00010020"]),
  (.plain (.oneByte .latin1), ["ISO-8859-1", "ISO-IR-100", "ISO_8859-1:1987", "ISO_8859-1",
    "ISO8859-1", "ISO88591", "LATIN1", "L1", "IBM819", "CP819", "CSISOLATIN1", "8859_1",
    "OSF00010001"]),
  (.plain (.oneByte .latin2), ["ISO-8859-2", "ISO-IR-101", "ISO_8859-2:1987", "ISO_8859-2",
    "ISO8859-2", "ISO88592", "LATIN2", "L2", "IBM912", "CP912", "CSISOLATIN2", "8859_2",
    "OSF00010002"]),
  (.plain (.oneByte .latin9), ["ISO-8859-15", "ISO-IR-203", "ISO_8859-15:1998", "ISO_8859-15",
    "ISO8859-15", "ISO885915", "LATIN-9", "LATIN9"]),
  (.plain (.oneByte .windows1251), ["CP1251", "WINDOWS-1251", "MS-CYRL"]),
  (.plain (.oneByte .windows1252), ["CP1252", "WINDOWS-1252", "MS-ANSI"]),
  (.plain (.oneByte .koi8R), ["KOI8-R", "KOI8R", "CSKOI8R"]),
  (.plain (.oneByte .norwegian), ["NS_4551-1", "ISO-IR-60", "ISO646-NO", "NO",
    "CSISO60DANISHNORWEGIAN", "CSISO60NORWEGIAN1", "NS_45511"]),
  (.markedUtf16, ["UTF-16", "UTF16"]),
  (.plain (.utf16 .little), ["UTF-16LE", "UTF16LE"]),
  (.plain (.utf16 .big), ["UTF-16BE", "UTF16BE"]),
  (.markedUtf32, ["UTF-32", "UTF32"]),
  (.plain (.utf32 .little), ["UTF-32LE", "UTF32LE"]),
  (.plain (.utf32 .big), ["UTF-32BE", "UTF32BE"])]

/-- The encoding that has a name, if there is a converter for it. -/
def ofName? (name : Bytes) : Option Encoding :=
  let wanted := normalName name
  (names.find? fun e => e.2.any fun known => Bytes.ascii known == wanted).map (·.1)

end Encoding

end TextLines

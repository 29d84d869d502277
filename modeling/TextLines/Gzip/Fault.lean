import TextLines.Bytes

/-!
# Faults in compressed data

What can be wrong with a gzip member once its magic number has been accepted: its header, a block
header, one of the three prefix codes of a block, a symbol, a distance, or the trailer.
-/

namespace TextLines.Gzip

open Bytes

/-- The first thing that is wrong with a member. -/
inductive Fault where
  | headerMagic
  | headerMethod
  | headerFlags
  | headerChecksum
  | blockKind
  | storedLength
  | codeCount
  | lengthCode
  | lengthRepeat
  | noEndOfBlock
  | literalCode
  | distanceCode
  | literalSymbol
  | distanceSymbol
  | distanceTooFar
  | checksum
  | size
  deriving DecidableEq, Repr

/-- The text for a fault. -/
def Fault.text : Fault → Bytes
  | .headerMagic => ascii "incorrect header check"
  | .headerMethod => ascii "unknown compression method"
  | .headerFlags => ascii "unknown header flags set"
  | .headerChecksum => ascii "header crc mismatch"
  | .blockKind => ascii "invalid block type"
  | .storedLength => ascii "invalid stored block lengths"
  | .codeCount => ascii "too many length or distance symbols"
  | .lengthCode => ascii "invalid code lengths set"
  | .lengthRepeat => ascii "invalid bit length repeat"
  | .noEndOfBlock => ascii "invalid code -- missing end-of-block"
  | .literalCode => ascii "invalid literal/lengths set"
  | .distanceCode => ascii "invalid distances set"
  | .literalSymbol => ascii "invalid literal/length code"
  | .distanceSymbol => ascii "invalid distance code"
  | .distanceTooFar => ascii "invalid distance too far back"
  | .checksum => ascii "incorrect data check"
  | .size => ascii "incorrect length check"

end TextLines.Gzip

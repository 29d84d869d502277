import TextLines.Bytes

/-!
# The checksum of gzip

CRC-32 with the reversed polynomial. The running value is kept complemented between bytes, so that
the checksum of the bytes read so far can be extended by one byte at any time (`extend_append`).
-/

namespace TextLines.Gzip.Crc32

/-- One step of the division. -/
def shift (r : UInt32) : UInt32 :=
  if r &&& 1 == 1 then (r >>> 1) ^^^ 0xedb88320 else r >>> 1

/-- The checksum with one more byte. -/
def step (crc : UInt32) (b : UInt8) : UInt32 :=
  let r := ~~~crc ^^^ b.toUInt32
  ~~~(shift (shift (shift (shift (shift (shift (shift (shift r))))))))

/-- The checksum with more bytes. -/
def extend (crc : UInt32) (bytes : Bytes) : UInt32 :=
  bytes.foldl step crc

/-- The checksum of some bytes. -/
def ofBytes (bytes : Bytes) : UInt32 :=
  extend 0 bytes

theorem extend_append (crc : UInt32) (a b : Bytes) :
    extend crc (a ++ b) = extend (extend crc a) b := by
  simp [extend]

end TextLines.Gzip.Crc32

import JvmSymbols.Bytes.Basic

/-!
# The checksum of archive entries
-/

namespace JvmSymbols.Crc32

/-- Divides one bit further by the reflected polynomial. -/
def shift (crc : UInt32) : UInt32 :=
  if crc &&& 1 = 0 then crc >>> 1 else (crc >>> 1) ^^^ 0xEDB88320

def step (crc : UInt32) (b : UInt8) : UInt32 :=
  shift (shift (shift (shift (shift (shift (shift (shift (crc ^^^ b.toUInt32))))))))

/-- The CRC-32 of `bytes`. -/
def ofBytes (bytes : Bytes) : UInt32 := bytes.foldl step 0xFFFFFFFF ^^^ 0xFFFFFFFF

end JvmSymbols.Crc32

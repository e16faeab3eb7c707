import Conduit.Core.Error
import Conduit.Io.Endian

/-!
# The bit writer

`src/io/bit_writer.cpp`. A writer is its byte buffer, its position in bits and its sticky first
error. `bit_pos_` counts the bits of a buffer in memory, so it is a natural number here; the guard
of `ensure_capacity` against its overflow is kept. Reserving capacity has no effect on the values
and is left out. The floating-point writes are the word writes of the bit pattern of their
argument.
-/

namespace Conduit.Io

open Bits

/-- `static_cast<uint64_t>` of a signed value. -/
def toUint64 (value : Int) : Nat := (value % 2 ^ 64).toNat

/-- The magnitude both sign-and-magnitude writes compute: `~value + 1` for a negative value. -/
def absUint64 (value : Int) : Nat :=
  if value < 0 then (toUint64 (-value - 1) + 1) % 2 ^ 64 else toUint64 value

/-- `bit_writer.hpp:125-127`. -/
structure BitWriter where
  data : List UInt8 := []
  bitPos : Nat := 0
  error : Option Error := none
deriving DecidableEq

namespace BitWriter

variable (value : Nat) (w : BitWriter) (e : Endian) (byteOffset : Nat)

def sizeBytes : Nat := (w.bitPos + 7) / 8

def currentByteIndex : Nat := w.bitPos / 8

/-- `bit_writer.cpp:405-409`: only the first error is kept. -/
def setError (code : ErrorCode) (message : String) (w : BitWriter) : BitWriter :=
  if w.error.isSome then w else { w with error := some ⟨code, message⟩ }

/-- `bit_writer.cpp:415-425`. -/
def ensureCapacity (additionalBits : Nat) (w : BitWriter) : BitWriter :=
  if additionalBits > 2 ^ 64 - 1 - w.bitPos - 7 then
    w.setError .invalidArgument "ensure_capacity: bit count overflow"
  else w

/-- `data_.push_back(byte)`. -/
def pushBack (byte : UInt8) (w : BitWriter) : BitWriter := { w with data := w.data ++ [byte] }

/-- `data_[current_byte_index()] |= mask`. -/
def orCurrentByte (mask : Nat) (w : BitWriter) : BitWriter :=
  { w with data := w.data.modify w.currentByteIndex (· ||| UInt8.ofNat mask) }

/-- `bit_pos_ += bits`. -/
def advance (bits : Nat) (w : BitWriter) : BitWriter := { w with bitPos := w.bitPos + bits }

/-- `bit_writer.cpp:19-32`. -/
def writeBit (bit : Bool) (w : BitWriter) : BitWriter :=
  let w := w.ensureCapacity 1
  let w := if w.bitPos % 8 = 0 then w.pushBack 0 else w
  let w := if bit then w.orCurrentByte (1 <<< (7 - w.bitPos % 8)) else w
  w.advance 1

/-- The loop that pushes `fullBytes` whole bytes of `value`, of which the `remaining` low bits
come later. -/
def writeFullBytes (value remaining : Nat) : Nat → BitWriter → BitWriter
  | 0, w => w
  | k + 1, w =>
    writeFullBytes value remaining k
      ((w.pushBack (UInt8.ofNat (value >>> (k * 8 + remaining)))).advance 8)

/-- The loop that writes the `i` low bits of `value` one at a time. -/
def writeLeftoverBits (value : Nat) : Nat → BitWriter → BitWriter
  | 0, w => w
  | i + 1, w => writeLeftoverBits value i (w.writeBit (value.testBit i))

/-- `bit_writer.cpp:44-62`: the path for a byte-aligned position. -/
def writeBitsAligned (count : Nat) (w : BitWriter) : BitWriter :=
  writeLeftoverBits value (count % 8) (writeFullBytes value (count % 8) (count / 8) w)

/-- `bit_writer.cpp:64-96`: the path for a position inside a byte. -/
def writeBitsUnaligned (count : Nat) (w : BitWriter) : BitWriter :=
  let bitsToAlign := 8 - w.bitPos % 8
  if count ≤ bitsToAlign then
    (w.orCurrentByte ((value &&& (2 ^ count - 1)) <<< (bitsToAlign - count))).advance count
  else
    let top := (value >>> (count - bitsToAlign)) &&& (2 ^ bitsToAlign - 1)
    let w := (w.orCurrentByte top).advance bitsToAlign
    let count := count - bitsToAlign
    let w := writeFullBytes value (count % 8) (count / 8) w
    if count % 8 > 0 then
      let rem := (value &&& (2 ^ (count % 8) - 1)) <<< (8 - count % 8)
      ((w.pushBack 0).orCurrentByte rem).advance (count % 8)
    else w

/-- `bit_writer.cpp:34-97`. -/
def writeBits (count : Nat) (w : BitWriter) : BitWriter :=
  if w.error.isSome then w
  else if count > 64 then
    w.setError .encodingFailed s!"write_bits: requested {count} bits, max is 64"
  else if count = 0 then w
  else
    let w := w.ensureCapacity count
    if w.bitPos % 8 = 0 then w.writeBitsAligned value count
    else w.writeBitsUnaligned value count

/-- `bit_writer.cpp:99-102`. -/
def writeSignedBits (value : Int) (count : Nat) (w : BitWriter) : BitWriter :=
  if w.error.isSome then w else w.writeBits (toUint64 value) count

/-- The digit loop of both BCD writes: the nibbles packed so far and what is left of the value. -/
def packBcd : Nat → Nat → Nat → Nat → Nat × Nat
  | 0, _, raw, v => (raw, v)
  | k + 1, i, raw, v => packBcd k (i + 1) (raw ||| ((v % 10) <<< (i * 4))) (v / 10)

/-- `bit_writer.cpp:108-133`. -/
def writeBcd (bits : Nat) (w : BitWriter) : BitWriter :=
  if w.error.isSome then w
  else if bits % 4 ≠ 0 then
    w.setError .encodingFailed "write_bcd: bits not multiple of 4"
  else if bits = 0 then w
  else if bits / 4 > 16 then
    w.setError .encodingFailed "write_bcd: max 64 bits (16 BCD digits) supported"
  else
    let nibbles := bits / 4
    let (raw, v) := packBcd nibbles 0 0 value
    if v ≠ 0 then
      w.setError .encodeConstraintViolation
        s!"write_bcd: value {value} too large for {bits} bits ({nibbles} digits)"
    else w.writeBits raw bits

/-- `bit_writer.cpp:135-167`. -/
def writeBcdSigned (value : Int) (bits : Nat) (w : BitWriter) : BitWriter :=
  if w.error.isSome then w
  else if bits < 5 then
    w.setError .encodingFailed "write_bcd_signed: bits < 5"
  else if (bits - 1) % 4 ≠ 0 then
    w.setError .encodingFailed "write_bcd_signed: (bits-1) not multiple of 4"
  else if (bits - 1) / 4 > 15 then
    w.setError .encodingFailed "write_bcd_signed: max 61 bits (15 BCD digits + sign) supported"
  else
    let nibbles := (bits - 1) / 4
    let (raw, absVal) := packBcd nibbles 0 0 (absUint64 value)
    if absVal ≠ 0 then
      w.setError .encodeConstraintViolation
        s!"write_bcd_signed: value {value} too large for {bits} bits ({nibbles} digits)"
    else w.writeBits (if value < 0 then raw ||| 2 ^ (bits - 1) else raw) bits

/-- `bit_writer.cpp:169-189`. The shift by `bits - 1` is only defined for `bits ≤ 64`. -/
def writeSignMagnitude (value : Int) (bits : Nat) (w : BitWriter) : BitWriter :=
  if w.error.isSome then w
  else if bits < 2 then
    w.setError .encodingFailed "write_sign_magnitude: bits < 2"
  else
    let magnitude := absUint64 value
    let magMask := 2 ^ (bits - 1) - 1
    if magnitude > magMask then
      w.setError .encodeConstraintViolation
        s!"write_sign_magnitude: magnitude {magnitude} too large for {bits} bits (max {magMask})"
    else
      let raw := magnitude &&& magMask
      w.writeBits (if value < 0 then raw ||| 2 ^ (bits - 1) else raw) bits

/-- `bit_writer.cpp:314-321`: the padding bits are already zero in the current byte. -/
def alignToByte : BitWriter := if w.bitPos % 8 = 0 then w else w.advance (8 - w.bitPos % 8)

/-- The shared body of `write_u8`, `write_u16`, `write_u32`, `write_u64` and `write_bytes`. -/
def appendBytes (bytes : List UInt8) (w : BitWriter) : BitWriter :=
  if w.error.isSome then w
  else
    let w := w.alignToByte
    { w with data := w.data ++ bytes, bitPos := w.bitPos + bytes.length * 8 }

/-- `bit_writer.cpp:194-199`. -/
def writeU8 : BitWriter := w.appendBytes (wordBytes 1 value .big)

/-- `bit_writer.cpp:201-212`. -/
def writeU16 (w : BitWriter) : BitWriter := w.appendBytes (wordBytes 2 value e)

/-- `bit_writer.cpp:214-229`. -/
def writeU32 (w : BitWriter) : BitWriter := w.appendBytes (wordBytes 4 value e)

/-- `bit_writer.cpp:231-254`. -/
def writeU64 (w : BitWriter) : BitWriter := w.appendBytes (wordBytes 8 value e)

/-- `bit_writer.cpp:289-295`. -/
def writeBytes (bytes : List UInt8) (w : BitWriter) : BitWriter := w.appendBytes bytes

/-- The bytes `write_string` appends: the first `paddedLength` bytes of the string, then the
padding. -/
def paddedString (str : List UInt8) (paddedLength : Nat) (padding : UInt8) : List UInt8 :=
  str.take paddedLength ++ List.replicate (paddedLength - min str.length paddedLength) padding

/-- `bit_writer.cpp:297-308`: false when the string was truncated. -/
def writeString (str : List UInt8) (paddedLength : Nat) (padding : UInt8) (w : BitWriter) :
    Bool × BitWriter :=
  if w.error.isSome then (false, w)
  else (decide (str.length ≤ paddedLength), w.appendBytes (paddedString str paddedLength padding))

/-- `bit_writer.cpp:323-334`. -/
def alignTo (byteBoundary : Nat) (w : BitWriter) : BitWriter :=
  if byteBoundary = 0 then w
  else
    let w := w.alignToByte
    let remainder := w.sizeBytes % byteBoundary
    if remainder ≠ 0 then (writeU8 0)^[byteBoundary - remainder] w else w

/-- The bytes of `data` from `offset` on replaced by `bytes`. -/
def overwrite (data : List UInt8) (offset : Nat) (bytes : List UInt8) : List UInt8 :=
  data.take offset ++ bytes ++ data.drop (offset + bytes.length)

/-- `bit_writer.cpp:336-344`. -/
def patchU8 (value : Nat) (w : BitWriter) : Except Fault (Bool × BitWriter) :=
  if w.error.isSome then .ok (false, w)
  else if byteOffset ≥ w.data.length then
    .ok (false, w.setError .bufferOverrun
      s!"patch_u8: byte_offset {byteOffset} out of range [0, {w.data.length})")
  else .ok (true, { w with data := overwrite w.data byteOffset (wordBytes 1 value .big) })

/-- The shared body of `patch_u16` and `patch_u32`: the bound check adds modulo `2 ^ 64`, so an
offset close to the end of `size_t` passes it and the bytes are written outside the buffer. -/
def patchWord (name : String) (n byteOffset value : Nat) (e : Endian) (w : BitWriter) :
    Except Fault (Bool × BitWriter) :=
  if w.error.isSome then .ok (false, w)
  else if sizeT (byteOffset + n) > w.data.length then
    .ok (false, w.setError .bufferOverrun
      s!"{name}: byte_offset {byteOffset} out of range (need {n} bytes, buffer size {w.data.length})")
  else if byteOffset + n > w.data.length then .error .outOfBounds
  else .ok (true, { w with data := overwrite w.data byteOffset (wordBytes n value e) })

/-- `bit_writer.cpp:346-360`. -/
def patchU16 (value : Nat) (e : Endian) (w : BitWriter) : Except Fault (Bool × BitWriter) :=
  w.patchWord "patch_u16" 2 byteOffset value e

/-- `bit_writer.cpp:362-380`. -/
def patchU32 (value : Nat) (e : Endian) (w : BitWriter) : Except Fault (Bool × BitWriter) :=
  w.patchWord "patch_u32" 4 byteOffset value e

/-- `bit_writer.cpp:386-397`. -/
def finish : Except Error (List UInt8) × BitWriter :=
  match w.error with
  | some e => (.error e, {})
  | none => (.ok w.alignToByte.data, {})

end BitWriter

end Conduit.Io

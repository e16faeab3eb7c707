import Conduit.Core.Error
import Conduit.Io.Endian

/-!
# The bit reader

`src/io/bit_reader.cpp`. A reader is a view of a buffer with a byte position and a bit position
inside that byte. All `size_t` arithmetic is modulo `2 ^ 64`. An access or a subspan outside the
buffer, which is undefined behaviour in the source, gives `Fault.outOfBounds`. The reads of
floating-point numbers return the bit pattern that `endian.hpp` reinterprets.
-/

namespace Conduit.Io

open Bits

/-- `static_cast<int64_t>` of an unsigned value. -/
def toInt64 (value : Nat) : Int := if value < 2 ^ 63 then value else (value : Int) - 2 ^ 64

/-- `bit_reader.hpp:109-111`. -/
structure BitReader where
  data : List UInt8
  bytePos : Nat := 0
  bitPos : Nat := 0
deriving DecidableEq

/-- A call on a reader: its result, and the reader it leaves behind also when it fails. -/
def ReadM (α : Type) : Type := BitReader → Except Fault α × BitReader

namespace ReadM

/-- The call that returns `a` and leaves the reader as it is. -/
def ret {α : Type} (a : α) : ReadM α := fun r => (.ok a, r)

/-- `CONDUIT_TRY_ASSIGN`: the continuation runs when the call succeeds. -/
def andThen {α β : Type} (m : ReadM α) (f : α → ReadM β) : ReadM β := fun r =>
  match m r with
  | (.ok a, r') => f a r'
  | (.error e, r') => (.error e, r')

/-- The call that fails and leaves the reader as it is. -/
def fail {α : Type} (code : ErrorCode) (message : String) : ReadM α :=
  fun r => (.error (.error ⟨code, message⟩), r)

instance : Monad ReadM where
  pure := ret
  bind := andThen

variable {α β : Type} {m : ReadM α} {f : α → ReadM β} {r r' : BitReader}

theorem bind_ok {a : α} (h : m r = (.ok a, r')) : (m >>= f) r = f a r' := by
  show andThen m f r = _
  rw [andThen, h]

theorem bind_error {e : Fault} (h : m r = (.error e, r')) : (m >>= f) r = (.error e, r') := by
  show andThen m f r = _
  rw [andThen, h]

theorem bind_eq_ok {b : β}
    (h : (m >>= f) r = (.ok b, r')) : ∃ a r'', m r = (.ok a, r'') ∧ f a r'' = (.ok b, r') := by
  rcases hm : m r with ⟨e | a, r''⟩
  · rw [bind_error hm] at h
    simp at h
  · rw [bind_ok hm] at h
    exact ⟨a, r'', rfl, h⟩

end ReadM

namespace BitReader

variable (r : BitReader) (e : Endian) (count bits : Nat)

/-- `bit_reader.cpp:276-279`. -/
def remainingBytes : Nat :=
  if r.bytePos ≥ r.data.length then 0
  else r.data.length - r.bytePos - (if r.bitPos > 0 then 1 else 0)

/-- `bit_reader.cpp:281-284`. -/
def remainingBits : Nat :=
  if r.bytePos ≥ r.data.length then 0
  else sizeT (sizeT ((r.data.length - r.bytePos) * 8) + 2 ^ 64 - r.bitPos)

/-- `bit_reader.cpp:290-292`. -/
def atEnd : Bool := decide (r.bytePos ≥ r.data.length)

/-- `bit_reader.hpp:103-107`. -/
def advance (r : BitReader) : BitReader :=
  let bitPos := sizeT (r.bitPos + bits)
  { r with bytePos := sizeT (r.bytePos + bitPos / 8), bitPos := bitPos % 8 }

/-- `bit_reader.cpp:303-308`. -/
def alignToByte : BitReader :=
  if r.bitPos > 0 then { r with bytePos := sizeT (r.bytePos + 1), bitPos := 0 } else r

/-- `bit_reader.cpp:310-320`. -/
def alignTo (byteBoundary : Nat) (r : BitReader) : BitReader :=
  if byteBoundary = 0 then r
  else
    let r := r.alignToByte
    let r :=
      if byteBoundary > 1 ∧ r.bytePos % byteBoundary ≠ 0 then
        { r with bytePos := sizeT (r.bytePos + (byteBoundary - r.bytePos % byteBoundary)) }
      else r
    if r.bytePos > r.data.length then { r with bytePos := r.data.length } else r

/-- `bit_reader.hpp:93-96`. -/
def reset : BitReader := { r with bytePos := 0, bitPos := 0 }

/-- The loop of `read_bits`; every turn consumes a bit, so `remaining` turns are enough. -/
def readBitsLoop : Nat → Nat → Nat → ReadM Nat
  | 0, _, result => .ret result
  | fuel + 1, remaining, result => fun r =>
    if remaining = 0 then (.ok result, r)
    else
      let bitsInByte := 8 - r.bitPos
      let bitsToRead := min remaining bitsInByte
      match r.data[r.bytePos]? with
      | none => (.error .outOfBounds, r)
      | some byte =>
        let bits := (byte.toNat >>> (bitsInByte - bitsToRead)) &&& (2 ^ bitsToRead - 1)
        readBitsLoop fuel (remaining - bitsToRead) (sizeT (result <<< bitsToRead) ||| bits)
          (r.advance bitsToRead)

/-- `bit_reader.cpp:14-43`. -/
def readBits : ReadM Nat := fun r =>
  if count = 0 then (.ok 0, r)
  else if count > 64 then
    ReadM.fail .invalidArgument s!"read_bits: requested {count} bits, max is 64" r
  else if r.remainingBits < count then
    ReadM.fail .bufferUnderrun s!"read_bits: need {count} bits, only {r.remainingBits} remain" r
  else readBitsLoop count count 0 r

/-- `bit_reader.cpp:54-59`: the sign extension of a `count`-bit value. -/
def signExtend (val : Nat) : Int :=
  if count ≥ 64 then toInt64 val
  else if val.testBit (count - 1) then toInt64 (val ||| (2 ^ 64 - 1 - (2 ^ count - 1)))
  else toInt64 val

/-- `bit_reader.cpp:45-61`. -/
def readSignedBits : ReadM Int :=
  if count = 0 then .ret 0
  else do
    let val ← readBits count
    return signExtend count val

/-- The digit loop of both BCD reads. -/
def unpackBcd (name : String) (raw : Nat) : Nat → Nat → Nat → Nat → Except Error Nat
  | 0, _, result, _ => .ok result
  | k + 1, i, result, multiplier =>
    let digit := (raw >>> (i * 4)) &&& 15
    if digit > 9 then
      .error ⟨.invalidArgument, s!"{name}: invalid BCD digit {digit} at nibble {i}"⟩
    else
      unpackBcd name raw k (i + 1) (sizeT (result + digit * multiplier)) (sizeT (multiplier * 10))

/-- A result computed after the reader was advanced. -/
def liftResult {α : Type} : Except Error α → ReadM α
  | .ok a => .ret a
  | .error e => fun r => (.error (.error e), r)

/-- `bit_reader.cpp:67-94`. -/
def readBcd : ReadM Nat :=
  if bits = 0 then .ret 0
  else if bits % 4 ≠ 0 then .fail .invalidArgument "read_bcd: bits must be a multiple of 4"
  else if bits / 4 > 16 then
    .fail .invalidArgument "read_bcd: max 64 bits (16 BCD digits) supported"
  else do
    let raw ← readBits bits
    liftResult (unpackBcd "read_bcd" raw (bits / 4) 0 0 1)

/-- `bit_reader.cpp:96-130`: at most fifteen digits, so the signed sum does not overflow. -/
def readBcdSigned : ReadM Int :=
  if bits < 5 then .fail .invalidArgument "read_bcd_signed: bits must be >= 5"
  else if (bits - 1) % 4 ≠ 0 then
    .fail .invalidArgument "read_bcd_signed: (bits - 1) must be a multiple of 4"
  else if (bits - 1) / 4 > 15 then
    .fail .invalidArgument "read_bcd_signed: max 61 bits (15 BCD digits + sign) supported"
  else do
    let raw ← readBits bits
    let bcdPart := raw &&& (2 ^ (bits - 1) - 1)
    let result ← liftResult (unpackBcd "read_bcd_signed" bcdPart ((bits - 1) / 4) 0 0 1)
    return if raw.testBit (bits - 1) then -(result : Int) else result

/-- `bit_reader.cpp:132-144`. -/
def readSignMagnitude : ReadM Int :=
  if bits < 2 then .fail .invalidArgument "read_sign_magnitude: bits must be >= 2"
  else do
    let raw ← readBits bits
    let magnitude := raw &&& (2 ^ (bits - 1) - 1)
    return if raw.testBit (bits - 1) then -(toInt64 magnitude) else toInt64 magnitude

/-- `bit_reader.cpp:150-158`: the only fixed-width read whose bound check does not add to the
position. -/
def readU8 : ReadM Nat := fun r =>
  let r := r.alignToByte
  if r.bytePos ≥ r.data.length then
    ReadM.fail .bufferUnderrun s!"read_u8: need 1 byte, have {r.remainingBytes} remaining" r
  else
    match r.data[r.bytePos]? with
    | none => (.error .outOfBounds, r)
    | some byte => (.ok byte.toNat, { r with bytePos := sizeT (r.bytePos + 1) })

/-- The shared body of the other fixed-width reads. -/
def readFixed (name : String) (n : Nat) (e : Endian) : ReadM Nat := fun r =>
  let r := r.alignToByte
  if sizeT (r.bytePos + n) > r.data.length then
    ReadM.fail .bufferUnderrun s!"{name}: need {n} bytes, have {r.remainingBytes} remaining" r
  else (.ok (readWord n r.data r.bytePos e), { r with bytePos := sizeT (r.bytePos + n) })

/-- `bit_reader.cpp:160-169`. -/
def readU16 : ReadM Nat := readFixed "read_u16" 2 e

/-- `bit_reader.cpp:171-180`. -/
def readU32 : ReadM Nat := readFixed "read_u32" 4 e

/-- `bit_reader.cpp:182-191`. -/
def readU64 : ReadM Nat := readFixed "read_u64" 8 e

/-- `bit_reader.cpp:193-202`. -/
def readF16 : ReadM Nat := readFixed "read_f16" 2 e

/-- `bit_reader.cpp:204-213`. -/
def readF32 : ReadM Nat := readFixed "read_f32" 4 e

/-- `bit_reader.cpp:215-224`. -/
def readF48 : ReadM Nat := readFixed "read_f48" 6 e

/-- `bit_reader.cpp:226-235`. -/
def readF64 : ReadM Nat := readFixed "read_f64" 8 e

/-- `std::dynamic_extent`: the count for which `subspan` takes all that is left. -/
def dynamicExtent : Nat := 2 ^ 64 - 1

/-- The shared body of `read_bytes` and `sub_reader`: the bound check and the new position add the
count to the position modulo `2 ^ 64`, the subspan does not. With `dynamicExtent` the check passes
from the second byte on, the subspan is the rest of the buffer and the position is one byte back. -/
def takeBytes (name : String) (count : Nat) : ReadM (List UInt8) := fun r =>
  let r := r.alignToByte
  if sizeT (r.bytePos + count) > r.data.length then
    ReadM.fail .bufferUnderrun s!"{name}: need {count} bytes, have {r.remainingBytes} remaining" r
  else if count = dynamicExtent then
    (.ok (r.data.drop r.bytePos), { r with bytePos := sizeT (r.bytePos + count) })
  else if r.bytePos + count > r.data.length then (.error .outOfBounds, r)
  else
    (.ok ((r.data.drop r.bytePos).take count), { r with bytePos := sizeT (r.bytePos + count) })

/-- `bit_reader.cpp:241-250`. -/
def readBytes : ReadM (List UInt8) := takeBytes "read_bytes" count

/-- `bit_reader.cpp:252-255`. -/
def readString (byteLength : Nat) : ReadM (List UInt8) := do
  let bytes ← readBytes byteLength
  return bytes

/-- `bit_reader.cpp:261-270`: the new reader stands at the start of the next bytes. -/
def subReader (byteCount : Nat) : ReadM BitReader := do
  let subSpan ← takeBytes "sub_reader" byteCount
  return { data := subSpan }

/-- `bit_reader.cpp:294-301`. -/
def skipBits : ReadM Unit := fun r =>
  if count > r.remainingBits then
    ReadM.fail .bufferUnderrun s!"skip_bits: need {count} bits, only {r.remainingBits} remain" r
  else (.ok (), r.advance count)

end BitReader

end Conduit.Io

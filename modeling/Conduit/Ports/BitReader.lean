import Conduit.Ports.BitWriter

/-!
# The bit readers of the other backends

The `BitReader` classes that bgen emits for Python (`python_backend.cpp:649-831`) and for Java
(`java_backend.cpp:719-948`). A call that raises or throws gives `none`. Java has no unsigned
types: the results of its unsigned reads are given as bit patterns, those of the signed ones as
integers. Positions in Java are of type `int` and wrap around.
-/

namespace Conduit.Ports

open Bits Io

/-- A call on a reader of type `σ`. -/
abbrev PortM (σ α : Type) : Type := StateT σ Option α

/-- Bytes that are read one by one. -/
def readOctets {σ : Type} (readBits : Nat → PortM σ Nat) : Nat → PortM σ (List UInt8)
  | 0 => pure []
  | n + 1 => do
    let byte ← readBits 8
    let bytes ← readOctets readBits n
    return UInt8.ofNat byte :: bytes

/-- The body of the fixed-width reads of both classes: the bytes are read one by one and then put
together in the order that is asked for. -/
def readUnsigned {σ : Type} (readBits : Nat → PortM σ Nat) (n : Nat) (e : Endian) :
    PortM σ Nat := do
  let bytes ← readOctets readBits n
  return beVal (e.order bytes)

/-! ## Python -/

structure PythonReader where
  data : List UInt8
  bitPos : Nat

namespace PythonReader

/-- The loop of `read_bits`; every turn consumes a bit, so `remaining` turns are enough. -/
def readLoop : Nat → Nat → Nat → PortM PythonReader Nat
  | 0, _, val => pure val
  | fuel + 1, remaining, val => fun r =>
    if remaining = 0 then some (val, r)
    else
      let avail := 8 - r.bitPos % 8
      let take := min avail remaining
      match r.data[r.bitPos / 8]? with
      | none => none
      | some byte =>
        let mask := (2 ^ take - 1) <<< (avail - take)
        let bits := (byte.toNat &&& mask) >>> (avail - take)
        readLoop fuel (remaining - take) (val <<< take ||| bits)
          { r with bitPos := r.bitPos + take }

/-- `python_backend.cpp:669-689`. -/
def readBits (n : Nat) : PortM PythonReader Nat := fun r =>
  if r.bitPos + n > 8 * r.data.length then none
  else if r.bitPos % 8 = 0 ∧ n % 8 = 0 then
    some (beVal ((r.data.drop (r.bitPos / 8)).take (n / 8)), { r with bitPos := r.bitPos + n })
  else readLoop n n 0 r

/-- `python_backend.cpp:691-695`. -/
def readSignedBits (n : Nat) : PortM PythonReader Int := do
  let val ← readBits n
  return if n > 0 ∧ val.testBit (n - 1) then (val : Int) - 2 ^ n else val

def bcdLoop (raw : Nat) : Nat → Nat → Nat → Nat → Nat
  | 0, _, result, _ => result
  | k + 1, i, result, mult =>
    bcdLoop raw k (i + 1) (result + ((raw >>> (i * 4)) &&& 15) * mult) (mult * 10)

/-- `python_backend.cpp:793-801`. -/
def readBcd (bits : Nat) : PortM PythonReader Nat := do
  let raw ← readBits bits
  return bcdLoop raw (bits / 4) 0 0 1

/-- `python_backend.cpp:803-806`. For `bits = 0` the source asks for `-1` bits, which reads nothing
as zero bits do. -/
def readBcdSigned (bits : Nat) : PortM PythonReader Int := do
  let signBit ← readBits 1
  let val ← readBcd (bits - 1)
  return if signBit ≠ 0 then -(val : Int) else val

/-- `python_backend.cpp:808-811`. -/
def readSignMagnitude (bits : Nat) : PortM PythonReader Int := do
  let signBit ← readBits 1
  let magnitude ← readBits (bits - 1)
  return if signBit ≠ 0 then -(magnitude : Int) else magnitude

/-- `python_backend.cpp:813-815`. -/
def skipBits (n : Nat) : PortM PythonReader Unit := fun r =>
  if r.bitPos + n > 8 * r.data.length then none
  else some ((), { r with bitPos := r.bitPos + n })

/-- `python_backend.cpp:820-831`. -/
def alignTo (boundary : Nat) : PortM PythonReader Unit := fun r =>
  if boundary = 0 then some ((), r)
  else
    let bitPos := if r.bitPos % 8 ≠ 0 then r.bitPos + (8 - r.bitPos % 8) else r.bitPos
    let bRem := bitPos / 8 % boundary
    let bitPos := if bRem ≠ 0 then bitPos + (boundary - bRem) * 8 else bitPos
    some ((), { r with bitPos := min bitPos (8 * r.data.length) })

end PythonReader

/-! ## Java -/

/-- Arithmetic on `int`. -/
def wrap32 (n : Int) : Int := n.bmod (2 ^ 32)

structure JavaReader where
  data : List UInt8
  bitPos : Int
  bitLen : Int

namespace JavaReader

/-- `java_backend.cpp:719`. -/
def start (data : List UInt8) : JavaReader := ⟨data, 0, wrap32 (8 * data.length)⟩

/-- An access to the array. -/
def byteAt (data : List UInt8) (i : Int) : Option UInt8 := if 0 ≤ i then data[i.toNat]? else none

/-- The loop over whole bytes in `readBits`. -/
def wholeBytes (data : List UInt8) : Nat → Int → Nat → Option Nat
  | 0, _, val => some val
  | k + 1, i, val =>
    match byteAt data i with
    | none => none
    | some byte => wholeBytes data k (i + 1) (sizeT (val <<< 8) ||| byte.toNat)

/-- `(data[byteIdx] & mask) >>> (avail - take)`: bytes are signed. -/
def bitsOf (byte : UInt8) (avail take : Nat) : Nat :=
  (byte.toInt8.toInt / 2 ^ (avail - take) % 2 ^ take).toNat

/-- The loop over single bits in `readBits`. -/
def readLoop : Nat → Nat → Nat → PortM JavaReader Nat
  | 0, _, val => pure val
  | fuel + 1, remaining, val => fun r =>
    if remaining = 0 then some (val, r)
    else
      -- at a negative position the remainder is negative as well
      let avail := (8 - r.bitPos.tmod 8).toNat
      let take := min avail remaining
      match byteAt r.data (r.bitPos.tdiv 8) with
      | none => none
      | some byte =>
        readLoop fuel (remaining - take) (sizeT (val <<< take) ||| bitsOf byte avail take)
          { r with bitPos := wrap32 (r.bitPos + take) }

/-- `java_backend.cpp:726-753`. -/
def readBits (n : Nat) : PortM JavaReader Nat := fun r =>
  if wrap32 (r.bitPos + n) > r.bitLen then none
  else if r.bitPos % 8 = 0 ∧ n % 8 = 0 then
    (wholeBytes r.data (n / 8) (r.bitPos / 8) 0).map fun val =>
      (val, { r with bitPos := wrap32 (r.bitPos + n) })
  else readLoop n n 0 r

/-- `java_backend.cpp:755-761`. -/
def readSignedBits (n : Nat) : PortM JavaReader Int := do
  let val ← readBits n
  return if n < 64 ∧ n > 0 ∧ val.testBit (n - 1) then toInt64 (sizeT (val + 2 ^ 64 - 2 ^ n))
    else toInt64 val

def bcdLoop (raw : Nat) : Nat → Nat → Nat → Nat → Nat
  | 0, _, result, _ => result
  | k + 1, i, result, mult =>
    bcdLoop raw k (i + 1) (sizeT (result + Java.chunk raw (i * 4) 4 * mult)) (sizeT (mult * 10))

/-- `java_backend.cpp:910-923`. -/
def readBcd (bits : Nat) : PortM JavaReader Nat := do
  let raw ← readBits bits
  return bcdLoop raw (bits / 4) 0 0 1

/-- The negation of a `long`. -/
def negate (val : Nat) : Int := toInt64 (sizeT (2 ^ 64 - val))

/-- `java_backend.cpp:924-930`. -/
def readBcdSigned (bits : Nat) : PortM JavaReader Int := do
  let sign ← readBits 1
  let val ← readBcd (bits - 1)
  return if sign ≠ 0 then negate val else toInt64 val

/-- `java_backend.cpp:931-935`. -/
def readSignMagnitude (bits : Nat) : PortM JavaReader Int := do
  let sign ← readBits 1
  let mag ← readBits (bits - 1)
  return if sign ≠ 0 then negate mag else toInt64 mag

/-- `java_backend.cpp:936`. -/
def skipBits (n : Nat) : PortM JavaReader Unit := fun r =>
  if wrap32 (r.bitPos + n) > r.bitLen then none
  else some ((), { r with bitPos := wrap32 (r.bitPos + n) })

/-- `java_backend.cpp:938-948`. -/
def alignTo (boundary : Nat) : PortM JavaReader Unit := fun r =>
  if boundary = 0 then some ((), r)
  else
    let bitPos :=
      if r.bitPos.tmod 8 ≠ 0 then wrap32 (r.bitPos + (8 - r.bitPos.tmod 8)) else r.bitPos
    let bRem := (bitPos.tdiv 8).tmod boundary
    let bitPos := if bRem ≠ 0 then wrap32 (bitPos + (boundary - bRem) * 8) else bitPos
    some ((), { r with bitPos := if bitPos > r.bitLen then r.bitLen else bitPos })

end JavaReader

/-! ## Calls -/

/-- The sizes that all three classes take: those of a Java `int`. -/
abbrev Count : Type := Fin (2 ^ 31)

inductive ReaderCall where
  | readBits (n : Count)
  | readSignedBits (n : Count)
  | readU8
  | readU16 (e : Endian)
  | readU32 (e : Endian)
  | readU64 (e : Endian)
  | readBcd (bits : Count)
  | readBcdSigned (bits : Count)
  | readSignMagnitude (bits : Count)
  | skipBits (n : Count)
  | alignTo (boundary : Count)

inductive Value where
  | uint (value : Nat)
  | int (value : Int)
  | done
deriving DecidableEq

/-- A call of the C++ reader that fails gives `none`. -/
def ofReadM {α : Type} (m : ReadM α) : PortM BitReader α := fun r =>
  match m r with
  | (.ok a, r') => some (a, r')
  | (.error _, _) => none

namespace ReaderCall

variable (data : List UInt8) (calls : List ReaderCall)

def cpp : ReaderCall → PortM BitReader Value
  | .readBits n => do return .uint (← ofReadM (BitReader.readBits n))
  | .readSignedBits n => do return .int (← ofReadM (BitReader.readSignedBits n))
  | .readU8 => do return .uint (← ofReadM BitReader.readU8)
  | .readU16 e => do return .uint (← ofReadM (BitReader.readU16 e))
  | .readU32 e => do return .uint (← ofReadM (BitReader.readU32 e))
  | .readU64 e => do return .uint (← ofReadM (BitReader.readU64 e))
  | .readBcd bits => do return .uint (← ofReadM (BitReader.readBcd bits))
  | .readBcdSigned bits => do return .int (← ofReadM (BitReader.readBcdSigned bits))
  | .readSignMagnitude bits => do return .int (← ofReadM (BitReader.readSignMagnitude bits))
  | .skipBits n => do
    ofReadM (BitReader.skipBits n)
    return .done
  | .alignTo boundary => fun r => some (.done, r.alignTo boundary)

def python : ReaderCall → PortM PythonReader Value
  | .readBits n => do return .uint (← PythonReader.readBits n)
  | .readSignedBits n => do return .int (← PythonReader.readSignedBits n)
  | .readU8 => do return .uint (← PythonReader.readBits 8)
  | .readU16 e => do return .uint (← readUnsigned PythonReader.readBits 2 e)
  | .readU32 e => do return .uint (← readUnsigned PythonReader.readBits 4 e)
  | .readU64 e => do return .uint (← readUnsigned PythonReader.readBits 8 e)
  | .readBcd bits => do return .uint (← PythonReader.readBcd bits)
  | .readBcdSigned bits => do return .int (← PythonReader.readBcdSigned bits)
  | .readSignMagnitude bits => do return .int (← PythonReader.readSignMagnitude bits)
  | .skipBits n => do
    PythonReader.skipBits n
    return .done
  | .alignTo boundary => do
    PythonReader.alignTo boundary
    return .done

def java : ReaderCall → PortM JavaReader Value
  | .readBits n => do return .uint (← JavaReader.readBits n)
  | .readSignedBits n => do return .int (← JavaReader.readSignedBits n)
  | .readU8 => do return .uint (← JavaReader.readBits 8)
  | .readU16 e => do return .uint (← readUnsigned JavaReader.readBits 2 e)
  | .readU32 e => do return .uint (← readUnsigned JavaReader.readBits 4 e)
  | .readU64 e => do return .uint (← readUnsigned JavaReader.readBits 8 e)
  | .readBcd bits => do return .uint (← JavaReader.readBcd bits)
  | .readBcdSigned bits => do return .int (← JavaReader.readBcdSigned bits)
  | .readSignMagnitude bits => do return .int (← JavaReader.readSignMagnitude bits)
  | .skipBits n => do
    JavaReader.skipBits n
    return .done
  | .alignTo boundary => do
    JavaReader.alignTo boundary
    return .done

/-- What the calls give one after the other, up to the first error. -/
def outcomes {σ : Type} (step : ReaderCall → PortM σ Value) : List ReaderCall → σ →
    List (Option Value)
  | [], _ => []
  | c :: calls, r =>
    match step c r with
    | none => [none]
    | some (value, r') => some value :: outcomes step calls r'

def cppOutcomes : List (Option Value) := outcomes cpp calls { data }

def pythonOutcomes : List (Option Value) := outcomes python calls ⟨data, 0⟩

def javaOutcomes : List (Option Value) := outcomes java calls (JavaReader.start data)

end ReaderCall

end Conduit.Ports

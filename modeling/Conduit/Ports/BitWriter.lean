import Conduit.Io.BitReader
import Conduit.Io.BitWriter

/-!
# The bit writers of the other backends

The `BitWriter` classes that bgen emits for Python (`python_backend.cpp:834-976`) and for Java
(`java_backend.cpp:995-1061,1192-1197,1231-1261`). Both keep a buffer of bytes that is longer than
what is written, and zero there. A call that raises or throws gives `none`. Java calls take the
unsigned values of the other backends as bit patterns of `int` and `long`.
-/

namespace Conduit.Ports

open Bits Io

structure PortWriter where
  buf : List UInt8
  bitPos : Nat

namespace PortWriter

def sizeBytes (w : PortWriter) : Nat := (w.bitPos + 7) / 8

/-- Both classes: what is written so far. -/
def toBytes (w : PortWriter) : List UInt8 := w.buf.take w.sizeBytes

/-- The loop of `write_bits` and `writeBits`, where `chunk shift take` are `take` bits of the value
from bit `shift` on. Every turn writes a bit, so `remaining` turns are enough. -/
def writeLoop (chunk : Nat → Nat → Nat) : Nat → Nat → PortWriter → PortWriter
  | 0, _, w => w
  | fuel + 1, remaining, w =>
    if remaining = 0 then w
    else
      let avail := 8 - w.bitPos % 8
      let take := min avail remaining
      let bits := chunk (remaining - take) take
      writeLoop chunk fuel (remaining - take)
        { buf := w.buf.modify (w.bitPos / 8) (· ||| UInt8.ofNat (bits <<< (avail - take)))
          bitPos := w.bitPos + take }

/-- Both classes: the position moves to the next byte boundary. -/
def alignToByte (w : PortWriter) : PortWriter :=
  if w.bitPos % 8 ≠ 0 then { w with bitPos := w.bitPos + (8 - w.bitPos % 8) } else w

end PortWriter

/-! ## Python -/

namespace Python

def start : PortWriter := ⟨[], 0⟩

/-- `_ensure`. -/
def ensure (n : Nat) (w : PortWriter) : PortWriter :=
  { w with buf := w.buf ++ List.replicate ((w.bitPos + n + 7) / 8 - w.buf.length) 0 }

def chunk (value shift take : Nat) : Nat := (value >>> shift) &&& (2 ^ take - 1)

/-- `python_backend.cpp:848-867`. `int.to_bytes` raises when the value does not fit. -/
def writeBits (value n : Nat) (w : PortWriter) : Option PortWriter :=
  let w := ensure n w
  if w.bitPos % 8 = 0 ∧ n % 8 = 0 then
    if n / 8 > 0 then
      if value < 2 ^ n then
        some ⟨BitWriter.overwrite w.buf (w.bitPos / 8) (beBytes (n / 8) value), w.bitPos + n⟩
      else none
    else some { w with bitPos := w.bitPos + n }
  else some (w.writeLoop (chunk value) n n)

/-- `python_backend.cpp:874-875`. -/
def writeU8 (value : Nat) (w : PortWriter) : Option PortWriter := writeBits (value % 2 ^ 8) 8 w

/-- The common body of `write_u16`, `write_u32` and `write_u64` (`python_backend.cpp:877-890`). -/
def writeWord (n value : Nat) (e : Endian) (w : PortWriter) : Option PortWriter :=
  (wordBytes n value e).foldlM (fun w byte => writeBits byte.toNat 8 w) w

/-- `python_backend.cpp:941-945`. -/
def writeBytes (data : List UInt8) (w : PortWriter) : Option PortWriter :=
  data.foldlM (fun w byte => writeU8 byte.toNat w) w.alignToByte

/-- `python_backend.cpp:972-976`: a boundary of zero divides by zero, and the position is not moved
to a byte boundary first. -/
def alignTo (boundary : Nat) (w : PortWriter) : Option PortWriter :=
  if boundary = 0 then none
  else (boundaryPad boundary w.sizeBytes).foldlM (fun w byte => writeU8 byte.toNat w) w

end Python

/-! ## Java -/

namespace Java

def start : PortWriter := ⟨List.replicate 64 0, 0⟩

/-- The position is an `int`. From here on `sizeBytes()` is negative, so that `toBytes()` throws if
no access to the buffer has thrown before. -/
def inRange (bitPos : Nat) : Bool := decide (bitPos + 7 < 2 ^ 31)

/-- `ensure`. -/
def ensure (n : Nat) (w : PortWriter) : PortWriter :=
  let needed := (w.bitPos + n + 7) / 8
  if needed > w.buf.length then
    { w with
      buf := w.buf ++ List.replicate (max needed (w.buf.length * 2) - w.buf.length) 0 }
  else w

/-- `value >> shift` of a `long`, of which only the low bits are used. -/
def chunk (value shift take : Nat) : Nat := ((toInt64 value / 2 ^ (shift % 64)) % 2 ^ take).toNat

/-- `java_backend.cpp:1005-1030`. -/
def writeBits (value n : Nat) (w : PortWriter) : Option PortWriter :=
  if inRange (w.bitPos + n) then
    let w := ensure n w
    if w.bitPos % 8 = 0 ∧ n % 8 = 0 then
      let bytes := (List.range (n / 8)).reverse.map fun i => UInt8.ofNat (chunk value (i * 8) 8)
      some ⟨BitWriter.overwrite w.buf (w.bitPos / 8) bytes, w.bitPos + n⟩
    else some (w.writeLoop (chunk value) n n)
  else none

/-- `java_backend.cpp:1040`. -/
def writeU8 (value : Nat) (w : PortWriter) : Option PortWriter := writeBits (value % 2 ^ 8) 8 w

/-- The common body of `writeU16`, `writeU32` and `writeU64` (`java_backend.cpp:1041-1061`). -/
def writeWord (n value : Nat) (e : Endian) (w : PortWriter) : Option PortWriter :=
  (wordBytes n value e).foldlM (fun w byte => writeBits byte.toNat 8 w) w

/-- `java_backend.cpp:1252-1260`. -/
def alignTo (boundary : Nat) (w : PortWriter) : Option PortWriter :=
  if boundary = 0 then some w
  else if boundary < 2 ^ 31 ∧ inRange w.alignToByte.bitPos then
    let w := w.alignToByte
    (boundaryPad boundary w.sizeBytes).foldlM (fun w byte => writeU8 byte.toNat w) w
  else none

/-- `java_backend.cpp:1192-1197`. -/
def writeBytes (data : List UInt8) (w : PortWriter) : Option PortWriter :=
  (alignTo 1 w).bind fun w => data.foldlM (fun w byte => writeU8 byte.toNat w) w

end Java

/-! ## Calls -/

inductive WriterCall where
  | writeBits (value n : Nat)
  | writeU8 (value : Nat)
  | writeU16 (value : Nat) (e : Endian)
  | writeU32 (value : Nat) (e : Endian)
  | writeU64 (value : Nat) (e : Endian)
  | writeBytes (data : List UInt8)
  | alignTo (boundary : Nat)

namespace WriterCall

variable (calls : List WriterCall)

def cpp : WriterCall → BitWriter → BitWriter
  | .writeBits value n => .writeBits value n
  | .writeU8 value => .writeU8 value
  | .writeU16 value e => .writeU16 value e
  | .writeU32 value e => .writeU32 value e
  | .writeU64 value e => .writeU64 value e
  | .writeBytes data => .writeBytes data
  | .alignTo boundary => .alignTo boundary

def python : WriterCall → PortWriter → Option PortWriter
  | .writeBits value n => Python.writeBits value n
  | .writeU8 value => Python.writeU8 value
  | .writeU16 value e => Python.writeWord 2 value e
  | .writeU32 value e => Python.writeWord 4 value e
  | .writeU64 value e => Python.writeWord 8 value e
  | .writeBytes data => Python.writeBytes data
  | .alignTo boundary => Python.alignTo boundary

def java : WriterCall → PortWriter → Option PortWriter
  | .writeBits value n => Java.writeBits value n
  | .writeU8 value => Java.writeU8 value
  | .writeU16 value e => Java.writeWord 2 value e
  | .writeU32 value e => Java.writeWord 4 value e
  | .writeU64 value e => Java.writeWord 8 value e
  | .writeBytes data => Java.writeBytes data
  | .alignTo boundary => Java.alignTo boundary

def cppRun (w : BitWriter) : BitWriter := calls.foldl (fun w c => cpp c w) w

def pythonRun (w : PortWriter) : Option PortWriter := calls.foldlM (fun w c => python c w) w

def javaRun (w : PortWriter) : Option PortWriter := calls.foldlM (fun w c => java c w) w

/-- The bytes after some calls, or `none` if one of them is rejected. -/
def cppBytes : Option (List UInt8) := (cppRun calls {}).finish.1.toOption

def pythonBytes : Option (List UInt8) := (pythonRun calls Python.start).map PortWriter.toBytes

def javaBytes : Option (List UInt8) := (javaRun calls Java.start).map PortWriter.toBytes

end WriterCall

end Conduit.Ports

import Conduit.Ports.BitReader

/-!
# Registration of passthrough sessions

A binding hands the transceiver a session that only finds the frames: the native
`PassthroughSession` (`conduit_cabi.cpp:831-948`) reads the frame length from the header with three
parameters, a number of bits to skip, a number of bits to read and a byte order. `register_session`
(`transceiver.py:639-738`) and `registerSession` (`Transceiver.java:455-564`) find these by calling
the generated session on headers that they make up. Here a generated session is a function from
headers to frame lengths, and `none` is an exception.
-/

namespace Conduit.Bindings

open Bits Io Ports

/-! ## The native session -/

/-- `conduit_cabi.cpp:833-839`, without the sync pattern. -/
structure FrameConfig where
  minHeaderSize : Nat
  lengthSkipBits : Nat
  lengthFieldBits : Nat
  lengthBigEndian : Bool
deriving DecidableEq

/-- The loop that turns the bytes of a number around. -/
def swapBytes (byteCount raw : Nat) : Nat :=
  (List.range byteCount).foldl (fun swapped i =>
    swapped ||| ((raw >>> (i * 8)) &&& 0xff) <<< ((byteCount - 1 - i) * 8)) 0

/-- `conduit_cabi.cpp:921-948`. -/
def FrameConfig.extractFrameLength (cfg : FrameConfig) (header : List UInt8) : Nat :=
  if header.length < cfg.minHeaderSize then 0
  else
    match if cfg.lengthSkipBits > 0 then BitReader.skipBits cfg.lengthSkipBits { data := header }
      else (.ok (), { data := header }) with
    | (.error _, _) => 0
    | (.ok _, r) =>
      let bits := cfg.lengthFieldBits
      if bits > 0 ∧ bits ≤ 64 then
        match (BitReader.readBits bits r).1 with
        | .error _ => 0
        | .ok raw =>
          if cfg.lengthBigEndian = false ∧ bits > 8 then swapBytes ((bits + 7) / 8) raw else raw
      else 0

/-! ## Probing -/

/-- A header of zeros but for two bytes. -/
def probeHeader (size skip : Nat) (first second : UInt8) : List UInt8 :=
  ((List.replicate size 0).set skip first).set (skip + 1) second

section
variable (extract : List UInt8 → Option Int)

/-- The loop of both bindings: the first place where a length of 42 in two bytes, in one order or
the other, is understood. -/
def probeLoop (headerSize : Nat) : List Nat → Option (Option Nat)
  | [] => some none
  | skip :: rest =>
    if headerSize - skip ≥ 2 then do
      let big ← extract (probeHeader headerSize skip 0 42)
      if big = 42 then return some skip
      let little ← extract (probeHeader headerSize skip 42 0)
      if little = 42 then return some skip
      probeLoop headerSize rest
    else probeLoop headerSize rest

end

/-- A buffer of zeros. -/
def zeros (size : Int) : Option (List UInt8) :=
  if size < 0 then none else some (List.replicate size.toNat 0)

/-! ## Python -/

namespace PythonTransceiver

/-- Assignment to an element: negative indices count from the end. -/
def setItem (header : List UInt8) (i : Int) (byte : UInt8) : Option (List UInt8) :=
  let j := if i < 0 then i + header.length else i
  if 0 ≤ j ∧ j < header.length then some (header.set j.toNat byte) else none

section
variable (extract : List UInt8 → Option Int)

/-- `transceiver.py:709-724`. -/
def probeSkipBits (headerSize : Nat) : Option Int := do
  match ← probeLoop extract headerSize (List.range headerSize) with
  | some skipBytes => return skipBytes * 8
  | none => return (headerSize - 2) * 8

/-- `transceiver.py:727-738`. -/
def probeEndianness (skipBits fieldBits : Int) : Option Bool := do
  let skipBytes := skipBits / 8
  let fieldBytes := (fieldBits + 7) / 8
  let header ← zeros (skipBytes + fieldBytes)
  let header ← setItem header skipBytes 0x01
  let header ← if fieldBytes > 1 then setItem header (skipBytes + 1) 0x02 else some header
  let result ← extract header
  return result = 0x0102

/-- `transceiver.py:639-669`; the fields of the C structure have the type `size_t`. -/
def registerSession (minHeader : Nat) : Option FrameConfig := do
  let skipBits ← probeSkipBits extract minHeader
  let fieldBits := minHeader * 8 - skipBits
  let bigEndian ← probeEndianness extract skipBits fieldBits
  return { minHeaderSize := toUint64 minHeader
           lengthSkipBits := toUint64 skipBits
           lengthFieldBits := toUint64 fieldBits
           lengthBigEndian := bigEndian }

end

end PythonTransceiver

/-! ## Java -/

namespace JavaTransceiver

/-- Assignment to an element. -/
def setItem (header : List UInt8) (i : Int) (byte : UInt8) : Option (List UInt8) :=
  if 0 ≤ i ∧ i < header.length then some (header.set i.toNat byte) else none

section
variable (extract : List UInt8 → Option Int)

/-- `Transceiver.java:532-549`. -/
def probeFrameSkipBits (headerSize : Nat) : Option Int := do
  match ← probeLoop extract headerSize (List.range headerSize) with
  | some skipBytes => return wrap32 (skipBytes * 8)
  | none => return wrap32 ((headerSize - 2) * 8)

/-- `Transceiver.java:551-564`. -/
def probeFrameEndianness (skipBits fieldBits : Int) : Option Bool := do
  let skipBytes := skipBits.tdiv 8
  let fieldBytes := (wrap32 (fieldBits + 7)).tdiv 8
  let header ← zeros (wrap32 (skipBytes + fieldBytes))
  let header ←
    if fieldBytes ≥ 2 then do
      let header ← setItem header skipBytes 0x01
      setItem header (skipBytes + 1) 0x02
    else some header
  let result ← extract header
  return result = 0x0102

/-- `Transceiver.java:455-481`, and `conduit_jni.cpp:740-743`. -/
def registerSession (minHeaderSize : Nat) : Option FrameConfig := do
  let skipBits ← probeFrameSkipBits extract minHeaderSize
  let fieldBits := wrap32 (wrap32 (minHeaderSize * 8) - skipBits)
  let bigEndian ← probeFrameEndianness extract skipBits fieldBits
  return { minHeaderSize := toUint64 minHeaderSize
           lengthSkipBits := toUint64 skipBits
           lengthFieldBits := toUint64 fieldBits
           lengthBigEndian := bigEndian }

end

end JavaTransceiver

end Conduit.Bindings

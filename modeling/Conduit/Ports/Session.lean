import Conduit.Bgen.Session
import Conduit.Ports.BitReader

/-!
# The frame length in the generated sessions of Python and Java

`extract_frame_length` as `python_backend.cpp:4446-4516` prints it, and `extractFrameLength` as
`java_backend.cpp:4771-4841` does. `none` is an exception. The arithmetic of the length field is
undone with the integers of the language: without bounds in Python, of type `int` in Java.
-/

namespace Conduit.Ports

open Bits Io Bgen

section
variable {σ : Type} (skipBits : Nat → PortM σ Unit) (readBits : Nat → PortM σ Nat)

/-- The read of the length field, chosen by its width. -/
def lengthRead (si : SessionInfo) : PortM σ Nat :=
  if si.frameLengthBits ≤ 8 then readBits 8
  else if si.frameLengthBits ≤ 16 then readUnsigned readBits 2 si.frameLengthEndian
  else if si.frameLengthBits ≤ 32 then readUnsigned readBits 4 si.frameLengthEndian
  else readUnsigned readBits 8 si.frameLengthEndian

/-- The value found at the place of the length field. -/
def rawLength (si : SessionInfo) : PortM σ Nat := do
  if si.frameLengthBitOffset > 0 then skipBits si.frameLengthBitOffset
  lengthRead readBits si

end

/-- What the session adds to the length of a payload. -/
def overhead (si : SessionInfo) : Nat :=
  if si.frameLengthFieldRef == "payload" then si.minFrameHeaderSize + si.frameFooterSize else 0

namespace PythonSession

/-- The inverse of the operation of the length field. The remainder has none and is left out. -/
def undo (m : ArithModifier) (val : Int) : Option Int :=
  match m.op with
  | .none | .mod => some val
  | .add => some (val - m.literal)
  | .sub => some (val + m.literal)
  | .mul => if m.literal = 0 then none else some (val.fdiv m.literal)
  | .div => some (val * m.literal)

def frameLength (si : SessionInfo) (val : Nat) : Option Int :=
  (undo si.frameLengthModifier val).map (· + overhead si)

def extractFrameLength (si : SessionInfo) (header : List UInt8) : Option Int :=
  if si.frameLengthBits > 0 then
    if header.length < si.minFrameHeaderSize then some 0
    else do
      let (val, _) ← rawLength PythonReader.skipBits PythonReader.readBits si ⟨header, 0⟩
      frameLength si val
  else some header.length

end PythonSession

namespace JavaSession

/-- The number of an `int` with some low bits, as `getInt` and the cast of a `long` give it. -/
def toInt32 (val : Nat) : Int := wrap32 val

/-- The operations on `int`; the quotient is cut off towards zero. -/
def undo (m : ArithModifier) (val : Int) : Option Int :=
  match m.op with
  | .none | .mod => some val
  | .add => some (wrap32 (val - m.literal))
  | .sub => some (wrap32 (val + m.literal))
  | .mul => if m.literal = 0 then none else some (wrap32 (val.tdiv m.literal))
  | .div => some (wrap32 (val * m.literal))

def frameLength (si : SessionInfo) (val : Nat) : Option Int :=
  (undo si.frameLengthModifier (toInt32 val)).map fun length =>
    wrap32 (length + wrap32 (overhead si))

def extractFrameLength (si : SessionInfo) (header : List UInt8) : Option Int :=
  if si.frameLengthBits > 0 then
    if header.length < si.minFrameHeaderSize then some 0
    else do
      let (val, _) ← rawLength JavaReader.skipBits JavaReader.readBits si (JavaReader.start header)
      frameLength si val
  else some (wrap32 header.length)

end JavaSession

end Conduit.Ports

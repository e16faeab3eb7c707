import Conduit.Bgen.DecodeM
import Conduit.Bgen.Frame

/-!
# Decoding arrays of records

The `decode` of a frame whose payload is an array, over the decoders of the messages, which may
loop. It decodes as many records as a count field tells, or records until less than a byte of the
payload remains (`codegen/cpp_structs.cpp:430-503`). All records of a frame have the type that the
id of the header stands for.
-/

namespace Conduit.Bgen

open Io DecodeM BitReader

namespace DecodeM

variable {α : Type}

/-- Decoding from a reader of the next `n` bytes. -/
def within (n : Nat) (m : DecodeM α) : DecodeM α := do
  let (a, _) ← bounded (read (takeBytes "sub_reader" n)) (pure ()) fun _ => m
  return a

/-- Decoding from as many bytes as were computed for the payload, or from all that remain. -/
def withinSize (m : DecodeM α) : Except Fault (Option Nat) → DecodeM α
  | .error e => stop (.fault e)
  | .ok none => m
  | .ok (some n) => within n m

def withinBound (bound : BitReader → Except Fault (Option Nat)) (m : DecodeM α) : DecodeM α := do
  let r ← getReader
  withinSize m (bound r)

end DecodeM

namespace FrameCode

variable (code : FrameCode) {P : Type}

/-- The payload takes what the footer leaves. -/
def beforeFooter (r : BitReader) : Except Fault (Option Nat) :=
  if r.remainingBytes < code.footerBytes then
    .error (.error ⟨.bufferUnderrun, "frame too short for footer"⟩)
  else .ok (some (r.remainingBytes - code.footerBytes))

/-- The payload has a length that is computed from the header. -/
def lengthFromHeader (header : List Int) (expr : Expr) (r : BitReader) :
    Except Fault (Option Nat) :=
  match evalFrameExpr code.index (memberValue code.header header) r.remainingBits expr with
  | some v => .ok (some v.toSize)
  | none => .error .outOfBounds

/-- The payload has a size that is computed from the length field. -/
def lengthFromField (header : List Int) (size : Nat → Nat) : Except Fault (Option Nat) :=
  match code.lengthMember header with
  | some n => .ok (some (size (reverseArith n code.session.frameLengthModifier)))
  | none => .error .outOfBounds

/-- `cpp_structs.cpp:432-467`: the bound of an array of records. A count field takes precedence over
the length field and over the footer. -/
def arrayBound (header : List Int) (r : BitReader) : Except Fault (Option Nat) :=
  let si := code.session
  if si.lengthFieldName ≠ "" ∧ si.countFieldName = "" then
    code.lengthFromField header fun total =>
      if si.frameLengthFieldRef = "" then
        sizeT (total + (2 ^ 64 - (code.headerBytes + code.footerBytes)))
      else sizeT (total + (2 ^ 64 - code.footerBytes))
  else if code.footerBits > 0 ∧ si.countFieldName = "" then code.beforeFooter r
  else
    match si.payloadLengthFrom with
    | some expr => code.lengthFromHeader header expr r
    | none => .ok none

variable (decodeMessage : String → DecodeM P)

/-- An id without a message. -/
def unknownId (id : Int) : DecodeM P :=
  fail .unknownDiscriminator s!"unknown frame message id: {id.bmod (2 ^ 32)}"

/-- `cpp_structs.cpp:477-500`: one record. -/
def decodeRecord (header : List Int) : DecodeM (FrameMessage P) :=
  match memberOf code.header header code.session.idFieldName with
  | none => stop (.fault .outOfBounds)
  | some (_, id) =>
    match (recordLeaves code.session.leafTypes).find? fun leaf =>
        constraintValue code.index leaf.idText == some id with
    | some leaf => do
      let value ← decodeMessage leaf.name
      return code.copyHeader header value
    | none => unknownId id

/-- `static_cast<size_t>` of the count member. -/
def countMember (header : List Int) : Option Nat :=
  match memberOf code.header header code.session.countFieldName with
  | some (c, v) => if c.type.isFloat then none else some (toUint64 v)
  | none => none

/-- `while (r.remaining_bytes() > 0)`. -/
def noByteLeft (r : BitReader) : Bool := r.remainingBytes == 0

/-- `cpp_structs.cpp:468-502`: all records. -/
def decodeRecords (turns : Nat) (header : List Int) : DecodeM (List (FrameMessage P)) :=
  if code.session.countFieldName ≠ "" then
    match code.countMember header with
    | some n => times (code.decodeRecord decodeMessage header) n
    | none => stop (.fault .outOfBounds)
  else repeatUntil noByteLeft (code.decodeRecord decodeMessage header) turns

/-- `cpp_structs.cpp:362-613` for an array of records. The values of the footer are copied into
every record. -/
def decodeArray (turns : Nat) : DecodeM (DecodedFrame (List (FrameMessage P))) := do
  let header ← read (readFields code.header)
  let records ← withinBound (code.arrayBound header)
    (code.decodeRecords decodeMessage turns header)
  let footer ← read (readFields code.footer)
  return { header, payload := records.map ({ · with footer }), footer }

end FrameCode

end Conduit.Bgen

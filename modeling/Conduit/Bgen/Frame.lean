import Conduit.Bgen.CppExpr
import Conduit.Bgen.Session

/-!
# The generated frame class

`emit_frame_class` (`codegen/cpp_structs.cpp:170-640`): the encoder writes the header, the payload
and the footer and then patches the length field; the decoder reads the header, bounds the payload
and dispatches on the id. `FrameCode.generate` is the generator and gives nothing where it throws
or prints code that does not compile. The other functions run what it has printed.

Every field access of a frame is emitted for a byte-aligned position, wherever the field stands.
Reserved bits and alignments of the header are neither written nor read. The messages are a
parameter: the encoder of the payload, and the decoder of every message type. Only the decoder for
a single payload is here. A floating-point number cannot bound the payload in this model.
-/

namespace Conduit.Bgen

open Io
open Validator (plainFields)

/-! ## Emitted code -/

variable (index : TypeIndex)

/-- The value that `emit_frame_field_write` prints into the write statement. -/
inductive ValueSource where
  | member
  | constant (value : Int)
  | placeholder
  | payloadSize
deriving DecidableEq

/-- The accesses to one field of a frame. -/
structure FieldCode where
  field : Field
  type : FieldTypeInfo
  write : WriteStmt
  read : ReadExpr
  source : ValueSource
deriving DecidableEq

/-- The text of an `equals` constraint or of a message id as a C++ expression: a constant or a
literal. -/
def constraintValue (text : String) : Option Int :=
  match index.constant? text with
  | some c => (constantValue index c).map (·.value)
  | none => cppLiteral text

/-- `cpp_structs.cpp:91-122`: which value is written for a field. -/
def fieldSource (payloadIsArray : Bool) (f : Field) (fti : FieldTypeInfo) : Option ValueSource :=
  match f.autoExpr with
  | some { kind := .length, .. } => some .placeholder
  | some { kind := .count, fieldRef, .. } =>
    if fieldRef == "payload" && payloadIsArray then some .payloadSize else some .member
  | _ =>
    match f.constraint.bind (·.equals) with
    | some text =>
      (constraintValue index text).map fun v => .constant (storageCast fti.bits fti.isSigned v)
    | none => some .member

/-- `cpp_structs.cpp:86-140`. -/
def emitFrameField (payloadIsArray : Bool) (f : Field) : Option FieldCode := do
  let fti := resolveFieldType f index
  let read ← emitReadExpr fti f.endian
  let source ← fieldSource index payloadIsArray f fti
  return { field := f, type := fti, write := emitWriteStmt fti f.endian, read, source }

/-- The length field whose value is patched in. -/
structure LengthCode where
  payloadOnly : Bool
  modifier : ArithModifier
  bits : Nat
  endian : Endian
deriving DecidableEq

structure FrameCode where
  index : TypeIndex
  session : SessionInfo
  header : List FieldCode
  footer : List FieldCode
  length : Option LengthCode
  headerBits : Nat

/-- `cpp_structs.cpp:302-315`: the last length field of the header. The start of the frame is
recorded only for a length without a reference. -/
def emitLength (header : List StructChild) : Option (Option LengthCode) :=
  match ((Validator.autoFields header).filter (·.2.kind == .length)).getLast? with
  | none => some none
  | some (f, a) =>
    if a.fieldRef == "" || a.fieldRef == "payload" then
      some (some
        { payloadOnly := a.fieldRef == "payload"
          modifier := a.modifier
          bits := (resolveFieldType f index).bits
          endian := f.endian })
    else none

/-- `cpp_structs.cpp:416-423`. -/
def codeHeaderBits (header : List StructChild) : Nat :=
  (header.map fun child =>
    match child with
    | .field f => (resolveFieldType f index).bits
    | .reserved bits => bits
    | _ => 0).sum

namespace LeafTypeInfo

/-- The text of the case label for a message. -/
def idText (leaf : LeafTypeInfo) : String := leaf.constraint.getD "0"

end LeafTypeInfo

/-- The case labels of the dispatch: numbers, and no number twice. -/
def labelsCompile (index : TypeIndex) (leaves : List LeafTypeInfo) : Bool :=
  let texts := (leaves.map (·.idText)).dedup
  texts.all (fun t => (constraintValue index t).isSome)
    && decide (texts.map (constraintValue index)).Nodup

/-- The message types with a case in the dispatch on the records of an array
(`cpp_structs.cpp:480-482`): a message that is only sent has none. -/
def recordLeaves (leaves : List LeafTypeInfo) : List LeafTypeInfo := leaves.filter (!·.sendOnly)

/-- The case labels of that dispatch, where every message type has a label of its own. -/
def recordLabelsCompile (index : TypeIndex) (leaves : List LeafTypeInfo) : Bool :=
  (recordLeaves leaves).all (fun leaf => (constraintValue index leaf.idText).isSome)
    && decide ((recordLeaves leaves).map fun leaf => constraintValue index leaf.idText).Nodup

def dispatchCompiles (index : TypeIndex) (session : SessionInfo) : Bool :=
  if session.payloadIsArray then recordLabelsCompile index session.leafTypes
  else labelsCompile index session.leafTypes

namespace FrameCode

/-- `emit_frame_class`. The class has one member for each field, and the dispatch needs an id in
the header. -/
def generate (proto : Protocol) (frame : FrameDef) : Option FrameCode := do
  let index := TypeIndex.ofProtocol proto
  let session := SessionAnalyzer.analyze proto frame
  let fields := plainFields frame.headerFields ++ plainFields frame.footerFields
  let header ← (plainFields frame.headerFields).mapM (emitFrameField index session.payloadIsArray)
  let footer ← (plainFields frame.footerFields).mapM (emitFrameField index session.payloadIsArray)
  let length ← emitLength index frame.headerFields
  if (fields.map fun f => toSnakeCase f.name).Nodup ∧ session.idFieldName ≠ ""
      ∧ dispatchCompiles index session then
    return { index, session, header, footer, length,
             headerBits := codeHeaderBits index frame.headerFields }
  else none

def headerBytes (code : FrameCode) : Nat := (code.headerBits + 7) / 8

/-- `cpp_structs.cpp:407-415`. -/
def footerBits (code : FrameCode) : Nat := (code.footer.map (·.type.bits)).sum

def footerBytes (code : FrameCode) : Nat := (code.footerBits + 7) / 8

end FrameCode

/-! ## `encode` -/

/-- What a frame object holds: its members by the names of the fields, and the number of messages
in its payload. -/
structure FrameObject where
  member : String → Int
  payloadCount : Nat

/-- The value that is written for a field. -/
def FieldCode.value (c : FieldCode) (object : FrameObject) : Int :=
  match c.source with
  | .member => object.member c.field.name
  | .constant v => v
  | .placeholder => 0
  | .payloadSize => storageCast c.type.bits c.type.isSigned object.payloadCount

/-- The writer with the positions that are recorded while the header is written. -/
structure HeaderState where
  writer : BitWriter
  lengthBytePos : Nat := 0
  payloadStartPos : Nat := 0

/-- `cpp_structs.cpp:86-122`: executing the write of one field. -/
def writeFrameField (object : FrameObject) (s : HeaderState) (c : FieldCode) : HeaderState :=
  let w := c.write.exec (c.value object) s.writer
  match c.source with
  | .placeholder =>
    { writer := w, lengthBytePos := s.writer.sizeBytes, payloadStartPos := w.sizeBytes }
  | _ => { s with writer := w }

/-- `cpp_structs.cpp:157-164`: the patch call for the width of the field. -/
def LengthCode.patch (l : LengthCode) (bytePos value : Nat) (w : BitWriter) :
    Except Fault (Bool × BitWriter) :=
  let v := value % 2 ^ storageBits l.bits
  if l.bits ≤ 8 then w.patchU8 bytePos v
  else if l.bits ≤ 16 then w.patchU16 bytePos v l.endian
  else w.patchU32 bytePos v l.endian

/-- `cpp_structs.cpp:143-168`. -/
def LengthCode.backpatch (l : LengthCode) (frameStartPos : Nat) (s : HeaderState)
    (w : BitWriter) : Except Error BitWriter :=
  let rawLength := w.sizeBytes - if l.payloadOnly then s.payloadStartPos else frameStartPos
  match l.patch s.lengthBytePos (applyArith rawLength l.modifier) w with
  | .ok (true, w) => .ok w
  -- The position was recorded in this buffer, so the patch is never outside of it.
  | _ => .error ⟨.invalidArgument, "failed to patch frame length"⟩

namespace FrameCode

variable (code : FrameCode) (object : FrameObject) (payload : BitWriter → Except Error BitWriter)

def writeHeader (w : BitWriter) : HeaderState :=
  code.header.foldl (writeFrameField object) { writer := w }

def writeFooter (w : BitWriter) : BitWriter :=
  (code.footer.foldl (writeFrameField object) { writer := w }).writer

/-- `cpp_structs.cpp:298-360`. -/
def encode (w : BitWriter) : Except Error BitWriter := do
  let s := code.writeHeader object w
  let body ← payload s.writer
  let body := code.writeFooter object body
  match code.length with
  | none => return body
  | some l => l.backpatch w.sizeBytes s body

/-- `cpp_structs.cpp:613-620`. -/
def encodeBytes : Except Error (List UInt8) := do
  let w ← code.encode object payload {}
  w.finish.1

end FrameCode

/-! ## `decode` -/

/-- `cpp_structs.cpp:124-140`, one field after the other. -/
def readFields : List FieldCode → ReadM (List Int)
  | [] => return []
  | c :: cs => do
    let value ← c.read.exec
    let values ← readFields cs
    return value :: values

/-- `result.<member>` for a field of the header. -/
def memberOf (header : List FieldCode) (values : List Int) (name : String) :
    Option (FieldCode × Int) :=
  (header.zip values).find? (·.1.field.name == name)

/-- A member of integer type in an expression. -/
def memberValue (header : List FieldCode) (values : List Int) (name : String) : Option CppValue :=
  match memberOf header values name with
  | some (c, v) =>
    if c.type.isEnum || c.type.isFloat then none
    else if c.type.isBool then some ⟨⟨8, false⟩, v⟩
    else some ⟨⟨storageBits c.type.bits, c.type.isSigned⟩, v⟩
  | none => none

/-- Reading from a bounded view of the next `n` bytes. -/
def bounded {α : Type} (n : Nat) (m : ReadM α) : ReadM α := do
  let sub ← BitReader.subReader n
  match (m sub).1 with
  | .ok a => return a
  | .error e => fun r => (.error e, r)

/-- A value that the code has no defined way to compute. -/
def undefinedRead {α : Type} : ReadM α := fun r => (.error .outOfBounds, r)

/-- A message object: its own members, and its copies of the members of the frame
(`cpp_structs.cpp:1087-1099`). A new message has zero in the copies; `operator==` compares them. -/
structure FrameMessage (P : Type) where
  value : P
  header : List Int
  footer : List Int
deriving DecidableEq

/-- What a frame object holds after `decode`. -/
structure DecodedFrame (P : Type) where
  header : List Int
  payload : P
  footer : List Int
deriving DecidableEq

namespace FrameCode

variable (code : FrameCode) {P : Type}

/-- `static_cast<size_t>` of the length member. -/
def lengthMember (header : List Int) : Option Nat :=
  match memberOf code.header header code.session.lengthFieldName with
  | some (c, v) => if c.type.isFloat then none else some (toUint64 v)
  | none => none

/-- `cpp_structs.cpp:504-547`: the part of the input that the payload is decoded from. -/
def withPayloadReader (header : List Int) (m : ReadM P) : ReadM P := fun r =>
  let si := code.session
  if si.lengthFieldName ≠ "" ∧ si.frameLengthFieldRef = "payload" then
    match code.lengthMember header with
    | some n => bounded (reverseArith n si.frameLengthModifier) m r
    | none => undefinedRead r
  else if si.lengthFieldName ≠ "" ∧ si.frameLengthFieldRef = "" ∧ code.footerBits > 0 then
    match code.lengthMember header with
    | some n =>
      bounded (sizeT (reverseArith n si.frameLengthModifier
        + (2 ^ 64 - (code.headerBytes + code.footerBytes)))) m r
    | none => undefinedRead r
  else if code.footerBits > 0 ∧ si.lengthFieldName = "" then
    if r.remainingBytes < code.footerBytes then
      ReadM.fail .bufferUnderrun "frame too short for footer" r
    else bounded (r.remainingBytes - code.footerBytes) m r
  else
    match si.payloadLengthFrom with
    | some expr =>
      match evalFrameExpr code.index (memberValue code.header header) r.remainingBits expr with
      | some v => bounded v.toSize m r
      | none => undefinedRead r
    | none => m r

/-- `cpp_structs.cpp:553-566`: the message an id is decoded as. Of the messages that share a label
the first one that can be received is taken, or the first one if there is none. -/
def decodeLeaf (index : TypeIndex) (leaves : List LeafTypeInfo) (id : Int) : Option LeafTypeInfo :=
  let group := leaves.filter fun leaf => constraintValue index leaf.idText == some id
  (group.find? fun leaf => !leaf.sendOnly).or group.head?

/-- `emit_copy_header` (`cpp_structs.cpp:405-410`) on a message that was just decoded. -/
def copyHeader (header : List Int) (value : P) : FrameMessage P :=
  { value, header, footer := code.footer.map fun _ => 0 }

/-- `cpp_structs.cpp:549-583`. -/
def decodePayload (decodeMessage : String → ReadM P) (header : List Int) :
    ReadM (FrameMessage P) :=
  match memberOf code.header header code.session.idFieldName with
  | none => undefinedRead
  | some (_, id) =>
    match decodeLeaf code.index code.session.leafTypes id with
    | some leaf => code.copyHeader header <$> decodeMessage leaf.name
    | none => ReadM.fail .unknownDiscriminator s!"unknown frame message id: {id.bmod (2 ^ 32)}"

/-- `cpp_structs.cpp:362-611` for a single payload. The values of the footer are copied into the
message when they have been read. -/
def decode (decodeMessage : String → ReadM P) : ReadM (DecodedFrame (FrameMessage P)) := do
  let header ← readFields code.header
  let message ← code.withPayloadReader header (code.decodePayload decodeMessage header)
  let footer ← readFields code.footer
  return { header, payload := { message with footer }, footer }

end FrameCode

end Conduit.Bgen

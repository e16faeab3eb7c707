import Conduit.Bgen.Validator
import Conduit.Io.BitReader
import Conduit.Io.BitWriter

/-!
# Frame analysis and the generated session

`analyzer/session_analyzer.cpp`: the scan over the children of a frame that finds the id and
length fields, their place in the header and the sync pattern. `codegen/cpp_session.cpp` prints
the result into the session class; here `extractFrameLength` is the function it prints.

The analysis of configuration, counter and timestamp fields, annotations and type-id hashes is
left out. The footer is only measured.
-/

namespace Conduit.Bgen

open Bits Io

/-! ## Length arithmetic -/

/-- An operator of C++ between a `size_t` and a literal. A division by zero, which is undefined,
gives zero. -/
def arith (op : ArithOp) (base : Nat) (literal : Int) : Nat :=
  let c := toUint64 literal
  match op with
  | .none => base
  | .add => sizeT (base + c)
  | .sub => sizeT (base + (2 ^ 64 - c))
  | .mul => sizeT (base * c)
  | .div => base / c
  | .mod => base % c

/-- `cpp_structs_helpers.cpp:477-485`. -/
def inverseOp : ArithOp → ArithOp
  | .add => .sub
  | .sub => .add
  | .mul => .div
  | .div => .mul
  | op => op

/-- `cpp_structs_helpers.cpp:489-500`, for a literal operand: the validator refuses field operands
in the length of a frame. -/
def applyArith (base : Nat) (m : ArithModifier) : Nat :=
  if m.hasModifier then arith m.op base m.literal else base

/-- `cpp_structs_helpers.cpp:502-507`. -/
def reverseArith (base : Nat) (m : ArithModifier) : Nat :=
  if m.hasModifier then arith (inverseOp m.op) base m.literal else base

/-! ## The scan -/

/-- A message as the dispatch of a frame sees it. -/
structure LeafTypeInfo where
  name : String
  sendOnly : Bool
  constraint : Option String

/-- `analyzer/session_analyzer.hpp`. -/
structure SessionInfo where
  payloadIsArray : Bool := false
  payloadLengthFrom : Option Expr := none
  idFieldName : String := ""
  lengthFieldName : String := ""
  countFieldName : String := ""
  frameLengthFieldRef : String := ""
  frameLengthBitOffset : Nat := 0
  frameLengthBits : Nat := 0
  frameLengthModifier : ArithModifier := {}
  frameLengthEndian : Endian := .big
  syncPattern : List UInt8 := []
  minFrameHeaderSize : Nat := 0
  frameFooterSize : Nat := 0
  leafTypes : List LeafTypeInfo := []

namespace SessionAnalyzer

variable (index : TypeIndex) (f : Field)

/-- `session_analyzer.cpp:382-390`: the same width as the validator takes. -/
def resolveFieldBits : Nat := Validator.fieldBits index f

/-- The number `parse_sync_bytes` reads from a literal. -/
def syncValue (text : String) : Option Int :=
  let cs := text.toList
  if isHexText cs then fromChars 16 (cs.drop 2) else fromChars 10 cs

/-- The number of bytes a constrained field adds to the sync pattern. -/
def syncWidth (typeRef : String) : Nat :=
  match index.type? typeRef with
  | some t => if t.bits > 0 then (t.bits + 7) / 8 else 1
  | none => 1

/-- `session_analyzer.cpp:289-324`: the shifts by whole bytes give the digits to base 256. -/
def parseSyncBytes (text typeRef : String) (e : Endian) : List UInt8 :=
  match syncValue text with
  | none => []
  | some v =>
    let n := syncWidth index typeRef
    wordBytes n (v % (2 ^ (8 * n) : Nat)).toNat e

/-- `session_analyzer.cpp:98-107`: the literal of a constrained header field and the type that
gives its width, both those of the constant if the constraint names one. -/
def syncSource : Option (String × String) :=
  (f.constraint.bind (·.equals)).map fun eq =>
    match index.constant? eq with
    | some c => (c.value, c.typeRef)
    | none => (eq, f.typeRef)

/-- The bytes one header field adds to the sync pattern. -/
def syncBytes : List UInt8 :=
  match syncSource index f with
  | none => []
  | some (text, typeRef) => parseSyncBytes index text typeRef f.endian

/-- Rounding a bit offset up to a multiple of `boundary` bytes. -/
def alignOffset (boundary offset : Nat) : Nat :=
  if boundary * 8 > 0 then (offset + boundary * 8 - 1) / (boundary * 8) * (boundary * 8)
  else offset

/-- `session_analyzer.cpp:326-357`: a type is looked for under every kind of definition. -/
def computeFixedSizeBits (children : List StructChild) : Nat :=
  children.foldl (fun total child =>
    match child with
    | .field f =>
      total + match f.bits, f.bytesAttr with
        | some bits, _ => bits
        | none, some bytes => bytes * 8
        | none, none =>
          match if f.typeRef != "" then index.find f.typeRef else none with
          | some (.type t) => t.bits
          | _ => 0
    | .reserved bits => total + bits
    | .align boundary => alignOffset boundary total
    | _ => total) 0

/-- `session_analyzer.cpp:39-96`: what an automatic header field at a bit offset tells. -/
def scanAuto (offset : Nat) (f : Field) (si : SessionInfo) : SessionInfo :=
  match f.autoExpr with
  | none => si
  | some a =>
    match a.kind with
    | .id => { si with idFieldName := f.name }
    | .length =>
      { si with
        lengthFieldName := f.name
        frameLengthFieldRef := a.fieldRef
        frameLengthBitOffset := offset
        frameLengthBits := resolveFieldBits index f
        frameLengthModifier := a.modifier
        frameLengthEndian := f.endian }
    | .count => { si with countFieldName := f.name }
    | _ => si

/-- `session_analyzer.cpp:36-126`: one child of the header, with the bit offset it stands at. -/
def scanHeaderChild (state : SessionInfo × Nat) (child : StructChild) : SessionInfo × Nat :=
  let (si, offset) := state
  match child with
  | .field f =>
    let si := scanAuto index offset f si
    ({ si with syncPattern := si.syncPattern ++ syncBytes index f },
      offset + resolveFieldBits index f)
  | .reserved bits => (si, offset + bits)
  | .align boundary => (si, alignOffset boundary offset)
  | .struct s children =>
    if s.bit.isNone && s.presentWhen.isNone then (si, offset + computeFixedSizeBits index children)
    else (si, offset)
  | _ => (si, offset)

/-- `session_analyzer.cpp:130-143`: the bit offset after one child of the footer. -/
def scanFooterChild (offset : Nat) : StructChild → Nat
  | .field f => offset + resolveFieldBits index f
  | .reserved bits => offset + bits
  | .align boundary => alignOffset boundary offset
  | _ => offset

/-- `session_analyzer.cpp:166-181`: a message as a leaf type. -/
def leafType (idFieldName : String) (m : MessageDef) : LeafTypeInfo :=
  { name := m.name
    sendOnly := m.direction == .send
    constraint := if m.id != "" && idFieldName != "" then some m.id else none }

/-- `session_analyzer.cpp:24-205`: the session of one frame. -/
def analyze (proto : Protocol) (frame : FrameDef) : SessionInfo :=
  let index := TypeIndex.ofProtocol proto
  let start : SessionInfo :=
    { payloadIsArray := frame.payload.isArray, payloadLengthFrom := frame.payload.lengthFrom }
  let (si, headerBits) := frame.headerFields.foldl (scanHeaderChild index) (start, 0)
  let footerBits := frame.footerFields.foldl (scanFooterChild index) 0
  { si with
    minFrameHeaderSize := (headerBits + 7) / 8
    frameFooterSize := (footerBits + 7) / 8
    leafTypes := proto.messages.map (leafType si.idFieldName) }

end SessionAnalyzer

/-! ## The generated session -/

namespace SessionInfo

/-- The read of the length field that `cpp_session.cpp:412-424` chooses by its width. -/
def lengthRead (si : SessionInfo) : ReadM Nat :=
  if si.frameLengthBits ≤ 8 then BitReader.readU8
  else if si.frameLengthBits ≤ 16 then BitReader.readFixed "read_u16" 2 si.frameLengthEndian
  else if si.frameLengthBits ≤ 32 then BitReader.readFixed "read_u32" 4 si.frameLengthEndian
  else BitReader.readFixed "read_u64" 8 si.frameLengthEndian

/-- The value found at the place of the length field. -/
def rawLength (si : SessionInfo) : ReadM Nat := do
  if si.frameLengthBitOffset > 0 then BitReader.skipBits si.frameLengthBitOffset
  si.lengthRead

/-- The frame length that `cpp_session.cpp:427-438` computes from the value of the field. -/
def frameLengthOf (si : SessionInfo) (value : Nat) : Nat :=
  if si.frameLengthFieldRef == "payload" then
    sizeT (reverseArith value si.frameLengthModifier + (si.minFrameHeaderSize + si.frameFooterSize))
  else reverseArith value si.frameLengthModifier

/-- `cpp_session.cpp:403-443`. -/
def extractFrameLength (si : SessionInfo) (header : List UInt8) : Nat :=
  if si.frameLengthBits > 0 then
    if header.length < si.minFrameHeaderSize then 0
    else
      match (si.rawLength { data := header }).1 with
      | .ok value => si.frameLengthOf value
      | .error _ => 0
  else header.length

end SessionInfo

end Conduit.Bgen

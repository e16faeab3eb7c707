import Conduit.Bgen.Ast
import Conduit.Io.BitWriter
import Conduit.Io.BitReader

/-!
# Field types and the emitted accesses

`codegen/cpp_structs_helpers.cpp`: the type information of a field (`resolve_field_type`), the
read expression and the write statement that are emitted for it (`emit_read_expr`,
`emit_write_stmt`), and what executing them does. An emitted access is a syntax tree instead of a
line of text. A number in a C++ variable is an integer here, a floating-point number is the bit
pattern it has on the wire. The names of C++ types and the numbers of a scale are printed into the
output but decide nothing, and are left out.
-/

namespace Conduit.Bgen

open Io

/-- `name_utils.hpp:107-113`: the width of the fixed-width storage type for `bits`. -/
def storageBits (bits : Nat) : Nat :=
  if bits ≤ 8 then 8 else if bits ≤ 16 then 16 else if bits ≤ 32 then 32 else 64

/-- `static_cast<storage_type_for_bits(bits, is_signed)>`. -/
def storageCast (bits : Nat) (isSigned : Bool) (value : Int) : Int :=
  if isSigned then value.bmod (2 ^ storageBits bits) else value % (2 ^ storageBits bits : Nat)

/-- `cpp_structs_helpers.hpp:19-38`. -/
structure FieldTypeInfo where
  isStruct : Bool := false
  isEnum : Bool := false
  isString : Bool := false
  isBytes : Bool := false
  isFloat : Bool := false
  isBool : Bool := false
  bits : Nat := 0
  isSigned : Bool := false
  hasFieldScale : Bool := false
  rawBits : Nat := 0
  rawSigned : Bool := false
  rawEndian : Endian := .big
  wireEncoding : WireEncoding := .standard
deriving DecidableEq

/-- `cpp_structs_helpers.cpp:15-19`. -/
def fieldScaleIsActive (f : Field) : Bool := f.scale.any (· != 1) || f.offset.any (· != 0)

namespace FieldTypeInfo

/-- The promotion of an integer field with an active scale to a double. -/
def scaled (info : FieldTypeInfo) (f : Field) (endian : Endian) : FieldTypeInfo :=
  if fieldScaleIsActive f then
    { info with
      hasFieldScale := true
      rawBits := info.bits
      rawSigned := info.isSigned
      rawEndian := endian
      bits := 0
      isSigned := false }
  else info

def withEncoding (info : FieldTypeInfo) (e : Option WireEncoding) : FieldTypeInfo :=
  { info with wireEncoding := e.getD info.wireEncoding }

end FieldTypeInfo

variable (fti : FieldTypeInfo) (f : Field) (e : Endian) (bits : Nat)

/-- The widths of an inline field without a base of its own, or with an integer one. -/
def inlineNumberType : FieldTypeInfo :=
  match f.bits, f.bytesAttr with
  | some bits, _ => FieldTypeInfo.scaled { bits, isSigned := f.isSigned } f f.endian
  | none, some bytes =>
    if bytes ≤ 8 then FieldTypeInfo.scaled { bits := bytes * 8, isSigned := f.isSigned } f f.endian
    else { isBytes := true }
  | none, none => {}

/-- `cpp_structs_helpers.cpp:29-114`: a field whose type is written inline. -/
def resolveInlineType : FieldTypeInfo :=
  let info : FieldTypeInfo :=
    match f.base with
    | some .float => { bits := f.bits.getD 32, isFloat := true }
    | some .string => { isString := true }
    | some .bytes => { isBytes := true }
    | some .bool => { bits := f.bits.getD 1, isBool := true }
    | some .int | some .uint | none => inlineNumberType f
  info.withEncoding f.wireEncoding

/-- `cpp_structs_helpers.cpp:139-181`: a field that names a `<type>`. -/
def resolveTypeDef (t : TypeDef) : FieldTypeInfo :=
  if !t.enumValues.isEmpty then { isEnum := true, bits := t.bits, isSigned := t.base == .int }
  else if !t.flags.isEmpty || t.scale.isSome || t.offset.isSome || t.base == .string
      || t.constraint.isSome then
    { isStruct := true }
  else
    match t.base with
    | .bool => { bits := if t.bits > 0 then t.bits else 1, isBool := true }
    | .float => { bits := t.bits, isFloat := true }
    | base => FieldTypeInfo.scaled { bits := t.bits, isSigned := base == .int } f t.endian

/-- `cpp_structs_helpers.cpp:26-203`. -/
def resolveFieldType (index : TypeIndex) : FieldTypeInfo :=
  if f.typeIsInline || f.typeRef == "" then resolveInlineType f
  else if f.typeRef == "bytes" then { isBytes := true }
  else if f.typeRef == "string" then { isString := true }
  else
    match index.find f.typeRef with
    | none => {}
    | some (.type t) =>
      ({ resolveTypeDef f t with wireEncoding := t.wireEncoding }).withEncoding f.wireEncoding
    | some _ => ({ isStruct := true } : FieldTypeInfo).withEncoding f.wireEncoding

/-! ## Emitted reads -/

/-- The read expressions `emit_read_expr` prints. A word read carries the name of the call; the
last one casts the word to the signed type of its width. -/
inductive ReadExpr where
  | readBcd (bits : Nat)
  | readBcdSigned (bits : Nat)
  | readSignMagnitude (bits : Nat)
  | readBits (bits : Nat)
  | readSignedBits (bits : Nat)
  | readU8
  | readWord (call : String) (bytes : Nat) (e : Endian)
  | readSignedWord (call : String) (bytes : Nat) (e : Endian)
deriving DecidableEq

/-- The read for a floating-point field. -/
def floatReadExpr (e : Endian) : ReadExpr :=
  if bits = 16 then .readWord "read_f16" 2 e
  else if bits ≤ 32 then .readWord "read_f32" 4 e
  else if bits ≤ 48 then .readWord "read_f48" 6 e
  else if bits ≤ 64 then .readWord "read_f64" 8 e
  else .readBits bits

/-- The read for an integer field of 1 to 64 bits. -/
def plainReadExpr (isSigned : Bool) (e : Endian) (byteAligned : Bool) : ReadExpr :=
  if byteAligned && bits == 8 && !isSigned then .readU8
  else if byteAligned && (bits == 16 || bits == 32 || bits == 64) then
    if isSigned then .readSignedWord s!"read_u{bits}" (bits / 8) e
    else .readWord s!"read_u{bits}" (bits / 8) e
  else if isSigned then .readSignedBits bits
  else .readBits bits

/-- `cpp_structs_helpers.cpp:294-363`. Nothing is emitted where the source throws. -/
def emitReadExpr (byteAligned : Bool := true) : Option ReadExpr :=
  match fti.wireEncoding with
  | .bcd => some (.readBcd fti.bits)
  | .bcdS => some (.readBcdSigned fti.bits)
  | .bnrS => some (.readSignMagnitude fti.bits)
  | _ =>
    if fti.isFloat then some (floatReadExpr fti.bits e)
    else if 0 < fti.bits ∧ fti.bits ≤ 64 then
      some (plainReadExpr fti.bits fti.isSigned e byteAligned)
    else none

/-- Executing a read expression. -/
def ReadExpr.exec : ReadExpr → ReadM Int
  | .readBcd bits => do return (← BitReader.readBcd bits : Nat)
  | .readBcdSigned bits => BitReader.readBcdSigned bits
  | .readSignMagnitude bits => BitReader.readSignMagnitude bits
  | .readBits bits => do return (← BitReader.readBits bits : Nat)
  | .readSignedBits bits => BitReader.readSignedBits bits
  | .readU8 => do return (← BitReader.readU8 : Nat)
  | .readWord call bytes e => do return (← BitReader.readFixed call bytes e : Nat)
  | .readSignedWord call bytes e => do
    return ((← BitReader.readFixed call bytes e : Nat) : Int).bmod (2 ^ (8 * bytes))

/-! ## Emitted writes -/

/-- The write statements `emit_write_stmt` prints, without the value they write. -/
inductive WriteStmt where
  | writeBcd (bits : Nat)
  | writeBcdSigned (bits : Nat)
  | writeSignMagnitude (bits : Nat)
  | writeBits (bits : Nat)
  | writeBoolBits (bits : Nat)
  | writeSignedBits (bits : Nat)
  | writeWord (bytes : Nat) (e : Endian)
deriving DecidableEq

/-- The write for a floating-point field. -/
def floatWriteStmt (e : Endian) : WriteStmt :=
  if bits = 16 then .writeWord 2 e
  else if bits ≤ 32 then .writeWord 4 e
  else if bits ≤ 48 then .writeWord 6 e
  else if bits ≤ 64 then .writeWord 8 e
  else .writeBits bits

/-- The write for an integer or boolean field. A byte is written in no particular order. -/
def plainWriteStmt (byteAligned : Bool) : WriteStmt :=
  if byteAligned && !fti.isSigned && fti.bits == 8 then .writeWord 1 .big
  else if byteAligned && !fti.isSigned && (fti.bits == 16 || fti.bits == 32 || fti.bits == 64) then
    .writeWord (fti.bits / 8) e
  else if fti.isBool then .writeBoolBits fti.bits
  else if fti.isSigned then .writeSignedBits fti.bits
  else .writeBits fti.bits

/-- `cpp_structs_helpers.cpp:365-429`. -/
def emitWriteStmt (byteAligned : Bool := true) : WriteStmt :=
  match fti.wireEncoding with
  | .bcd => .writeBcd fti.bits
  | .bcdS => .writeBcdSigned fti.bits
  | .bnrS => .writeSignMagnitude fti.bits
  | _ =>
    if fti.isFloat then floatWriteStmt fti.bits e
    else plainWriteStmt fti e byteAligned

/-- The conversion of an argument to an `int64_t` parameter. -/
def asInt64 (value : Int) : Int := value.bmod (2 ^ 64)

/-- Executing a write statement: the value is converted to the parameter type of the call. -/
def WriteStmt.exec (value : Int) : WriteStmt → BitWriter → BitWriter
  | .writeBcd bits, w => w.writeBcd (toUint64 value) bits
  | .writeBcdSigned bits, w => w.writeBcdSigned (asInt64 value) bits
  | .writeSignMagnitude bits, w => w.writeSignMagnitude (asInt64 value) bits
  | .writeBits bits, w => w.writeBits (toUint64 value) bits
  | .writeBoolBits bits, w => w.writeBits (toUint64 value % 2 ^ 8) bits
  | .writeSignedBits bits, w => w.writeSignedBits (asInt64 value) bits
  | .writeWord bytes e, w => w.appendBytes (wordBytes bytes (toUint64 value) e)

end Conduit.Bgen

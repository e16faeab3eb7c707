import Conduit.Bgen.Bitmap
import Conduit.Bgen.DecodeM
import Mathlib.Data.List.DropRight

/-!
# Enumerations and the classes of named types

`codegen/cpp_enum_emitter.hpp` and `codegen/cpp_types.cpp`: the functions that encode and decode an
enumeration, and the classes that wrap a number or a text. A type without enumeration, flags,
scale, text or constraint is an alias of a number and has no class.

The tables of the EBCDIC conversion and the arithmetic on doubles are parameters. A class is the
record of what its accessors return.
-/

namespace Conduit.Bgen

open Io DecodeM

/-- The functions that generated code calls and that are not modelled: the EBCDIC tables of
`string/encoding.hpp`, and the arithmetic on doubles, which are given by their bit patterns. -/
structure Library where
  ebcdicToAscii : UInt8 → UInt8
  asciiToEbcdic : UInt8 → UInt8
  /-- `static_cast<double>(raw) * scale + offset`. -/
  ofRaw (scale offset : Rat) (raw : Int) : Int
  /-- `static_cast<raw type>((value - offset) / scale)`. -/
  toRaw (scale offset : Rat) (type : IntType) (value : Int) : Int
  /-- The conversion of a floating-point number that was read to an integer. -/
  truncate : Int → Int
  /-- The conversion of an integer to the floating-point number that is written. -/
  ofInteger : Int → Int
  /-- The check of a constraint on a double: what an error says after the name of the field. -/
  doubleViolation : Constraint → Int → Option String
deriving Inhabited

/-- The error that a generated function returns. -/
def errorStop (code : ErrorCode) (message : String) : Stop := .fault (.error ⟨code, message⟩)

/-- `if (w.has_error()) return std::unexpected(w.error());`. -/
def checkWriter (w : BitWriter) : Except Stop BitWriter :=
  match w.error with
  | some e => .error (.fault (.error e))
  | none => .ok w

/-! ## Constraints -/

/-- `name_utils.hpp:118-125`. -/
def storageTypeMax (bits : Nat) (isSigned : Bool) : Int :=
  if isSigned then (2 ^ (storageBits bits - 1) : Nat) - 1 else (2 ^ storageBits bits : Nat) - 1

/-- `name_utils.hpp:138-149`. -/
def constraintMaxSaturatesStorage (text : String) (bits : Nat) (isSigned : Bool) : Bool :=
  match text.toList with
  | [] => false
  | c :: _ =>
    !(c.isAlpha || c == '_' || c == '-') && cppLiteral text == some (storageTypeMax bits isSigned)

/-- One comparison of a number with the text of a constraint. With `cast` the text is converted to
the type of the number first. -/
def compareWith (index : TypeIndex) (op : BinaryOp) (cast : Bool) (v : CppValue) (text : String) :
    Except Stop Bool :=
  match constraintValue index text with
  | none => .error .uncompiled
  | some n =>
    let other := if cast then (CppValue.convert v.type n).promote else CppValue.literal n
    match CppValue.binary op v.promote other with
    | some r => .ok (r.value != 0)
    | none => .error .uncompiled

/-- How a check of a constraint is printed. -/
structure ConstraintCode where
  bits : Nat
  isSigned : Bool
  castEquals : Bool
  castBounds : Bool
  code : ErrorCode
  expected : String → Int → String
  exceeds : String → Int → String
  below : String → Int → String

/-- The comparison for one part of a constraint, where there is one. -/
def ConstraintCode.part (c : ConstraintCode) (index : TypeIndex) (op : BinaryOp) (cast : Bool)
    (message : String → Int → String) (v : CppValue) : Option String → Except Stop Unit
  | none => .ok ()
  | some text => do
    if ← compareWith index op cast v text then throw (errorStop c.code (message text v.value))

/-- The three checks of a constraint. The upper bound is left out where the type cannot exceed it,
and a lower bound of zero where the type is unsigned. -/
def ConstraintCode.check (c : ConstraintCode) (index : TypeIndex) (k : Constraint) (v : CppValue) :
    Except Stop Unit := do
  c.part index .neq c.castEquals c.expected v k.equals
  c.part index .gt c.castBounds c.exceeds v (k.max.filter fun text =>
      !(decide (0 < c.bits) && constraintMaxSaturatesStorage text c.bits c.isSigned))
  c.part index .lt c.castBounds c.below v (k.min.filter fun text => text != "0" || c.isSigned)

/-! ## Texts -/

/-- `cpp_types.cpp:27-29` and `cpp_structs_helpers.cpp:214-216`. -/
def StringEncoding.needsConversion (e : StringEncoding) : Bool := e == .ia5 || e == .ebcdic

namespace Library

variable (lib : Library)

/-- `string/encoding.hpp:59-85`. -/
def toAscii (e : StringEncoding) (s : List UInt8) : List UInt8 :=
  match e with
  | .ia5 => s.map (· &&& 0x7F)
  | .ebcdic => s.map lib.ebcdicToAscii
  | _ => s

/-- `string/encoding.hpp:88-114`. -/
def fromAscii (e : StringEncoding) (s : List UInt8) : List UInt8 :=
  match e with
  | .ia5 => s.map (· &&& 0x7F)
  | .ebcdic => s.map lib.asciiToEbcdic
  | _ => s

end Library

/-- The character that trimming removes. -/
def trimChar (p : StringPadding) : UInt8 := if p = .space then 0x20 else 0

/-- `cpp_types.cpp:422-473`. -/
def trimText (trim : StringTrim) (p : StringPadding) (s : List UInt8) : List UInt8 :=
  match trim with
  | .right => s.rdropWhile (· == trimChar p)
  | .left => s.dropWhile (· == trimChar p)
  | .both => (s.dropWhile (· == trimChar p)).rdropWhile (· == trimChar p)
  | .none => s

/-- The padding after the conversion: the space of EBCDIC is another character. -/
def paddingChar (p : StringPadding) (e : StringEncoding) : UInt8 :=
  if p = .space then if e = .ebcdic then 0x40 else 0x20 else 0

/-- A character as it is packed: below seven bits there are only capital letters. -/
def packChar (charBits : Nat) (ch : UInt8) : Nat :=
  let ch := if charBits < 7 ∧ 97 ≤ ch ∧ ch ≤ 122 then ch - 32 else ch
  ch.toNat &&& (2 ^ charBits - 1)

/-- A character as it is unpacked. -/
def unpackChar (charBits : Nat) (bits : Nat) : UInt8 :=
  if charBits < 7 then
    let raw := bits % 256
    UInt8.ofNat (if raw ≠ 0 ∧ raw < 32 then raw + 0x40 else raw)
  else UInt8.ofNat bits

/-- The loop that packs `count` characters; a text that is too short is filled up. -/
def writePacked (charBits count : Nat) (pad : UInt8) (s : List UInt8) (w : BitWriter) : BitWriter :=
  (List.range count).foldl
    (fun w i => w.writeBits (packChar charBits (s.getD i pad)) charBits) w

/-- The loop that unpacks `count` characters. -/
def readPacked (charBits : Nat) : Nat → ReadM (List UInt8)
  | 0 => return []
  | count + 1 => do
    let bits ← BitReader.readBits charBits
    let rest ← readPacked charBits count
    return unpackChar charBits bits :: rest

/-- The terminator of a text: a byte, or carriage return and line feed. -/
inductive Terminator where
  | crlf
  | byte (value : Int)
deriving DecidableEq

/-- `cpp_types.cpp:612-617`. -/
def terminator (text : String) : Option Terminator :=
  if text == "crlf" then some .crlf
  else if text == "null" then some (.byte 0)
  else if text == "newline" then some (.byte 0x0A)
  else (cppLiteral text).map .byte

namespace Terminator

/-- The bytes after the text. -/
def write : Terminator → BitWriter → BitWriter
  | .crlf, w => (w.writeU8 0x0D).writeU8 0x0A
  | .byte value, w => w.writeU8 (toUint64 value)

/-- The loop that reads up to the terminator, at most `maxLength` turns of it. -/
def read : Terminator → Nat → ReadM (List UInt8)
  | _, 0 => return []
  | .crlf, maxLength + 1 => do
    let b ← BitReader.readU8
    if b = 0x0D then
      let b2 ← BitReader.readU8
      if b2 = 0x0A then return []
      else
        let rest ← read .crlf maxLength
        return UInt8.ofNat b :: UInt8.ofNat b2 :: rest
    else
      let rest ← read .crlf maxLength
      return UInt8.ofNat b :: rest
  | .byte value, maxLength + 1 => do
    let b ← BitReader.readU8
    if (b : Int) = value then return []
    else
      let rest ← read (.byte value) maxLength
      return UInt8.ofNat b :: rest

end Terminator

/-- The bound of the loop over a terminated text. -/
def terminatedTurns (maxLength : Option Int) : Nat :=
  match maxLength with
  | some n => toUint64 n
  | none => 65535

/-! ## Enumerations -/

/-- `cpp_types.cpp:46-69`. -/
def typeReadExpr (t : TypeDef) : ReadExpr :=
  match t.wireEncoding with
  | .bcd => .readBcd t.bits
  | .bcdS => .readBcdSigned t.bits
  | .bnrS => .readSignMagnitude t.bits
  | _ =>
    if t.base == .float then floatReadExpr t.bits .big
    else if t.base == .int then .readSignedBits t.bits
    else .readBits t.bits

/-- `cpp_types.cpp:74-110`. -/
def typeWriteStmt (t : TypeDef) : WriteStmt :=
  match t.wireEncoding with
  | .bcd => .writeBcd t.bits
  | .bcdS => .writeBcdSigned t.bits
  | .bnrS => .writeSignMagnitude t.bits
  | _ =>
    if t.base == .float then floatWriteStmt t.bits .big
    else if t.base == .int then .writeSignedBits t.bits
    else .writeBits t.bits

/-- An enumeration with the two functions that are emitted for it. -/
structure EnumCode where
  name : String
  ids : List Int
  underlying : IntType
  read : ReadExpr
  write : WriteStmt

/-- `cpp_types.cpp:121-205`. -/
def typeEnum (t : TypeDef) : EnumCode :=
  { name := toSnakeCase t.name, ids := t.enumValues.map (·.id)
    underlying := ⟨storageBits t.bits, false⟩, read := typeReadExpr t, write := typeWriteStmt t }

/-- `name_utils.hpp:28-43`. -/
def toPascalCase (name : String) : String :=
  String.ofList (name.toList.foldl (fun (text, capitalNext) c =>
    if c = '-' ∨ c = '_' then (text, true)
    else if capitalNext then (text ++ [c.toUpper], false)
    else (text ++ [c], false)) ([], true)).1

/-- `cpp_enum_emitter.hpp:16-123`, for the enumeration of a field of the class `parent`
(`cpp_structs.cpp:891-897`). -/
def inlineEnum (parent : String) (f : Field) : EnumCode :=
  let bits := f.bits.getD 8
  let base : EnumCode :=
    { name := toPascalCase parent ++ "_" ++ toPascalCase f.name, ids := f.enumValues.map (·.id)
      underlying := ⟨storageBits bits, false⟩, read := .readBits bits, write := .writeBits bits }
  if bits = 16 then { base with read := .readWord "read_u16" 2 f.endian, write := .writeWord 2 f.endian }
  else if bits = 32 then
    { base with read := .readWord "read_u32" 4 f.endian, write := .writeWord 4 f.endian }
  else base

namespace EnumCode

def decode (c : EnumCode) : DecodeM Value := do
  let raw ← DecodeM.read c.read.exec
  let v := CppValue.convert c.underlying raw
  if v.value ∈ c.ids then return .enumerator v
  else DecodeM.fail .unknownEnumValue s!"unknown {c.name} value: {v.value}"

def encode (c : EnumCode) (v : CppValue) (w : BitWriter) : Except Stop BitWriter :=
  if v.value ∈ c.ids then checkWriter (c.write.exec v.value w)
  else .error (errorStop .encodeConstraintViolation s!"invalid {c.name} enum value: {v.value}")

/-- `static_cast` of zero to the enumeration. -/
def zero (c : EnumCode) : CppValue := ⟨c.underlying, 0⟩

end EnumCode

/-! ## Wrapper classes -/

/-- The class that `generate_types` emits for a type (`cpp_types.cpp:856-871`). -/
inductive TypeKind where
  | enumeration
  | flags
  | scaled
  | text
  | constrained
  | alias
deriving DecidableEq

def TypeDef.kind (t : TypeDef) : TypeKind :=
  if !t.enumValues.isEmpty then .enumeration
  else if !t.flags.isEmpty then .flags
  else if t.scale.isSome || t.offset.isSome then .scaled
  else if t.base == .string then .text
  else if t.constraint.isSome then .constrained
  else .alias

/-- The type of `raw_`. -/
def TypeDef.rawType (t : TypeDef) : IntType :=
  ⟨storageBits t.bits, t.kind != .flags && t.base == .int⟩

/-- An object of a class with a `raw_` member. -/
def wrapNumber (lib : Library) (t : TypeDef) (raw : Int) : Value :=
  let number := Value.number ⟨t.rawType, raw⟩
  match t.kind with
  | .flags =>
    .record (("raw", number) :: t.flags.map fun f =>
      (f.name, .number (CppValue.ofBool ((raw.toNat).testBit f.bit.toNat))))
  | .scaled =>
    .record [("raw", number), ("value", .double (lib.ofRaw (t.scale.getD 1) (t.offset.getD 0) raw))]
  | _ => .record [("raw", number), ("value", number)]

/-- An object of a class with a `value_` text. -/
def wrapText (s : List UInt8) : Value := .record [("value", .text s)]

/-- The `raw_` member of an object. -/
def Value.raw : Value → Option Int
  | .record members =>
    match members.lookup "raw" with
    | some (.number v) => some v.value
    | _ => none
  | _ => none

/-- The `value_` text of an object. -/
def Value.wrappedText : Value → Option (List UInt8)
  | .record members =>
    match members.lookup "value" with
    | some (.text s) => some s
    | _ => none
  | _ => none

namespace TypeDef

variable (t : TypeDef)

/-- The checks in the `decode` of a scaled or constrained type (`cpp_types.cpp:382-408`,
`776-803`). -/
def constraintCode : ConstraintCode :=
  let name := toSnakeCase t.name
  { bits := max t.bits 1, isSigned := t.base == .int, castEquals := true, castBounds := true
    code := .constraintViolation
    expected := fun text _ => s!"{name} constraint violation: expected {text}"
    exceeds := fun text _ => s!"{name} exceeds max {text}"
    below := fun text _ => s!"{name} below min {text}" }

/-- `decode` of a class with a `raw_` member: the flags are not constrained. -/
def decodeNumber (lib : Library) (index : TypeIndex) : DecodeM Value := do
  let read ← read (typeReadExpr t).exec
  let raw := (CppValue.convert t.rawType (if t.base == .float then lib.truncate read else read)).value
  match if t.kind == .flags then none else t.constraint with
  | none => return wrapNumber lib t raw
  | some k =>
    ofExcept (t.constraintCode.check index k ⟨t.rawType, raw⟩)
    return wrapNumber lib t raw

/-- `decode` of a class with a text (`cpp_types.cpp:475-707`). A text without length and terminator
has no class. -/
def decodeText (lib : Library) : DecodeM Value :=
  let trimmed (s : List UInt8) : Value := wrapText (trimText t.trim t.padding s)
  match t.charBits, t.length, t.terminated with
  | some charBits, some length, _ => do
    return trimmed (← read (readPacked charBits.toNat length))
  | _, some length, _ => do
    let s ← read (BitReader.readString length)
    return trimmed (if t.encoding.needsConversion then lib.toAscii t.encoding s else s)
  | _, none, some text =>
    match terminator text with
    | some term => do
      return trimmed (← read (term.read (terminatedTurns t.maxLength)))
    | none => stop .uncompiled
  | _, none, none => stop .uncompiled

/-- `decode` of the class of a type. -/
def decode (lib : Library) (index : TypeIndex) : DecodeM Value :=
  match t.kind with
  | .flags | .scaled | .constrained => t.decodeNumber lib index
  | .text => t.decodeText lib
  | .enumeration | .alias => stop .uncompiled

/-- `encode` of a class with a text (`cpp_types.cpp:475-707`). -/
def encodeText (lib : Library) (s : List UInt8) (w : BitWriter) : Except Stop BitWriter :=
  match t.charBits, t.length, t.terminated with
  | some charBits, some length, _ =>
    checkWriter (writePacked charBits.toNat length (if t.padding = .null then 0 else 0x20) s w)
  | _, some length, _ =>
    let wire := if t.encoding.needsConversion then lib.fromAscii t.encoding s else s
    checkWriter (w.writeString wire length (paddingChar t.padding t.encoding)).2
  | _, none, some text =>
    match terminator text with
    | some term => checkWriter (term.write (w.writeString s s.length 0).2)
    | none => .error .uncompiled
  | _, none, none => .error .uncompiled

/-- `encode` of the class of a type. -/
def encode (lib : Library) (v : Value) (w : BitWriter) : Except Stop BitWriter :=
  match t.kind with
  | .flags | .scaled | .constrained =>
    match v.raw with
    | some raw =>
      checkWriter ((typeWriteStmt t).exec (if t.base == .float then lib.ofInteger raw else raw) w)
    | none => .error .uncompiled
  | .text =>
    match v.wrappedText with
    | some s => t.encodeText lib s w
    | none => .error .uncompiled
  | .enumeration | .alias => .error .uncompiled

/-- A new object of the class of a type: `raw_` is zero and a text is empty. -/
def fresh (lib : Library) : Value := if t.kind == .text then wrapText [] else wrapNumber lib t 0

end TypeDef

end Conduit.Bgen

import Conduit.Bgen.TypeCodec

/-!
# What the emitter knows of a struct

The decisions that `StructEmitter` takes while it prints the class of a struct: how a field is
coded, which members are optional, which members of an enclosing struct an expression needs, and
where the emitter believes the code to stand within a byte. `bit_mod8_` is advanced in the order in
which code is printed, whether or not the code is executed, so it is a function of the children
alone.

An inlined struct is printed in place of its field. References to structs are followed to a given
depth; `TypeIndex.depth` is enough where no struct contains itself. The table of the parameters of
nested classes is kept per class here, where the emitter has one table for all classes and looks it
up by the name in the definition.
-/

namespace Conduit.Bgen

open Io

/-- The length of a chain of definitions in which none comes twice. -/
def TypeIndex.depth (index : TypeIndex) : Nat := index.structs.length + index.messages.length + 1

/-! ## Fields -/

/-- `resolve_field_type` with the override for an enumeration that is written in the field. -/
def memberType (index : TypeIndex) (f : Field) : FieldTypeInfo :=
  let fti := resolveFieldType f index
  if !f.enumValues.isEmpty && f.typeRef == "" then { fti with isEnum := true } else fti

/-- Which of its branches an emitter takes for a field. -/
inductive FieldKind where
  | scaled | enumeration | text | bytes | struct | number
deriving DecidableEq

/-- The emitters test these properties in different orders. Only an enumeration that is written in
a field can have a second one, a scale, so it is enough to know which of the two is tested first. -/
def fieldKind (scaleFirst : Bool) (fti : FieldTypeInfo) : FieldKind :=
  if scaleFirst && fti.hasFieldScale then .scaled
  else if fti.isEnum then .enumeration
  else if fti.hasFieldScale then .scaled
  else if fti.isString then .text
  else if fti.isBytes then .bytes
  else if fti.isStruct then .struct
  else .number

/-- The type of the integer on the wire of a scaled field. -/
def FieldTypeInfo.rawInfo (fti : FieldTypeInfo) : FieldTypeInfo :=
  { bits := fti.rawBits, isSigned := fti.rawSigned, wireEncoding := fti.wireEncoding }

/-- The type of a number that is a member. -/
def FieldTypeInfo.memberIntType (fti : FieldTypeInfo) : IntType :=
  if fti.isBool then ⟨8, false⟩ else ⟨storageBits fti.bits, fti.isSigned⟩

/-- The enumeration of a field in the class `parent`. -/
def fieldEnum (index : TypeIndex) (parent : String) (f : Field) : Option EnumCode :=
  if !f.enumValues.isEmpty && f.typeRef == "" then some (inlineEnum parent f)
  else (index.type? f.typeRef).map typeEnum

/-- The children that stand for an inlined field. -/
def inlineChildren (index : TypeIndex) (f : Field) : List StructChild :=
  match index.find f.typeRef with
  | some (.struct s) => s.children
  | some (.message m) => m.children
  | _ => []

namespace Field

/-- The length of the struct itself. -/
def ownLength (f : Field) : Option ArithModifier :=
  match f.autoExpr with
  | some a => if a.kind == .length && a.fieldRef == "" then some a.modifier else none
  | none => none

/-- The length of a sibling. -/
def siblingLength (f : Field) : Option (String × ArithModifier) :=
  match f.autoExpr with
  | some a => if a.kind == .length && a.fieldRef != "" then some (a.fieldRef, a.modifier) else none
  | none => none

/-- The array whose elements are counted. -/
def countedArray (f : Field) : Option String :=
  match f.autoExpr with
  | some a => if a.kind == .count then some a.fieldRef else none
  | none => none

/-- The member is a `std::optional`. -/
def isOptional (f : Field) : Bool := f.bit.isSome || f.presentWhen.isSome

end Field

/-! ## Names -/

/-- `current_parent_` and `current_bmdl_name_`. -/
structure ClassName where
  cpp : String
  bmdl : String

namespace ClassName

/-- The name of a child in messages. -/
def qualified (c : ClassName) (name : String) : String :=
  if c.bmdl == "" then name else c.bmdl ++ "." ++ name

/-- `cpp_structs_expr.cpp:321-331`: the class of a child. -/
def child (c : ClassName) (bmdl : String) : ClassName :=
  { cpp := if c.cpp == "" then toSnakeCase bmdl else toSnakeCase c.cpp ++ "_" ++ toSnakeCase bmdl
    bmdl }

/-- The class of a struct or message of the protocol. -/
def top (bmdl : String) : ClassName := { cpp := toSnakeCase bmdl, bmdl }

end ClassName

/-- `get_child_bmdl_name` (`cpp_structs_encode.cpp:71-80`). -/
def StructChild.name : StructChild → String
  | .field f => f.name
  | .struct s _ => s.name
  | .array a _ => a.name
  | .choice c _ _ => c.name
  | _ => ""

def Case.attrs : Case → CaseAttrs
  | .mk attrs _ => attrs

def StructChild.isFx : StructChild → Bool
  | .fxBlock _ => true
  | _ => false

/-! ## The alignment tracker -/

/-- `bit_mod8_`; nothing stands for `-1`. -/
abbrev Tracker : Type := Option Nat

namespace Tracker

/-- `cpp_structs.cpp:792`. -/
def start : Tracker := some 0

/-- `cpp_structs.cpp:761-763`. -/
def isByteAligned (t : Tracker) : Bool := t == some 0

/-- `cpp_structs.cpp:765-768`. -/
def advanceBits (bits : Nat) (t : Tracker) : Tracker := t.map fun m => (m + bits) % 8

/-- `cpp_structs.cpp:770-773`. -/
def advanceVariable (t : Tracker) : Tracker := if t = some 0 then t else none

/-- The advance after a field that is coded in place. -/
def advanceField (fti : FieldTypeInfo) (t : Tracker) : Tracker :=
  match fieldKind true fti with
  | .scaled => t.advanceBits fti.rawBits
  | .enumeration | .number => t.advanceBits fti.bits
  | .text | .bytes | .struct => t.advanceVariable

/-- `cpp_structs.cpp:775-790`. -/
def advanceFxField (f : Field) (fti : FieldTypeInfo) (t : Tracker) : Tracker :=
  if fti.isStruct && !fti.isString && !fti.isBytes then t.advanceVariable
  else if fti.isString then
    match f.length with
    | some n => t.advanceBits (n * 8)
    | none => t.advanceVariable
  else if fti.isBytes then
    match f.length.or f.bytesAttr with
    | some n => t.advanceBits (n * 8)
    | none => t.advanceVariable
  else if fti.hasFieldScale then t.advanceBits fti.rawBits
  else t.advanceBits fti.bits

end Tracker

/-- The extent of an FX block ends with a zero bit unless it has a nested block. -/
def hasNestedFx (children : List StructChild) : Bool := children.any StructChild.isFx

mutual

/-- The tracker after a child of an FX block (`cpp_structs_encode.cpp:777-944`). -/
def fxChildAdvance (index : TypeIndex) : StructChild → Tracker → Tracker
  | .field f, t => t.advanceFxField f (memberType index f)
  | .struct _ _, t => t.advanceVariable
  | .array _ _, t => t.advanceVariable
  | .choice _ _ _, t => t.advanceVariable
  | .fxBlock children, t =>
    let t := fxChildrenAdvance index children (t.advanceBits 1)
    (if hasNestedFx children then t else t.advanceBits 1).advanceVariable
  | .reserved bits, t => t.advanceBits bits
  | .align _, _ => some 0

def fxChildrenAdvance (index : TypeIndex) : List StructChild → Tracker → Tracker
  | [], t => t
  | c :: cs, t => fxChildrenAdvance index cs (fxChildAdvance index c t)

end

/-- The tracker after a child of a struct, over the one after a field. -/
def childAdvance (index : TypeIndex) (field : Field → Tracker → Tracker) :
    StructChild → Tracker → Tracker
  | .field f, t => field f t
  | .struct s _, t => if s.name == "" then t else t.advanceVariable
  | .array _ _, t => t.advanceVariable
  | .choice _ _ _, t => t.advanceVariable
  | .fxBlock children, t => fxChildAdvance index (.fxBlock children) t
  | .reserved bits, t => t.advanceBits bits
  | .align _, _ => some 0

/-- The tracker after a field in `encode` (`cpp_structs_encode.cpp:96-175`, `279-487`). -/
def encodeFieldAdvance (index : TypeIndex) (inlined : List StructChild → Tracker → Tracker)
    (f : Field) (t : Tracker) : Tracker :=
  let fti := memberType index f
  if f.isOptional then t.advanceVariable
  else if f.ownLength.isSome || f.siblingLength.isSome || f.countedArray.isSome then
    t.advanceBits fti.bits
  else if f.isInline then inlined (inlineChildren index f) t
  else t.advanceField fti

/-- The tracker after a field in `decode` (`cpp_structs_decode.cpp:844-1199`). -/
def decodeFieldAdvance (index : TypeIndex) (inlined : List StructChild → Tracker → Tracker)
    (f : Field) (t : Tracker) : Tracker :=
  let t :=
    if f.isInline then inlined (inlineChildren index f) t else t.advanceField (memberType index f)
  if f.presentWhen.isSome then t.advanceVariable else t

/-- The tracker after a list of children in `encode`. -/
def encodeAdvance (index : TypeIndex) : Nat → List StructChild → Tracker → Tracker
  | 0, _, t => t
  | depth + 1, children, t =>
    children.foldl
      (fun t c => childAdvance index (encodeFieldAdvance index (encodeAdvance index depth)) c t) t

/-- The tracker after a list of children in `decode`. -/
def decodeAdvance (index : TypeIndex) : Nat → List StructChild → Tracker → Tracker
  | 0, _, t => t
  | depth + 1, children, t =>
    children.foldl
      (fun t c => childAdvance index (decodeFieldAdvance index (decodeAdvance index depth)) c t) t

/-! ## Optional members -/

mutual

/-- `cpp_structs_decode.cpp:601-621`. -/
def fxOptionalName : StructChild → List String
  | .field f => [f.name]
  | .struct s _ => if s.name == "" then [] else [s.name]
  | .array a _ => [a.name]
  | .choice c _ _ => [c.name]
  | .fxBlock children => fxOptionalNames children
  | _ => []

def fxOptionalNames : List StructChild → List String
  | [] => []
  | c :: cs => fxOptionalName c ++ fxOptionalNames cs

end

/-- `cpp_structs_decode.cpp:559-599`. -/
def optionalNames (index : TypeIndex) : Nat → List StructChild → List String
  | 0, _ => []
  | depth + 1, children => children.flatMap fun child =>
    match child with
    | .field f =>
      (if f.isOptional then [f.name] else []) ++ (if f.isInline && f.typeRef != "" then
            optionalNames index depth (inlineChildren index f)
          else [])
    | .struct s _ => if s.bit.isSome || s.presentWhen.isSome || s.isBitmap then [s.name] else []
    | .array a _ => if a.bit.isSome || a.presentWhen.isSome then [a.name] else []
    | .choice c _ _ => if c.bit.isSome || c.presentWhen.isSome then [c.name] else []
    | .fxBlock children => fxOptionalNames children
    | _ => []

/-! ## Members of enclosing structs -/

def exprRefs (e : Option Expr) : List String := (e.map Validator.collectFieldRefs).getD []

mutual

/-- `cpp_structs_expr.cpp:360-392`. -/
def childRefs : StructChild → List String
  | .field f => exprRefs f.presentWhen ++ exprRefs f.lengthFrom
  | .struct s _ => exprRefs s.presentWhen
  | .array a _ => exprRefs a.countFrom ++ exprRefs a.lengthFrom ++ exprRefs a.presentWhen
  | .choice c cases otherwise =>
    exprRefs c.switchExpr ++ exprRefs c.presentWhen ++ exprRefs c.lengthFrom ++ casesRefs cases
      ++ otherwiseRefs otherwise
  | .fxBlock children => scopeRefs children
  | _ => []

def scopeRefs : List StructChild → List String
  | [] => []
  | c :: cs => childRefs c ++ scopeRefs cs

def casesRefs : List Case → List String
  | [] => []
  | .mk attrs children :: cs =>
    (if attrs.typeRef == "" then scopeRefs children else []) ++ casesRefs cs

def otherwiseRefs : Option Case → List String
  | none => []
  | some (.mk attrs children) => if attrs.typeRef == "" then scopeRefs children else []

end

mutual

/-- `cpp_structs_expr.cpp:394-412`. -/
def childLocalNames : StructChild → List String
  | .fxBlock children => localNames children
  | .field f => [f.name]
  | .struct s _ => [s.name]
  | .array a _ => [a.name]
  | .choice c _ _ => [c.name]
  | _ => []

def localNames : List StructChild → List String
  | [] => []
  | c :: cs => childLocalNames c ++ localNames cs

end

/-- The names that a nested class can take from the children it stands among. -/
def declaresParam (children : List StructChild) (name : String) : Bool :=
  children.any fun child =>
    match child with
    | .field f => f.name == name
    | .struct s _ => s.name == name
    | _ => false

/-- `cpp_structs_expr.cpp:414-481`: the members of the enclosing class that a nested class is
given. -/
def outerParams (outer : List String) (siblings children : List StructChild) : List String :=
  (((scopeRefs children).filter fun name => !(localNames children).contains name).filter
    fun name => declaresParam siblings name || outer.contains name).dedup

/-- What the emitter knows of the class it is printing. -/
structure ClassScope where
  name : ClassName
  /-- `optional_field_names_`. -/
  optional : List String
  /-- `outer_scope_params_`. -/
  outer : List String := []
  /-- The children are those of an inlined struct, whose own classes have other names. -/
  inlined : Bool := false

namespace ClassScope

/-- The class of a struct or message of the protocol. -/
def top (optionalOf : List StructChild → List String) (bmdl : String)
    (children : List StructChild) : ClassScope :=
  { name := .top bmdl, optional := optionalOf children }

/-- The class of a child that has children of its own. -/
def nested (sc : ClassScope) (optionalOf : List StructChild → List String)
    (siblings : List StructChild) (bmdl : String) (children : List StructChild) : ClassScope :=
  { name := sc.name.child bmdl, optional := optionalOf children
    outer := outerParams sc.outer siblings children }

/-- The class of the elements of an array, for which no members are handed down. -/
def element (sc : ClassScope) (optionalOf : List StructChild → List String) (array : String)
    (children : List StructChild) : ClassScope :=
  { name := sc.name.child (array ++ "Element"), optional := optionalOf children }

end ClassScope

/-! ## Elements of arrays -/

variable (index : TypeIndex) (bits : Nat) (f : Field)

/-- How an element of an array is coded. -/
inductive ElementKind where
  | enumeration (c : EnumCode)
  | primitive (fti : FieldTypeInfo) (endian : Endian)
  | named (typeRef : String)
  | inPlace

/-- `cpp_structs_encode.cpp:493-525` and `cpp_structs_decode.cpp:1214-1247`. -/
def elementKind (a : ArrayAttrs) : ElementKind :=
  if a.typeRef == "" then .inPlace
  else
    match index.find a.typeRef with
    | some (.type t) =>
      match t.kind with
      | .enumeration => .enumeration (typeEnum t)
      | .alias =>
        if t.bits > 0 then
          .primitive
            { bits := t.bits, isSigned := t.base == .int, isFloat := t.base == .float
              wireEncoding := t.wireEncoding } t.endian
        else .named a.typeRef
      | _ => .named a.typeRef
    | _ => .named a.typeRef

/-! ## Texts -/

/-- `cpp_structs_expr.cpp:209-235`. -/
def resolvePaddingChar : UInt8 :=
  let type := if f.typeRef == "" then none else index.type? f.typeRef
  let isSpace : Bool :=
    match f.padding with
    | some p => p == .space
    | none => type.any (·.padding == .space)
  let isEbcdic := f.encoding == some .ebcdic || type.any (·.encoding == .ebcdic)
  if isSpace then if isEbcdic then 0x40 else 0x20 else 0

/-- `cpp_structs_helpers.cpp:214-216`. -/
def fieldNeedsEncoding : Bool := f.encoding.any (·.needsConversion)

/-- The text of a field in the encoding of the wire. -/
def wireText (lib : Library) (f : Field) (s : List UInt8) : List UInt8 :=
  match f.encoding with
  | some e => if e.needsConversion then lib.fromAscii e s else s
  | none => s

/-- `cpp_structs_helpers.cpp:229-288`. -/
def trimMember (s : List UInt8) : List UInt8 :=
  let padding :=
    match f.padding with
    | some p => p
    | none =>
      if f.typeRef == "" then .null else ((index.type? f.typeRef).map (·.padding)).getD .null
  match f.trim with
  | some trim => trimText trim padding s
  | none => s

/-- The text that was read, converted and trimmed. -/
def memberText (lib : Library) (index : TypeIndex) (f : Field) (s : List UInt8) : List UInt8 :=
  let s :=
    match f.encoding with
    | some e => if e.needsConversion then lib.toAscii e s else s
    | none => s
  trimMember index f s

/-- `cpp_structs_helpers.cpp:431-439`: the width and the order of the bytes of a length prefix. -/
def prefixType (name : String) : Nat × Endian :=
  match index.type? name with
  | some t => (t.bits, t.endian)
  | none => (8, .big)

/-- `cpp_structs_helpers.cpp:441-446`. -/
def readPrefix (e : Endian) : ReadM Nat :=
  if bits ≤ 8 then BitReader.readU8
  else if bits ≤ 16 then BitReader.readU16 e
  else if bits ≤ 32 then BitReader.readU32 e
  else BitReader.readU64 e

/-- `cpp_structs_helpers.cpp:448-458`. -/
def writePrefix (e : Endian) (value : Nat) (w : BitWriter) : BitWriter :=
  if bits ≤ 8 then w.writeU8 (value % 2 ^ 8)
  else if bits ≤ 16 then w.writeU16 (value % 2 ^ 16) e
  else if bits ≤ 32 then w.writeU32 (value % 2 ^ 32) e
  else w.writeU64 (value % 2 ^ 64) e

/-- `cpp_structs_helpers.cpp:460-462`. -/
def prefixBytes : Nat := (bits + 7) / 8

end Conduit.Bgen

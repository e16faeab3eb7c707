import Conduit.Bgen.StructLayout

/-!
# The generated `encode`

`codegen/cpp_structs_encode.cpp`: what the `encode` that is printed for a struct or a message
writes. An object is the list of its members by the names in the definition, without the optional
members that are absent; a member of another type than the class declares gives
`Stop.uncompiled`, as does code that does not compile. The bit writer keeps its first error, which
is looked at when the encoder of a class returns.

The state of a run has the positions of the length fields that are still to be patched. The list
of all placeholders and patches is kept for the statements about them.
-/

namespace Conduit.Bgen

open Io

/-- The members of an object. -/
abbrev Object : Type := List (String × Value)

/-! ## New objects -/

/-- The text that initializes a member (`cpp_structs.cpp:1308-1320`). -/
def Field.initialText (f : Field) : Option String :=
  (f.constraint.bind (·.equals)).or f.defaultValue

/-- A number that initializes a member in braces does not compile if the type does not hold it. -/
def bracedNumber (type : IntType) (n : Int) : Except Stop Value :=
  if (CppValue.convert type n).value = n then .ok (.number ⟨type, n⟩) else .error .uncompiled

/-- The initial value of a number. -/
def freshNumber (lib : Library) (index : TypeIndex) (fti : FieldTypeInfo) :
    Option String → Except Stop Value
  | none => .ok (if fti.isFloat || fti.hasFieldScale then .double 0 else .number ⟨fti.memberIntType, 0⟩)
  | some text =>
    if fti.isBool && (text == "true" || text == "false") then
      .ok (.number ⟨fti.memberIntType, if text == "true" then 1 else 0⟩)
    else
      match constraintValue index text with
      | none => .error .uncompiled
      | some n =>
        if fti.isFloat || fti.hasFieldScale then .ok (.double (lib.ofInteger n))
        else bracedNumber fti.memberIntType n

/-- The initial value of an enumeration: its first value if nothing else is said. -/
def freshEnum (index : TypeIndex) (parent : String) (f : Field) : Except Stop Value :=
  match fieldEnum index parent f with
  | none => .error .uncompiled
  | some c =>
    if f.typeRef == "" then
      match (f.constraint.bind (·.equals)).map (constraintValue index), c.ids.head? with
      | some (some n), _ => .ok (.enumerator ⟨c.underlying, n⟩)
      | none, some id => .ok (.enumerator ⟨c.underlying, id⟩)
      | _, _ => .error .uncompiled
    else
      match f.initialText, index.type? f.typeRef with
      | some text, some t =>
        match t.enumValues.find? (·.name == text) with
        | some ev => .ok (.enumerator ⟨c.underlying, ev.id⟩)
        | none => .error .uncompiled
      | _, _ =>
        match c.ids.head? with
        | some id => .ok (.enumerator ⟨c.underlying, id⟩)
        | none => .error .uncompiled

/-- The initial value of an array of bytes. -/
def freshBytes (index : TypeIndex) (f : Field) : Except Stop Value :=
  let size := (f.length.or f.bytesAttr).getD 0
  match f.initialText with
  | none => .ok (.bytes (List.replicate size 0))
  | some text =>
    match constraintValue index text with
    | some n => .ok (.bytes (UInt8.ofNat n.toNat :: List.replicate (size - 1) 0))
    | none => .error .uncompiled

/-- The initial value of the member of a field (`cpp_structs.cpp:1269-1278`). -/
def freshField (lib : Library) (index : TypeIndex) (freshClass : String → Except Stop Value)
    (parent : String) (f : Field) : Except Stop Value :=
  let fti := memberType index f
  match fieldKind false fti with
  | .enumeration => freshEnum index parent f
  | .scaled | .number => freshNumber lib index fti f.initialText
  | .text => if f.initialText.isSome then .error .uncompiled else .ok (.text [])
  | .bytes => freshBytes index f
  | .struct => if f.initialText.isSome then .error .uncompiled else freshClass f.typeRef

mutual

/-- The members of a new object that a child stands for. Optional members are absent. -/
def freshChild (lib : Library) (index : TypeIndex) (freshClass : String → Except Stop Value)
    (freshInlined : List StructChild → Except Stop Object) (name : ClassName) :
    StructChild → Except Stop Object
  | .field f =>
    if f.isInline then freshInlined (inlineChildren index f)
    else if f.isOptional then .ok []
    else do return [(f.name, ← freshField lib index freshClass name.cpp f)]
  | .struct s children =>
    if s.name == "" || s.bit.isSome || s.presentWhen.isSome then .ok []
    else do
      let members ←
        if s.isBitmap then .ok []
        else freshMembers lib index freshClass freshInlined (name.child s.name) children
      return [(s.name, .record members)]
  | .array a _ => if a.bit.isSome || a.presentWhen.isSome then .ok [] else .ok [(a.name, .array [])]
  | .choice c cases otherwise =>
    if c.bit.isSome || c.presentWhen.isSome then .ok []
    else do
      let first ← freshFirst lib index freshClass freshInlined name
        (freshOtherwise lib index freshClass freshInlined (name.child (c.name ++ "Otherwise")) otherwise)
        cases
      return [(c.name, .variant 0 first)]
  | .fxBlock _ | .reserved _ | .align _ => .ok []

def freshMembers (lib : Library) (index : TypeIndex) (freshClass : String → Except Stop Value)
    (freshInlined : List StructChild → Except Stop Object) (name : ClassName) :
    List StructChild → Except Stop Object
  | [] => .ok []
  | c :: cs => do
    let first ← freshChild lib index freshClass freshInlined name c
    let rest ← freshMembers lib index freshClass freshInlined name cs
    return first ++ rest

/-- The first alternative of a variant. -/
def freshFirst (lib : Library) (index : TypeIndex) (freshClass : String → Except Stop Value)
    (freshInlined : List StructChild → Except Stop Object) (name : ClassName)
    (otherwise : Except Stop Value) : List Case → Except Stop Value
  | [] => otherwise
  | .mk attrs children :: _ =>
    if attrs.typeRef != "" then freshClass attrs.typeRef
    else do
      return .record (← freshMembers lib index freshClass freshInlined (name.child attrs.name) children)

def freshOtherwise (lib : Library) (index : TypeIndex) (freshClass : String → Except Stop Value)
    (freshInlined : List StructChild → Except Stop Object) (name : ClassName) :
    Option Case → Except Stop Value
  | none => .error .uncompiled
  | some (.mk attrs children) =>
    if attrs.typeRef != "" then freshClass attrs.typeRef
    else do return .record (← freshMembers lib index freshClass freshInlined name children)

end

variable (index : TypeIndex) (lib : Library) (fti : FieldTypeInfo) (sc : ClassScope)
  (members : Object)

/-- A new object of a class that is named, over the members of a struct. -/
def freshClassOf (index : TypeIndex) (members : ClassName → List StructChild → Except Stop Object)
    (ref : String) :
    Except Stop Value :=
  match index.find ref with
  | some (.type t) => .ok (t.fresh lib)
  | some (.struct s) =>
    if s.attrs.isBitmap then .ok (.record []) else (members (.top ref) s.children).map .record
  | some (.message m) => (members (.top ref) m.children).map .record
  | none => .error .uncompiled

/-- The members of a new object, with references followed to a given depth. -/
def freshAt (lib : Library) (index : TypeIndex) :
    Nat → ClassName → List StructChild → Except Stop Object
  | 0, _, _ => .error .running
  | depth + 1, name, children =>
    freshMembers lib index (freshClassOf lib index (freshAt lib index depth))
      (freshAt lib index depth name) name children

/-! ## Values of fields -/

/-- The check of a constraint before a field is written (`cpp_structs_encode.cpp:257-277`). -/
def encodeConstraintCode (qualified : String) : ConstraintCode :=
  { bits := fti.bits, isSigned := fti.isSigned, castEquals := true, castBounds := false
    code := .encodeConstraintViolation
    expected := fun text got =>
      s!"encode {qualified}: constraint violation: expected {text}, got {got}"
    exceeds := fun text got => s!"encode {qualified}: value {got} exceeds max {text}"
    below := fun text got => s!"encode {qualified}: value {got} below min {text}" }

/-- Whether any of the three checks is printed. -/
def ConstraintCode.prints (c : ConstraintCode) (k : Constraint) : Bool :=
  k.equals.isSome
    || k.max.any (fun text =>
      !(decide (0 < c.bits) && constraintMaxSaturatesStorage text c.bits c.isSigned))
    || k.min.any (fun text => text != "0" || c.isSigned)

/-- A constraint is not checked on structs, enumerations and arrays of bytes. The comparison of a
text with a number does not compile. -/
def encodeConstraint (index : TypeIndex) (qualified : String) (f : Field) (fti : FieldTypeInfo)
    (v : Value) : Except Stop Unit :=
  if fti.isStruct || fti.isEnum || fti.isBytes then .ok ()
  else
    match f.constraint, v with
    | none, _ => .ok ()
    | some k, .number n => (encodeConstraintCode fti qualified).check index k n
    | some k, .double pattern =>
      match lib.doubleViolation k pattern with
      | some text => .error (errorStop .encodeConstraintViolation s!"encode {qualified}: {text}")
      | none => .ok ()
    | some k, _ =>
      if (encodeConstraintCode fti qualified).prints k then .error .uncompiled else .ok ()

/-- The number of characters or bytes of a member. -/
def Value.size : Value → Option Nat
  | .text s => some s.length
  | .bytes bs => some bs.length
  | _ => none

/-- `cpp_structs_encode.cpp:331-337`. -/
def encodeMaxLength (qualified : String) (f : Field) (fti : FieldTypeInfo) (v : Value) :
    Except Stop Unit :=
  match if fti.isString || fti.isBytes then f.maxLength else none, v.size with
  | none, _ => .ok ()
  | some n, some size =>
    if size > toUint64 n then
      .error (errorStop .stringTooLong s!"encode {qualified}: length {size} exceeds max length {n}")
    else .ok ()
  | some _, none => .error .uncompiled

/-- Writing a number. -/
def encodeNumber (e : Endian) (aligned : Bool) (v : Value) (w : BitWriter) :
    Except Stop BitWriter :=
  match v with
  | .number n => .ok ((emitWriteStmt fti e aligned).exec n.value w)
  | .double pattern => .ok ((emitWriteStmt fti e aligned).exec pattern w)
  | _ => .error .uncompiled

/-- Writing a scaled number (`cpp_structs_encode.cpp:359-373`). -/
def encodeScaled (f : Field) (fti : FieldTypeInfo) (aligned : Bool) (v : Value) (w : BitWriter) :
    Except Stop BitWriter :=
  match v with
  | .double pattern =>
    let raw := lib.toRaw (f.scale.getD 1) (f.offset.getD 0)
      ⟨storageBits fti.rawBits, fti.rawSigned⟩ pattern
    .ok ((emitWriteStmt fti.rawInfo fti.rawEndian aligned).exec raw w)
  | _ => .error .uncompiled

/-- Writing an enumeration. -/
def encodeEnum (parent : String) (f : Field) (v : Value) (w : BitWriter) : Except Stop BitWriter :=
  match fieldEnum index parent f, v with
  | some c, .enumerator n => c.encode n w
  | _, _ => .error .uncompiled

/-- Writing a text into a field of fixed length. -/
def encodeFixedText (index : TypeIndex) (f : Field) (length : Nat) (s : List UInt8) (w : BitWriter) :
    BitWriter :=
  (w.writeString (wireText lib f s) length (resolvePaddingChar index f)).2

/-- Writing a text as it is. -/
def encodePlainText (s : List UInt8) (w : BitWriter) : BitWriter := (w.writeString s s.length 0).2

/-- `cpp_structs_encode.cpp:380-451`. -/
def encodeText (index : TypeIndex) (f : Field) (s : List UInt8) (w : BitWriter) :
    Except Stop BitWriter :=
  match f.charBits, f.length with
  | some charBits, some length => .ok (writePacked charBits.toNat length 0x20 s w)
  | _, length =>
    match f.terminated, length, f.lengthPrefix with
    | some text, _, _ =>
      match terminator text with
      | some term => .ok (term.write (encodePlainText s w))
      | none => .error .uncompiled
    | none, some length, _ => .ok (encodeFixedText lib index f length s w)
    | none, none, some type =>
      let (bits, e) := prefixType index type
      let wire := wireText lib f s
      let extra := if f.lengthIncludesPrefix then prefixBytes bits else 0
      .ok (encodePlainText wire (writePrefix bits e (wire.length + extra) w))
    | none, none, none => .ok (encodePlainText s w)

/-- `cpp_structs_encode.cpp:138-160`: a text that may be absent. -/
def encodeOptionalText (index : TypeIndex) (f : Field) (s : List UInt8) (w : BitWriter) :
    BitWriter :=
  match f.charBits, f.length with
  | some charBits, some length => writePacked charBits.toNat length 0x20 s w
  | _, some length => encodeFixedText lib index f length s w
  | _, none => encodePlainText s w

/-- `cpp_structs_encode.cpp:807-851`: a text in an FX block. -/
def encodeFxText (index : TypeIndex) (f : Field) (s : List UInt8) (w : BitWriter) : BitWriter :=
  match f.charBits, f.length with
  | some charBits, some length => writePacked charBits.toNat length 0x20 s w
  | _, some length => encodeFixedText lib index f length s w
  | _, none => encodePlainText (wireText lib f s) w

/-- `std::span<const uint8_t>(member.data(), length)`: a member of another length does not exist in
the source. -/
def encodeBytes (length : Option Nat) (bs : List UInt8) (w : BitWriter) : Except Stop BitWriter :=
  match length with
  | some n => if bs.length = n then .ok (w.writeBytes bs) else .error .uncompiled
  | none => .ok (w.writeBytes bs)

/-! ## Lengths -/

/-- A length field that is written as zero and patched later: its code, the byte position that is
remembered for it and the bit where it begins. -/
structure Placeholder where
  field : String
  code : LengthCode
  bytePos : Nat
  bitPos : Nat

/-- What happens to length fields during a run. -/
inductive LengthEvent where
  | placed (p : Placeholder)
  | patched (p : Placeholder) (start : Nat) (size : Nat)

structure EncodeState where
  writer : BitWriter
  /-- `pending_auto_length_`. -/
  own : Option Placeholder := none
  /-- `pending_auto_length_ref_`, by its target. -/
  sibling : Option (String × Placeholder) := none
  /-- The targets for which a variable with a position is declared. -/
  declared : List String := []
  log : List LengthEvent := []

/-- `apply_arith` (`cpp_structs_helpers.cpp:489-500`): the operand is a literal or a member. -/
def lengthValue (optional : List String) (members : Object) (m : ArithModifier) (size : Nat) :
    Except Stop Nat :=
  if !m.hasModifier then .ok size
  else do
    let operand ←
      if m.isFieldOperand then
        match if m.fieldRef ∈ optional then none else members.lookup m.fieldRef with
        | some (.number v) => .ok v.value
        | _ => .error .uncompiled
      else .ok m.literal
    if (m.op = .div ∨ m.op = .mod) ∧ toUint64 operand = 0 then
      throw (.undefined .divisionByZero)
    return arith m.op size operand

/-- The patch of a length field with the size of what was written from `start` on. -/
def backpatch (message : String) (p : Placeholder) (start : Nat) (s : EncodeState) :
    Except Stop EncodeState := do
  let size := s.writer.sizeBytes - start
  let value ← lengthValue sc.optional members p.code.modifier size
  match p.code.patch p.bytePos value s.writer with
  | .ok (true, w) => return { s with writer := w, log := s.log ++ [.patched p start size] }
  | .ok (false, _) => throw (errorStop .invalidArgument message)
  | .error e => throw (.fault e)

/-- The placeholder of a length field. -/
def placeLength (aligned : Bool) (f : Field) (m : ArithModifier) (s : EncodeState) :
    Placeholder × EncodeState :=
  let p : Placeholder :=
    { field := f.name
      code := { payloadOnly := false, modifier := m, bits := fti.bits, endian := f.endian }
      bytePos := s.writer.sizeBytes, bitPos := s.writer.bitPos }
  (p, { s with
    writer := (emitWriteStmt fti f.endian aligned).exec 0 s.writer
    log := s.log ++ [.placed p] })

/-! ## Choices -/

/-- The number that the text of a case denotes: a constant, a literal, or the value of that name
which is in one enumeration only. -/
def caseValue (text : String) : Option Int :=
  match index.constant? text with
  | some c => (constantValue index c).map (·.value)
  | none =>
    match text.toList with
    | [] => none
    | c :: _ =>
      if c.isDigit || c == '-' then cppLiteral text
      else
        match (index.types.flatMap (·.enumValues)).filter (·.name == text) with
        | [ev] => some ev.id
        | _ => none

/-- The comparison of the switch value with the numbers of a case, which are converted to its
type. -/
def comparesWith (op : BinaryOp) (switch : CppValue) (text : String) : Except Stop Bool :=
  match caseValue index text with
  | none => .error .uncompiled
  | some n =>
    match CppValue.binary op switch.promote (CppValue.convert switch.type n).promote with
    | some r => .ok (r.value != 0)
    | none => .error .uncompiled

/-- The lower bound of a range. -/
def lowerBoundHolds (skipZero : Bool) (switch : CppValue) (lo : String) : Except Stop Bool :=
  if skipZero && lo == "0" then .ok true else comparesWith index .gte switch lo

/-- Whether a case is the one for a switch value. With `skipZero` a lower bound of zero is not
tested. Nothing is tested for a case without value and range. -/
def caseMatches (skipZero : Bool) (switch : CppValue) (attrs : CaseAttrs) :
    Except Stop (Option Bool) :=
  match attrs.value, attrs.range with
  | some text, _ => (comparesWith index .eq switch text).map some
  | none, some range =>
    match Validator.splitRange range.toList with
    | some (lo, hi) => do
      let low ← lowerBoundHolds index skipZero switch (String.ofList lo)
      let high ← comparesWith index .lte switch (String.ofList hi)
      return some (low && high)
    | none => (comparesWith index .eq switch range).map some
  | none, none => .ok none

/-- The discriminator in `encode`: a member, or what its accessors return. -/
def encodeSwitch (name : String) : Except Stop CppValue :=
  match pathSegments name with
  | [] => .error .uncompiled
  | first :: rest =>
    if first ∈ sc.optional then
      if rest.isEmpty then
        match members.lookup first with
        | some v => v.switchNumber
        | none => .error (.undefined .absentOptional)
      else .error .uncompiled
    else
      match members.lookup first with
      | some v => callAccessors v rest >>= Value.switchNumber
      | none => .error .uncompiled

/-- `cpp_structs_encode.cpp:646-746`: the active alternative has to suit the discriminator, if that
is a member of the class. -/
def checkDiscriminator (c : ChoiceAttrs) (cases : List CaseAttrs) (hasOtherwise : Bool)
    (alternative : Nat) : Except Stop Unit :=
  match c.switchExpr with
  | some (.fieldRef name) =>
    if sc.outer.contains (Validator.rootName name) then .ok ()
    else do
      let switch ← encodeSwitch sc members name
      match cases[alternative]? with
      | some attrs =>
        if (← caseMatches index false switch attrs) = some false then
          throw (errorStop .encodeConstraintViolation
            s!"encode {sc.name.bmdl}.{c.name}: variant does not match discriminator")
      | none =>
        if hasOtherwise && alternative == cases.length then
          if (← cases.mapM (caseMatches index false switch)).any (· == some true) then
            throw (errorStop .encodeConstraintViolation
              s!"choice '{c.name}': variant does not match discriminator")
  | _ => .ok ()

/-! ## Children -/

/-- The calls that lead out of the class that is printed, and what inlining a struct does. -/
structure EncodeCalls where
  lib : Library
  index : TypeIndex
  encodeClass : String → Value → BitWriter → Except Stop BitWriter
  freshClass : String → Except Stop Value
  freshInlined : ClassName → List StructChild → Except Stop Object
  optionalOf : List StructChild → List String
  advance : List StructChild → Tracker → Tracker
  inlined : ClassScope → Tracker → Object → EncodeState → List StructChild → Except Stop EncodeState

namespace EncodeCalls

variable (E : EncodeCalls) (sc : ClassScope) (t : Tracker) (members : Object) (a : ArrayAttrs)
  (f : Field)

def advanceChild (c : StructChild) (t : Tracker) : Tracker :=
  childAdvance E.index (encodeFieldAdvance E.index E.advance) c t

/-- Writing the value of a field that is coded in place (`cpp_structs_encode.cpp:359-486`). -/
def encodePlain (v : Value) (w : BitWriter) : Except Stop BitWriter :=
  let fti := memberType E.index f
  match fieldKind true fti, v with
  | .scaled, v => encodeScaled E.lib f fti t.isByteAligned v w
  | .enumeration, v => encodeEnum E.index sc.name.cpp f v w
  | .text, .text s => encodeText E.lib E.index f s w
  | .bytes, .bytes bs => encodeBytes f.length bs w
  | .struct, v => E.encodeClass f.typeRef v w
  | .number, v => encodeNumber fti f.endian t.isByteAligned v w
  | _, _ => .error .uncompiled

/-- `cpp_structs_encode.cpp:96-172`: a field that may be absent. -/
def encodeOptional (w : BitWriter) : Except Stop BitWriter :=
  let fti := memberType E.index f
  match members.lookup f.name with
  | none => .ok w
  | some v => do
    encodeConstraint E.lib E.index (sc.name.qualified f.name) f fti v
    encodeMaxLength (sc.name.qualified f.name) f fti v
    match fieldKind false fti, v with
    | .enumeration, v => encodeEnum E.index sc.name.cpp f v w
    | .scaled, v => encodeScaled E.lib f fti t.isByteAligned v w
    | .text, .text s => .ok (encodeOptionalText E.lib E.index f s w)
    | .bytes, .bytes bs => encodeBytes none bs w
    | .struct, v => E.encodeClass f.typeRef v w
    | .number, v => encodeNumber fti f.endian t.isByteAligned v w
    | _, _ => .error .uncompiled

/-- The number of elements of the array that a field counts (`cpp_structs_encode.cpp:312-323`). -/
def countedSize (array : String) : Except Stop Nat :=
  match members.lookup array with
  | some (.array elements) => .ok elements.length
  | none => if array ∈ sc.optional then .ok 0 else .error .uncompiled
  | _ => .error .uncompiled

/-- `cpp_structs_encode.cpp:279-487`. An enumeration that is written in an inlined field has no
class. -/
def encodeField (s : EncodeState) : Except Stop EncodeState :=
  let fti := memberType E.index f
  match f.ownLength, f.siblingLength, f.countedArray with
  | some m, _, _ =>
    if s.own.isSome then .error .uncompiled
    else
      let (p, s) := placeLength fti t.isByteAligned f m s
      .ok { s with own := some p }
  | none, some (target, m), _ =>
    if s.declared.contains target then .error .uncompiled
    else
      let (p, s) := placeLength fti t.isByteAligned f m s
      .ok { s with sibling := some (target, p), declared := target :: s.declared }
  | none, none, some array => do
    let size ← countedSize sc members array
    let value := (CppValue.convert fti.memberIntType size).value
    return { s with writer := (emitWriteStmt fti f.endian t.isByteAligned).exec value s.writer }
  | none, none, none =>
    if f.isInline then do
      let saved := s.sibling
      let s ← E.inlined { sc with inlined := true } t members { s with sibling := none }
        (inlineChildren E.index f)
      return { s with sibling := saved }
    else if sc.inlined && !f.enumValues.isEmpty && f.typeRef == "" then .error .uncompiled
    else
      match members.lookup f.name with
      | none => .error .uncompiled
      | some v => do
        encodeConstraint E.lib E.index (sc.name.qualified f.name) f fti v
        encodeMaxLength (sc.name.qualified f.name) f fti v
        let w ← E.encodePlain sc t f v s.writer
        return { s with writer := w }

/-- `w.write_bits(0, 64)` as often as it fits, then the rest. -/
def encodeReserved (bits : Nat) (w : BitWriter) : BitWriter :=
  ((fun w => w.writeBits 0 64)^[(bits - 1) / 64] w).writeBits 0 (bits - (bits - 1) / 64 * 64)

/-- The loop over the elements of an array, over the code for one element. -/
def encodeElements (element : Value → BitWriter → Except Stop BitWriter) :
    List Value → BitWriter → Except Stop BitWriter
  | [], w => .ok w
  | v :: vs, w => do encodeElements element vs (← element v w)

/-- The loop for `count="fx"`: every element is followed by a bit that tells whether another one
comes. -/
def encodeFlagged (element : Value → BitWriter → Except Stop BitWriter) :
    List Value → BitWriter → Except Stop BitWriter
  | [], w => .ok w
  | v :: vs, w => do
    let w ← element v w
    encodeFlagged element vs (w.writeBits (if vs.isEmpty then 0 else 1) 1)

/-- One element of an array, over the code of an element that is written in place. -/
def encodeElement (aligned : Bool) (inPlace : Value → BitWriter → Except Stop BitWriter) (v : Value)
    (w : BitWriter) :
    Except Stop BitWriter :=
  match elementKind E.index a, v with
  | .enumeration c, .enumerator n => c.encode n w
  | .primitive fti e, v => encodeNumber fti e aligned v w
  | .named ref, v => E.encodeClass ref v w
  | .inPlace, v => inPlace v w
  | _, _ => .error .uncompiled

/-- `cpp_structs_encode.cpp:489-559`. -/
def encodeArray (inPlace : Value → BitWriter → Except Stop BitWriter) (v : Value) (w : BitWriter) :
    Except Stop BitWriter :=
  match v with
  | .array elements =>
    if a.countFx then encodeFlagged (E.encodeElement a false inPlace) elements w
    else encodeElements (E.encodeElement a t.isByteAligned inPlace) elements w
  | _ => .error .uncompiled

/-- An element of a fixed-count array in an FX block. The emitter takes every type with a width for
a number there, so a class does not compile. -/
def encodeFxElement (fresh : Except Stop Value)
    (inPlace : Value → BitWriter → Except Stop BitWriter) (v : Option Value) (w : BitWriter) :
    Except Stop BitWriter :=
  match elementKind E.index a, v with
  | .enumeration c, some (.enumerator n) => c.encode n w
  | .enumeration _, none =>
    match E.index.type? a.typeRef with
    | some type =>
      .ok ((emitWriteStmt
        { bits := type.bits, isSigned := type.base == .int, wireEncoding := type.wireEncoding }
        type.endian t.isByteAligned).exec 0 w)
    | none => .error .uncompiled
  | .primitive fti e, some v => encodeNumber fti e t.isByteAligned v w
  | .primitive fti e, none => .ok ((emitWriteStmt fti e t.isByteAligned).exec 0 w)
  | .named ref, v =>
    if (E.index.type? ref).any (·.bits > 0) then .error .uncompiled
    else do
      let v ← match v with
        | some v => .ok v
        | none => fresh
      E.encodeClass ref v w
  | .inPlace, some v => inPlace v w
  | .inPlace, none => do inPlace (← fresh) w
  | _, _ => .error .uncompiled

/-- `cpp_structs_encode.cpp:562-639`. -/
def encodeFxArray (fresh : Except Stop Value) (inPlace : Value → BitWriter → Except Stop BitWriter)
    (v : Option Value) (w : BitWriter) :
    Except Stop BitWriter :=
  match a.fixedCount, v with
  | none, none => .ok w
  | none, some v => E.encodeArray t a inPlace v w
  | some n, none => (List.range n).foldlM (fun w _ => E.encodeFxElement t a fresh inPlace none w) w
  | some n, some (.array elements) =>
    (List.range n).foldlM (fun w i => E.encodeFxElement t a fresh inPlace elements[i]? w) w
  | some _, some _ => .error .uncompiled

/-- `cpp_structs_encode.cpp:782-895`: a field of an FX block is written whether or not it is
present. -/
def encodeFxField (w : BitWriter) : Except Stop BitWriter :=
  let fti := memberType E.index f
  if f.isInline then .error .uncompiled
  else
    match fieldKind false fti, members.lookup f.name with
    | .enumeration, some v => encodeEnum E.index sc.name.cpp f v w
    | .enumeration, none =>
      match fieldEnum E.index sc.name.cpp f with
      | some c => c.encode c.zero w
      | none => .error .uncompiled
    | .struct, some v => E.encodeClass f.typeRef v w
    | .struct, none => do E.encodeClass f.typeRef (← E.freshClass f.typeRef) w
    | .text, some (.text s) => .ok (encodeFxText E.lib E.index f s w)
    | .text, none => .ok (encodeFxText E.lib E.index f [] w)
    | .bytes, some (.bytes bs) => encodeBytes f.length bs w
    | .bytes, none =>
      match f.length with
      | some n => .ok (w.writeBits 0 (n * 8))
      | none => .ok w
    | .scaled, some v => encodeScaled E.lib f fti t.isByteAligned v w
    | .scaled, none => encodeScaled E.lib f fti t.isByteAligned (.double 0) w
    | .number, some v => encodeNumber fti f.endian t.isByteAligned v w
    | .number, none => .ok ((emitWriteStmt fti f.endian t.isByteAligned).exec 0 w)
    | _, _ => .error .uncompiled

/-- `cpp_structs.cpp:2070-2127`: a field of a bitmap struct is written as if it stood on a byte
boundary. -/
def encodeBitmapField (v : Value) (w : BitWriter) : Except Stop BitWriter :=
  let fti := memberType E.index f
  match fieldKind false fti, v with
  | .enumeration, v => encodeEnum E.index sc.name.cpp f v w
  | .text, .text s =>
    match f.length with
    | some length =>
      if fieldNeedsEncoding f then .ok (encodeFixedText E.lib E.index f length s w)
      else .ok (w.writeString s length 0).2
    | none => .ok (encodePlainText (wireText E.lib f s) w)
  | .bytes, .bytes bs => encodeBytes (f.length.or f.bytesAttr) bs w
  | .struct, v => E.encodeClass f.typeRef v w
  | .scaled, v => encodeScaled E.lib f fti true v w
  | .number, v =>
    encodeNumber
      { bits := fti.bits, isSigned := fti.isSigned, isFloat := fti.isFloat
        wireEncoding := fti.wireEncoding } f.endian true v w
  | _, _ => .error .uncompiled

/-- `cpp_structs.cpp:1806-1858`: the presence bits, then the members that are present in the order
of their bits. -/
def runBitmap (attrs : StructAttrs) (members : Object)
    (writers : List (BitmapField × (Value → BitWriter → Except Stop BitWriter))) (w : BitWriter) :
    Except Stop BitWriter := do
  let code : BitmapCode :=
    { fields := writers.map (·.1), ext := attrs.bitmapExt, endian := attrs.bitmapEndian }
  match code.fspecOctets (O := Unit) fun name => (members.lookup name).map fun _ => .other () with
  | .error e => throw (.fault e)
  | .ok octets =>
    let sorted := writers.insertionSort fun a b => a.1.wireOrder b.1
    let w ← sorted.foldlM (fun w (f, write) =>
      if f.byteIdx < 0 then .ok w
      else
        match members.lookup f.name with
        | some v => write v w
        | none => .ok w) (w.writeBytes octets)
    checkWriter w

/-- The members of a new object of a class that is defined in place. -/
def freshNested (name : ClassName) (attrs : StructAttrs) (children : List StructChild) :
    Except Stop Value :=
  if attrs.isBitmap then .ok (.record [])
  else
    (freshMembers E.lib E.index E.freshClass (E.freshInlined name) name children).map .record

/-- `std::visit` on a variant. -/
def visitVariant (visit : Nat → Value → BitWriter → Except Stop BitWriter) (v : Value)
    (w : BitWriter) : Except Stop BitWriter :=
  match v with
  | .variant alternative v => visit alternative v w
  | _ => .error .uncompiled

/-- The length field that a struct has itself, not in an inlined one. -/
def hasOwnLength (children : List StructChild) : Bool :=
  children.any fun child =>
    match child with
    | .field f => f.ownLength.isSome
    | _ => false

/-- The end of `encode` (`cpp_structs_encode.cpp:44-64`). -/
def finishClass (children : List StructChild) (start : Nat) (s : EncodeState) :
    Except Stop EncodeState := do
  let s ← match s.own with
    | none => .ok s
    | some p =>
      if hasOwnLength children then
        backpatch sc members s!"encode {sc.name.bmdl}: failed to patch auto-length field" p start s
      else .error .uncompiled
  let _ ← checkWriter s.writer
  return s

mutual

/-- Whether an extent of an FX block is written (`cpp_structs_encode.cpp:946-967`). -/
def fxChildPresent (members : Object) : StructChild → Bool
  | .field f => (members.lookup f.name).isSome
  | .struct s _ => s.name != "" && (members.lookup s.name).isSome
  | .array a _ => (members.lookup a.name).isSome
  | .choice c _ _ => (members.lookup c.name).isSome
  | .fxBlock children => fxPresent members children
  | _ => false

def fxPresent (members : Object) : List StructChild → Bool
  | [] => false
  | c :: cs => fxChildPresent members c || fxPresent members cs

end

variable (sc : ClassScope) (members : Object)

/-- The `encode` of a class that is defined in place (`cpp_structs_encode.cpp:13-68`), over the code
for its children. -/
def encodeNestedWith (attrs : StructAttrs) (children : List StructChild)
    (body : Object → EncodeState → Except Stop EncodeState)
    (writers : List (BitmapField × (Value → BitWriter → Except Stop BitWriter))) (v : Value)
    (w : BitWriter) : Except Stop BitWriter :=
  match v with
  | .record members =>
    if attrs.isBitmap then runBitmap attrs members writers w
    else if children.isEmpty then .ok w
    else do
      let s ← body members { writer := w }
      let s ← finishClass sc members children w.sizeBytes s
      return s.writer
  | _ => .error .uncompiled

/-- `cpp_structs_encode.cpp:641-754`, for an alternative that is present. -/
def encodeChoiceWith (c : ChoiceAttrs) (cases : List Case) (otherwise : Option Case)
    (visit : Nat → Value → BitWriter → Except Stop BitWriter) (v : Value) (w : BitWriter) :
    Except Stop BitWriter :=
  match v with
  | .variant alternative v => do
    checkDiscriminator E.index sc members c (cases.map Case.attrs) otherwise.isSome alternative
    visit alternative v w
  | _ => .error .uncompiled

/-- `cpp_structs_encode.cpp:756-775`, over the code for an extent. -/
def encodeFxWith (children : List StructChild) (extent : BitWriter → Except Stop BitWriter)
    (w : BitWriter) : Except Stop BitWriter :=
  if fxPresent members children then do
    let w ← extent (w.writeBits 1 1)
    return if hasNestedFx children then w else w.writeBits 0 1
  else .ok (w.writeBits 0 1)

/-- The patch after a child that is the target of a length field
(`cpp_structs_encode.cpp:232-252`). -/
def patchSibling (child : String) (isTarget : Bool) (start : Nat) (s : EncodeState) :
    Except Stop EncodeState :=
  match s.sibling with
  | some (_, p) =>
    if isTarget then do
      let s ← backpatch sc members
        s!"encode {sc.name.bmdl}.{child}: failed to patch auto-length(field)" p start s
      return { s with sibling := none }
    else .ok s
  | none => .ok s

/-- A child that is not a field: nothing is written for one that may be absent and is. -/
def encodeMember (optional : Bool) (members : Object) (name : String)
    (write : Value → BitWriter → Except Stop BitWriter) (s : EncodeState) :
    Except Stop EncodeState :=
  match members.lookup name with
  | none => if optional then .ok s else .error .uncompiled
  | some v => do
    let w ← write v s.writer
    return { s with writer := w }

mutual

/-- One child of a struct (`cpp_structs_encode.cpp:93-230`). -/
def encodeChild (sc : ClassScope) (siblings : List StructChild) (t : Tracker) (members : Object)
    (s : EncodeState) : StructChild → Except Stop EncodeState
  | .field f =>
    if f.isOptional then
      if f.isInline then .error .uncompiled
      else do
        let w ← E.encodeOptional sc t members f s.writer
        return { s with writer := w }
    else E.encodeField sc t members f s
  | .struct attrs children =>
    if attrs.name == "" then .ok s
    else if sc.inlined then .error .uncompiled
    else
      let nested := sc.nested E.optionalOf siblings attrs.name children
      encodeMember (attrs.bit.isSome || attrs.presentWhen.isSome) members attrs.name
        (encodeNestedWith nested attrs children
          (fun members s => encodeChildren nested children .start members s children)
          (bitmapWriters nested children children)) s
  | .array a children =>
    if a.typeRef == "" && (sc.inlined || children.isEmpty) then .error .uncompiled
    else
      let nested := sc.element E.optionalOf a.name children
      encodeMember (a.bit.isSome || a.presentWhen.isSome) members a.name
        (E.encodeArray t a (encodeNestedWith nested {} children
          (fun members s => encodeChildren nested children .start members s children) [])) s
  | .choice c cases otherwise =>
    encodeMember (c.bit.isSome || c.presentWhen.isSome) members c.name
      (E.encodeChoiceWith sc members c cases otherwise fun alternative v w =>
        encodeAlternative sc siblings alternative (fun alternative v w =>
            encodeOtherwise sc siblings (c.name ++ "Otherwise") alternative v w otherwise)
          v w cases) s
  | .fxBlock children => do
    let w ← encodeFxWith members children
      (fun w => encodeFxChildren sc children (t.advanceBits 1) members w children) s.writer
    return { s with writer := w }
  | .reserved bits => .ok { s with writer := encodeReserved bits s.writer }
  | .align boundary => .ok { s with writer := s.writer.alignTo (sizeT boundary) }
termination_by structural child => child

/-- `emit_encode_children` (`cpp_structs_encode.cpp:82-254`). -/
def encodeChildren (sc : ClassScope) (siblings : List StructChild) (t : Tracker)
    (members : Object) (s : EncodeState) : List StructChild → Except Stop EncodeState
  | [] => .ok s
  | c :: cs => do
    let isTarget := s.sibling.any (·.1 == c.name)
    let start := s.writer.sizeBytes
    let s ← encodeChild sc siblings t members s c
    let s ← patchSibling sc members c.name isTarget start s
    encodeChildren sc siblings (E.advanceChild c t) members s cs
termination_by structural children => children

/-- `std::visit` with the `encode` of the active alternative. -/
def encodeAlternative (sc : ClassScope) (siblings : List StructChild) (alternative : Nat)
    (otherwise : Nat → Value → BitWriter → Except Stop BitWriter) (v : Value) (w : BitWriter) :
    List Case → Except Stop BitWriter
  | [] => otherwise alternative v w
  | .mk attrs children :: cs =>
    if alternative = 0 then
      if attrs.typeRef != "" then E.encodeClass attrs.typeRef v w
      else if sc.inlined || children.isEmpty then .error .uncompiled
      else
        let nested := sc.nested E.optionalOf siblings attrs.name children
        encodeNestedWith nested {} children
          (fun members s => encodeChildren nested children .start members s children) [] v w
    else encodeAlternative sc siblings (alternative - 1) otherwise v w cs
termination_by structural cases => cases

def encodeOtherwise (sc : ClassScope) (siblings : List StructChild) (bmdl : String)
    (alternative : Nat) (v : Value) (w : BitWriter) : Option Case → Except Stop BitWriter
  | none => .error .uncompiled
  | some (.mk attrs children) =>
    if alternative ≠ 0 then .error .uncompiled
    else if attrs.typeRef != "" then E.encodeClass attrs.typeRef v w
    else if sc.inlined || children.isEmpty then .error .uncompiled
    else
      let nested := sc.nested E.optionalOf siblings bmdl children
      encodeNestedWith nested {} children
        (fun members s => encodeChildren nested children .start members s children) [] v w
termination_by structural otherwise => otherwise

/-- `cpp_structs_encode.cpp:777-944`. -/
def encodeFxChildren (sc : ClassScope) (siblings : List StructChild) (t : Tracker)
    (members : Object) (w : BitWriter) : List StructChild → Except Stop BitWriter
  | [] => .ok w
  | c :: cs => do
    let w ← encodeFxChild sc siblings t members w c
    encodeFxChildren sc siblings (fxChildAdvance E.index c t) members w cs
termination_by structural children => children

def encodeFxChild (sc : ClassScope) (siblings : List StructChild) (t : Tracker)
    (members : Object) (w : BitWriter) : StructChild → Except Stop BitWriter
  | .field f => E.encodeFxField sc t members f w
  | .struct attrs children =>
    if attrs.name == "" then .ok w
    else if sc.inlined then .error .uncompiled
    else do
      let nested := sc.nested E.optionalOf siblings attrs.name children
      let v ← match members.lookup attrs.name with
        | some v => .ok v
        | none => E.freshNested nested.name attrs children
      encodeNestedWith nested attrs children
        (fun members s => encodeChildren nested children .start members s children)
        (bitmapWriters nested children children) v w
  | .array a children =>
    if a.typeRef == "" && (sc.inlined || children.isEmpty) then .error .uncompiled
    else
      let nested := sc.element E.optionalOf a.name children
      let fresh :=
        if a.typeRef != "" then E.freshClass a.typeRef
        else E.freshNested nested.name {} children
      E.encodeFxArray t a fresh (encodeNestedWith nested {} children
        (fun members s => encodeChildren nested children .start members s children) [])
        (members.lookup a.name) w
  | .choice c cases otherwise =>
    match members.lookup c.name with
    | some v =>
      E.encodeChoiceWith sc members c cases otherwise (fun alternative v w =>
        encodeAlternative sc siblings alternative (fun alternative v w =>
            encodeOtherwise sc siblings (c.name ++ "Otherwise") alternative v w otherwise)
          v w cases) v w
    | none => .error (.undefined .absentOptional)
  | .fxBlock children =>
    encodeFxWith members children
      (fun w => encodeFxChildren sc children (t.advanceBits 1) members w children) w
  | .reserved bits => .ok (encodeReserved bits w)
  | .align boundary => .ok (w.alignTo (sizeT boundary))
termination_by structural child => child

/-- The code for the members of a bitmap struct, with their presence bits
(`cpp_structs.cpp:1644-1702`, `2055-2131`). -/
def bitmapWriters (sc : ClassScope) (siblings : List StructChild) :
    List StructChild → List (BitmapField × (Value → BitWriter → Except Stop BitWriter))
  | [] => []
  | c :: cs => bitmapWriter sc siblings c ++ bitmapWriters sc siblings cs
termination_by structural children => children

def bitmapWriter (sc : ClassScope) (siblings : List StructChild) :
    StructChild → List (BitmapField × (Value → BitWriter → Except Stop BitWriter))
  | .field f =>
    f.bit.toList.map fun bit =>
      ({ name := f.name, bit, access := .other }, E.encodeBitmapField sc f)
  | .struct attrs children =>
    let nested := sc.nested E.optionalOf siblings attrs.name children
    attrs.bit.toList.map fun bit =>
      ({ name := attrs.name, bit, access := .other }, encodeNestedWith nested attrs children
          (fun members s => encodeChildren nested children .start members s children)
          (bitmapWriters nested children children))
  | .choice c cases otherwise =>
    c.bit.toList.map fun bit =>
      ({ name := c.name, bit, access := .other }, visitVariant fun alternative v w =>
        encodeAlternative sc siblings alternative (fun alternative v w =>
            encodeOtherwise sc siblings (c.name ++ "Otherwise") alternative v w otherwise)
          v w cases)
  | _ => []
termination_by structural child => child

end

/-- The `encode` of a class that is defined in place. -/
def encodeNested (sc : ClassScope) (attrs : StructAttrs) (children : List StructChild) :
    Value → BitWriter → Except Stop BitWriter :=
  encodeNestedWith sc attrs children
    (fun members s => E.encodeChildren sc children .start members s children)
    (E.bitmapWriters sc children children)

/-- The `encode` of a class by its name. -/
def encodeNamed (name : String) (v : Value) (w : BitWriter) : Except Stop BitWriter :=
  match E.index.find name with
  | some (.type t) => t.encode E.lib v w
  | some (.struct s) => E.encodeNested (.top E.optionalOf name s.children) s.attrs s.children v w
  | some (.message m) => E.encodeNested (.top E.optionalOf name m.children) {} m.children v w
  | none => .error .uncompiled

/-- Structs inlined to a given depth. A struct that is inlined into itself cannot be printed. -/
def inlining : Nat → EncodeCalls
  | 0 => { E with inlined := fun _ _ _ _ _ => .error .uncompiled }
  | depth + 1 =>
    { E with inlined := fun sc t members s children =>
        (inlining depth).encodeChildren sc children t members s children }

end EncodeCalls

/-- The encoders with the given calls of classes, without inlined structs. What does not depend on
the object is followed through as many references as there are definitions. -/
def encodeBase (lib : Library) (index : TypeIndex)
    (encodeClass : String → Value → BitWriter → Except Stop BitWriter) : EncodeCalls :=
  { lib, index, encodeClass
    freshClass := freshClassOf lib index (freshAt lib index index.depth)
    freshInlined := freshAt lib index index.depth
    optionalOf := optionalNames index index.depth
    advance := encodeAdvance index index.depth
    inlined := fun _ _ _ _ _ => .error .uncompiled }

/-- The encoders with the given calls of classes. -/
def encodeWith (lib : Library) (index : TypeIndex)
    (encodeClass : String → Value → BitWriter → Except Stop BitWriter) : EncodeCalls :=
  (encodeBase lib index encodeClass).inlining index.depth

/-- The `encode` of a class, with calls nested to a given depth. -/
def encodeClassAt (lib : Library) (index : TypeIndex) :
    Nat → String → Value → BitWriter → Except Stop BitWriter
  | 0, _, _, _ => .error .running
  | depth + 1, name, v, w =>
    (encodeWith lib index (encodeClassAt lib index depth)).encodeNamed name v w

end Conduit.Bgen

import Conduit.Bgen.StructEncode

/-!
# The generated `decode`

`codegen/cpp_structs_decode.cpp`: what the `decode` that is printed for a struct or a message reads.
The members of the object are collected in the order in which they are decoded; a member for which
no code is printed keeps its initial value. An expression is evaluated over the members decoded so
far and over those that the enclosing class hands down.

After the length of the struct itself has been read, the children that follow it are read from a
reader of as many bytes as remain of the struct, or from the same reader where the length does not
suit.
-/

namespace Conduit.Bgen

open Io BitReader

/-! ## Values of fields -/

variable (fti : FieldTypeInfo) (lib : Library) (index : TypeIndex) (qualified : String) (f : Field)
  (scope : ExprScope)

/-- The read that is emitted for a number. -/
def readNumber (e : Endian) (aligned : Bool) : DecodeM Int :=
  match emitReadExpr fti e aligned with
  | some expr => DecodeM.read expr.exec
  | none => DecodeM.stop .uncompiled

/-- `static_cast` of the number that was read to the type of the member. -/
def decodedNumber (raw : Int) : Value :=
  if fti.isFloat then .double raw
  else if fti.isBool then .number ⟨fti.memberIntType, if raw = 0 then 0 else 1⟩
  else .number (CppValue.convert fti.memberIntType raw)

/-- An element of an array is cast to an integer, also where it is a floating-point number. -/
def decodedElement (fti : FieldTypeInfo) (raw : Int) : Value :=
  let type : IntType := ⟨storageBits fti.bits, fti.isSigned⟩
  if fti.isFloat then .double (lib.ofInteger (CppValue.convert type (lib.truncate raw)).value)
  else .number (CppValue.convert type raw)

/-- `cpp_structs_expr.cpp:15-50`, and `cpp_structs_decode.cpp:915-958` for an enumeration, whose
number is compared without a cast. -/
def decodeConstraintCode : ConstraintCode :=
  { bits := fti.bits, isSigned := fti.isSigned, castEquals := !fti.isEnum, castBounds := false
    code := .constraintViolation
    expected := fun text got =>
      s!"decode {qualified}: constraint violation: expected {text}, got {got}"
    exceeds := fun text got => s!"decode {qualified}: value {got} exceeds max {text}"
    below := fun text got => s!"decode {qualified}: value {got} below min {text}" }

/-- The check of a constraint after a number or an enumeration has been read. Only that of a number
can be deferred. -/
def decodeConstraint (fti : FieldTypeInfo) (v : Value) : Except Stop Unit :=
  match f.constraint, v with
  | none, _ => .ok ()
  | some k, .enumerator n => (decodeConstraintCode fti qualified).check index k n
  | some k, .number n =>
    if k.deferred then .ok () else (decodeConstraintCode fti qualified).check index k n
  | some k, .double pattern =>
    match if k.deferred then none else lib.doubleViolation k pattern with
    | some text => .error (errorStop .constraintViolation s!"decode {qualified}: {text}")
    | none => .ok ()
  | some _, _ => .error .uncompiled

/-- `cpp_structs_decode.cpp:1190-1198`. -/
def decodeMaxLength (fti : FieldTypeInfo) (v : Value) : Except Stop Unit :=
  match (if fti.isString || fti.isBytes then f.maxLength else none), v.size with
  | none, _ => .ok ()
  | some n, some size =>
    if size > toUint64 n then
      .error (errorStop .maxLengthExceeded
        s!"decode {qualified}: length {size} exceeds max length {n}")
    else .ok ()
  | some _, none => .error .uncompiled

/-- A text after a length prefix (`cpp_structs_decode.cpp:1001-1025`). -/
def decodePrefixed (type : String) : DecodeM (List UInt8) := do
  let len ← DecodeM.read (readPrefix (prefixType index type).1 (prefixType index type).2)
  let size := prefixBytes (prefixType index type).1
  if f.lengthIncludesPrefix then
    if len < size then
      DecodeM.fail .bufferOverrun
        s!"decode {qualified}: length-prefix value {len} smaller than prefix size {size}"
    else DecodeM.read (readString (len - size))
  else DecodeM.read (readString len)

/-- A text up to its terminator (`cpp_structs_decode.cpp:1041-1092`). -/
def decodeTerminated (text : String) : DecodeM (List UInt8) :=
  match terminator text with
  | some term => DecodeM.read (term.read (terminatedTurns f.maxLength))
  | none => DecodeM.stop .uncompiled

/-- All bytes that remain. -/
def readRemaining : DecodeM (List UInt8) := do
  let r ← DecodeM.getReader
  DecodeM.read (readBytes r.remainingBytes)

/-- `cpp_structs_decode.cpp:963-1106`: the characters on the wire, if anything is read. -/
def decodeWireText (qualified : String) (f : Field) : DecodeM (Option (List UInt8)) :=
  match f.length, f.lengthPrefix, f.lengthFrom, f.terminated with
  | some length, _, _, _ => some <$> DecodeM.read (readString length)
  | none, some type, _, _ => some <$> decodePrefixed index qualified f type
  | none, none, some e, _ => some <$> DecodeM.sizedBytes "read_bytes" scope e
  | none, none, none, some text => some <$> decodeTerminated f text
  | none, none, none, none => if f.lengthStar then some <$> readRemaining else return none

/-- The text of a field. Packed characters are not converted. -/
def decodeText (qualified : String) (f : Field) : DecodeM (Option Value) :=
  match f.charBits, f.length with
  | some charBits, some length => do
    return some (.text (trimMember index f (← DecodeM.read (readPacked charBits.toNat length))))
  | _, _ => do
    let s ← decodeWireText index scope qualified f
    return s.map fun s => .text (memberText lib index f s)

/-- `cpp_structs_decode.cpp:1107-1143`. -/
def decodeBytes (f : Field) : DecodeM (Option Value) :=
  match f.length, f.lengthFrom with
  | some n, _ => do return some (.bytes (← DecodeM.read (readBytes n)))
  | none, some e => do return some (.bytes (← DecodeM.sizedBytes "read_bytes" scope e))
  | none, none =>
    if f.lengthStar then do return some (.bytes (← readRemaining))
    else
      match f.bytesAttr with
      | some n => do return some (.bytes (← DecodeM.read (readBytes n)))
      | none => return none

/-- `cpp_structs_decode.cpp:1736-1778`: a text in an FX block. -/
def decodeFxText : DecodeM Value :=
  match f.charBits, f.length with
  | some charBits, some length => do
    return .text (trimMember index f (← DecodeM.read (readPacked charBits.toNat length)))
  | _, some length => do
    return .text (memberText lib index f (← DecodeM.read (readString length)))
  | _, none => do return .text (memberText lib index f (← readRemaining))

/-- An array of bytes in an FX block or a bitmap struct. -/
def decodePlainBytes : DecodeM Value :=
  match f.length.or f.bytesAttr with
  | some n => do return .bytes (← DecodeM.read (readBytes n))
  | none => do return .bytes (← readRemaining)

/-- A scaled number. -/
def decodeScaled (fti : FieldTypeInfo) (aligned : Bool) : DecodeM Value := do
  let raw ← readNumber fti.rawInfo fti.rawEndian aligned
  return .double (lib.ofRaw (f.scale.getD 1) (f.offset.getD 0) raw)

/-- An enumeration. -/
def decodeEnum (parent : String) (f : Field) : DecodeM Value :=
  match fieldEnum index parent f with
  | some c => c.decode
  | none => DecodeM.stop .uncompiled

/-- A number. -/
def decodeNumber (e : Endian) (aligned : Bool) : DecodeM Value := do
  return decodedNumber fti (← readNumber fti e aligned)

/-- The members of `std::string` and of arrays that are called on a text or on bytes do not exist
where the member is optional. -/
def callsOnOptional (fti : FieldTypeInfo) : Bool :=
  f.isOptional && (fti.isBytes
    || fti.isString && (f.trim.any (· != .none) || f.maxLength.isSome))

/-! ## Lengths and choices -/

/-- The field that the reader of the children after it is bounded by, if children follow. -/
def boundsRest : List StructChild → Bool
  | [] => false
  | .field f :: cs => if f.ownLength.isSome then !cs.isEmpty else boundsRest cs
  | _ :: cs => boundsRest cs

/-- The name and the modifier of the length field that a child is. -/
def StructChild.ownLength : StructChild → Option (Field × ArithModifier)
  | .field f => f.ownLength.map fun m => (f, m)
  | _ => none

/-- The children after the length field, over the bytes that remained at the start of the struct
(`cpp_structs_decode.cpp:690-729`). -/
def withinLength (start : Nat) (f : Field) (m : ArithModifier) (members : Object)
    (rest : DecodeM Object) : DecodeM Object :=
  match if f.isOptional then none else members.lookup f.name with
  | some (.number v) => do
    let r ← DecodeM.getReader
    let consumed := toInt64 (sizeT (start + 2 ^ 64 - r.remainingBytes))
    let total ← DecodeM.length v m
    if total < 0 ∨ total < consumed then rest
    else DecodeM.orSubReader (toUint64 (total - consumed)) rest
  | _ => DecodeM.stop .uncompiled

/-- The child and, if it is the length of the struct, the bound for those that follow. -/
def afterChild (start : Option Nat) (child : StructChild) (members : Object)
    (rest : Option Nat → DecodeM Object) : DecodeM Object :=
  match start, child.ownLength with
  | some start, some (f, m) => withinLength start f m members (rest none)
  | start, _ => rest start

/-- `cpp_structs_decode.cpp:1544-1577`: a case for sending only is left out where another case has
its value or its range. -/
def caseLeftOut (cases : List CaseAttrs) (attrs : CaseAttrs) : Bool :=
  let received := cases.filter (·.direction != .send)
  attrs.direction == .send && (attrs.value.any (fun text =>
        (Validator.caseNumber index text).any fun n =>
          received.any fun other =>
            other.value.any fun text => Validator.caseNumber index text == some n)
      || attrs.range.any (fun range => received.any fun other => other.range == some range))

/-- The alternatives of a variant are different classes. -/
def distinctAlternatives (cases : List CaseAttrs) (otherwise : Option CaseAttrs) : Bool :=
  decide ((cases.map (fun a => (a.typeRef, if a.typeRef == "" then a.name else ""))
    ++ (otherwise.toList.filter (·.typeRef != "")).map fun a => (a.typeRef, "")).Nodup)

/-! ## Children -/

/-- The calls that lead out of the class that is printed, what inlining a struct does, and the
number of turns for loops that run to the end of their input. -/
structure DecodeCalls where
  lib : Library
  index : TypeIndex
  turns : Nat
  decodeClass : String → DecodeM Value
  freshClass : String → Except Stop Value
  freshInlined : ClassName → List StructChild → Except Stop Object
  optionalOf : List StructChild → List String
  advance : List StructChild → Tracker → Tracker
  inlined : ClassScope → Object → Tracker → Object → List StructChild → DecodeM Object

namespace DecodeCalls

variable (D : DecodeCalls) (sc : ClassScope) (t : Tracker) (scope : ExprScope) (a : ArrayAttrs)
  (outer members : Object) (f : Field)

def advanceChild (c : StructChild) (t : Tracker) : Tracker :=
  childAdvance D.index (decodeFieldAdvance D.index D.advance) c t

/-- What an expression can refer to at this point. -/
def exprScope : DecodeM ExprScope := do
  let r ← DecodeM.getReader
  return { index := D.index, optional := sc.optional, members, outer
           remainingBits := r.remainingBits }

/-- A child that may be absent. -/
def decodeConditional (presentWhen : Option Expr) (body : DecodeM Object) : DecodeM Object :=
  match presentWhen with
  | none => body
  | some e => do
    let scope ← D.exprScope sc outer members
    if ← DecodeM.condition scope e then body else return members

/-- The members that a nested class is given. -/
def arguments (scope : ExprScope) : List String → DecodeM Object
  | [] => return []
  | name :: names => do
    let v ← DecodeM.argument scope name
    let rest ← arguments scope names
    return (name, v) :: rest

/-- A member that is assigned, or keeps its initial value. -/
def assign (name : String) (fresh : Except Stop Object) : Option Value → DecodeM Object
  | some v => return members ++ [(name, v)]
  | none => do return members ++ (← DecodeM.ofFresh fresh)

/-- The value of a field that is coded in place (`cpp_structs_decode.cpp:860-1188`). -/
def decodePlain : DecodeM (Option Value) :=
  let fti := memberType D.index f
  let qualified := sc.name.qualified f.name
  match fieldKind true fti with
  | .scaled => some <$> decodeScaled D.lib f fti t.isByteAligned
  | .enumeration => do
    let v ← decodeEnum D.index sc.name.cpp f
    DecodeM.ofExcept (decodeConstraint D.lib D.index qualified f fti v)
    return some v
  | .text => decodeText D.lib D.index scope qualified f
  | .bytes => decodeBytes scope f
  | .struct => some <$> D.decodeClass f.typeRef
  | .number => do
    let v ← decodeNumber fti f.endian t.isByteAligned
    DecodeM.ofExcept (decodeConstraint D.lib D.index qualified f fti v)
    return some v

/-- `cpp_structs_decode.cpp:844-1199`. -/
def decodeField (t : Tracker) (members : Object) (f : Field) : DecodeM Object :=
  if f.isInline then
    if f.isOptional then DecodeM.stop .uncompiled
    else D.inlined { sc with inlined := true } outer t members (inlineChildren D.index f)
  else if sc.inlined && !f.enumValues.isEmpty && f.typeRef == "" then DecodeM.stop .uncompiled
  else if callsOnOptional f (memberType D.index f) then DecodeM.stop .uncompiled
  else do
    let scope ← D.exprScope sc outer members
    match ← D.decodePlain sc t scope f with
    | some v =>
      DecodeM.ofExcept (decodeMaxLength (sc.name.qualified f.name) f (memberType D.index f) v)
      return members ++ [(f.name, v)]
    | none =>
      -- no read is printed, and the member keeps its initial value
      let fresh ← DecodeM.ofFresh
        (freshChild D.lib D.index D.freshClass (D.freshInlined sc.name) sc.name (.field f))
      return members ++ fresh

/-- `r.skip_bits(64)` as often as it fits, then the rest. -/
def decodeReserved (bits : Nat) : DecodeM Unit := do
  let _ ← DecodeM.times (DecodeM.read (skipBits 64)) ((bits - 1) / 64)
  DecodeM.read (skipBits (bits - (bits - 1) / 64 * 64))

/-- One element of an array, over the code of an element that is defined in place. -/
def decodeElement (aligned : Bool) (inPlace : DecodeM Value) : DecodeM Value :=
  match elementKind D.index a with
  | .enumeration c => c.decode
  | .primitive fti e => do return decodedElement D.lib fti (← readNumber fti e aligned)
  | .named ref => D.decodeClass ref
  | .inPlace => inPlace

/-- The loop over the elements of an array (`cpp_structs_decode.cpp:1283-1350`, `1398-1463`), over
the code that computes their number. -/
def decodeCounted (count : ExprScope → Expr → DecodeM Nat) (t : Tracker) (scope : ExprScope)
    (a : ArrayAttrs) (inPlace : DecodeM Value) : DecodeM (List Value) :=
  let element := D.decodeElement a t.isByteAligned inPlace
  match a.fixedCount, a.countFrom with
  | some n, _ => DecodeM.times element n
  | none, some e => do
    let n ← count scope e
    DecodeM.times element n
  | none, none =>
    if a.countStar then
      match a.lengthFrom with
      | some e => do
        let (vs, _) ← DecodeM.bounded (DecodeM.sizedBytes "sub_reader" scope e) (pure ()) fun _ =>
          DecodeM.untilEnd (D.decodeElement a true inPlace) D.turns
        return vs
      | none => DecodeM.untilEnd element D.turns
    else DecodeM.stop .uncompiled

/-- `cpp_structs_decode.cpp:1201-1350`. -/
def decodeArray (inPlace : DecodeM Value) : DecodeM Value :=
  if a.countFx then do
    return .array (← DecodeM.whileFlag (D.decodeElement a false inPlace) D.turns)
  else do
    return .array
      (← D.decodeCounted (DecodeM.sizedCount (sc.name.qualified a.name)) t scope a inPlace)

/-- `cpp_structs_decode.cpp:1353-1463`: the number of elements is not checked, and `count="fx"` is
not looked at. -/
def decodeFxArray (inPlace : DecodeM Value) : DecodeM Value := do
  return .array (← D.decodeCounted DecodeM.sizedFxCount t scope a inPlace)

/-- `cpp_structs_decode.cpp:1695-1808`: a field of an FX block. -/
def decodeFxField : DecodeM Value :=
  let fti := memberType D.index f
  if f.isInline then DecodeM.stop .uncompiled
  else
    match fieldKind false fti with
    | .enumeration => decodeEnum D.index sc.name.cpp f
    | .struct => D.decodeClass f.typeRef
    | .scaled => decodeScaled D.lib f fti t.isByteAligned
    | .text => decodeFxText D.lib D.index f
    | .bytes => decodePlainBytes f
    | .number => decodeNumber fti f.endian t.isByteAligned

/-- `cpp_structs.cpp:1925-2019`: a field of a bitmap struct is read as if it stood on a byte
boundary. -/
def decodeBitmapField : DecodeM Value :=
  let fti := memberType D.index f
  match fieldKind false fti with
  | .enumeration => decodeEnum D.index sc.name.cpp f
  | .text =>
    match f.length with
    | some n => do
      return .text (memberText D.lib D.index f (← DecodeM.read (readString n)))
    | none => do return .text (memberText D.lib D.index f (← readRemaining))
  | .bytes => decodePlainBytes f
  | .struct => D.decodeClass f.typeRef
  | .scaled => decodeScaled D.lib f fti true
  | .number => do
    let raw ← readNumber
      { bits := fti.bits, isSigned := fti.isSigned, isFloat := fti.isFloat
        wireEncoding := fti.wireEncoding } f.endian true
    return decodedNumber fti raw

/-- The members of a bitmap struct that are present, in the order of their bits. -/
def readPresent (fspec : List UInt8) (len : Nat) :
    List (BitmapField × (Object → DecodeM (Option Value))) → Object → DecodeM Object
  | [], members => return members
  | (f, read) :: readers, members =>
    match f.presence fspec len with
    | none => DecodeM.stop (.fault .outOfBounds)
    | some false => readPresent fspec len readers members
    | some true => do
      match ← read members with
      | some v => readPresent fspec len readers (members ++ [(f.name, v)])
      | none => readPresent fspec len readers members

/-- `cpp_structs.cpp:1860-2028`. -/
def decodeBitmap (attrs : StructAttrs)
    (readers : List (BitmapField × (Object → DecodeM (Option Value)))) : DecodeM Value := do
  let code : BitmapCode :=
    { fields := readers.map (·.1), ext := attrs.bitmapExt, endian := attrs.bitmapEndian }
  let (fspec, len) ← DecodeM.read code.readFspec
  return .record (← readPresent fspec len (readers.insertionSort fun a b => a.1.wireOrder b.1) [])

/-- The `decode` of a class that is defined in place (`cpp_structs_decode.cpp:14-52`), over the code
for its children. That of a bitmap struct takes no members of the enclosing class. -/
def decodeNestedWith (attrs : StructAttrs) (children : List StructChild) (outer : Object)
    (body : Option Nat → DecodeM Object)
    (readers : List (BitmapField × (Object → DecodeM (Option Value)))) : DecodeM Value :=
  if attrs.isBitmap then
    if outer.isEmpty then decodeBitmap attrs readers else DecodeM.stop .uncompiled
  else if children.isEmpty then return .record []
  else do
    let r ← DecodeM.getReader
    return .record (← body (if boundsRest children then some r.remainingBytes else none))

/-- The bytes of a choice have to be used up. -/
def usedUp (qualified : String) (v : Option Value) (sub : BitReader) : DecodeM (Option Value) :=
  if sub.atEnd then return v
  else
    DecodeM.fail .exactConsumptionFailed
      s!"decode {qualified}: bounded region has {sub.remainingBytes} unconsumed bytes"

/-- The value that selects a case. -/
def choiceSwitch (e : Expr) : DecodeM CppValue := do
  let scope ← D.exprScope sc outer members
  DecodeM.switch scope e

/-- `cpp_structs_decode.cpp:1495-1668`, over the code of the cases. -/
def decodeChoiceWith (c : ChoiceAttrs) (distinct : Bool)
    (select : CppValue → DecodeM (Option Value)) : DecodeM (Option Value) :=
  match distinct, c.switchExpr, c.lengthFrom, c.length with
  | false, _, _, _ => DecodeM.stop .uncompiled
  | _, none, _, _ => DecodeM.stop .uncompiled
  | _, some e, some length, _ => do
    let scope ← D.exprScope sc outer members
    let (v, sub) ← DecodeM.bounded (DecodeM.sizedBytes "sub_reader" scope length)
      (D.choiceSwitch sc outer members e) select
    usedUp (sc.name.qualified c.name) v sub
  | _, some e, none, some n => do
    let (v, sub) ← DecodeM.bounded (DecodeM.read (takeBytes "sub_reader" n))
      (D.choiceSwitch sc outer members e) select
    usedUp (sc.name.qualified c.name) v sub
  | _, some e, none, none => do
    let switch ← D.choiceSwitch sc outer members e
    select switch

/-- The value of a switch that no case suits. -/
def noCase (qualified : String) (switch : CppValue) : DecodeM (Option Value) :=
  let got := (CppValue.convert ⟨64, true⟩ switch.value).value
  DecodeM.fail .unknownDiscriminator s!"decode {qualified}: no case matched switch value {got}"

/-- All bytes that remain are skipped. -/
def skipRemaining : DecodeM (Option Value) := do
  let r ← DecodeM.getReader
  DecodeM.read (skipBits (sizeT (r.remainingBytes * 8)))
  return none

/-- `cpp_structs_decode.cpp:1670-1687`, `1866-1870`, over the code for the extent. -/
def decodeFxWith (children : List StructChild) (members : Object) (extent : DecodeM Object) :
    DecodeM Object := do
  let flag ← DecodeM.read (readBits 1)
  if flag = 0 then return members
  else
    let members ← extent
    if hasNestedFx children then return members
    else
      DecodeM.read (skipBits 1)
      return members

/-- A member of a bitmap struct that needs others is an error without them. -/
def requirePresent (name : String) (members : Object) : List String → DecodeM Unit
  | [] => return ()
  | p :: ps =>
    if (members.lookup p).isSome then requirePresent name members ps
    else DecodeM.fail .invalidArgument s!"{name} requires {p}"

mutual

/-- `cpp_structs_decode.cpp:745-842`. -/
def decodeChild (sc : ClassScope) (outer : Object) (siblings : List StructChild) (t : Tracker)
    (members : Object) : StructChild → DecodeM Object
  | .field f =>
    D.decodeConditional sc outer members f.presentWhen (D.decodeField sc outer t members f)
  | .struct attrs children =>
    if attrs.name == "" then return members
    else if sc.inlined then DecodeM.stop .uncompiled
    else
      let nested := sc.nested D.optionalOf siblings attrs.name children
      D.decodeConditional sc outer members attrs.presentWhen do
        let scope ← D.exprScope sc outer members
        let args ← arguments scope nested.outer
        let v ← decodeNestedWith attrs children args
          (fun start => decodeChildren nested args children start .start [] children)
          (bitmapReaders nested children children)
        return members ++ [(attrs.name, v)]
  | .array a children =>
    if a.typeRef == "" && (sc.inlined || children.isEmpty) then DecodeM.stop .uncompiled
    else
      let nested := sc.element D.optionalOf a.name children
      D.decodeConditional sc outer members a.presentWhen do
        let scope ← D.exprScope sc outer members
        let v ← D.decodeArray sc t scope a (decodeNestedWith {} children []
          (fun start => decodeChildren nested [] children start .start [] children) [])
        return members ++ [(a.name, v)]
  | .choice c cases otherwise =>
    D.decodeConditional sc outer members c.presentWhen do
      let v ← D.decodeChoiceWith sc outer members c
        (distinctAlternatives (cases.map Case.attrs) (otherwise.map Case.attrs)) fun switch =>
          decodeCases sc outer siblings members (caseLeftOut D.index (cases.map Case.attrs)) switch
            (fun i => decodeOtherwise sc outer siblings members c.name i switch otherwise) 0 cases
      assign members c.name (freshChild D.lib D.index D.freshClass (D.freshInlined sc.name) sc.name
          (.choice c cases otherwise)) v
  | .fxBlock children =>
    decodeFxWith children members
      (decodeFxChildren sc outer children (t.advanceBits 1) members children)
  | .reserved bits => do
    decodeReserved bits
    return members
  | .align boundary => do
    DecodeM.align boundary
    return members
termination_by structural child => child

/-- `emit_decode_children` (`cpp_structs_decode.cpp:659-743`). -/
def decodeChildren (sc : ClassScope) (outer : Object) (siblings : List StructChild)
    (start : Option Nat) (t : Tracker) (members : Object) : List StructChild → DecodeM Object
  | [] => return members
  | c :: cs => do
    let members ← decodeChild sc outer siblings t members c
    afterChild start c members fun start =>
      decodeChildren sc outer siblings start (D.advanceChild c t) members cs
termination_by structural children => children

/-- The cases in the order in which they are tested. -/
def decodeCases (sc : ClassScope) (outer : Object) (siblings : List StructChild) (members : Object)
    (leftOut : CaseAttrs → Bool) (switch : CppValue) (otherwise : Nat → DecodeM (Option Value))
    (i : Nat) : List Case → DecodeM (Option Value)
  | [] => otherwise i
  | .mk attrs children :: cs =>
    if leftOut attrs then
      decodeCases sc outer siblings members leftOut switch otherwise (i + 1) cs
    else do
      match ← DecodeM.ofExcept (caseMatches D.index true switch attrs) with
      | none => DecodeM.stop .uncompiled
      | some false => decodeCases sc outer siblings members leftOut switch otherwise (i + 1) cs
      | some true =>
        if attrs.typeRef != "" then do return some (.variant i (← D.decodeClass attrs.typeRef))
        else if sc.inlined || children.isEmpty then DecodeM.stop .uncompiled
        else
          let nested := sc.nested D.optionalOf siblings attrs.name children
          let scope ← D.exprScope sc outer members
          let args ← arguments scope nested.outer
          let v ← decodeNestedWith {} children args
            (fun start => decodeChildren nested args children start .start [] children) []
          return some (.variant i v)
termination_by structural cases => cases

def decodeOtherwise (sc : ClassScope) (outer : Object) (siblings : List StructChild)
    (members : Object) (name : String) (i : Nat) (switch : CppValue) :
    Option Case → DecodeM (Option Value)
  | none => noCase (sc.name.qualified name) switch
  | some (.mk attrs children) =>
    if attrs.typeRef != "" then do return some (.variant i (← D.decodeClass attrs.typeRef))
    else if children.isEmpty then skipRemaining
    else if sc.inlined then DecodeM.stop .uncompiled
    else do
      let nested := sc.nested D.optionalOf siblings (name ++ "Otherwise") children
      let scope ← D.exprScope sc outer members
      let args ← arguments scope nested.outer
      let v ← decodeNestedWith {} children args
        (fun start => decodeChildren nested args children start .start [] children) []
      return some (.variant i v)
termination_by structural otherwise => otherwise

/-- `cpp_structs_decode.cpp:1689-1871`. -/
def decodeFxChildren (sc : ClassScope) (outer : Object) (siblings : List StructChild) (t : Tracker)
    (members : Object) : List StructChild → DecodeM Object
  | [] => return members
  | c :: cs => do
    let members ← decodeFxChild sc outer siblings t members c
    decodeFxChildren sc outer siblings (fxChildAdvance D.index c t) members cs
termination_by structural children => children

def decodeFxChild (sc : ClassScope) (outer : Object) (siblings : List StructChild) (t : Tracker)
    (members : Object) : StructChild → DecodeM Object
  | .field f => do
    let v ← D.decodeFxField sc t f
    return members ++ [(f.name, v)]
  | .struct attrs children =>
    if attrs.name == "" then return members
    else if sc.inlined then DecodeM.stop .uncompiled
    else do
      let nested := sc.nested D.optionalOf siblings attrs.name children
      let scope ← D.exprScope sc outer members
      let args ← arguments scope nested.outer
      let v ← decodeNestedWith attrs children args
        (fun start => decodeChildren nested args children start .start [] children)
        (bitmapReaders nested children children)
      return members ++ [(attrs.name, v)]
  | .array a children =>
    if a.typeRef == "" && (sc.inlined || children.isEmpty) then DecodeM.stop .uncompiled
    else do
      let nested := sc.element D.optionalOf a.name children
      let scope ← D.exprScope sc outer members
      let v ← D.decodeFxArray t scope a (decodeNestedWith {} children []
        (fun start => decodeChildren nested [] children start .start [] children) [])
      return members ++ [(a.name, v)]
  | .choice c cases otherwise => do
    let v ← D.decodeChoiceWith sc outer members c
      (distinctAlternatives (cases.map Case.attrs) (otherwise.map Case.attrs)) fun switch =>
        decodeCases sc outer siblings members (caseLeftOut D.index (cases.map Case.attrs)) switch
          (fun i => decodeOtherwise sc outer siblings members c.name i switch otherwise) 0 cases
    assign members c.name (.ok []) v
  | .fxBlock children =>
    decodeFxWith children members
      (decodeFxChildren sc outer children (t.advanceBits 1) members children)
  | .reserved bits => do
    decodeReserved bits
    return members
  | .align boundary => do
    DecodeM.align boundary
    return members
termination_by structural child => child

/-- The code for the members of a bitmap struct, with their presence bits. -/
def bitmapReaders (sc : ClassScope) (siblings : List StructChild) :
    List StructChild → List (BitmapField × (Object → DecodeM (Option Value)))
  | [] => []
  | c :: cs => bitmapReader sc siblings c ++ bitmapReaders sc siblings cs
termination_by structural children => children

def bitmapReader (sc : ClassScope) (siblings : List StructChild) :
    StructChild → List (BitmapField × (Object → DecodeM (Option Value)))
  | .field f =>
    f.bit.toList.map fun bit =>
      ({ name := f.name, bit, access := .other }, fun _ => some <$> D.decodeBitmapField sc f)
  | .struct attrs children =>
    let nested := sc.nested D.optionalOf siblings attrs.name children
    attrs.bit.toList.map fun bit =>
      ({ name := attrs.name, bit, access := .other }, fun members => do
        requirePresent attrs.name members nested.outer
        let scope ← D.exprScope sc [] members
        let args ← arguments scope nested.outer
        let v ← decodeNestedWith attrs children args
          (fun start => decodeChildren nested args children start .start [] children)
          (bitmapReaders nested children children)
        return some v)
  | .choice c cases otherwise =>
    c.bit.toList.map fun bit =>
      ({ name := c.name, bit, access := .other }, fun members =>
        D.decodeChoiceWith sc [] members c
          (distinctAlternatives (cases.map Case.attrs) (otherwise.map Case.attrs)) fun switch =>
            decodeCases sc [] siblings members (caseLeftOut D.index (cases.map Case.attrs)) switch
              (fun i => decodeOtherwise sc [] siblings members c.name i switch otherwise) 0 cases)
  | _ => []
termination_by structural child => child

end

/-- The `decode` of a class that is defined in place. -/
def decodeNested (sc : ClassScope) (attrs : StructAttrs) (outer : Object)
    (children : List StructChild) : DecodeM Value :=
  decodeNestedWith attrs children outer
    (fun start => D.decodeChildren sc outer children start .start [] children)
    (D.bitmapReaders sc children children)

/-- The `decode` of a class by its name. -/
def decodeNamed (name : String) : DecodeM Value :=
  match D.index.find name with
  | some (.type t) => t.decode D.lib D.index
  | some (.struct s) => D.decodeNested (.top D.optionalOf name s.children) s.attrs [] s.children
  | some (.message m) => D.decodeNested (.top D.optionalOf name m.children) {} [] m.children
  | none => DecodeM.stop .uncompiled

/-- The children of an inlined struct, which may have a length of its own. -/
def decodeInlined (sc : ClassScope) (outer : Object) (t : Tracker) (members : Object)
    (children : List StructChild) : DecodeM Object := do
  let r ← DecodeM.getReader
  D.decodeChildren sc outer children (if boundsRest children then some r.remainingBytes else none) t
    members children

/-- Structs inlined to a given depth. A struct that is inlined into itself cannot be printed. -/
def inlining : Nat → DecodeCalls
  | 0 => { D with inlined := fun _ _ _ _ _ => DecodeM.stop .uncompiled }
  | depth + 1 => { D with inlined := (inlining depth).decodeInlined }

end DecodeCalls

variable (lib : Library) (index : TypeIndex)

/-- The decoders with the given calls of classes, without inlined structs. What does not depend on
the input is followed through as many references as there are definitions. -/
def decodeBase (turns : Nat) (decodeClass : String → DecodeM Value) : DecodeCalls :=
  { lib, index, turns, decodeClass
    freshClass := freshClassOf lib index (freshAt lib index index.depth)
    freshInlined := freshAt lib index index.depth
    optionalOf := optionalNames index index.depth
    advance := decodeAdvance index index.depth
    inlined := fun _ _ _ _ _ => DecodeM.stop .uncompiled }

/-- The decoders with the given calls of classes. -/
def decodeWith (turns : Nat) (decodeClass : String → DecodeM Value) : DecodeCalls :=
  (decodeBase lib index turns decodeClass).inlining index.depth

/-- The `decode` of a class, with calls nested to a given depth. -/
def decodeClassAt (lib : Library) (index : TypeIndex) (turns : Nat) :
    Nat → List (String × BitReader) → String → DecodeM Value
  | 0, _, _ => DecodeM.stop .running
  | depth + 1, stack, name => do
    let r ← DecodeM.getReader
    DecodeM.record (.call stack name r)
    (decodeWith lib index turns
      (decodeClassAt lib index turns depth ((name, r) :: stack))).decodeNamed name

/-- The `decode` of a struct or message of the protocol. -/
def decodeTop (turns depth : Nat) (name : String) : DecodeM Value :=
  decodeClassAt lib index turns depth [] name

end Conduit.Bgen

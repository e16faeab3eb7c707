import Conduit.Bgen.Ast
import Conduit.Bgen.Text
import Mathlib.Data.List.Sort

/-!
# The validator

`analyzer/validator.cpp`. Every check returns the messages it reports; a protocol is accepted when
there are none. Source locations, warnings and the checks of `typeName` overrides are left out.
-/

namespace Conduit.Bgen.Validator

variable (index : TypeIndex) (f : Field)

/-- `error(loc, message)` under a condition. -/
def errorIf (condition : Bool) (message : String) : List String :=
  if condition then [message] else []

/-- `validator.cpp:59-66`. -/
def checkKeywordCollision (name kind : String) : List String :=
  let snake := toSnakeCase name
  errorIf (isCppKeyword snake)
    s!"{kind} '{name}' produces C++ keyword '{snake}' — rename to avoid compilation errors"

/-! ## Expressions -/

/-- The part of a dotted path before its first dot. -/
def rootName (name : String) : String := String.ofList (name.toList.takeWhile (· != '.'))

/-- `validator.cpp:155-165`. -/
def collectFieldRefs : Expr → List String
  | .fieldRef name => [rootName name]
  | .binary _ left right => collectFieldRefs left ++ collectFieldRefs right
  | .unary _ operand => collectFieldRefs operand
  | _ => []

/-- `validator.cpp:169-181`. -/
def checkNoForwardRefs (expr : Option Expr) (declared parentScope : List String)
    (context : String) : List String :=
  match expr with
  | none => []
  | some e =>
    (collectFieldRefs e).flatMap fun name =>
      errorIf (!declared.contains name && !parentScope.contains name)
        s!"{context}: forward reference to undeclared field '{name}'"

/-- `validator.cpp:184-193`. -/
def constantRefErrors (index : TypeIndex) (context : String) : Expr → List String
  | .constantRef name =>
    errorIf (index.constant? name).isNone s!"{context}: references unknown constant '{name}'"
  | .binary _ left right =>
    constantRefErrors index context left ++ constantRefErrors index context right
  | .unary _ operand => constantRefErrors index context operand
  | _ => []

/-- The operations `check_expr_safety` refuses on a literal right operand. -/
def unsafeOperand (op : BinaryOp) (n : Int) (context : String) : List String :=
  match op with
  | .div => errorIf (n == 0) s!"{context}: division by zero in expression"
  | .mod => errorIf (n == 0) s!"{context}: modulo by zero in expression"
  | .shiftLeft | .shiftRight =>
    errorIf (n < 0 || n ≥ 64) s!"{context}: shift amount out of range in expression"
  | _ => []

/-- `validator.cpp:196-214`. -/
def exprSafetyErrors (context : String) : Expr → List String
  | .binary op left right =>
    (match right with
      | .numberLit n => unsafeOperand op n context
      | _ => []) ++ exprSafetyErrors context left ++ exprSafetyErrors context right
  | .unary _ operand => exprSafetyErrors context operand
  | _ => []

/-- `validator.cpp:217-221`. -/
def usesRemaining : Expr → Bool
  | .remaining => true
  | .binary _ left right => usesRemaining left || usesRemaining right
  | .unary _ operand => usesRemaining operand
  | _ => false

/-- The three checks that every expression attribute gets, one after the other. -/
def checkExprs (declared parentScope : List String) (exprs : List (Option Expr × String)) :
    List String :=
  exprs.flatMap (fun (e, context) => checkNoForwardRefs e declared parentScope context)
    ++ exprs.flatMap (fun (e, context) => (e.map (exprSafetyErrors context)).getD [])
    ++ exprs.flatMap (fun (e, context) => (e.map (constantRefErrors index context)).getD [])

/-! ## Types and constants -/

/-- `validator.cpp:140-148`. -/
def resolveBase : PrimitiveBase :=
  match f.base with
  | some base => base
  | none =>
    match if f.typeRef != "" then index.type? f.typeRef else none with
    | some t => t.base
    | none => if f.isSigned then .int else .uint

def isStructOrMessageType (typeRef : String) : Bool :=
  (index.struct? typeRef).isSome || (index.message? typeRef).isSome

/-- The width the validator takes for a field: that of the field before that of its type. -/
def fieldBits : Nat :=
  match f.bits, f.bytesAttr with
  | some bits, _ => bits
  | none, some bytes => bytes * 8
  | none, none => if f.typeRef != "" then ((index.type? f.typeRef).map (·.bits)).getD 0 else 0

/-- The range check on literals, for a width of 1 to 64 bits. -/
def outOfRange (bits : Nat) (isSigned : Bool) (v : Int) : Bool :=
  if bits = 64 then !isSigned && v < 0
  else if isSigned then v < -(2 ^ (bits - 1) : Nat) || v > (2 ^ (bits - 1) : Nat) - 1
  else v < 0 || v > (2 ^ bits : Nat) - 1

/-- `validator.cpp:253-291`: the value of one constant. -/
def constantValueErrors (c : ConstDef) : List String :=
  match if c.typeRef != "" && c.value != "" then index.type? c.typeRef else none with
  | none => []
  | some t =>
    if t.base == .uint || t.base == .int then
      if !isValidNumericLiteral c.value then
        [s!"constant '{c.name}': value must be a valid numeric literal"]
      else if 0 < t.bits && t.bits ≤ 64 then
        match parseLiteral c.value with
        | none => []
        | some v =>
          errorIf (outOfRange t.bits (t.base == .int) v)
            s!"constant '{c.name}': value {c.value} exceeds {t.bits}-bit range"
      else []
    else []

/-- `validator.cpp:240-293`. -/
def validateConstants (index : TypeIndex) (seen : List String) : List ConstDef → List String
  | [] => []
  | c :: cs =>
    errorIf (c.name == "") "constant has empty name" ++ checkKeywordCollision c.name "constant"
      ++ errorIf (seen.contains c.name) s!"duplicate constant name: {c.name}"
      ++ errorIf (c.typeRef == "") s!"constant '{c.name}' missing 'type' attribute"
      ++ errorIf (c.value == "") s!"constant '{c.name}' missing 'value' attribute"
      ++ constantValueErrors index c
      ++ validateConstants index (c.name :: seen) cs

/-- `validator.cpp:323-348,1317-1349`: the values of an enum of a type or, with its range check,
of a field. -/
def enumErrors (owner kind : String) (maxBits : Nat) (seen : List EnumValue) :
    List EnumValue → List String
  | [] => []
  | ev :: evs =>
    errorIf (ev.name == "") s!"enum value has empty name in {owner}"
      ++ checkKeywordCollision ev.name kind
      ++ errorIf (!isValidCppIdentifier (toSnakeCase ev.name))
        s!"enum value name '{ev.name}' is not a valid C++ identifier after conversion"
      ++ errorIf (seen.any (·.id == ev.id)) s!"duplicate enum id {ev.id} in {owner}"
      ++ errorIf (seen.any (·.name == ev.name)) s!"duplicate enum name '{ev.name}' in {owner}"
      ++ errorIf (ev.id < 0) s!"enum id must be non-negative in {owner}"
      ++ errorIf (0 < maxBits && maxBits < 64 && ev.id ≥ (2 ^ maxBits : Int).bmod (2 ^ 64))
        s!"enum id {ev.id} exceeds {maxBits}-bit range in {owner}"
      ++ enumErrors owner kind maxBits (ev :: seen) evs

/-- `validator.cpp:351-370,1293-1314`. -/
def flagErrors (owner : String) (bits : Nat) (seen : List FlagDef) : List FlagDef → List String
  | [] => []
  | fl :: fls =>
    errorIf (fl.name == "") s!"flag has empty name in {owner}"
      ++ errorIf (0 < bits && (fl.bit < 0 || fl.bit ≥ bits))
        s!"flag bit {fl.bit} out of range [0, {bits - 1}] in {owner}"
      ++ errorIf (seen.any (·.bit == fl.bit)) s!"duplicate flag bit {fl.bit} in {owner}"
      ++ errorIf (seen.any (·.name == fl.name)) s!"duplicate flag name '{fl.name}' in {owner}"
      ++ flagErrors owner bits (fl :: seen) fls

/-- `validator.cpp:456-468`. -/
def validateConstraint (c : Constraint) (context : String) : List String :=
  errorIf (c.equals.isSome && (c.min.isSome || c.max.isSome))
      s!"{context}: constraint 'equals' and 'min/max' are mutually exclusive"
    ++ match c.min, c.max with
      | some lo, some hi =>
        match parseLiteral lo, parseLiteral hi with
        | some a, some b => errorIf (a > b) s!"{context}: constraint min ({lo}) > max ({hi})"
        | _, _ => []
      | _, _ => []

/-- How many of enum, flags and scale/offset a type or a field has. -/
def traitCount (enumValues : List EnumValue) (flags : List FlagDef) (scale offset : Option Rat) :
    Nat :=
  (!enumValues.isEmpty).toNat + (!flags.isEmpty).toNat + (scale.isSome || offset.isSome).toNat

def isNumber (base : PrimitiveBase) : Bool := base == .uint || base == .int || base == .float

/-- `validator.cpp:403-453,1387-1431`: the rules of the wire encodings. The wording for the base
differs between types and fields. -/
def wireEncodingErrors (owner unsigned signed : String) (encoding : WireEncoding)
    (base : PrimitiveBase) (bits : Nat) : List String :=
  match encoding with
  | .bcd =>
    errorIf (base != .uint) s!"{owner}: wire-encoding 'bcd' requires {unsigned}"
      ++ errorIf (0 < bits && bits % 4 != 0)
        s!"{owner}: wire-encoding 'bcd' requires bits divisible by 4"
  | .bcdS =>
    errorIf (base != .int) s!"{owner}: wire-encoding 'bcd-s' requires {signed}"
      ++ errorIf (0 < bits && bits < 5) s!"{owner}: wire-encoding 'bcd-s' requires bits >= 5"
      ++ errorIf (0 < bits && (bits - 1) % 4 != 0)
        s!"{owner}: wire-encoding 'bcd-s' requires (bits - 1) divisible by 4"
  | .bnrS =>
    errorIf (base != .int) s!"{owner}: wire-encoding 'bnr-s' requires {signed}"
      ++ errorIf (0 < bits && bits < 2) s!"{owner}: wire-encoding 'bnr-s' requires bits >= 2"
  | .cb2 => errorIf (base != .int) s!"{owner}: wire-encoding 'cb2' requires {signed}"
  | .bnr => errorIf (base != .uint) s!"{owner}: wire-encoding 'bnr' requires {unsigned}"
  | .standard => []

def baseName : PrimitiveBase → String
  | .float => "float"
  | .bool => "bool"
  | _ => "string"

/-- `validator.cpp:305-454`. -/
def validateType (t : TypeDef) : List String :=
  let owner := s!"type '{t.name}'"
  errorIf (t.name == "") "type has empty name" ++ checkKeywordCollision t.name "type"
    ++ errorIf (isNumber t.base && t.bits == 0)
      s!"{owner}: numeric types (int, uint, float) must have bits > 0"
    ++ enumErrors owner "enum value" 0 [] t.enumValues
    ++ flagErrors owner t.bits [] t.flags
    ++ errorIf (traitCount t.enumValues t.flags t.scale t.offset > 1)
      s!"{owner}: enum, flags, and scale/offset are mutually exclusive"
    ++ errorIf ((t.scale.isSome || t.offset.isSome) && !isNumber t.base)
      s!"{owner}: scale/offset only valid on numeric types"
    ++ (match t.charBits with
      | none => []
      | some n =>
        errorIf (n < 1 || n > 8) s!"{owner}: char-bits must be 1-8"
          ++ errorIf t.length.isNone s!"{owner}: char-bits requires fixed length")
    ++ (t.constraint.map (validateConstraint · t.name)).getD []
    ++ if t.wireEncodingExplicit then
        errorIf (t.base == .float || t.base == .bool || t.base == .string)
            s!"{owner}: wire-encoding is not applicable to {baseName t.base} types"
          ++ wireEncodingErrors owner "base='uint'" "base='int'" t.wireEncoding t.base t.bits
      else []

/-! ## Fields -/

/-- `validator.cpp:887-933`: the attributes an inline base goes with. -/
def inlineBaseErrors : List String :=
  let owner := s!"field '{f.name}'"
  match f.base with
  | some .float =>
    errorIf (f.bits.getD 0 == 0) s!"{owner}: base=\"float\" requires bits > 0"
      ++ errorIf f.isSigned s!"{owner}: base=\"float\" cannot combine with signed"
      ++ errorIf f.wireEncoding.isSome s!"{owner}: base=\"float\" cannot combine with wire-encoding"
      ++ errorIf (!f.enumValues.isEmpty) s!"{owner}: base=\"float\" cannot combine with inline enum"
      ++ errorIf (!f.flags.isEmpty) s!"{owner}: base=\"float\" cannot combine with inline flags"
  | some .string =>
    errorIf f.bits.isSome s!"{owner}: base=\"string\" cannot have 'bits'"
      ++ errorIf (f.length.isNone && f.lengthFrom.isNone && f.lengthPrefix.isNone
          && f.terminated.isNone && !f.lengthStar)
        s!"{owner}: base=\"string\" requires length, length-from, length-prefix, terminated, or length=\"*\""
  | some .bytes =>
    errorIf f.bits.isSome
        s!"{owner}: base=\"bytes\" cannot have 'bits'; use bytes size attribute instead"
      ++ errorIf (f.length.isNone && f.lengthFrom.isNone && f.bytesAttr.isNone && !f.lengthStar)
        s!"{owner}: base=\"bytes\" requires length, length-from, bytes, or length=\"*\""
  | some .int | some .uint =>
    errorIf (f.bits == some 0) s!"{owner}: inline numeric type must have bits > 0"
  | some .bool | none => []

/-- Whether a field has a constraint with some content. -/
def isConstrained : Bool :=
  f.constraint.any fun c => c.equals.isSome || c.min.isSome || c.max.isSome

/-- The rule on constraints of the automatic fields. -/
def autoConstraintErrors (kind : String) : List String :=
  errorIf (isConstrained f) s!"field '{f.name}': auto=\"{kind}\" fields cannot have constraints"

/-- `validator.cpp:989-1002`: the operand of a length modifier. -/
def modifierErrors (m : ArithModifier) : List String :=
  errorIf ((m.op == .div || m.op == .mod) && !m.isFieldOperand && m.literal == 0)
      s!"field '{f.name}': division/modulo by zero in auto expression"
    ++ errorIf (m.op == .mul && !m.isFieldOperand && m.literal == 0)
      s!"field '{f.name}': multiplication by zero in auto expression (inverse would divide by zero at decode)"

/-- `validator.cpp:946-1040`. -/
def autoErrors (inFx inFrame : Bool) : List String :=
  let owner := s!"field '{f.name}'"
  let base := resolveBase index f
  let isInteger := base == .uint || base == .int
  match f.autoAttr, f.autoExpr with
  | none, _ => []
  | some attr, none => [s!"{owner}: unknown auto expression '{attr}'"]
  | some _, some a =>
    match a.kind with
    | .increment =>
      errorIf (base != .uint) s!"{owner}: auto=\"increment\" only valid on unsigned integer fields"
        ++ autoConstraintErrors f "increment"
    | .length =>
      errorIf inFx
          s!"{owner}: auto=\"length\" is not valid inside <fx> blocks (dynamic FX layout would corrupt backpatch offsets)"
        ++ errorIf (!isInteger) s!"{owner}: auto=\"length\" requires integer type"
        ++ errorIf (fieldBits index f > 32)
          s!"{owner}: auto=\"length\" maximum supported is 32 bits"
        ++ autoConstraintErrors f "length"
        ++ modifierErrors f a.modifier
    | .id =>
      errorIf (!inFrame) s!"{owner}: auto=\"id\" is only valid inside <frame> definitions"
        ++ autoConstraintErrors f "id"
    | .config => autoConstraintErrors f "config"
    | .count =>
      errorIf (!isInteger) s!"{owner}: auto=\"count\" requires integer type"
        ++ errorIf (a.fieldRef == "")
          s!"{owner}: auto=\"count\" requires a field reference, e.g. auto=\"count(items)\""
    | .timestamp =>
      errorIf (base != .uint) s!"{owner}: auto=\"timestamp\" only valid on unsigned integer fields"
        ++ autoConstraintErrors f "timestamp"

/-- `validator.cpp:1164-1184`. -/
def charBitsErrors : List String :=
  let owner := s!"field '{f.name}'"
  match f.charBits with
  | none => []
  | some n =>
    let base := resolveBase index f
    errorIf (base != .string && base != .bytes)
        s!"{owner}: char-bits only valid on string or bytes fields"
      ++ errorIf (n < 1 || n > 8) s!"{owner}: char-bits must be 1-8"
      ++ errorIf f.terminated.isSome s!"{owner}: char-bits not combinable with terminated"
      ++ errorIf f.lengthPrefix.isSome s!"{owner}: char-bits not combinable with length-prefix"
      ++ errorIf f.lengthFrom.isSome s!"{owner}: char-bits not combinable with length-from"
      ++ errorIf f.lengthStar s!"{owner}: char-bits not combinable with length=\"*\""

/-- `validator.cpp:1187-1195`. -/
def lengthPrefixErrors : List String :=
  match f.lengthPrefix with
  | none => []
  | some name =>
    match index.type? name with
    | none => [s!"field '{f.name}': length-prefix references unknown type '{name}'"]
    | some t =>
      errorIf (t.base != .uint)
        s!"field '{f.name}': length-prefix must reference unsigned integer type"

/-- The base of a constant suits that of the field: integers go with integers. -/
def compatibleBases (fieldBase constBase : PrimitiveBase) : Bool :=
  fieldBase == constBase || (fieldBase == .int && constBase == .uint)
    || (fieldBase == .uint && constBase == .int)

/-- `validator.cpp:1198-1247`: what the `equals` of a constraint may be. -/
def equalsErrors (eq : String) : List String :=
  let owner := s!"field '{f.name}'"
  if eq.toList.head?.any Char.isUpper then
    match index.constant? eq with
    | none => [s!"{owner}: constraint references unknown constant '{eq}'"]
    | some c =>
      match if c.typeRef != "" then index.type? c.typeRef else none with
      | none => []
      | some t =>
        errorIf (!compatibleBases (resolveBase index f) t.base)
          s!"{owner}: constraint constant '{eq}' type mismatch"
  else if !isValidNumericLiteral eq then
    let typeValues :=
      if f.typeRef != "" then ((index.type? f.typeRef).map (·.enumValues)).getD [] else []
    errorIf (!(f.enumValues ++ typeValues).any (·.name == eq))
      s!"{owner}: constraint equals value must be a numeric literal, constant, or enum value"
  else []

/-- `validator.cpp:1352-1384`: the numbers of a constraint against the width of the field. -/
def constraintRangeErrors (c : Constraint) : List String :=
  let bits := fieldBits index f
  let checkRange (text : Option String) (label : String) : List String :=
    match text with
    | none => []
    | some s =>
      match parseLiteral s with
      | none => []
      | some v =>
        errorIf (outOfRange bits (resolveBase index f == .int) v)
          s!"field '{f.name}': constraint {label} value {s} exceeds {bits}-bit range"
  if 0 < bits && bits ≤ 64 then
    checkRange (c.equals.filter isValidNumericLiteral) "equals" ++ checkRange c.min "min"
      ++ checkRange c.max "max"
  else []

/-- `validator.cpp:1043-1154`: a default has to suit the type of its field. Whether a
floating-point default is a number is not checked here. -/
def defaultErrors (text : String) : List String :=
  let owner := s!"field '{f.name}'"
  let values :=
    match (if f.typeRef != "" then index.type? f.typeRef else none).map (·.enumValues) with
    | some (v :: vs) => v :: vs
    | _ => f.enumValues
  let bits := fieldBits index f
  errorIf (f.typeRef != "" && isStructOrMessageType index f.typeRef)
      s!"{owner}: 'default' not valid on struct/message fields"
    ++ errorIf (f.typeRef == "bytes" || f.bytesAttr.isSome)
      s!"{owner}: 'default' not valid on bytes fields"
    ++ (if !values.isEmpty then
        errorIf (!values.any (·.name == text))
          s!"{owner}: default value '{text}' does not match any enum value"
      else
        match resolveBase index f with
        | .uint =>
          match stoull text with
          | none => [s!"{owner}: default value '{text}' is not a valid integer"]
          | some v =>
            errorIf (0 < bits && bits < 64 && v ≥ 2 ^ bits)
              s!"{owner}: default value {text} out of range for {bits}-bit unsigned field"
        | .int =>
          match stoll text with
          | none => [s!"{owner}: default value '{text}' is not a valid integer"]
          | some v =>
            errorIf (0 < bits && bits < 64 && outOfRange bits true v)
              s!"{owner}: default value {text} out of range for {bits}-bit signed field"
        | .bool =>
          errorIf (!(["true", "false", "0", "1"].contains text))
            s!"{owner}: default value '{text}' is not valid for a bool field (use true/false/0/1)"
        | _ => [])

/-- `validator.cpp:869-1432`. -/
def validateField (inBitmap : Bool) (parentName : String) (inFx inFrame : Bool) : List String :=
  let owner := s!"field '{f.name}'"
  let bits := fieldBits index f
  errorIf (f.name == "") s!"field has empty name in {parentName}"
    ++ checkKeywordCollision f.name "field"
    ++ errorIf (f.typeRef == "" && f.bits.isNone && f.bytesAttr.isNone && f.base.isNone)
      s!"{owner} must have 'type', 'bits', 'bytes', or 'base' attribute"
    ++ errorIf (f.base.isSome && f.typeRef != "")
      s!"{owner}: 'base' and 'type' are mutually exclusive"
    ++ inlineBaseErrors f
    ++ errorIf (f.bit.isSome && f.presentWhen.isSome)
      s!"{owner}: 'bit' and 'present-when' are mutually exclusive"
    ++ errorIf (f.bit.isSome && !inBitmap)
      s!"{owner}: 'bit' only valid inside presence=\"bitmap\" struct"
    ++ autoErrors index f inFx inFrame
    ++ (f.defaultValue.map (defaultErrors index f)).getD []
    ++ errorIf (f.isInline && f.typeRef != "" && !isStructOrMessageType index f.typeRef)
      s!"{owner}: inline type must be struct or message"
    ++ charBitsErrors index f
    ++ lengthPrefixErrors index f
    ++ ((f.constraint.bind (·.equals)).map (equalsErrors index f)).getD []
    ++ errorIf (f.lengthIncludesPrefix && f.lengthPrefix.isNone)
      s!"{owner}: length-includes-prefix requires length-prefix"
    ++ errorIf ((f.scale.isSome || f.offset.isSome) && !isNumber (resolveBase index f))
      s!"{owner}: scale/offset only valid on numeric types"
    ++ errorIf (traitCount f.enumValues f.flags f.scale f.offset > 1)
      s!"{owner}: enum, flags, and scale/offset are mutually exclusive"
    ++ (f.constraint.map (validateConstraint · owner)).getD []
    ++ (if 0 < bits then flagErrors owner bits [] f.flags else [])
    ++ enumErrors owner "inline enum value" bits [] f.enumValues
    ++ (f.constraint.map (constraintRangeErrors index f)).getD []
    ++ (f.wireEncoding.map
        (wireEncodingErrors owner "unsigned type" "signed type" · (resolveBase index f) bits)).getD []

/-! ## Arrays and choices -/

mutual

/-- `validator.cpp:1438-1485`, over what is known of the structs that children refer to. -/
def childFixedSizeWith (index : TypeIndex) (structFixed : StructDef → Bool) : StructChild → Bool
  | .field f =>
    if f.bits.isSome || f.bytesAttr.isSome then true
    else if f.lengthStar || f.lengthFrom.isSome || f.length.isSome || f.terminated.isSome
        || f.maxLength.isSome || f.lengthPrefix.isSome then false
    else if f.typeRef == "" then false
    else
      match index.find f.typeRef with
      | some (.type t) => if t.base == .string then t.length.isSome else t.bits > 0
      | some (.struct s) => structFixed s
      | _ => false
  | .reserved _ => true
  | .align _ => true
  | .struct _ children => childrenFixedSizeWith index structFixed children
  | .array .. => false
  | .choice .. => false
  | .fxBlock _ => false

def childrenFixedSizeWith (index : TypeIndex) (structFixed : StructDef → Bool) :
    List StructChild → Bool
  | [] => true
  | c :: cs => childFixedSizeWith index structFixed c && childrenFixedSizeWith index structFixed cs

end

variable (index : TypeIndex)

/-- References are followed to a given depth, which is enough where they are not cyclic. -/
def structFixedSize (index : TypeIndex) : Nat → StructDef → Bool
  | 0, _ => false
  | depth + 1, s => childrenFixedSizeWith index (structFixedSize index depth) s.children

/-- `validator.cpp:1487-1514`. -/
def arrayElementFixedSize (a : ArrayAttrs) (children : List StructChild) : Bool :=
  let depth := index.structs.length + 1
  if a.typeRef != "" then
    match index.find a.typeRef with
    | some (.type t) => if t.base == .string then t.length.isSome else t.bits > 0
    | some (.struct s) => structFixedSize index depth s
    | _ => false
  else !children.isEmpty && childrenFixedSizeWith index (structFixedSize index depth) children

/-- `validator.cpp:1516-1550`. -/
def validateArray (a : ArrayAttrs) (children : List StructChild) (parentName : String) :
    List String :=
  let owner := s!"array '{a.name}'"
  let countSpecs :=
    a.fixedCount.isSome.toNat + a.countFrom.isSome.toNat + a.countStar.toNat + a.countFx.toNat
  errorIf (a.name == "") s!"array has empty name in {parentName}" ++ errorIf (countSpecs == 0)
      s!"{owner} must have 'count', 'count-from', count=\"*\", or count=\"fx\""
    ++ errorIf (countSpecs > 1) s!"{owner} has multiple count specifications"
    ++ errorIf (a.typeRef != "" && !children.isEmpty)
      s!"{owner} has both 'type' and inline children"
    ++ errorIf (a.countFx && !arrayElementFixedSize index a children)
      s!"{owner} with count=\"fx\" requires a fixed-size element type (the FX bit follows each element at a fixed bit position)"

/-- The texts on both sides of the first `..`. -/
def splitRange : List Char → Option (List Char × List Char)
  | '.' :: '.' :: cs => some ([], cs)
  | c :: cs => (splitRange cs).map fun (lo, hi) => (c :: lo, hi)
  | [] => none

/-- The number of a case text: a literal, or a constant with a literal value. -/
def caseNumber (text : String) : Option Int :=
  parseLiteral text <|> (index.constant? text).bind fun c => parseLiteral c.value

/-- A case of a choice with the numbers it covers. -/
structure CaseRange where
  lo : Int
  hi : Int
  direction : Direction

/-- The range of one case, and the errors in its text. -/
def caseRange (choice : String) (cs : CaseAttrs) : List String × Option CaseRange :=
  match cs.value, cs.range with
  | some value, _ => ([], (caseNumber index value).map fun v => ⟨v, v, cs.direction⟩)
  | none, none => ([], none)
  | none, some range =>
    match splitRange range.toList with
    | none => ([s!"choice '{choice}': case range '{range}' missing '..' separator"], none)
    | some (lo, hi) =>
      let lo := String.ofList lo
      let hi := String.ofList hi
      if lo == "" || hi == "" then
        ([s!"choice '{choice}': case range '{range}' has empty boundary"], none)
      else
        let unknown (text side : String) :=
          errorIf ((parseLiteral text).isNone && (index.constant? text).isNone)
            s!"choice '{choice}': case range {side} boundary '{text}' is not a valid literal or constant"
        let errors := unknown lo "low" ++ unknown hi "high"
        match caseNumber index lo, caseNumber index hi with
        | some a, some b =>
          (errors ++ errorIf (a > b) s!"choice '{choice}': case range '{range}' is inverted (lo > hi)",
            some ⟨a, b, cs.direction⟩)
        | _, _ => (errors, none)

/-- `check_lane`: neighbours of the sorted lane that overlap. -/
def overlaps : List CaseRange → Nat
  | a :: b :: rest => (decide (b.lo ≤ a.hi)).toNat + overlaps (b :: rest)
  | _ => 0

def checkLane (choice : String) (lane : List CaseRange) : List String :=
  List.replicate (overlaps (lane.insertionSort fun a b => a.lo ≤ b.lo))
    s!"choice '{choice}': case values overlap"

/-- `validator.cpp:1680-1764`. -/
def checkCaseOverlap (choice : String) (cases : List CaseAttrs) : List String :=
  let results := cases.map (caseRange index choice)
  let ranges := results.filterMap (·.2)
  results.flatMap (·.1)
    ++ checkLane choice (ranges.filter fun r => r.direction == .both || r.direction == .send)
    ++ checkLane choice (ranges.filter fun r => r.direction == .both || r.direction == .receive)

/-- The rules on one case. -/
def caseErrors (choice : String) (seen : List String) (cs : CaseAttrs) : List String :=
  errorIf (cs.value.isNone && cs.range.isNone) s!"case '{cs.name}' must have 'value' or 'range'"
    ++ errorIf (cs.value.isSome && cs.range.isSome)
      s!"case '{cs.name}' cannot have both 'value' and 'range'"
    ++ errorIf (cs.name != "" && seen.contains cs.name)
      s!"duplicate case name '{cs.name}' in choice '{choice}'"

/-! ## Children -/

/-- Where the children that are validated stand. -/
structure Scope where
  parentName : String
  inBitmap : Bool := false
  inArray : Bool := false
  inChoice : Bool := false
  inBounded : Bool := false
  parentScope : List String := []
  inFx : Bool := false
  inFrame : Bool := false

/-- What has been seen of the children so far. -/
structure Seen where
  fieldNames : List String := []
  arrayNames : List String := []
  fxCount : Nat := 0
  star : Option String := none

/-- `validator.cpp:829-837`. -/
def validateAlign (boundary : Nat) (parentName : String) : List String :=
  if boundary = 0 then [s!"<align> 'to' must be positive in {parentName}"]
  else if boundary &&& (boundary - 1) ≠ 0 then
    [s!"<align> 'to' ({boundary}) is not a power of 2 in {parentName}"]
  else if boundary > 8 then
    [s!"<align> 'to' ({boundary}) exceeds maximum of 8 bytes in {parentName}"]
  else []

/-- `validator.cpp:840-867`: the names that inlining a type brings in, and those of them that are
already there. The types being visited are distinct, so their number bounds the depth. -/
def checkInlineDuplicates (index : TypeIndex) (parentName : String) :
    Nat → List String → String → List String → List String × List String
  | 0, _, _, names => ([], names)
  | depth + 1, visiting, ref, names =>
    let inlined (owner : String) (children : List StructChild) : List String × List String :=
      children.foldl (fun (errors, names) child =>
        match child with
        | .field cf =>
          let duplicate := cf.name != "" && names.contains cf.name
          let errors := errors ++ errorIf duplicate
            s!"inline of '{owner}' introduces duplicate field name '{cf.name}' in {parentName}"
          let names := if cf.name != "" && !duplicate then cf.name :: names else names
          if cf.isInline && cf.typeRef != "" then
            let (more, names) :=
              checkInlineDuplicates index parentName depth (ref :: visiting) cf.typeRef names
            (errors ++ more, names)
          else (errors, names)
        | _ => (errors, names)) ([], names)
    if ref == "" || visiting.contains ref then ([], names)
    else
      match index.find ref with
      | some (.struct s) => inlined s.attrs.name s.children
      | some (.message m) => inlined m.name m.children
      | _ => ([], names)

/-- A data element after one that takes all remaining bytes. -/
def starErrors (seen : Seen) (element : String) : List String :=
  match seen.star with
  | none => []
  | some name =>
    [s!"{element} follows '{name}' which consumes remaining bytes; it must be the last element"]

/-- The name of a child that is not a field enters the scope. -/
def addName (scope : Scope) (seen : Seen) (kind name : String) : List String × Seen :=
  if name == "" then ([], seen)
  else (errorIf (seen.fieldNames.contains name) s!"duplicate {kind} '{name}' in {scope.parentName}",
    { seen with fieldNames := name :: seen.fieldNames })

/-- `validator.cpp:612-652`: one field. -/
def fieldErrors (scope : Scope) (seen : Seen) (f : Field) : List String × Seen :=
  let owner := s!"field '{f.name}'"
  let (nameErrors, seen') := addName scope seen "field name" f.name
  let (inlineErrors, names) :=
    if f.isInline && f.typeRef != "" then
      checkInlineDuplicates index scope.parentName
        (index.structs.length + index.messages.length + 1) [] f.typeRef seen'.fieldNames
    else ([], seen'.fieldNames)
  (starErrors seen owner ++ checkExprs index seen.fieldNames scope.parentScope
      [(f.presentWhen, s!"{owner} present-when"), (f.lengthFrom, s!"{owner} length-from")]
    ++ errorIf (f.lengthStar && !scope.inBounded)
      s!"{owner}: length=\"*\" requires a bounded container (message, length-delimited array/choice)"
    ++ errorIf (f.lengthFrom.any usesRemaining && !scope.inBounded)
      s!"{owner}: 'remaining' in length-from requires a bounded container"
    ++ validateField index f scope.inBitmap scope.parentName scope.inFx scope.inFrame
    ++ nameErrors ++ inlineErrors,
    { seen' with fieldNames := names, star := if f.lengthStar then some f.name else seen'.star })

/-- `validator.cpp:797-825`: automatic fields refer to children of the same list. -/
def siblingRefErrors (seen : Seen) (children : List StructChild) : List String :=
  children.flatMap fun child =>
    match child with
    | .field f =>
      match f.autoExpr with
      | none => []
      | some a =>
        let owner := s!"field '{f.name}'"
        errorIf (a.fieldRef != "" && a.fieldRef != "payload" && !seen.fieldNames.contains a.fieldRef)
            s!"{owner}: auto expression references unknown sibling '{a.fieldRef}'"
          ++ errorIf (a.fieldRef != "" && a.kind == .count && a.fieldRef != "payload"
              && !seen.arrayNames.contains a.fieldRef && seen.fieldNames.contains a.fieldRef)
            s!"{owner}: auto=\"count({a.fieldRef})\" target must be an array"
          ++ errorIf (a.modifier.isFieldOperand && !seen.fieldNames.contains a.modifier.fieldRef)
            s!"{owner}: auto modifier references unknown sibling '{a.modifier.fieldRef}'"
    | _ => []

mutual

/-- `validator.cpp:610-794`: one child. -/
def childErrors (index : TypeIndex) (scope : Scope) (seen : Seen) : StructChild → List String × Seen
  | .field f => fieldErrors index scope seen f
  | .struct s children =>
    let owner := s!"struct '{s.name}'"
    let (nameErrors, seen') := addName scope seen "name" s.name
    let inner : Scope :=
      { scope with
        parentName := if s.name == "" then scope.parentName else s.name
        inBitmap := s.isBitmap
        parentScope := seen'.fieldNames }
    (starErrors seen owner ++ checkExprs index seen.fieldNames scope.parentScope
        [(s.presentWhen, s!"{owner} present-when")]
      ++ nameErrors
      ++ errorIf (s.bit.isSome && s.presentWhen.isSome)
        s!"'{s.name}': 'bit' and 'present-when' are mutually exclusive"
      ++ errorIf (s.bit.isSome && !scope.inBitmap)
        s!"'{s.name}': 'bit' only valid inside presence=\"bitmap\" struct"
      ++ childrenLoop index inner children {} children, seen')
  | .array a children =>
    let owner := s!"array '{a.name}'"
    let (nameErrors, seen') := addName scope seen "name" a.name
    let inner : Scope :=
      { scope with
        parentName := a.name
        inBitmap := false
        inArray := true
        inBounded := a.lengthFrom.isSome || a.length.isSome || scope.inBounded
        parentScope := [] }
    (starErrors seen owner ++ checkExprs index seen.fieldNames scope.parentScope
        [(a.countFrom, s!"{owner} count-from"), (a.lengthFrom, s!"{owner} length-from"),
          (a.presentWhen, s!"{owner} present-when")]
      ++ errorIf (a.countStar && !scope.inBounded)
        s!"{owner}: count=\"*\" requires a bounded container (message, length-delimited array/choice)"
      ++ validateArray index a children scope.parentName
      ++ nameErrors
      ++ childrenLoop index inner children {} children,
      { seen' with
        arrayNames := if a.name == "" then seen'.arrayNames else a.name :: seen'.arrayNames
        star := if a.countStar then some a.name else seen'.star })
  | .choice c cases otherwise =>
    let owner := s!"choice '{c.name}'"
    let (nameErrors, seen') := addName scope seen "name" c.name
    let bounded := c.lengthFrom.isSome || c.length.isSome || scope.inBounded
    let inner : Scope :=
      { parentName := c.name
        inChoice := true
        inBounded := bounded
        parentScope := seen.fieldNames ++ scope.parentScope }
    (starErrors seen owner ++ checkExprs index seen.fieldNames scope.parentScope
        [(c.switchExpr, s!"{owner} switch"), (c.presentWhen, s!"{owner} present-when"),
          (c.lengthFrom, s!"{owner} length-from")]
      ++ errorIf (c.name == "") s!"choice has empty name in {scope.parentName}"
      ++ errorIf c.switchExpr.isNone s!"{owner} missing 'switch' attribute"
      ++ errorIf cases.isEmpty s!"{owner} must have at least one <case>"
      ++ casesErrors index inner [] cases
      ++ otherwiseErrors index inner otherwise
      ++ checkCaseOverlap index c.name (cases.map fun | .mk attrs _ => attrs)
      ++ errorIf (c.bit.isSome && c.presentWhen.isSome)
        s!"{owner}: 'bit' and 'present-when' are mutually exclusive"
      ++ nameErrors, seen')
  | .fxBlock children =>
    let parent := scope.parentName
    let inner : Scope :=
      { scope with
        parentName := s!"{parent}.<fx>"
        inBitmap := false
        parentScope := []
        inFx := true }
    (errorIf (seen.fxCount > 0) s!"multiple <fx> elements at same level in {parent}"
      ++ errorIf children.isEmpty s!"<fx> block is empty in {parent}"
      ++ errorIf scope.inArray s!"<fx> cannot appear inside <array> in {parent}"
      ++ errorIf scope.inChoice
        s!"<fx> cannot appear inside <choice>/<case>/<otherwise> in {parent}"
      ++ errorIf scope.inBitmap s!"<fx> cannot appear inside presence=\"bitmap\" struct in {parent}"
      ++ childrenLoop index inner children {} children, { seen with fxCount := seen.fxCount + 1 })
  | .reserved bits => (errorIf (bits == 0) s!"<reserved> has no size in {scope.parentName}", seen)
  | .align boundary => (validateAlign boundary scope.parentName, seen)

/-- The loop over the children `all`; the references between them are checked at its end. -/
def childrenLoop (index : TypeIndex) (scope : Scope) (all : List StructChild) (seen : Seen) :
    List StructChild → List String
  | [] => siblingRefErrors seen all
  | c :: cs =>
    let (errors, seen) := childErrors index scope seen c
    errors ++ childrenLoop index scope all seen cs

/-- `validator.cpp:1573-1594`: the cases of a choice in order. -/
def casesErrors (index : TypeIndex) (scope : Scope) (seen : List String) : List Case → List String
  | [] => []
  | .mk attrs children :: cases =>
    caseErrors scope.parentName seen attrs
      ++ childrenLoop index { scope with parentName := s!"{scope.parentName}.{attrs.name}" }
        children {} children
      ++ casesErrors index scope (attrs.name :: seen) cases

/-- `validator.cpp:1596-1607`. -/
def otherwiseErrors (index : TypeIndex) (scope : Scope) : Option Case → List String
  | none => []
  | some (.mk _ children) =>
    childrenLoop index { scope with parentName := s!"{scope.parentName}.otherwise" }
      children {} children

end

variable (index : TypeIndex)

/-- `validator.cpp:597-826`. -/
def validateChildren (scope : Scope) (children : List StructChild) : List String :=
  childrenLoop index scope children {} children

/-! ## Structs and messages -/

/-- A child of a bitmap struct with a presence bit: its kind, its name and the bit. -/
def bitmapBit : StructChild → Option (String × String × Int)
  | .field f => f.bit.map fun bit => ("field", f.name, bit)
  | .struct s _ => s.bit.map fun bit => ("struct", s.name, bit)
  | .choice c _ _ => c.bit.map fun bit => ("choice", c.name, bit)
  | .array a _ => a.bit.map fun bit => ("array", a.name, bit)
  | _ => none

/-- `validator.cpp:494-573`: the presence bits of the children in order. The position of the
extension bit is not refused for a choice. -/
def bitmapBitErrors (s : StructAttrs) (used : List Int) : List (String × String × Int) → List String
  | [] => []
  | (kind, name, bit) :: rest =>
    errorIf (bit < 0 || bit ≥ s.bitmapBits)
        s!"{kind} '{name}' bit {bit} out of range [0, {s.bitmapBits - 1}] in {s.name}"
      ++ errorIf (used.contains bit) s!"duplicate bitmap bit {bit} in {s.name}"
      ++ (match s.bitmapExt with
        | none => []
        | some ext =>
          errorIf (kind != "choice" && bit.tmod 8 == ext)
            s!"{kind} '{name}' uses extension bit position {ext} in {s.name}")
      ++ bitmapBitErrors s (bit :: used) rest

/-- `validator.cpp:480-574`. -/
def validateStructDef (s : StructDef) : List String :=
  validateChildren index { parentName := s.attrs.name, inBitmap := s.attrs.isBitmap } s.children
    ++ if s.attrs.isBitmap then
        (match s.attrs.bitmapExt with
          | none => []
          | some ext =>
            errorIf (ext ≥ 8)
              s!"bitmap ext bit must be 0-7 (per-octet), got {ext} in {s.attrs.name}")
          ++ bitmapBitErrors s.attrs [] (s.children.filterMap bitmapBit)
      else []

/-- `validator.cpp:580-591`: a message is a bounded container. -/
def validateMessage (m : MessageDef) : List String :=
  validateChildren index { parentName := m.name, inBounded := true } m.children

/-! ## Frames -/

/-- `validator.cpp:1788-1833`: frame children are unconditional scalars of fixed size. -/
def scalarErrors (part : String) (child : StructChild) : List String :=
  let only := "only scalar fields are allowed in frame headers/footers"
  match child with
  | .struct s _ => [s!"frame {part} may not contain struct '{s.name}'; {only}"]
  | .choice c _ _ => [s!"frame {part} may not contain choice '{c.name}'; {only}"]
  | .array a _ => [s!"frame {part} may not contain array '{a.name}'; {only}"]
  | .field f =>
    let owner := s!"frame {part} field '{f.name}'"
    errorIf (f.typeRef != "" && isStructOrMessageType index f.typeRef)
        s!"{owner} references struct/message type '{f.typeRef}'; only scalar types are allowed in frame headers/footers"
      ++ errorIf f.presentWhen.isSome
        s!"{owner} may not use present-when; frame fields must be unconditional"
      ++ errorIf f.terminated.isSome
        s!"{owner} may not use terminated; frame fields must have fixed size"
      ++ errorIf f.lengthPrefix.isSome
        s!"{owner} may not use length-prefix; frame fields must have fixed size"
      ++ errorIf f.lengthFrom.isSome
        s!"{owner} may not use length-from; frame fields must have fixed size"
      ++ errorIf f.lengthStar
        s!"{owner} may not use open-ended length; frame fields must have fixed size"
  | _ => []

/-- The fields of a list of children that are filled in automatically. -/
def autoFields (children : List StructChild) : List (Field × AutoExpr) :=
  children.filterMap fun child =>
    match child with
    | .field f => f.autoExpr.map fun a => (f, a)
    | _ => none

/-- The plain fields of a list of children. -/
def plainFields (children : List StructChild) : List Field :=
  children.filterMap fun child =>
    match child with
    | .field f => some f
    | _ => none

/-- Whether the id field is an enum, by itself or by its type. -/
def idIsEnum (f : Field) : Bool :=
  !f.enumValues.isEmpty
    || (f.typeRef != "" && (index.type? f.typeRef).any fun t => !t.enumValues.isEmpty)

/-- `validator.cpp:1850-1908`: an id is an integer or an enum. -/
def idFieldErrors (frame : String) (f : Field) : List String :=
  let base :=
    match if f.typeRef != "" then index.type? f.typeRef else none with
    | some t => t.base
    | none => f.base.getD .uint
  let refused (reason : String) :=
    [s!"frame '{frame}' auto=\"id\" field '{f.name}': message id fields must be an integer or enum type; {reason}"]
  if idIsEnum index f then []
  else
    match base with
    | .float => refused "a float cannot be a message id"
    | .bool => refused "a bool cannot be a message id"
    | .bytes => refused "raw bytes cannot be a message id"
    | .string =>
      refused "string message ids are not supported — map the string values to an enum and use that as the id field type"
    | .int | .uint => []

/-- `validator.cpp:1909-1945`: the length field of a frame. -/
def lengthFieldErrors (f : Field) (a : AutoExpr) : List String :=
  let bits := fieldBits index f
  errorIf (bits > 32)
      s!"auto=\"length\" field '{f.name}' is {bits} bits; maximum supported is 32 bits"
    ++ autoConstraintErrors f "length"
    ++ errorIf (a.modifier.hasModifier && a.modifier.isFieldOperand)
      s!"field '{f.name}': field operands in auto=\"length\" arithmetic are not supported at frame level (extract_frame_length cannot resolve field values)"
    ++ errorIf (a.modifier.hasModifier && a.modifier.op == .mod)
      s!"field '{f.name}': modulo operator in auto=\"length\" is not supported at frame level (no inverse for frame length recovery)"

/-- `validator.cpp:1845-1964`: one automatic field of a frame, given the configuration keys that
came before it. -/
def frameAutoErrors (frame : String) (keys : List String) (f : Field) (a : AutoExpr) :
    List String :=
  match a.kind with
  | .id => idFieldErrors index frame f
  | .length => lengthFieldErrors index f a
  | .config =>
    autoConstraintErrors f "config"
      ++ errorIf (keys.contains a.key) s!"duplicate config key '{a.key}' in frame '{frame}'"
  | _ => []

def configKeys (fields : List (Field × AutoExpr)) : List String :=
  (fields.filter (·.2.kind == .config)).map (·.2.key)

def frameAutoLoop (index : TypeIndex) (frame : String) (keys : List String) :
    List (Field × AutoExpr) → List String
  | [] => []
  | (f, a) :: rest =>
    frameAutoErrors index frame keys f a
      ++ frameAutoLoop index frame (configKeys [(f, a)] ++ keys) rest

/-- `validator.cpp:1971-2000`: the configuration keys of a message, with those of the types it
inlines to a given depth. -/
def messageConfigKeys (index : TypeIndex) : Nat → List StructChild → List String
  | 0, _ => []
  | depth + 1, children =>
    (plainFields children).flatMap fun f =>
      (match f.autoExpr with
        | some a => if a.kind == .config then [a.key] else []
        | none => [])
      ++ if f.isInline && f.typeRef != "" then
          match index.find f.typeRef with
          | some (.struct s) => messageConfigKeys index depth s.children
          | some (.message m) => messageConfigKeys index depth m.children
          | _ => []
        else []

/-- The keys of a list that occurred before, after `seen`. -/
def repeatedKeys (seen : List String) : List String → List String
  | [] => []
  | k :: ks => (if seen.contains k then [k] else []) ++ repeatedKeys (k :: seen) ks

/-- `validator.cpp:2016-2050`: what automatic fields of a frame may refer to. -/
def frameRefErrors (fields : List Field) : List String :=
  fields.flatMap fun f =>
    match f.autoExpr with
    | none => []
    | some a =>
      let known := fields.any (·.name == a.fieldRef)
        || (a.fieldRef == "payload" && (a.kind == .length || a.kind == .count))
      errorIf (a.fieldRef != "" && !known)
        s!"field '{f.name}': auto expression references unknown field '{a.fieldRef}'"

/-- `validator.cpp:2063-2110`: the ids of the messages against the id field. -/
def messageIdErrors (messages : List MessageDef) (headerIds allIds : List Field) : List String :=
  let isEnum := (allIds.getLast?.map (idIsEnum index)).getD false
  let bits := (allIds.getLast?.map (fieldBits index)).getD 0
  let names := headerIds.flatMap fun f =>
    f.enumValues.map (·.name) ++ if f.typeRef != "" then
          ((index.type? f.typeRef).map fun t => t.enumValues.map (·.name)).getD []
        else []
  let numbered := messages.filter (·.id != "")
  (if isEnum then
      numbered.flatMap fun m =>
        errorIf (!isValidNumericLiteral m.id && !names.contains m.id)
          s!"message '{m.name}' id='{m.id}' is not a numeric value or a value name of the enum id field"
    else [])
    ++ if 0 < bits && bits < 64 then
        numbered.flatMap fun m =>
          match if isValidNumericLiteral m.id then stoull m.id else none with
          | none => []
          | some v =>
            errorIf (v > 2 ^ bits - 1)
              s!"message '{m.name}' id={m.id} exceeds the {bits}-bit id field range (max {2 ^ bits - 1})"
      else []

/-- `validator.cpp:1780-2136`: one frame. -/
def validateFrame (proto : Protocol) (frame : FrameDef) : List String :=
  let scope : Scope := { parentName := s!"frame '{frame.name}'", inFrame := true }
  let fields := plainFields frame.headerFields ++ plainFields frame.footerFields
  let autos := autoFields frame.headerFields ++ autoFields frame.footerFields
  let ids := autos.filter (·.2.kind == .id)
  let lengths := autos.filter (·.2.kind == .length)
  let headerIds := (autoFields frame.headerFields).filter (·.2.kind == .id)
  let messageKeys := proto.messages.flatMap fun m =>
    messageConfigKeys index (index.structs.length + index.messages.length + 1) m.children
  validateChildren index scope frame.headerFields ++ validateChildren index scope frame.footerFields
    ++ frame.headerFields.flatMap (scalarErrors index "header")
    ++ frame.footerFields.flatMap (scalarErrors index "footer")
    ++ frameAutoLoop index frame.name [] autos
    ++ (repeatedKeys (configKeys autos) messageKeys).map (fun key =>
      s!"duplicate config key '{key}' (keys must be unique across frame and all messages)")
    ++ errorIf (ids.length == 0) s!"frame '{frame.name}' must have exactly one auto=\"id\" field"
    ++ errorIf (ids.length > 1)
      s!"frame '{frame.name}' has {ids.length} auto=\"id\" fields; exactly one is required"
    ++ errorIf (lengths.length > 1)
      s!"frame '{frame.name}' has {lengths.length} auto=\"length\" fields; at most one is allowed"
    ++ frameRefErrors fields
    ++ errorIf frame.headerFields.isEmpty
      s!"frame '{frame.name}' has no header fields before <payload/>"
    ++ errorIf proto.messages.isEmpty
      s!"frame '{frame.name}' is defined but no messages exist; at least one <message> is required"
    ++ messageIdErrors index proto.messages (headerIds.map (·.1)) (ids.map (·.1))
    ++ proto.messages.flatMap fun m =>
      (plainFields m.children).flatMap fun f =>
        errorIf (fields.any (·.name == f.name))
          s!"message '{m.name}' field '{f.name}' conflicts with frame field of the same name"

/-- `validator.cpp:2159-2183`: two messages with one id need different explicit directions. -/
def sharedIdErrors : List MessageDef → List String
  | [] => []
  | a :: rest =>
    (rest.filter (·.id == a.id)).flatMap (fun b =>
      if a.direction == .both || b.direction == .both then
        [s!"message '{b.name}' has same id '{b.id}' as '{a.name}'; both must have explicit direction (send/receive) to share an id"]
      else if a.direction == b.direction then
        [s!"message '{b.name}' has same id '{b.id}' and direction as '{a.name}'"]
      else [])
      ++ sharedIdErrors rest

/-- `validator.cpp:1771-2185`. -/
def validateFrames (proto : Protocol) : List String :=
  if proto.frames.isEmpty then []
  else
    errorIf (proto.frames.length > 1)
        "multiple <frame> definitions found; only one frame per protocol is supported"
      ++ proto.frames.flatMap (validateFrame index proto)
      ++ (proto.messages.filter (·.id == "")).map (fun m =>
        s!"message '{m.name}' must have an 'id' attribute when a frame is defined")
      ++ sharedIdErrors (proto.messages.filter (·.id != ""))

/-! ## Recursive types -/

mutual

/-- `validator.cpp:2252-2285`. -/
def childStructRefs (index : TypeIndex) : StructChild → List String
  | .field f => if f.typeRef != "" && isStructOrMessageType index f.typeRef then [f.typeRef] else []
  | .struct _ children => structRefs index children
  | .array .. => []
  | .choice _ cases otherwise => caseListRefs index cases ++ otherwiseRefs index otherwise
  | .fxBlock children => structRefs index children
  | .reserved _ => []
  | .align _ => []

def structRefs (index : TypeIndex) : List StructChild → List String
  | [] => []
  | c :: cs => childStructRefs index c ++ structRefs index cs

def caseListRefs (index : TypeIndex) : List Case → List String
  | [] => []
  | .mk _ children :: cases => structRefs index children ++ caseListRefs index cases

def otherwiseRefs (index : TypeIndex) : Option Case → List String
  | none => []
  | some (.mk _ children) => structRefs index children

end

/-- The children of the struct or message of that name. -/
def childrenOf (index : TypeIndex) (name : String) : Option (List StructChild) :=
  match index.struct? name with
  | some s => some s.children
  | none => (index.message? name).map (·.children)

/-- `validator.cpp:2208-2249`: the errors of a depth-first search from `name`, and the names
visited. Each call visits a new name, which bounds the depth. -/
def detectCycleDfs (index : TypeIndex) :
    Nat → List String → String → List String → List String × List String
  | 0, _, _, visited => ([], visited)
  | depth + 1, stack, name, visited =>
    let stack := name :: stack
    match childrenOf index name with
    | none => ([], name :: visited)
    | some children =>
      (structRefs index children).foldl (fun (errors, visited) ref =>
        if stack.contains ref then
          (errors ++ [s!"recursive type cycle detected: '{name}' eventually contains itself via '{ref}'"],
            visited)
        else if visited.contains ref then (errors, visited)
        else
          let (more, visited) := detectCycleDfs index depth stack ref visited
          (errors ++ more, visited)) ([], name :: visited)

/-- `validator.cpp:2191-2206`. -/
def detectStructCycles (index : TypeIndex) (proto : Protocol) : List String :=
  let names := proto.structs.map (·.attrs.name) ++ proto.messages.map (·.name)
  (names.foldl (fun (errors, visited) name =>
    if visited.contains name then (errors, visited)
    else
      let (more, visited) := detectCycleDfs index (names.length + 1) [] name visited
      (errors ++ more, visited)) (([], []) : List String × List String)).1

/-! ## Protocols -/

/-- `validator.cpp:23-31`: all errors of a protocol. -/
def validate (proto : Protocol) (index : TypeIndex) : List String :=
  errorIf (proto.name == "") "protocol name is empty"
    ++ errorIf (proto.version == "") "protocol version is empty"
    ++ validateConstants index [] proto.constants
    ++ proto.types.flatMap validateType
    ++ proto.structs.flatMap (validateStructDef index)
    ++ proto.messages.flatMap (validateMessage index)
    ++ validateFrames index proto
    ++ detectStructCycles index proto

/-- A protocol the validator has nothing against. -/
def Accepted (proto : Protocol) : Prop := validate proto (TypeIndex.ofProtocol proto) = []

instance (proto : Protocol) : Decidable (Accepted proto) := inferInstanceAs (Decidable (_ = _))

end Conduit.Bgen.Validator

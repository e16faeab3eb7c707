import Conduit.Io.Endian

/-!
# The protocol model

`bgen/src/model/ast.hpp` and the lookup tables of `analyzer/type_resolver.hpp`. Widths, counts and
lengths are read by `parse_nonneg_int_attr` and are natural numbers; the presence bit of a bitmap
child is read by `parse_int_attr` and may be negative. A scale or an offset is only ever compared
with a constant, so a rational stands for the double. Documentation, annotations, display formats,
units, source locations and `typeName` overrides are read by no function modelled here.
-/

namespace Conduit.Bgen

open Io (Endian)

inductive PrimitiveBase where
  | uint | int | float | bool | bytes | string
deriving DecidableEq

inductive Direction where
  | both | send | receive
deriving DecidableEq

/-- `Default` is called `standard` here. -/
inductive WireEncoding where
  | standard | cb2 | bnr | bnrS | bcd | bcdS
deriving DecidableEq

inductive StringEncoding where
  | ascii | utf8 | ia5 | ebcdic
deriving DecidableEq

inductive StringPadding where
  | null | space | none
deriving DecidableEq

inductive StringTrim where
  | left | right | both | none
deriving DecidableEq

inductive AutoKind where
  | id | length | count | increment | config | timestamp
deriving DecidableEq

inductive ArithOp where
  | none | add | sub | mul | div | mod
deriving DecidableEq

/-- `ast.hpp:54-61`. -/
structure ArithModifier where
  op : ArithOp := .none
  literal : Int := 0
  fieldRef : String := ""
deriving DecidableEq

namespace ArithModifier

def hasModifier (m : ArithModifier) : Bool := m.op != .none

def isFieldOperand (m : ArithModifier) : Bool := m.fieldRef != ""

end ArithModifier

/-- `ast.hpp:67-72`. -/
structure AutoExpr where
  kind : AutoKind
  fieldRef : String := ""
  key : String := ""
  modifier : ArithModifier := {}
deriving DecidableEq

inductive BinaryOp where
  | add | sub | mul | div | mod
  | bitAnd | bitOr | bitXor | shiftLeft | shiftRight
  | eq | neq | lt | lte | gt | gte
  | logAnd | logOr
deriving DecidableEq

inductive UnaryOp where
  | negate | bitNot | logNot
deriving DecidableEq

/-- `ast.hpp:78-112`: the tree that `ExprOp` and the two child pointers spell out. -/
inductive Expr where
  | numberLit (value : Int)
  | boolLit (value : Bool)
  | fieldRef (name : String)
  | constantRef (name : String)
  | remaining
  | binary (op : BinaryOp) (left right : Expr)
  | unary (op : UnaryOp) (operand : Expr)
deriving DecidableEq

/-- `ast.hpp:118-124`; `deferred` is the timing of the check. -/
structure Constraint where
  equals : Option String := none
  min : Option String := none
  max : Option String := none
  deferred : Bool := false
deriving DecidableEq

structure EnumValue where
  name : String
  id : Int
deriving DecidableEq

structure FlagDef where
  name : String
  bit : Int
deriving DecidableEq

/-- `ast.hpp:154-187`. -/
structure TypeDef where
  name : String
  base : PrimitiveBase := .uint
  bits : Nat := 0
  endian : Endian := .big
  endianExplicit : Bool := false
  wireEncoding : WireEncoding := .standard
  wireEncodingExplicit : Bool := false
  scale : Option Rat := none
  offset : Option Rat := none
  enumValues : List EnumValue := []
  flags : List FlagDef := []
  constraint : Option Constraint := none
  length : Option Nat := none
  encoding : StringEncoding := .ascii
  padding : StringPadding := .null
  trim : StringTrim := .right
  terminated : Option String := none
  maxLength : Option Int := none
  charBits : Option Int := none

/-- `ast.hpp:215-259`. -/
structure Field where
  name : String
  typeRef : String := ""
  typeIsInline : Bool := false
  bits : Option Nat := none
  bytesAttr : Option Nat := none
  isSigned : Bool := false
  base : Option PrimitiveBase := none
  scale : Option Rat := none
  offset : Option Rat := none
  enumValues : List EnumValue := []
  flags : List FlagDef := []
  constraint : Option Constraint := none
  bit : Option Int := none
  presentWhen : Option Expr := none
  length : Option Nat := none
  lengthStar : Bool := false
  lengthFrom : Option Expr := none
  lengthPrefix : Option String := none
  lengthIncludesPrefix : Bool := false
  encoding : Option StringEncoding := none
  padding : Option StringPadding := none
  trim : Option StringTrim := none
  terminated : Option String := none
  maxLength : Option Int := none
  charBits : Option Int := none
  endian : Endian := .big
  endianExplicit : Bool := false
  wireEncoding : Option WireEncoding := none
  isInline : Bool := false
  defaultValue : Option String := none
  autoAttr : Option String := none
  autoExpr : Option AutoExpr := none
deriving DecidableEq

/-- The attributes of `StructDef` (`ast.hpp:265-287`); its children stand beside it. -/
structure StructAttrs where
  name : String := ""
  isBitmap : Bool := false
  bitmapBits : Int := 8
  bitmapExt : Option Nat := none
  bitmapEndian : Endian := .big
  bit : Option Int := none
  presentWhen : Option Expr := none

/-- The attributes of `ArrayDef` (`ast.hpp:293-318`). -/
structure ArrayAttrs where
  name : String
  typeRef : String := ""
  fixedCount : Option Nat := none
  countFrom : Option Expr := none
  countStar : Bool := false
  countFx : Bool := false
  length : Option Nat := none
  lengthFrom : Option Expr := none
  bit : Option Int := none
  presentWhen : Option Expr := none

/-- The attributes of `CaseDef` and of `OtherwiseDef` (`ast.hpp:324-351`). -/
structure CaseAttrs where
  name : String
  typeRef : String := ""
  value : Option String := none
  range : Option String := none
  direction : Direction := .both

/-- The attributes of `ChoiceDef` (`ast.hpp:353-371`). -/
structure ChoiceAttrs where
  name : String
  switchExpr : Option Expr := none
  length : Option Nat := none
  lengthFrom : Option Expr := none
  bit : Option Int := none
  presentWhen : Option Expr := none

mutual

/-- `ast.hpp:201-209`: one child of a struct, a message, a case, an fx block or a frame. -/
inductive StructChild where
  | field (f : Field)
  | struct (s : StructAttrs) (children : List StructChild)
  | array (a : ArrayAttrs) (children : List StructChild)
  | choice (c : ChoiceAttrs) (cases : List Case) (otherwise : Option Case)
  | fxBlock (children : List StructChild)
  | reserved (bits : Nat)
  | align (boundary : Nat)

/-- A `<case>` or the `<otherwise>` branch of a choice. -/
inductive Case where
  | mk (attrs : CaseAttrs) (children : List StructChild)

end

structure StructDef where
  attrs : StructAttrs
  children : List StructChild

/-- `ast.hpp:407-414`. -/
structure ConstDef where
  name : String
  typeRef : String
  value : String

/-- `ast.hpp:420-432`. -/
structure MessageDef where
  name : String
  children : List StructChild := []
  id : String := ""
  direction : Direction := .both

/-- `ast.hpp:459-463`. -/
structure PayloadDef where
  isArray : Bool := false
  lengthFrom : Option Expr := none

/-- `ast.hpp:465-473`. -/
structure FrameDef where
  name : String
  headerFields : List StructChild := []
  payload : PayloadDef := {}
  footerFields : List StructChild := []

/-- `ast.hpp:507-524`. -/
structure Protocol where
  name : String
  version : String
  constants : List ConstDef := []
  types : List TypeDef := []
  structs : List StructDef := []
  messages : List MessageDef := []
  frames : List FrameDef := []

/-- What `TypeIndex::find` resolves a name to. -/
inductive ResolvedDef where
  | type (t : TypeDef)
  | struct (s : StructDef)
  | message (m : MessageDef)

/-- `type_resolver.hpp:32-51`: the tables that `resolve_types` fills from the protocol, where the
first definition of a name is the one that is kept. -/
structure TypeIndex where
  types : List TypeDef := []
  structs : List StructDef := []
  messages : List MessageDef := []
  constants : List ConstDef := []

namespace TypeIndex

variable (index : TypeIndex) (name : String)

def ofProtocol (p : Protocol) : TypeIndex :=
  { types := p.types, structs := p.structs, messages := p.messages, constants := p.constants }

def type? : Option TypeDef := index.types.find? (·.name == name)

def struct? : Option StructDef := index.structs.find? (·.attrs.name == name)

def message? : Option MessageDef := index.messages.find? (·.name == name)

def constant? : Option ConstDef := index.constants.find? (·.name == name)

/-- `type_resolver.hpp:40-48`: types first, then structs, then messages. -/
def find : Option ResolvedDef :=
  match index.type? name with
  | some t => some (.type t)
  | none =>
    match index.struct? name with
    | some s => some (.struct s)
    | none => (index.message? name).map .message

end TypeIndex

end Conduit.Bgen

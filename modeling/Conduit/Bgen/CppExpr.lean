import Conduit.Bgen.FieldType
import Conduit.Bgen.Text

/-!
# Integer expressions of the generated code

The value of an integer expression in C++: operands narrower than an `int` are promoted, both
sides are converted to a common type, unsigned arithmetic wraps and signed arithmetic that leaves
its type is undefined. `emit_frame_expr` (`codegen/cpp_structs.cpp:26-82`) prints an `Expr`
operator by operator, so evaluating its output is evaluating the tree.
-/

namespace Conduit.Bgen

open Io

/-- An integer type of C++ by its width and signedness. -/
structure IntType where
  bits : Nat
  isSigned : Bool
deriving DecidableEq

/-- A number with the type of the C++ expression it is the value of. -/
structure CppValue where
  type : IntType
  value : Int

namespace CppValue

def int32 : IntType := ⟨32, true⟩

def sizeType : IntType := ⟨64, false⟩

/-- The conversion of a number to a type. -/
def convert (type : IntType) (value : Int) : CppValue :=
  ⟨type, if type.isSigned then value.bmod (2 ^ type.bits) else value % (2 ^ type.bits : Nat)⟩

/-- Integral promotion. -/
def promote (v : CppValue) : CppValue := if v.type.bits < 32 then { v with type := int32 } else v

/-- The usual arithmetic conversions of two promoted operands. -/
def commonType (a b : IntType) : IntType :=
  if a.bits = b.bits then ⟨a.bits, a.isSigned && b.isSigned⟩
  else if a.bits < b.bits then b
  else a

/-- The result of signed arithmetic if its type holds it, of unsigned arithmetic modulo the
width. -/
def checked (type : IntType) (value : Int) : Option CppValue :=
  if type.isSigned && (value < -(2 ^ (type.bits - 1) : Nat) || value ≥ (2 ^ (type.bits - 1) : Nat))
  then none
  else some (convert type value)

def ofBool (b : Bool) : CppValue := ⟨int32, if b then 1 else 0⟩

/-- A bitwise operation on the two's-complement patterns. -/
def bitwise (type : IntType) (f : Nat → Nat → Nat) (a b : Int) : CppValue :=
  convert type (f (a % (2 ^ type.bits : Nat)).toNat (b % (2 ^ type.bits : Nat)).toNat : Nat)

/-- A shift has the type of its promoted left operand. -/
def shift (left : Bool) (a b : CppValue) : Option CppValue :=
  if b.value < 0 || b.value ≥ a.type.bits then none
  else if left then some (convert a.type (a.value * (2 ^ b.value.toNat : Nat)))
  else some (convert a.type (a.value / (2 ^ b.value.toNat : Nat)))

/-- The binary operators on promoted operands; `&&` and `||` are evaluated by `evalFrameExpr`. -/
def binary (op : BinaryOp) (a b : CppValue) : Option CppValue :=
  let type := commonType a.type b.type
  let x := (convert type a.value).value
  let y := (convert type b.value).value
  match op with
  | .add => checked type (x + y)
  | .sub => checked type (x - y)
  | .mul => checked type (x * y)
  | .div => if y = 0 then none else checked type (x.tdiv y)
  | .mod => if y = 0 then none else (checked type (x.tdiv y)).map fun _ => ⟨type, x.tmod y⟩
  | .bitAnd => some (bitwise type (· &&& ·) x y)
  | .bitOr => some (bitwise type (· ||| ·) x y)
  | .bitXor => some (bitwise type (· ^^^ ·) x y)
  | .shiftLeft => shift true a b
  | .shiftRight => shift false a b
  | .eq => some (ofBool (x == y))
  | .neq => some (ofBool (x != y))
  | .lt => some (ofBool (x < y))
  | .lte => some (ofBool (x ≤ y))
  | .gt => some (ofBool (x > y))
  | .gte => some (ofBool (x ≥ y))
  | .logAnd => some (ofBool (a.value != 0 && b.value != 0))
  | .logOr => some (ofBool (a.value != 0 || b.value != 0))

def unary (op : UnaryOp) (a : CppValue) : Option CppValue :=
  match op with
  | .negate => checked a.type (-a.value)
  | .bitNot => some (convert a.type (-a.value - 1))
  | .logNot => some (ofBool (a.value == 0))

/-- The type of a decimal literal. -/
def literal (n : Int) : CppValue :=
  if -(2 ^ 31) ≤ n ∧ n < 2 ^ 31 then ⟨int32, n⟩ else ⟨⟨64, true⟩, n⟩

/-- `static_cast<size_t>` of an expression. -/
def toSize (v : CppValue) : Nat := (convert sizeType v.value).value.toNat

end CppValue

/-- `cpp_constants.cpp:27-45`: the constant that a `<constant>` becomes. -/
def constantValue (index : TypeIndex) (c : ConstDef) : Option CppValue := do
  let n ← cppLiteral c.value
  let type : IntType :=
    match index.type? c.typeRef with
    | some t =>
      if t.base == .uint || t.base == .int then ⟨storageBits t.bits, t.base == .int⟩ else ⟨32, false⟩
    | none => ⟨32, false⟩
  return CppValue.convert type n

/-- Evaluating the expression that is printed for `expr`, over the members decoded so far and the
bits that remain to be read. There is no value where the operation is undefined or a name is not
declared. -/
def evalFrameExpr (index : TypeIndex) (members : String → Option CppValue) (remainingBits : Nat) :
    Expr → Option CppValue
  | .numberLit n => some (CppValue.literal n)
  | .boolLit b => some (CppValue.ofBool b)
  | .fieldRef name => (members name).map CppValue.promote
  | .constantRef name =>
    (index.constant? name).bind fun c => (constantValue index c).map CppValue.promote
  | .remaining => some ⟨CppValue.sizeType, (remainingBits / 8 : Nat)⟩
  | .binary .logAnd left right => do
    let a ← evalFrameExpr index members remainingBits left
    if a.value = 0 then some (CppValue.ofBool false)
    else
      let b ← evalFrameExpr index members remainingBits right
      CppValue.binary .logAnd a b
  | .binary .logOr left right => do
    let a ← evalFrameExpr index members remainingBits left
    if a.value ≠ 0 then some (CppValue.ofBool true)
    else
      let b ← evalFrameExpr index members remainingBits right
      CppValue.binary .logOr a b
  | .binary op left right => do
    let a ← evalFrameExpr index members remainingBits left
    let b ← evalFrameExpr index members remainingBits right
    CppValue.binary op a b
  -- a minus sign in front of a negative number is printed as a decrement
  | .unary .negate (.numberLit n) => if n < 0 then none else some (CppValue.literal (-n))
  | .unary op operand => do
    let a ← evalFrameExpr index members remainingBits operand
    CppValue.unary op a

end Conduit.Bgen

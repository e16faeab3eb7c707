import Conduit.Bgen.IntTypes
import Mathlib.Data.Int.Bitwise

/-!
# Expressions in the three target languages

`j_expr` (`codegen/java_backend.cpp:182-241`) and `py_expr` (`codegen/python_backend.cpp:226-272`)
print an expression operator by operator, as `emit_expr_code` does for C++. What differs is the
meaning of the operators. Java computes with `int` and `long`, wraps around, masks the distance of
a shift, shifts to the right without the sign (`>>>`), and keeps `boolean` apart from the numbers.
Python has integers without a bound, rounds a quotient down, and its `and` and `or` return one of
their operands.

A name in an expression stands for a decoded integer field. How the field is stored differs too:
a field of up to 32 bits is an `int` in Java, a wider one a `long`, and an optional one is an
object of class `Integer` or `Long`.
-/

namespace Conduit.Ports

open Bgen

variable (env : ExprEnv) (name : String)

/-- Where the value of an expression goes: the test of a conditional child, a length or a count,
or the selection of a branch of a choice. -/
inductive ExprUse where
  | presentWhen | size | switch
deriving DecidableEq

/-- The argument `value_context` that `emit_expr_code` is called with
(`cpp_structs_decode.cpp:776`, `:1029`, `:1287`, `:1505`). -/
def ExprUse.valueContext : ExprUse → Bool
  | .size => true
  | _ => false

/-- A decoded integer field: the width and the sign of its type, and a number of that type. It may
be an optional member of the object itself, be stored as an object in Java, or be handed down from
an enclosing struct. -/
structure IntField where
  bits : Nat
  isSigned : Bool
  value : Int
  isOptional : Bool := false
  isBoxed : Bool := false
  isOuter : Bool := false
  bits_pos : 1 ≤ bits
  bits_le : bits ≤ 64
  holds : IntType.Holds ⟨bits, isSigned⟩ value

/-- The values an expression is evaluated over. -/
structure ExprEnv where
  index : TypeIndex
  field : String → Option IntField
  remainingBits : Nat
  remaining_lt : remainingBits < 2 ^ 64

/-- An expression as the parser builds it: a literal is a non-negative `int64_t`. -/
def Parsed : Expr → Prop
  | .numberLit n => 0 ≤ n ∧ n < 2 ^ 63
  | .binary _ left right => Parsed left ∧ Parsed right
  | .unary _ operand => Parsed operand
  | _ => True

/-! ## C++ -/

/-- The type of a printed expression: an integer type, or an optional of one. -/
structure CppType where
  type : IntType
  isOptional : Bool := false

/-- A member of integer type. -/
def IntField.cppValue (f : IntField) : CppValue := ⟨⟨storageBits f.bits, f.isSigned⟩, f.value⟩

def ExprEnv.cppConstant : Option CppValue :=
  (env.index.constant? name).bind (constantValue env.index)

/-- Outside of a value context an optional member is not dereferenced. -/
def ExprEnv.cppRef (use : ExprUse) (name : String) : Except Stop Operand :=
  match env.field name with
  | some f =>
    if f.isOptional && !use.valueContext then .ok (.optional (some f.cppValue.promote))
    else .ok (.number f.cppValue.promote)
  | none => .error .uncompiled

def cppBinaryType (op : BinaryOp) (a b : CppType) : Option CppType :=
  match op with
  | .logAnd | .logOr | .eq | .neq | .lt | .lte | .gt | .gte => some ⟨CppValue.int32, false⟩
  | .shiftLeft | .shiftRight => if a.isOptional || b.isOptional then none else some a
  | _ =>
    if a.isOptional || b.isOptional then none
    else some ⟨CppValue.commonType a.type b.type, false⟩

def cppUnaryType (op : UnaryOp) (a : CppType) : Option CppType :=
  match op with
  | .logNot => some ⟨CppValue.int32, false⟩
  | _ => if a.isOptional then none else some a

/-- The type of the printed expression, if it compiles. An optional has no arithmetic. -/
def cppType (env : ExprEnv) (use : ExprUse) : Expr → Option CppType
  | .numberLit n => some ⟨(CppValue.literal n).type, false⟩
  | .boolLit _ => some ⟨CppValue.int32, false⟩
  | .fieldRef name =>
    (env.field name).map fun f => ⟨f.cppValue.promote.type, f.isOptional && !use.valueContext⟩
  | .constantRef name => (env.cppConstant name).map fun v => ⟨v.promote.type, false⟩
  | .remaining => some ⟨CppValue.sizeType, false⟩
  | .binary op left right => do
    let a ← cppType env use left
    let b ← cppType env use right
    cppBinaryType op a b
  | .unary op operand => do
    let a ← cppType env use operand
    cppUnaryType op a

/-- Running the printed expression. -/
def runCpp (use : ExprUse) (e : Expr) : Except Stop Operand :=
  evalWith env.index env.remainingBits (env.cppRef use) e

/-! ## Java -/

/-- A type of a Java expression; a number may be held in an object. -/
inductive JavaType where
  | boolean
  | number (isLong isBoxed : Bool)
deriving DecidableEq

/-- A value of a Java expression. A number in an object is named by the field that holds it. -/
inductive JavaValue where
  | boolean (b : Bool)
  | number (isLong : Bool) (n : Int)
  | boxed (isLong : Bool) (owner : String) (n : Int)

/-- `int` and `long`. -/
def javaInt (isLong : Bool) : IntType := ⟨if isLong then 64 else 32, true⟩

def javaWrap (isLong : Bool) (n : Int) : Int := n.bmod (2 ^ (javaInt isLong).bits)

/-- `java_backend.cpp:313-314`: a field of up to 32 bits is an `int`. -/
def IntField.isLong (f : IntField) : Bool := decide (32 < f.bits)

/-- A hexadecimal or octal literal is a pattern of 32 bits. -/
def javaPattern (negate : Bool) (n : Nat) : Option Int :=
  if n < 2 ^ 32 then
    some (javaWrap false (if negate then -javaWrap false n else javaWrap false n))
  else none

/-- A decimal literal is at most `2147483647`, or the next number after a minus sign. -/
def javaDecimal (negate : Bool) (n : Nat) : Option Int :=
  if n < 2 ^ 31 ∨ negate ∧ n = 2 ^ 31 then some (if negate then -n else n) else none

/-- The number that an integer literal of Java denotes. -/
def javaLiteral (s : String) : Option Int :=
  let (negate, cs) := splitSign s.toList
  if isHexText cs then (parseDigits 16 (cs.drop 2)).bind (javaPattern negate)
  else if cs.head? == some '0' then (parseDigits 8 cs).bind (javaPattern negate)
  else (parseDigits 10 cs).bind (javaDecimal negate)

/-- `java_backend.cpp:1285-1299`: a constant is a `long` with the text of its value. -/
def ExprEnv.javaConstant : Option Int :=
  (env.index.constant? name).bind fun c => javaLiteral c.value

/-- `java_backend.cpp:719-721`: the reader counts its bits in an `int`. -/
def ExprEnv.javaRemaining : Int := max 0 (javaWrap false env.remainingBits) / 8

/-- The type of a binary expression. Two objects are compared only with objects of their class. -/
def javaBinaryType (op : BinaryOp) (a b : JavaType) : Option JavaType :=
  match a, b with
  | .boolean, .boolean =>
    match op with
    | .logAnd | .logOr | .bitAnd | .bitOr | .bitXor | .eq | .neq => some .boolean
    | _ => none
  | .number la ba, .number lb bb =>
    match op with
    | .logAnd | .logOr => none
    | .eq | .neq => if ba && bb && la != lb then none else some .boolean
    | .lt | .lte | .gt | .gte => some .boolean
    | .shiftLeft | .shiftRight => some (.number la false)
    | _ => some (.number (la || lb) false)
  | _, _ => none

def javaUnaryType (op : UnaryOp) (a : JavaType) : Option JavaType :=
  match op, a with
  | .logNot, .boolean => some .boolean
  | .negate, .number l _ | .bitNot, .number l _ => some (.number l false)
  | _, _ => none

/-- The type the compiler gives an expression, if it has one. The literal `2147483648` is allowed
after a minus sign only. -/
def javaType (env : ExprEnv) : Expr → Option JavaType
  | .numberLit n => if n < 2 ^ 31 then some (.number false false) else none
  | .boolLit _ => some .boolean
  | .fieldRef name => (env.field name).map fun f => .number f.isLong f.isBoxed
  | .constantRef name => (env.javaConstant name).map fun _ => .number true false
  | .remaining => some (.number false false)
  | .binary op left right => do
    let a ← javaType env left
    let b ← javaType env right
    javaBinaryType op a b
  | .unary .negate (.numberLit n) => if n ≤ 2 ^ 31 then some (.number false false) else none
  | .unary op operand => do
    let a ← javaType env operand
    javaUnaryType op a

/-- A comparison of numbers. -/
def compareInt (op : BinaryOp) (x y : Int) : Bool :=
  match op with
  | .eq => x == y
  | .neq => x != y
  | .lt => x < y
  | .lte => x ≤ y
  | .gt => x > y
  | _ => x ≥ y

/-- A logical shift of the pattern that represents a number. -/
def shiftLogical (isLong : Bool) (x : Int) (distance : Nat) : Int :=
  javaWrap isLong (x % (2 ^ (javaInt isLong).bits : Nat) / (2 ^ distance : Nat))

/-- The low bits of a shift distance, which are the ones that count. -/
def shiftDistance (isLong : Bool) (y : Int) : Nat := (y % (javaInt isLong).bits).toNat

/-- The operators on two numbers. A division by zero throws. -/
def javaArith (op : BinaryOp) (la lb : Bool) (x y : Int) : Option JavaValue :=
  let l := la || lb
  match op with
  | .add => some (.number l (javaWrap l (x + y)))
  | .sub => some (.number l (javaWrap l (x - y)))
  | .mul => some (.number l (javaWrap l (x * y)))
  | .div => if y = 0 then none else some (.number l (javaWrap l (x.tdiv y)))
  | .mod => if y = 0 then none else some (.number l (javaWrap l (x.tmod y)))
  | .bitAnd => some (.number l (javaWrap l (x.land y)))
  | .bitOr => some (.number l (javaWrap l (x.lor y)))
  | .bitXor => some (.number l (javaWrap l (x.xor y)))
  | .shiftLeft => some (.number la (javaWrap la (x * (2 ^ shiftDistance la y : Nat))))
  | .shiftRight => some (.number la (shiftLogical la x (shiftDistance la y)))
  | .logAnd | .logOr => none
  | op => some (.boolean (compareInt op x y))

/-- The operators on two booleans that evaluate both. -/
def javaLogic (op : BinaryOp) (p q : Bool) : Option JavaValue :=
  match op with
  | .bitAnd => some (.boolean (p && q))
  | .bitOr => some (.boolean (p || q))
  | .bitXor | .neq => some (.boolean (p != q))
  | .eq => some (.boolean (p == q))
  | _ => none

/-- Two objects are one if they belong to one field, or if both are the shared object of a small
number. -/
def sameBox (f g : String) (x y : Int) : Bool := f == g || (x == y && -128 ≤ x && x ≤ 127)

/-- The comparison of two objects is that of their references; otherwise an object stands for its
number. -/
def javaBinary (op : BinaryOp) : JavaValue → JavaValue → Option JavaValue
  | .boolean p, .boolean q => javaLogic op p q
  | .boxed la f x, .boxed lb g y =>
    match op with
    | .eq => some (.boolean (sameBox f g x y))
    | .neq => some (.boolean !sameBox f g x y)
    | op => javaArith op la lb x y
  | .number la x, .number lb y | .number la x, .boxed lb _ y | .boxed la _ x, .number lb y =>
    javaArith op la lb x y
  | _, _ => none

def javaUnary (op : UnaryOp) : JavaValue → Option JavaValue
  | .boolean b => if op = .logNot then some (.boolean !b) else none
  | .number l x | .boxed l _ x =>
    match op with
    | .negate => some (.number l (javaWrap l (-x)))
    | .bitNot => some (.number l (javaWrap l (-x - 1)))
    | .logNot => none

/-- Running the printed expression. -/
def runJava (env : ExprEnv) : Expr → Option JavaValue
  | .numberLit n => some (.number false n)
  | .boolLit b => some (.boolean b)
  | .fieldRef name =>
    (env.field name).map fun f =>
      if f.isBoxed then .boxed f.isLong name (javaWrap f.isLong f.value)
      else .number f.isLong (javaWrap f.isLong f.value)
  | .constantRef name => (env.javaConstant name).map (.number true)
  | .remaining => some (.number false env.javaRemaining)
  | .binary .logAnd left right => do
    match ← runJava env left with
    | .boolean true => runJava env right
    | .boolean false => some (.boolean false)
    | _ => none
  | .binary .logOr left right => do
    match ← runJava env left with
    | .boolean true => some (.boolean true)
    | .boolean false => runJava env right
    | _ => none
  | .binary op left right => do
    let a ← runJava env left
    let b ← runJava env right
    javaBinary op a b
  | .unary op operand => do
    let a ← runJava env operand
    javaUnary op a

/-! ## Python -/

/-- The number that an integer literal of Python denotes. A decimal one has no leading zero, unless
it is zero. -/
def pythonLiteral (s : String) : Option Int := do
  let (negate, cs) := splitSign s.toList
  let n ←
    if isHexText cs then parseDigits 16 (cs.drop 2)
    else if cs.head? == some '0' && cs.any (· != '0') then none
    else parseDigits 10 cs
  some (if negate then -n else n)

/-- `python_backend.cpp:1000-1018`. -/
def ExprEnv.pythonConstant : Option Int :=
  (env.index.constant? name).bind fun c => pythonLiteral c.value

/-- `True` is the number one and `False` is zero. -/
def pythonBool (b : Bool) : Int := if b then 1 else 0

/-- The constants that an expression names are in the module of constants. -/
def pythonImports (env : ExprEnv) : Expr → Bool
  | .constantRef name => (env.pythonConstant name).isSome
  | .binary _ left right => pythonImports env left && pythonImports env right
  | .unary _ operand => pythonImports env operand
  | _ => true

/-- The operators that evaluate both operands. A division by zero and a negative shift raise an
exception. -/
def pythonBinary (op : BinaryOp) (x y : Int) : Option Int :=
  match op with
  | .add => some (x + y)
  | .sub => some (x - y)
  | .mul => some (x * y)
  | .div => if y = 0 then none else some (x.fdiv y)
  | .mod => if y = 0 then none else some (x.fmod y)
  | .bitAnd => some (x.land y)
  | .bitOr => some (x.lor y)
  | .bitXor => some (x.xor y)
  | .shiftLeft => if y < 0 then none else some (x * (2 ^ y.toNat : Nat))
  | .shiftRight => if y < 0 then none else some (x / (2 ^ y.toNat : Nat))
  | .logAnd => some (if x = 0 then x else y)
  | .logOr => some (if x = 0 then y else x)
  | op => some (pythonBool (compareInt op x y))

def pythonUnary (op : UnaryOp) (x : Int) : Int :=
  match op with
  | .negate => -x
  | .bitNot => -x - 1
  | .logNot => pythonBool (x == 0)

/-- `python_backend.cpp:511-559`: the operators under which `py_expr_ctx` looks for a field of an
enclosing struct. Below the others `py_expr` prints a member of the object itself. -/
def resolvesOuter : BinaryOp → Bool
  | .bitXor | .shiftLeft | .shiftRight => false
  | _ => true

/-- Running the printed expression. The flag tells whether a field of an enclosing struct is
found. -/
def runPython (env : ExprEnv) : Bool → Expr → Option Int
  | _, .numberLit n => some n
  | _, .boolLit b => some (pythonBool b)
  | outer, .fieldRef name =>
    (env.field name).bind fun f => if f.isOuter && !outer then none else some f.value
  | _, .constantRef name => env.pythonConstant name
  | _, .remaining => some ((env.remainingBits / 8 : Nat) : Int)
  | outer, .binary .logAnd left right => do
    let x ← runPython env outer left
    if x = 0 then some x else runPython env outer right
  | outer, .binary .logOr left right => do
    let x ← runPython env outer left
    if x = 0 then runPython env outer right else some x
  | outer, .binary op left right => do
    let x ← runPython env (outer && resolvesOuter op) left
    let y ← runPython env (outer && resolvesOuter op) right
    pythonBinary op x y
  | _, .unary op operand => do
    let x ← runPython env false operand
    some (pythonUnary op x)

/-! ## The printed code as a whole -/

/-- The code that is printed for an expression is accepted: by the C++ compiler, by the Java
compiler, and by Python when it loads the constants. -/
structure Compiles (env : ExprEnv) (use : ExprUse) (e : Expr) : Prop where
  cpp : (cppType env use e).isSome
  java : (javaType env e).isSome
  python : pythonImports env e

end Conduit.Ports

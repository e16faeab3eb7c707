import Conduit.Bgen.CppExpr

/-!
# Expressions of a struct

`StructEmitter::emit_expr_code` (`codegen/cpp_structs_expr.cpp:56-188`): an expression over the
members of the object that is being decoded. An operator is printed as itself, so evaluating the
printed code is evaluating the tree. A reference becomes a member access, a parameter that an
enclosing struct hands down, or, for a dotted path, a chain of accessor calls.

A member that may be absent is a `std::optional`. Where the expression is used as a number the
emitter dereferences it; in a condition the optional itself is compared, and an absent one is less
than every number.
-/

namespace Conduit.Bgen

open Io CppValue

/-- The value of a member of a generated class. A class that wraps a number or a text is the
record of what its accessors return. A member that is absent is not in the record. -/
inductive Value where
  | number (v : CppValue)
  | enumerator (v : CppValue)
  | double (pattern : Int)
  | text (chars : List UInt8)
  | bytes (bytes : List UInt8)
  | record (members : List (String × Value))
  | array (elements : List Value)
  | variant (alternative : Nat) (value : Value)

/-- The operations on numbers and optionals that C++ leaves undefined. -/
inductive Undefined where
  | divisionByZero | shiftAmount | absentOptional | signedOverflow
deriving DecidableEq

/-- Why generated code gives no value: a reader or a writer fails, an operation is undefined, the
standard library throws, a loop has not come to its end within the turns it is given, or the code
does not compile. -/
inductive Stop where
  | fault (f : Fault)
  | undefined (u : Undefined)
  | threw
  | running
  | uncompiled
deriving DecidableEq

/-- The value of a printed subexpression. -/
inductive Operand where
  | number (v : CppValue)
  | enumerator (v : CppValue)
  | optional (v : Option CppValue)

theorem except_bind_eq_ok {ε α β : Type} {x : Except ε α} {f : α → Except ε β} {b : β} :
    (x >>= f) = .ok b ↔ ∃ a, x = .ok a ∧ f a = .ok b := by
  cases x <;> simp [bind, Except.bind]

/-- Every error of a computation has the property. -/
def ErrorsIn {ε α : Type} (p : ε → Prop) (x : Except ε α) : Prop := ∀ e, x = .error e → p e

namespace ErrorsIn

variable {ε α β : Type} {p : ε → Prop} {x : Except ε α}

theorem ok (a : α) : ErrorsIn p (.ok a : Except ε α) := by
  intro e h
  cases h

theorem error {e : ε} (he : p e) : ErrorsIn p (.error e : Except ε α) := by
  intro e' h
  cases h
  exact he

theorem bind {f : α → Except ε β} (hx : ErrorsIn p x) (hf : ∀ a, ErrorsIn p (f a)) :
    ErrorsIn p (x >>= f) := by
  cases x with
  | ok a => exact hf a
  | error e => exact error (hx e rfl)

theorem bind_iff {f : α → Except ε β} :
    ErrorsIn p (x >>= f) ↔ ErrorsIn p x ∧ ∀ a, x = .ok a → ErrorsIn p (f a) := by
  cases x with
  | ok b =>
    refine ⟨fun h => ⟨ok b, fun a ha => ?_⟩, fun h => h.2 b rfl⟩
    cases ha
    exact h
  | error e =>
    refine ⟨fun h => ⟨error (h e rfl), fun a ha => ?_⟩, fun h => error (h.1 e rfl)⟩
    cases ha

theorem map (f : α → β) (hx : ErrorsIn p x) : ErrorsIn p (x.map f) := by
  cases x with
  | ok a => exact ok _
  | error e => exact error (hx e rfl)

end ErrorsIn

/-- What an expression can refer to: the members decoded so far, the names of those that are
optional, the parameters from enclosing structs, and the bits that remain to be read. -/
structure ExprScope where
  index : TypeIndex := {}
  optional : List String := []
  members : List (String × Value) := []
  outer : List (String × Value) := []
  remainingBits : Nat := 0

/-! ## References -/

/-- The segments of a dotted path. -/
def splitPath : List Char → List Char → List String
  | segment, [] => [String.ofList segment.reverse]
  | segment, '.' :: cs => String.ofList segment.reverse :: splitPath [] cs
  | segment, c :: cs => splitPath (c :: segment) cs

def pathSegments (name : String) : List String := splitPath [] name.toList

/-- A chain of accessor calls. The accessor of an absent member throws. -/
def callAccessors : Value → List String → Except Stop Value
  | v, [] => .ok v
  | .record members, segment :: rest =>
    match members.lookup segment with
    | some v => callAccessors v rest
    | none => .error .threw
  | _, _ :: _ => .error .uncompiled

/-- A member as an operand. -/
def Value.operand : Value → Except Stop Operand
  | .number v => .ok (.number v.promote)
  | .enumerator v => .ok (.enumerator v)
  | _ => .error .uncompiled

/-- The optional itself, without its value being taken. -/
def optionalOperand : Option Value → Except Stop Operand
  | none => .ok (.optional none)
  | some (.number v) => .ok (.optional (some v.promote))
  | some _ => .error .uncompiled

/-- `cpp_structs_expr.cpp:63-119`. -/
def fieldRef (scope : ExprScope) (valueContext : Bool) (name : String) : Except Stop Operand :=
  match pathSegments name with
  | [] => .error .uncompiled
  | first :: rest =>
    match scope.outer.lookup first with
    | some v => callAccessors v rest >>= Value.operand
    | none =>
      if first ∈ scope.optional then
        match rest, valueContext, scope.members.lookup first with
        | [], false, v => optionalOperand v
        | _, _, some v => callAccessors v rest >>= Value.operand
        | _, _, none => .error (.undefined .absentOptional)
      else
        match scope.members.lookup first with
        | some v => callAccessors v rest >>= Value.operand
        | none => .error .uncompiled

/-! ## Operators -/

/-- A binary operation on numbers. A quotient that leaves its type is an overflow. -/
def numberBinary (op : BinaryOp) (a b : CppValue) : Except Stop Operand :=
  match binary op a b with
  | some v => .ok (.number v)
  | none =>
    match op with
    | .div | .mod =>
      if (convert (commonType a.type b.type) b.value).value = 0
      then .error (.undefined .divisionByZero)
      else .error (.undefined .signedOverflow)
    | .shiftLeft | .shiftRight => .error (.undefined .shiftAmount)
    | _ => .error (.undefined .signedOverflow)

def BinaryOp.isComparison : BinaryOp → Bool
  | .eq | .neq | .lt | .lte | .gt | .gte => true
  | _ => false

/-- A comparison in which an absent optional takes part: it is equal to another absent one and
less than every number. -/
def compareAbsent (op : BinaryOp) (leftPresent rightPresent : Bool) : Bool :=
  match op with
  | .eq => leftPresent == rightPresent
  | .neq => leftPresent != rightPresent
  | .lt => !leftPresent && rightPresent
  | .lte => !leftPresent
  | .gt => leftPresent && !rightPresent
  | _ => !rightPresent

/-- A comparison with at least one optional operand. -/
def compareOptional (op : BinaryOp) (a b : Option CppValue) : Except Stop Operand :=
  match a, b with
  | some a, some b => numberBinary op a b
  | _, _ => .ok (.number (ofBool (compareAbsent op a.isSome b.isSome)))

/-- Scoped enumerations are compared with values of the same type only. -/
def compareEnumerators (op : BinaryOp) (a b : CppValue) : Except Stop Operand :=
  if a.type = b.type then numberBinary op a b else .error .uncompiled

namespace Operand

/-- The operand of a comparison as an optional. -/
def asOptional : Operand → Option (Option CppValue)
  | .number v => some (some v)
  | .optional v => some v
  | .enumerator _ => none

/-- The conversion to `bool` in a condition: an optional is true when it holds a value. -/
def toBool : Operand → Except Stop Bool
  | .number v => .ok (v.value != 0)
  | .optional v => .ok v.isSome
  | .enumerator _ => .error .uncompiled

/-- The binary operators other than `&&` and `||`. -/
def binary (op : BinaryOp) : Operand → Operand → Except Stop Operand
  | .number a, .number b => numberBinary op a b
  | .enumerator a, .enumerator b =>
    if op.isComparison then compareEnumerators op a b else .error .uncompiled
  | a, b =>
    if op.isComparison then
      match a.asOptional, b.asOptional with
      | some a, some b => compareOptional op a b
      | _, _ => .error .uncompiled
    else .error .uncompiled

def unary (op : UnaryOp) (a : Operand) : Except Stop Operand :=
  match op, a with
  | .logNot, a => a.toBool.map fun b => .number (CppValue.ofBool !b)
  | op, .number a =>
    match CppValue.unary op a with
    | some v => .ok (.number v)
    | none => .error (.undefined .signedOverflow)
  | _, _ => .error .uncompiled

/-- `static_cast<size_t>` of an expression. -/
def toSize : Operand → Except Stop Nat
  | .number v => .ok v.toSize
  | .enumerator v => .ok v.toSize
  | .optional _ => .error .uncompiled

end Operand

/-! ## Evaluation -/

/-- Evaluating the code that `emit_expr_code` prints, over the value of every reference. A literal
of a parsed expression is not negative. -/
def evalWith (index : TypeIndex) (remainingBits : Nat) (ref : String → Except Stop Operand) :
    Expr → Except Stop Operand
  | .numberLit n => .ok (.number (literal n))
  | .boolLit b => .ok (.number (ofBool b))
  | .fieldRef name => ref name
  | .constantRef name =>
    match (index.constant? name).bind (constantValue index) with
    | some v => .ok (.number v.promote)
    | none => .error .uncompiled
  | .remaining => .ok (.number ⟨sizeType, (remainingBits / 8 : Nat)⟩)
  | .binary .logAnd left right => do
    let a ← (← evalWith index remainingBits ref left).toBool
    if a then
      let b ← (← evalWith index remainingBits ref right).toBool
      return .number (ofBool b)
    else return .number (ofBool false)
  | .binary .logOr left right => do
    let a ← (← evalWith index remainingBits ref left).toBool
    if a then return .number (ofBool true)
    else
      let b ← (← evalWith index remainingBits ref right).toBool
      return .number (ofBool b)
  | .binary op left right => do
    let a ← evalWith index remainingBits ref left
    let b ← evalWith index remainingBits ref right
    Operand.binary op a b
  | .unary op operand => do
    let a ← evalWith index remainingBits ref operand
    Operand.unary op a

/-- `cpp_structs_expr.cpp:56-188`. -/
def evalExpr (scope : ExprScope) (valueContext : Bool) (e : Expr) : Except Stop Operand :=
  evalWith scope.index scope.remainingBits (fieldRef scope valueContext) e

/-- The test of an `if` around a conditional child. -/
def evalCondition (scope : ExprScope) (e : Expr) : Except Stop Bool := do
  (← evalExpr scope false e).toBool

/-- A length or a count, as the `size_t` it is converted to. -/
def evalSize (scope : ExprScope) (e : Expr) : Except Stop Nat := do
  (← evalExpr scope true e).toSize

end Conduit.Bgen

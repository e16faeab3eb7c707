import Conduit.Bgen.Accepted
import Conduit.Bgen.StructDecode

/-!
# Undefined operations in expressions

The expressions of a definition are evaluated over values from the input, and the generated code
checks none of them. An expression that divides by literals and shifts by literals only, and takes
the value of no optional member, has no undefined operation for any input (`Expr.guarded`): the
condition is on the text of the expression and the declarations of the members.
-/

namespace Conduit.Bgen

open Io CppValue ErrorsIn

/-- No operation of the three kinds is executed. -/
abbrev AvoidsUndefined {α : Type} (x : Except Stop α) : Prop :=
  ErrorsIn (fun e => ∀ u, u ≠ .signedOverflow → e ≠ .undefined u) x

/-! ## The condition -/

/-- The reference names no optional member, or one that is only compared as an optional. -/
def refGuarded (optional : List String) (valueContext : Bool) (name : String) : Bool :=
  match pathSegments name with
  | [] => true
  | first :: rest => !decide (first ∈ optional) || rest.isEmpty && !valueContext

/-- A literal between two bounds. -/
def Expr.literalIn (low high : Int) : Expr → Bool
  | .numberLit n => decide (low ≤ n ∧ n < high)
  | _ => false

/-- The right operands that an operator takes without being undefined, whatever its left operand. -/
def BinaryOp.takes (op : BinaryOp) (right : Expr) : Bool :=
  match op with
  | .div | .mod => right.literalIn 1 (2 ^ 31)
  | .shiftLeft | .shiftRight => right.literalIn 0 32
  | _ => true

/-- Every divisor is a literal from 1 on, every shift amount a literal below 32, and no reference
takes the value of a member among `optional`. -/
def Expr.guarded (optional : List String) (valueContext : Bool) : Expr → Bool
  | .fieldRef name => refGuarded optional valueContext name
  | .binary op left right =>
    left.guarded optional valueContext && right.guarded optional valueContext && op.takes right
  | .unary _ operand => operand.guarded optional valueContext
  | _ => true

/-- The expression of a step is guarded. The member that a switch or an argument is must not be
optional. -/
def DecodeEvent.Guarded : DecodeEvent → Bool
  | .condition scope e => e.guarded scope.optional false
  | .size _ scope e _ => e.guarded scope.optional true
  | .switch scope (.fieldRef name) => refGuarded scope.optional true name
  | .switch scope e => e.guarded scope.optional false
  | .argument scope name => refGuarded scope.optional true name
  | _ => true

/-! ## References -/

section

variable {α : Type}

theorem avoids_ok (a : α) : AvoidsUndefined (.ok a) := .ok a

theorem avoids_uncompiled : AvoidsUndefined (.error .uncompiled : Except Stop α) := .error (by simp)

theorem avoids_overflow :
    AvoidsUndefined (.error (.undefined .signedOverflow) : Except Stop α) :=
  .error (by rintro u hu h; cases h; exact hu rfl)

end

variable {scope : ExprScope} (v : Value)

theorem avoids_callAccessors (path : List String) : AvoidsUndefined (callAccessors v path) := by
  induction path generalizing v with
  | nil => exact avoids_ok _
  | cons segment rest ih =>
    cases v with
    | record members =>
      rw [callAccessors]
      split
      · exact ih _
      · exact .error (by simp)
    | _ => exact avoids_uncompiled

theorem avoids_operand : AvoidsUndefined v.operand := by
  unfold Value.operand
  split
  · exact avoids_ok _
  · exact avoids_ok _
  · exact avoids_uncompiled

theorem avoids_switchNumber : AvoidsUndefined v.switchNumber := by
  unfold Value.switchNumber
  split
  · exact avoids_ok _
  · exact avoids_ok _
  · exact avoids_uncompiled

theorem avoids_fieldRef {valueContext : Bool} {name : String}
    (h : refGuarded scope.optional valueContext name = true) :
    AvoidsUndefined (fieldRef scope valueContext name) := by
  have haccess : ∀ (v : Value) (rest : List String),
      AvoidsUndefined (callAccessors v rest >>= Value.operand) :=
    fun v rest => (avoids_callAccessors v rest).bind avoids_operand
  unfold refGuarded at h
  unfold fieldRef
  cases hpath : pathSegments name with
  | nil => exact avoids_uncompiled
  | cons first rest =>
    simp only [hpath] at h
    dsimp only
    cases scope.outer.lookup first with
    | some v => exact haccess v rest
    | none =>
      by_cases hoptional : first ∈ scope.optional
      · obtain ⟨rfl, rfl⟩ : rest = [] ∧ valueContext = false := by simpa [hoptional] using h
        rw [if_pos hoptional]
        rcases scope.members.lookup first with _ | v
        · exact avoids_ok _
        · cases v <;> first | exact avoids_ok _ | exact avoids_uncompiled
      · rw [if_neg hoptional]
        cases scope.members.lookup first with
        | some v => exact haccess v rest
        | none => exact avoids_uncompiled

theorem avoids_refValue {name : String} (h : refGuarded scope.optional true name = true) :
    AvoidsUndefined (refValue scope name) := by
  unfold refGuarded at h
  unfold refValue
  cases hpath : pathSegments name with
  | nil => exact avoids_uncompiled
  | cons first rest =>
    have hoptional : first ∉ scope.optional := by simpa [hpath] using h
    dsimp only
    cases scope.outer.lookup first with
    | some v => exact avoids_callAccessors v rest
    | none =>
      cases scope.members.lookup first with
      | some v => exact avoids_callAccessors v rest
      | none =>
        rw [if_neg hoptional]
        exact avoids_uncompiled

/-! ## Promoted operands

A shift by less than 32 is defined because its left operand has been promoted. -/

/-- The operand has at least the width of an `int`. -/
def Operand.Promoted : Operand → Prop
  | .number v => 32 ≤ v.type.bits
  | _ => True

theorem promoted_promote (v : CppValue) : 32 ≤ v.promote.type.bits := by
  unfold CppValue.promote
  split
  · exact Nat.le_refl _
  · omega

theorem promoted_operand {v : Value} {a : Operand} (h : v.operand = .ok a) : a.Promoted := by
  unfold Value.operand at h
  split at h
  · cases h
    exact promoted_promote _
  · cases h
    trivial
  · cases h

theorem promoted_fieldRef {valueContext : Bool} {name : String} {a : Operand}
    (h : fieldRef scope valueContext name = .ok a) : a.Promoted := by
  have haccess : ∀ (v : Value) (rest : List String),
      (callAccessors v rest >>= Value.operand) = .ok a → a.Promoted := by
    intro v rest h
    obtain ⟨v', -, h'⟩ := except_bind_eq_ok.1 h
    exact promoted_operand h'
  have hoptional : ∀ v, optionalOperand v = .ok a → a.Promoted := by
    rintro (_ | v) h
    · cases h
      trivial
    · cases v <;> cases h
      trivial
  unfold fieldRef at h
  split at h
  · cases h
  split at h
  · exact haccess _ _ h
  split at h
  · split at h
    · exact hoptional _ h
    · exact haccess _ _ h
    · cases h
  · split at h
    · exact haccess _ _ h
    · cases h

theorem bits_commonType {a b : IntType} (ha : 32 ≤ a.bits) (hb : 32 ≤ b.bits) :
    32 ≤ (commonType a b).bits := by
  unfold commonType
  split
  · exact ha
  split
  · exact hb
  · exact ha

theorem promoted_checked {type : IntType} {value : Int} {v : CppValue} (hbits : 32 ≤ type.bits)
    (h : checked type value = some v) : 32 ≤ v.type.bits := by
  unfold checked at h
  split at h
  · cases h
  · cases h
    exact hbits

theorem promoted_numberBinary {op : BinaryOp} {a b : CppValue} {v : Operand}
    (ha : 32 ≤ a.type.bits) (hb : 32 ≤ b.type.bits) (h : numberBinary op a b = .ok v) :
    v.Promoted := by
  have hcommon := bits_commonType ha hb
  have hshift : ∀ left v, shift left a b = some v → 32 ≤ v.type.bits := by
    intro left v h
    unfold shift at h
    split at h
    · cases h
    split at h
    · cases h
      exact ha
    · cases h
      exact ha
  unfold numberBinary at h
  cases hbinary : binary op a b with
  | none =>
    rw [hbinary] at h
    cases op
    case div | mod =>
      dsimp only at h
      split at h <;> cases h
    all_goals cases h
  | some w =>
    rw [hbinary] at h
    cases h
    cases op
    case add | sub | mul => exact promoted_checked hcommon hbinary
    case div =>
      simp only [binary, Option.ite_none_left_eq_some] at hbinary
      exact promoted_checked hcommon hbinary.2
    case mod =>
      simp only [binary, Option.ite_none_left_eq_some, Option.map_eq_some_iff] at hbinary
      obtain ⟨-, -, -, rfl⟩ := hbinary
      exact hcommon
    case shiftLeft => exact hshift true w hbinary
    case shiftRight => exact hshift false w hbinary
    all_goals
      cases hbinary
      first | exact hcommon | exact Nat.le_refl 32

theorem promoted_binary {op : BinaryOp} {a b v : Operand} (ha : a.Promoted) (hb : b.Promoted)
    (h : Operand.binary op a b = .ok v) : v.Promoted := by
  have hcompare : ∀ {x y : CppValue}, op.isComparison = true → numberBinary op x y = .ok v →
      v.Promoted := by
    intro x y hop h
    cases op
    case eq | neq | lt | lte | gt | gte =>
      cases h
      exact Nat.le_refl 32
    all_goals cases hop
  have hoptional : ∀ {x y : Option CppValue}, op.isComparison = true →
      compareOptional op x y = .ok v → v.Promoted := by
    intro x y hop h
    unfold compareOptional at h
    split at h
    · exact hcompare hop h
    · cases h
      exact Nat.le_refl 32
  unfold Operand.binary at h
  split at h
  · exact promoted_numberBinary ha hb h
  · split at h
    next hop =>
      unfold compareEnumerators at h
      split at h
      · exact hcompare hop h
      · cases h
    next => cases h
  · split at h
    next hop =>
      split at h
      · exact hoptional hop h
      · cases h
    next => cases h

theorem promoted_unary {op : UnaryOp} {a v : Operand} (ha : a.Promoted)
    (h : Operand.unary op a = .ok v) : v.Promoted := by
  unfold Operand.unary at h
  split at h
  · cases hbool : a.toBool with
    | error e => simp [hbool, Except.map] at h
    | ok b =>
      simp only [hbool, Except.map, Except.ok.injEq] at h
      subst h
      exact Nat.le_refl 32
  · split at h
    next w hunary =>
      cases h
      cases op
      case negate => exact promoted_checked ha hunary
      all_goals
        cases hunary
        first | exact ha | exact Nat.le_refl 32
    next => cases h
  · cases h

/-- Every operand that the code computes is promoted. -/
theorem promoted_evalWith {index : TypeIndex} {remainingBits : Nat}
    {ref : String → Except Stop Operand} (href : ∀ name a, ref name = .ok a → a.Promoted) (e : Expr)
    {a : Operand} (h : evalWith index remainingBits ref e = .ok a) : a.Promoted := by
  induction e generalizing a with
  | numberLit n =>
    cases h
    show 32 ≤ (literal n).type.bits
    unfold literal
    split
    · exact Nat.le_refl 32
    · show 32 ≤ 64
      decide
  | boolLit b =>
    cases h
    exact Nat.le_refl 32
  | remaining =>
    cases h
    show 32 ≤ 64
    decide
  | fieldRef name => exact href name a h
  | constantRef name =>
    unfold evalWith at h
    split at h
    · cases h
      exact promoted_promote _
    · cases h
  | binary op left right ihl ihr =>
    have hbool : ∀ {x : Except Stop Bool},
        (do let b ← x; return Operand.number (ofBool b) : Except Stop Operand) = .ok a →
        a.Promoted := by
      intro x h
      obtain ⟨b, -, hb⟩ := except_bind_eq_ok.1 h
      cases hb
      exact Nat.le_refl 32
    cases op with
    | logAnd =>
      obtain ⟨x, -, hx⟩ := except_bind_eq_ok.1 h
      obtain ⟨b, -, hb⟩ := except_bind_eq_ok.1 hx
      split at hb
      · obtain ⟨y, -, hy⟩ := except_bind_eq_ok.1 hb
        exact hbool hy
      · cases hb
        exact Nat.le_refl 32
    | logOr =>
      obtain ⟨x, -, hx⟩ := except_bind_eq_ok.1 h
      obtain ⟨b, -, hb⟩ := except_bind_eq_ok.1 hx
      split at hb
      · cases hb
        exact Nat.le_refl 32
      · obtain ⟨y, -, hy⟩ := except_bind_eq_ok.1 hb
        exact hbool hy
    | _ =>
      obtain ⟨x, hx, hrest⟩ := except_bind_eq_ok.1 h
      obtain ⟨y, hy, hxy⟩ := except_bind_eq_ok.1 hrest
      exact promoted_binary (ihl hx) (ihr hy) hxy
  | unary op operand ih =>
    obtain ⟨x, hx, hunary⟩ := except_bind_eq_ok.1 h
    exact promoted_unary (ih hx) hunary

/-! ## Operators -/

/-- A divisor is not zero in the type of the quotient, and a shift amount is in the width of the
left operand. -/
def OperandsFit (op : BinaryOp) : Operand → Operand → Prop
  | .number a, .number b =>
    match op with
    | .div | .mod => (convert (commonType a.type b.type) b.value).value ≠ 0
    | .shiftLeft | .shiftRight => 0 ≤ b.value ∧ b.value < a.type.bits
    | _ => True
  | _, _ => True

theorem convert_commonType_ne_zero {a : IntType} {n : Int} (hlow : 1 ≤ n) (hhigh : n < 2 ^ 31) :
    (convert (commonType a int32) n).value ≠ 0 := by
  have hbits : 32 ≤ (commonType a int32).bits := by
    unfold commonType
    split
    · next h => exact h ▸ Nat.le_refl 32
    split
    · exact Nat.le_refl 32
    · next h h' => simp only [int32] at h h' ⊢; omega
  have hpow : (2 ^ 32 : Nat) ≤ 2 ^ (commonType a int32).bits := Nat.pow_le_pow_right (by decide) hbits
  unfold convert
  dsimp only
  split
  · rw [Int.bmod_eq_of_le (by omega) (by omega)]
    omega
  · rw [Int.emod_eq_of_lt (by omega) (by omega)]
    omega

theorem operandsFit_of_takes {index : TypeIndex} {remainingBits : Nat}
    {ref : String → Except Stop Operand} {op : BinaryOp} {right : Expr} {a b : Operand}
    (htakes : op.takes right = true) (ha : a.Promoted)
    (hb : evalWith index remainingBits ref right = .ok b) : OperandsFit op a b := by
  have hliteral : ∀ {low high : Int}, 0 ≤ low → high ≤ 2 ^ 31 → right.literalIn low high = true →
      ∃ n, b = .number ⟨int32, n⟩ ∧ low ≤ n ∧ n < high := by
    intro low high hlow hhigh h
    cases right with
    | numberLit n =>
      obtain ⟨h1, h2⟩ : low ≤ n ∧ n < high := of_decide_eq_true h
      cases hb
      exact ⟨n, by rw [literal, if_pos (by omega)], h1, h2⟩
    | _ => cases h
  cases a with
  | number a =>
    cases op
    case div | mod =>
      obtain ⟨n, rfl, h1, h2⟩ := hliteral (by decide) (by decide) htakes
      exact convert_commonType_ne_zero h1 h2
    case shiftLeft | shiftRight =>
      obtain ⟨n, rfl, h1, h2⟩ := hliteral (by decide) (by decide) htakes
      have hwidth : 32 ≤ a.type.bits := ha
      exact ⟨h1, by dsimp only; omega⟩
    all_goals cases b <;> trivial
  | _ => trivial

theorem avoids_numberBinary {op : BinaryOp} {a b : CppValue}
    (h : OperandsFit op (.number a) (.number b)) : AvoidsUndefined (numberBinary op a b) := by
  unfold numberBinary
  cases hbinary : binary op a b with
  | some v => exact avoids_ok _
  | none =>
    cases op
    case div | mod =>
      dsimp only
      rw [if_neg h]
      exact avoids_overflow
    case shiftLeft | shiftRight =>
      obtain ⟨hlow, hhigh⟩ := h
      have hdefined : ∀ left, shift left a b ≠ none := by
        intro left hnone
        simp [shift, Int.not_lt.mpr hlow, Int.not_le.mpr hhigh] at hnone
        split at hnone <;> cases hnone
      exact absurd hbinary (hdefined _)
    all_goals exact avoids_overflow

theorem avoids_comparison {op : BinaryOp} (hop : op.isComparison = true) (a b : CppValue) :
    AvoidsUndefined (numberBinary op a b) := by
  apply avoids_numberBinary
  cases op
  case eq | neq | lt | lte | gt | gte => trivial
  all_goals cases hop

theorem avoids_compareOptional {op : BinaryOp} (hop : op.isComparison = true)
    (a b : Option CppValue) : AvoidsUndefined (compareOptional op a b) := by
  unfold compareOptional
  split
  · exact avoids_comparison hop _ _
  · exact avoids_ok _

theorem avoids_ite {α : Type} {p : Prop} [Decidable p] {x : Except Stop α}
    (h : p → AvoidsUndefined x) : AvoidsUndefined (if p then x else .error .uncompiled) := by
  by_cases hp : p
  · rw [if_pos hp]
    exact h hp
  · rw [if_neg hp]
    exact avoids_uncompiled

theorem avoids_binary {op : BinaryOp} {a b : Operand} (h : OperandsFit op a b) :
    AvoidsUndefined (Operand.binary op a b) := by
  cases a with
  | number a =>
    cases b with
    | number b => exact avoids_numberBinary h
    | enumerator b => exact avoids_ite fun _ => avoids_uncompiled
    | optional b => exact avoids_ite fun hop => avoids_compareOptional hop _ _
  | enumerator a =>
    cases b with
    | number b | optional b => exact avoids_ite fun _ => avoids_uncompiled
    | enumerator b => exact avoids_ite fun hop => avoids_ite fun _ => avoids_comparison hop a b
  | optional a =>
    refine avoids_ite fun hop => ?_
    cases b with
    | number b | optional b => exact avoids_compareOptional hop _ _
    | enumerator b => exact avoids_uncompiled

theorem avoids_toBool (a : Operand) : AvoidsUndefined a.toBool := by
  cases a with
  | number v => exact avoids_ok _
  | optional v => exact avoids_ok _
  | enumerator v => exact avoids_uncompiled

theorem avoids_unary (op : UnaryOp) (a : Operand) : AvoidsUndefined (Operand.unary op a) := by
  unfold Operand.unary
  split
  · exact (avoids_toBool a).map _
  · split
    · exact avoids_ok _
    · exact avoids_overflow
  · exact avoids_uncompiled

/-! ## Expressions -/

theorem avoids_evalExpr {valueContext : Bool} {e : Expr}
    (h : e.guarded scope.optional valueContext = true) :
    AvoidsUndefined (evalExpr scope valueContext e) := by
  unfold evalExpr
  induction e with
  | numberLit n | boolLit b | remaining => exact avoids_ok _
  | fieldRef name => exact avoids_fieldRef h
  | constantRef name =>
    unfold evalWith
    split
    · exact avoids_ok _
    · exact avoids_uncompiled
  | binary op left right ihl ihr =>
    simp only [Expr.guarded, Bool.and_eq_true] at h
    obtain ⟨⟨hleft, hright⟩, htakes⟩ := h
    have hbool : AvoidsUndefined (do
        let b ← (← evalWith scope.index scope.remainingBits (fieldRef scope valueContext) right).toBool
        return Operand.number (ofBool b) : Except Stop Operand) :=
      (ihr hright).bind fun b => (avoids_toBool b).bind fun _ => avoids_ok _
    cases op with
    | logAnd =>
      refine (ihl hleft).bind fun a => (avoids_toBool a).bind fun holds => ?_
      cases holds with
      | true => exact hbool
      | false => exact avoids_ok _
    | logOr =>
      refine (ihl hleft).bind fun a => (avoids_toBool a).bind fun holds => ?_
      cases holds with
      | true => exact avoids_ok _
      | false => exact hbool
    | _ =>
      refine bind_iff.2 ⟨ihl hleft, fun a ha => bind_iff.2 ⟨ihr hright, fun b hb => ?_⟩⟩
      have hpromoted := promoted_evalWith (fun _ _ => promoted_fieldRef) left ha
      exact avoids_binary (operandsFit_of_takes htakes hpromoted hb)
  | unary op operand ih => exact (ih h).bind fun a => avoids_unary op a

theorem avoids_evalSize {e : Expr} (h : e.guarded scope.optional true = true) :
    AvoidsUndefined (evalSize scope e) := by
  refine (avoids_evalExpr h).bind fun a => ?_
  cases a with
  | number v => exact avoids_ok _
  | enumerator v => exact avoids_ok _
  | optional v => exact avoids_uncompiled

theorem avoids_switchValue {e : Expr} (h : (DecodeEvent.switch scope e).Guarded = true) :
    AvoidsUndefined (DecodeM.switchValue scope e) := by
  cases e with
  | fieldRef name => exact (avoids_refValue h).bind avoids_switchNumber
  | constantRef name =>
    rw [DecodeM.switchValue]
    cases (scope.index.constant? name).bind (constantValue scope.index) with
    | some v => exact avoids_ok v
    | none => exact avoids_uncompiled
  | _ =>
    refine (avoids_evalExpr h).bind fun a => ?_
    cases a with
    | number v => exact avoids_ok _
    | enumerator v => exact avoids_ok _
    | optional v => exact avoids_uncompiled

/-! ## Runs -/

/-- The end of a run in the evaluation of an expression, or of the member that stands for a
reference in the class of a child. -/
def DecodeEvent.evaluation : DecodeEvent → Option Stop
  | .condition scope e => stopOf (evalCondition scope e)
  | .size _ scope e _ => stopOf (evalSize scope e)
  | .switch scope e => stopOf (DecodeM.switchValue scope e)
  | .argument scope name => stopOf (refValue scope name)
  | _ => none

theorem evaluation_of_guarded {event : DecodeEvent} (h : event.Guarded = true) {u : Undefined}
    (hu : u ≠ .signedOverflow) : event.evaluation ≠ some (.undefined u) := by
  have hstop : ∀ {α : Type} {x : Except Stop α}, AvoidsUndefined x →
      stopOf x ≠ some (.undefined u) :=
    fun hx heq => hx _ (stopOf_eq_some.1 heq) u hu rfl
  cases event with
  | condition scope e => exact hstop ((avoids_evalExpr h).bind avoids_toBool)
  | size use scope e r => exact hstop (avoids_evalSize h)
  | switch scope e => exact hstop (avoids_switchValue h)
  | argument scope name => exact hstop (avoids_refValue h)
  | _ => exact nofun

/-- The run ends in an undefined operation, division by zero, shift or access to an absent member,
while an expression is evaluated. -/
def Outcome.EvaluatesUndefined {α : Type} (o : Outcome α) : Prop :=
  ∃ event ∈ o.log, ∃ u, u ≠ .signedOverflow ∧ event.evaluation = some (.undefined u)
    ∧ o.result = .error (.undefined u)

/-- A byte that is there when the quotient of the two before it is one. -/
def quotientProtocol : Protocol :=
  { name := "quotient", version := "1"
    structs := [
      { attrs := { name := "Quotient" }
        children := [
          .field { name := "a", bits := some 8 },
          .field { name := "b", bits := some 8 },
          .field { name := "c", bits := some 8
                   presentWhen := some (.binary .eq (.binary .div (.fieldRef "a") (.fieldRef "b"))
                     (.numberLit 1)) }] }] }

/-- A byte that is there when half of the one before it is one. -/
def halfProtocol : Protocol :=
  { name := "half", version := "1"
    structs := [
      { attrs := { name := "Half" }
        children := [
          .field { name := "a", bits := some 8 },
          .field { name := "c", bits := some 8
                   presentWhen := some (.binary .eq (.binary .div (.fieldRef "a") (.numberLit 2))
                     (.numberLit 1)) }] }] }

end Conduit.Bgen

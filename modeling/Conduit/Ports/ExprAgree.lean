import Conduit.Ports.JavaOps

/-!
# Where the three languages agree on an expression

The three backends print the operators of an expression literally. Whether the printed codes
evaluate to the same number depends on the values: the condition `Conforms` goes through the parts
of the expression that are evaluated and asks of each operator that neither the C++ type nor the
Java type loses the exact result. It is necessary and sufficient for the three to agree on every
part.
-/

namespace Conduit.Ports

open Bgen Bits CppValue JavaValue Option

/-! ## Agreement -/

variable {op : BinaryOp} {y : Int}

/-- The three codes for an expression evaluate to the number. -/
structure Evaluates (env : ExprEnv) (use : ExprUse) (outer : Bool) (e : Expr) (n : Int) : Prop where
  cpp : ∃ o v, runCpp env use e = .ok o ∧ operandValue o = some v ∧ v.value = n
  java : JavaGives (runJava env e) n
  python : runPython env outer e = some n

/-- `&&` and `||` do not evaluate their right operand. -/
def Skips (op : BinaryOp) (x : Int) : Prop :=
  match op with
  | .logAnd => x = 0
  | .logOr => x ≠ 0
  | _ => False

/-- The three codes agree on every part of an expression that is evaluated. -/
def AgreesThroughout (env : ExprEnv) (use : ExprUse) : Bool → Expr → Prop
  | outer, .binary op left right =>
    AgreesThroughout env use (outer && resolvesOuter op) left
      ∧ (∀ x, runPython env (outer && resolvesOuter op) left = some x → ¬Skips op x →
          AgreesThroughout env use (outer && resolvesOuter op) right)
      ∧ ∃ n, Evaluates env use outer (.binary op left right) n
  | outer, .unary op operand =>
    AgreesThroughout env use false operand ∧ ∃ n, Evaluates env use outer (.unary op operand) n
  | outer, e => ∃ n, Evaluates env use outer e n

/-- The right operand is one for which the operation is meant: a divisor is not zero and a shift
amount is in the range from 0 to 63. -/
def RightOperandOk (op : BinaryOp) (y : Int) : Prop :=
  match op with
  | .div | .mod => y ≠ 0
  | .shiftLeft | .shiftRight => 0 ≤ y ∧ y < 64
  | _ => True

/-- Every divisor and every shift amount that is evaluated is as it should be. -/
def Admissible (env : ExprEnv) : Bool → Expr → Prop
  | outer, .binary op left right =>
    Admissible env (outer && resolvesOuter op) left
      ∧ ∀ x, runPython env (outer && resolvesOuter op) left = some x → ¬Skips op x →
          Admissible env (outer && resolvesOuter op) right
            ∧ ∀ y, runPython env (outer && resolvesOuter op) right = some y → RightOperandOk op y
  | _, .unary _ operand => Admissible env false operand
  | _, _ => True

/-- What the use of an expression makes of its value: a truth value in a conditional child, which
Java takes from a `boolean` only, and a number elsewhere. -/
def AgreesIn (env : ExprEnv) (use : ExprUse) (e : Expr) : Prop :=
  match use with
  | .presentWhen =>
    ∃ b : Bool, (∃ o, runCpp env use e = .ok o ∧ o.toBool = .ok b)
      ∧ runJava env e = some (.boolean b) ∧ ∃ n, runPython env true e = some n ∧ (n != 0) = b
  | _ => javaType env e ≠ some .boolean ∧ ∃ n, Evaluates env use true e n

/-! ## The condition -/

/-- The condition on a comparison in the type `t`. A negative operand that the type does not hold is
taken for a number that is greater by `2 ^ bits`. -/
def CompareConforms (op : BinaryOp) (t : IntType) (x y : Int) : Prop :=
  (t.Holds x ↔ t.Holds y) ∨
    if t.Holds x then
      match op with
      | .eq | .neq => x ≠ y + (2 ^ t.bits : Nat)
      | .lt | .gte => y + (2 ^ t.bits : Nat) ≤ x
      | _ => y + (2 ^ t.bits : Nat) < x
    else
      match op with
      | .eq | .neq => x + (2 ^ t.bits : Nat) ≠ y
      | .lt | .gte => x + (2 ^ t.bits : Nat) < y
      | _ => x + (2 ^ t.bits : Nat) ≤ y

/-- The condition on an operator of C++ whose operands have the types `a` and `b`. A sum, a
difference, a product or a bitwise operation has to fit in the common type. A quotient needs the
sign of its operands, unless it is zero. A shift has to stay below the width of the left operand. -/
def CppConforms (op : BinaryOp) (a b : IntType) (x y : Int) : Prop :=
  let t := commonType a b
  match op with
  | .add => t.Holds (x + y)
  | .sub => t.Holds (x - y)
  | .mul => t.Holds (x * y)
  | .bitAnd => t.Holds (x.land y)
  | .bitOr => t.Holds (x.lor y)
  | .bitXor => t.Holds (x.xor y)
  | .div => (t.Holds x ∧ t.Holds y ∨ x = 0) ∧ t.Holds (x.tdiv y)
  | .mod =>
    if t.Holds x ∧ t.Holds y then t.Holds (x.tdiv y)
    else (convert t y).value ∣ (convert t x).value
  | .shiftLeft => y < a.bits ∧ a.Holds (x * (2 ^ y.toNat : Nat))
  | .shiftRight => y < a.bits
  | .logAnd | .logOr => True
  | op => CompareConforms op t x y

/-- The condition on an operator with two operands: that of C++, and that of Java if the operands
are numbers there. -/
def BinaryConforms (op : BinaryOp) (a b : IntType) (ja jb : JavaType) (x y : Int) : Prop :=
  CppConforms op a b x y
    ∧ ∀ la ba lb bb, ja = .number la ba → jb = .number lb bb → JavaConforms op la lb x y

/-- Two objects of Java with one number are one object. -/
def BoxesConform (op : BinaryOp) (left right : Expr) (ja jb : JavaType) (x y : Int) : Prop :=
  (op = .eq ∨ op = .neq) → (∃ l, ja = .number l true) → (∃ l, jb = .number l true) →
    left = right ∨ x ≠ y ∨ -128 ≤ x ∧ x ≤ 127

/-- The condition on an operator with one operand; `j` is the Java type of the result. -/
def UnaryConforms (op : UnaryOp) (a : IntType) (j : JavaType) (x : Int) : Prop :=
  op = .logNot ∨ a.Holds (pythonUnary op x)
    ∧ ∀ l b, j = .number l b → (javaInt l).Holds (pythonUnary op x)

/-- The condition on an expression, over the exact values of its parts. A field has to fit in its
Java type and to be found from Python, a constant has to fit in its C++ type and in an `int`, and so
have the bits of the reader. -/
def Conforms (env : ExprEnv) (use : ExprUse) : Bool → Expr → Prop
  | _, .numberLit _ | _, .boolLit _ => True
  | outer, .fieldRef name =>
    ∀ f, env.field name = some f →
      (javaInt f.isLong).Holds f.value ∧ (f.isOuter = true → outer = true)
  | _, .constantRef name =>
    ∀ v n, env.cppConstant name = some v → env.pythonConstant name = some n →
      v.type.Holds n ∧ (javaInt false).Holds n
  | _, .remaining => env.remainingBits < 2 ^ 31
  | outer, .binary op left right =>
    Conforms env use (outer && resolvesOuter op) left
      ∧ ∀ x, runPython env (outer && resolvesOuter op) left = some x → ¬Skips op x →
          Conforms env use (outer && resolvesOuter op) right
            ∧ ∀ y, runPython env (outer && resolvesOuter op) right = some y →
                ∀ a b ja jb, cppType env use left = some a → cppType env use right = some b →
                  javaType env left = some ja → javaType env right = some jb →
                  BinaryConforms op a.type b.type ja jb x y ∧ BoxesConform op left right ja jb x y
  | _, .unary op operand =>
    Conforms env use false operand ∧ ∀ x, runPython env false operand = some x →
          ∀ a j, cppType env use operand = some a → javaType env (.unary op operand) = some j →
            UnaryConforms op a.type j x

/-! ## Operators -/

theorem binary_compare (hop : op.isComparison = true) (v w : CppValue) :
    binary op v w = some (ofBool (compareInt op (convert (commonType v.type w.type) v.value).value
      (convert (commonType v.type w.type) w.value).value)) := by
  cases op <;> first | rfl | exact absurd hop (by decide)

theorem convert_common {a b : IntType} {x : Int} (ha : a.IsPromoted) (hb : b.IsPromoted)
    (hx : a.Holds x) (hout : ¬(commonType a b).Holds x) :
    (convert (commonType a b) x).value = x + (2 ^ (commonType a b).bits : Nat) ∧ x < 0
      ∧ (commonType a b).isSigned = false := by
  obtain ⟨abits, asigned⟩ := a
  obtain ⟨bbits, bsigned⟩ := b
  obtain rfl | rfl : abits = 32 ∨ abits = 64 := ha <;>
    obtain rfl | rfl : bbits = 32 ∨ bbits = 64 := hb <;>
    cases asigned <;> cases bsigned <;>
    simp [commonType, IntType.Holds, convert] at hx hout ⊢ <;> omega

theorem compare_agrees_iff {a b : IntType} {x : Int} (hop : op.isComparison = true)
    (ha : a.IsPromoted) (hb : b.IsPromoted) (hx : a.Holds x) (hy : b.Holds y) :
    compareInt op (convert (commonType a b) x).value (convert (commonType a b) y).value
        = compareInt op x y
      ↔ CompareConforms op (commonType a b) x y := by
  have ht := (isPromoted_commonType ha hb).bits_pos
  have hleft := convert_common ha hb hx
  have hright := convert_common hb ha hy
  rw [commonType_comm b a] at hright
  have hnonneg : ∀ {z}, (commonType a b).isSigned = false → (commonType a b).Holds z → 0 ≤ z := by
    intro z hsigned hz
    rw [IntType.Holds, if_neg (by simp [hsigned])] at hz
    exact hz.1
  unfold CompareConforms
  by_cases hin : (commonType a b).Holds x <;> by_cases hin' : (commonType a b).Holds y
  · rw [(convert_value_eq_iff ht).2 hin, (convert_value_eq_iff ht).2 hin']
    simp [hin, hin']
  · obtain ⟨hconv, hneg, hsigned⟩ := hright hin'
    have hpos := hnonneg hsigned hin
    rw [(convert_value_eq_iff ht).2 hin, hconv, if_pos hin]
    generalize ((2 ^ (commonType a b).bits : Nat) : Int) = width
    cases op <;> first | exact absurd hop (by decide) | (simp [compareInt, bne, hin, hin']; omega)
  · obtain ⟨hconv, hneg, hsigned⟩ := hleft hin
    have hpos := hnonneg hsigned hin'
    rw [(convert_value_eq_iff ht).2 hin', hconv, if_neg hin]
    generalize ((2 ^ (commonType a b).bits : Nat) : Int) = width
    cases op <;> first | exact absurd hop (by decide) | (simp [compareInt, bne, hin, hin']; omega)
  · rw [(hleft hin).1, (hright hin').1]
    refine iff_of_true ?_ (.inl (iff_of_false hin hin'))
    cases op <;> first | exact absurd hop (by decide) | simp [compareInt, bne]

theorem ofBool_value_eq_iff {p q : Bool} : (ofBool p).value = pythonBool q ↔ p = q := by
  cases p <;> cases q <;> decide

theorem gives_binary_iff {v w : CppValue} (hv : v.WF) (hw : w.WF) {n : Int}
    (hop : isLogical op = false) (hright : RightOperandOk op w.value)
    (hround : op = .div ∨ op = .mod → w.value ∣ v.value ∨ 0 ≤ v.value * w.value)
    (hn : pythonBinary op v.value w.value = some n) :
    Gives (binary op v w) n ↔ CppConforms op v.type w.type v.value w.value := by
  cases op with
  | logAnd | logOr => exact absurd hop (by decide)
  | add => exact some.inj hn ▸ gives_ring_iff hv hw (· + ·) rfl Int.ModEq.add
  | sub => exact some.inj hn ▸ gives_ring_iff hv hw (· - ·) rfl Int.ModEq.sub
  | mul => exact some.inj hn ▸ gives_ring_iff hv hw (· * ·) rfl Int.ModEq.mul
  | bitAnd => exact some.inj hn ▸ gives_bitAnd_iff hv hw
  | bitOr => exact some.inj hn ▸ gives_bitOr_iff hv hw
  | bitXor => exact some.inj hn ▸ gives_bitXor_iff hv hw
  | div =>
    have hy : w.value ≠ 0 := hright
    have hexact := hround (.inl rfl)
    rw [pythonBinary, if_neg hy, ← (tdiv_eq_fdiv_iff hy).2 hexact] at hn
    exact some.inj hn ▸ gives_div_iff hv hw hy hexact
  | mod =>
    have hy : w.value ≠ 0 := hright
    have hexact := hround (.inr rfl)
    rw [pythonBinary, if_neg hy, ← (tmod_eq_fmod_iff hy).2 hexact] at hn
    exact some.inj hn ▸ gives_mod_iff hv hw hy hexact
  | shiftLeft =>
    rw [pythonBinary, if_neg (not_lt.2 hright.1)] at hn
    exact some.inj hn ▸ gives_shiftLeft_iff hv hright.1
  | shiftRight =>
    rw [pythonBinary, if_neg (not_lt.2 hright.1)] at hn
    exact some.inj hn ▸ gives_shiftRight_iff hv hright.1
  | eq | neq | lt | lte | gt | gte =>
    rw [binary_compare rfl, gives_some, ← some.inj hn]
    exact ofBool_value_eq_iff.trans
      (compare_agrees_iff rfl hv.promoted hw.promoted hv.holds hw.holds)

theorem sameBox_eq_iff {f g : String} {x : Int} (hfg : f = g → x = y) :
    sameBox f g x y = (x == y) ↔ f = g ∨ x ≠ y ∨ -128 ≤ x ∧ x ≤ 127 := by
  by_cases hname : f = g
  · simp [sameBox, hname, hfg hname]
  by_cases hxy : x = y
  · subst hxy
    simp [sameBox, hname]
  · simp [sameBox, beq_eq_false_iff_ne.2 hname, beq_eq_false_iff_ne.2 hxy, hxy]

theorem pythonBool_inj {p q : Bool} : pythonBool p = pythonBool q ↔ p = q := by
  cases p <;> cases q <;> decide

theorem javaGives_boolean {p q : Bool} : JavaGives (some (.boolean p)) (pythonBool q) ↔ p = q := by
  rw [javaGives_some]
  exact pythonBool_inj

theorem forall_number_iff {l l' b b' : Bool} {P : Bool → Bool → Prop} :
    (∀ la ba lb bb, JavaType.number l b = .number la ba → JavaType.number l' b' = .number lb bb →
      P la lb) ↔ P l l' := by
  constructor
  · intro h
    exact h _ _ _ _ rfl rfl
  · rintro h _ _ _ _ ⟨⟩ ⟨⟩
    exact h

theorem shift_in_range (h : RightOperandOk op y) :
    op = .shiftLeft ∨ op = .shiftRight → 0 ≤ y ∧ y < 64 := by
  rintro (rfl | rfl) <;> exact h

theorem javaGives_binary_iff (left right : Expr) {p q : JavaValue} {t : JavaType} {n : Int}
    (hop : isLogical op = false) (hp : p.InRange) (ht : javaBinaryType op p.type q.type = some t)
    (hok : RightOperandOk op q.toInt) (hleft : ∀ l f m, p = .boxed l f m → left = .fieldRef f)
    (hright : ∀ l f m, q = .boxed l f m → right = .fieldRef f) (hsame : left = right → p = q)
    (hn : pythonBinary op p.toInt q.toInt = some n) : JavaGives (javaBinary op p q) n
      ↔ (∀ la ba lb bb, p.type = .number la ba → q.type = .number lb bb →
            JavaConforms op la lb p.toInt q.toInt)
          ∧ BoxesConform op left right p.type q.type p.toInt q.toInt := by
  have harith : ∀ {la lb ba bb x y}, p.type = .number la ba → q.type = .number lb bb →
      p.toInt = x → q.toInt = y → (javaInt la).Holds x →
      (JavaGives (javaArith op la lb x y) n
        ↔ ∀ la ba lb bb, p.type = .number la ba → q.type = .number lb bb →
            JavaConforms op la lb p.toInt q.toInt) := by
    rintro la lb ba bb x y hpt hqt rfl rfl hx
    rw [hpt, hqt, forall_number_iff]
    exact javaGives_arith_iff hop hx (shift_in_range hok) hn
  cases p with
  | boolean b =>
    cases q with
    | boolean c =>
      refine iff_of_true (javaGives_logic hop ht hn) ⟨?_, ?_⟩
      · rintro _ _ _ _ ⟨⟩
      · rintro - ⟨_, ⟨⟩⟩
    | number | boxed => cases ht
  | number la x =>
    have hbox : BoxesConform op left right (number la x).type q.type x q.toInt := by
      rintro - ⟨_, ⟨⟩⟩
    cases q with
    | boolean => cases ht
    | number | boxed => exact (harith rfl rfl rfl rfl hp).trans (and_iff_left hbox).symm
  | boxed la f x =>
    cases q with
    | boolean => cases ht
    | number lb y =>
      have hbox : BoxesConform op left right (boxed la f x).type (number lb y).type x y := by
        rintro - - ⟨_, ⟨⟩⟩
      exact (harith rfl rfl rfl rfl hp).trans (and_iff_left hbox).symm
    | boxed lb g y =>
      obtain rfl := hleft _ _ _ rfl
      obtain rfl := hright _ _ _ rfl
      have hfg : f = g → x = y := by
        rintro rfl
        cases hsame rfl
        rfl
      have hbox : ∀ hcmp : op = .eq ∨ op = .neq,
          BoxesConform op (.fieldRef f) (.fieldRef g) (boxed la f x).type
            (boxed lb g y).type x y ↔ sameBox f g x y = (x == y) := by
        intro hcmp
        rw [sameBox_eq_iff hfg]
        constructor
        · intro h
          exact (h hcmp ⟨la, rfl⟩ ⟨lb, rfl⟩).imp (by simp) id
        · rintro h - - -
          exact h.imp (by simp) id
      have hother : op ≠ .eq → op ≠ .neq →
          BoxesConform op (.fieldRef f) (.fieldRef g) (boxed la f x).type
            (boxed lb g y).type x y := by
        rintro heq hneq (h | h)
        · exact absurd h heq
        · exact absurd h hneq
      cases op with
      | eq =>
        cases hn
        rw [and_iff_right (by intros; trivial)]
        exact javaGives_boolean.trans (hbox (.inl rfl)).symm
      | neq =>
        cases hn
        rw [and_iff_right (by intros; trivial)]
        exact (javaGives_boolean.trans Bool.not_inj_iff).trans (hbox (.inr rfl)).symm
      | _ =>
        exact (harith rfl rfl rfl rfl hp).trans (and_iff_left (hother (by decide) (by decide))).symm

/-! ## Evaluated parts -/

theorem runPython_binary (hop : isLogical op = false) (env : ExprEnv) (outer : Bool)
    (left right : Expr) : runPython env outer (.binary op left right) = (do
      let x ← runPython env (outer && resolvesOuter op) left
      let y ← runPython env (outer && resolvesOuter op) right
      pythonBinary op x y) := by
  cases op <;> first | rfl | exact absurd hop (by decide)

theorem pythonBinary_isSome (h : RightOperandOk op y) (x : Int) :
    ∃ n, pythonBinary op x y = some n := by
  cases op with
  | div | mod => exact ⟨_, if_neg h⟩
  | shiftLeft | shiftRight => exact ⟨_, if_neg (not_lt.2 h.1)⟩
  | _ => exact ⟨_, rfl⟩

theorem numbers_of_quotient (hop : op = .div ∨ op = .mod) {a b t : JavaType}
    (h : javaBinaryType op a b = some t) :
    ∃ la ba lb bb, a = .number la ba ∧ b = .number lb bb := by
  rcases hop with rfl | rfl <;> cases a <;> cases b <;> simp [javaBinaryType] at h ⊢

theorem isOptional_of_binary {a b t : CppType} (h : cppBinaryType op a b = some t) :
    t.isOptional = false := by
  obtain ⟨a, oa⟩ := a
  obtain ⟨b, ob⟩ := b
  cases op <;> cases oa <;> cases ob <;> simp [cppBinaryType] at h <;> rw [← h]

theorem isOptional_of_unary {op : UnaryOp} {a t : CppType} (h : cppUnaryType op a = some t) :
    t.isOptional = false := by
  obtain ⟨a, oa⟩ := a
  cases op <;> cases oa <;> simp [cppUnaryType] at h <;> rw [← h]

section

variable {env : ExprEnv} {use : ExprUse} {outer : Bool} {op : BinaryOp}
  {left right e operand : Expr} {x n : Int} {a : CppType} {c : Bool} {j : JavaType} {name : String}

theorem evaluates_binary_iff {y : Int} {b : CppType} {ja jb : JavaType} (hop : isLogical op = false)
    (hp : Parsed (.binary op left right)) (hcpp : (cppType env use (.binary op left right)).isSome)
    (hjava : (javaType env (.binary op left right)).isSome) (ha : cppType env use left = some a)
    (hb : cppType env use right = some b) (hja : javaType env left = some ja)
    (hjb : javaType env right = some jb) (hl : Evaluates env use (outer && resolvesOuter op) left x)
    (hr : Evaluates env use (outer && resolvesOuter op) right y) (hok : RightOperandOk op y) :
    (∃ n, Evaluates env use outer (.binary op left right) n)
      ↔ BinaryConforms op a.type b.type ja jb x y ∧ BoxesConform op left right ja jb x y := by
  obtain ⟨⟨o, v, hol, hv, rfl⟩, ⟨p, hpl, hpx⟩, hxl⟩ := hl
  obtain ⟨⟨o', w, hor, hw, rfl⟩, ⟨q, hqr, hqy⟩, hyr⟩ := hr
  obtain ⟨n, hn⟩ := pythonBinary_isSome hok v.value
  obtain ⟨t, ht⟩ : ∃ t, cppBinaryType op a b = some t := by
    simpa [cppType, ha, hb, isSome_iff_exists] using hcpp
  obtain ⟨j, hj⟩ : ∃ j, javaBinaryType op ja jb = some j := by
    simpa [javaType, hja, hjb, isSome_iff_exists] using hjava
  have hot := runCpp_hasType hp.1 ha hol
  have hot' := runCpp_hasType hp.2 hb hor
  obtain ⟨v', hv', hvwf, hvt⟩ := hot.value
  obtain rfl := some.inj (hv.symm.trans hv')
  obtain ⟨w', hw', hwwf, hwt⟩ := hot'.value
  obtain rfl := some.inj (hw.symm.trans hw')
  obtain ⟨hpt, hprange⟩ := runJava_type hp.1 hja hpl
  obtain ⟨hqt, -⟩ := runJava_type hp.2 hjb hqr
  have hcppRun : runCpp env use (.binary op left right) = numberBinary op v w := by
    rw [runCpp_binary hop, hol, hor]
    exact binary_eq_numberBinary hot hot' ht hop hv hw
  have hjavaRun : runJava env (.binary op left right) = javaBinary op p q := by
    rw [runJava_binary hop, hpl, hqr]
    rfl
  have hpyRun : runPython env outer (.binary op left right) = some n := by
    rw [runPython_binary hop, hxl, hyr]
    exact hn
  rw [← hpx, ← hqy] at hn
  have hjavaIff := javaGives_binary_iff left right hop hprange (by rw [hpt, hqt, hj]) (by rwa [hqy])
    (by rintro l f m rfl; exact eq_fieldRef_of_boxed hp.1 hja hpl)
    (by rintro l f m rfl; exact eq_fieldRef_of_boxed hp.2 hjb hqr)
    (by rintro rfl; exact some.inj (hpl.symm.trans hqr)) hn
  rw [hpx, hqy, hpt, hqt] at hjavaIff
  rw [hpx, hqy] at hn
  have hiff : (∃ n, Evaluates env use outer (.binary op left right) n)
      ↔ Gives (binary op v w) n ∧ JavaGives (javaBinary op p q) n := by
    constructor
    · rintro ⟨m, ⟨o, r, hrun, hr, rfl⟩, hjm, hpm⟩
      obtain rfl := some.inj (hpm.symm.trans hpyRun)
      rw [hcppRun, numberBinary_eq_ok_iff] at hrun
      obtain ⟨r', hr', rfl⟩ := hrun
      cases hr
      exact ⟨⟨_, hr', rfl⟩, hjavaRun ▸ hjm⟩
    · rintro ⟨⟨r, hr, hrn⟩, hjn⟩
      exact ⟨n, ⟨.number r, r, hcppRun.trans (numberBinary_eq_ok_iff.2 ⟨r, hr, rfl⟩), rfl, hrn⟩,
        hjavaRun ▸ hjn, hpyRun⟩
  rw [hiff, hjavaIff, ← hvt, ← hwt, ← and_assoc]
  refine and_congr_left fun _ => and_congr_left fun hconf =>
    gives_binary_iff hvwf hwwf hop hok (fun hquot => ?_) hn
  obtain ⟨la, ba, lb, bb, rfl, rfl⟩ := numbers_of_quotient hquot hj
  have hround := hconf _ _ _ _ rfl rfl
  rcases hquot with rfl | rfl
  · exact hround.1
  · exact hround

theorem Evaluates.boolean (h : Evaluates env use outer e x) (hp : Parsed e)
    (ht : javaType env e = some .boolean) :
    ∃ c, runJava env e = some (.boolean c) ∧ x = pythonBool c := by
  obtain ⟨p, hrun, rfl⟩ := h.java
  have htype := (runJava_type hp ht hrun).1
  cases p with
  | boolean c => exact ⟨c, hrun, rfl⟩
  | number | boxed => cases htype

theorem not_optional_of_boolean {t : CppType} (hj : javaType env e = some .boolean)
    (ht : cppType env use e = some t) : t.isOptional = false := by
  cases e with
  | fieldRef name =>
    obtain ⟨f, -, hf⟩ := map_eq_some_iff.1 hj
    cases hf
  | numberLit | boolLit | remaining =>
    cases ht
    rfl
  | constantRef name =>
    obtain ⟨v, -, rfl⟩ := map_eq_some_iff.1 ht
    rfl
  | binary op left right =>
    obtain ⟨a, -, ht⟩ := bind_eq_some_iff.1 ht
    obtain ⟨b, -, ht⟩ := bind_eq_some_iff.1 ht
    exact isOptional_of_binary ht
  | unary op operand =>
    obtain ⟨a, -, ht⟩ : ∃ a, cppType env use operand = some a ∧ cppUnaryType op a = some t :=
      bind_eq_some_iff.1 ht
    exact isOptional_of_unary ht

theorem Evaluates.toBool (h : Evaluates env use outer e x) (hp : Parsed e) {t : CppType}
    (ht : cppType env use e = some t) (hj : javaType env e = some .boolean) :
    ∃ o, runCpp env use e = .ok o ∧ o.toBool = .ok (x != 0) := by
  obtain ⟨o, v, hrun, hv, rfl⟩ := h.cpp
  have hot := runCpp_hasType hp ht hrun
  have hopt := not_optional_of_boolean hj ht
  refine ⟨o, hrun, ?_⟩
  match o, hot with
  | .number w, _ =>
    cases hv
    rfl
  | .optional (some w), hot => exact absurd (hot.2.2.symm.trans hopt) (by decide)

theorem bne_zero_pythonBool (c : Bool) : (pythonBool c != 0) = c := by
  cases c <;> decide

/-- The value of the left operand decides an expression with `&&` or `||`. -/
def Decides (op : BinaryOp) (c : Bool) : Prop := op = .logAnd ∧ c = false ∨ op = .logOr ∧ c = true

/-- Both operands are evaluated. -/
def Continues (op : BinaryOp) (c : Bool) : Prop := op = .logAnd ∧ c = true ∨ op = .logOr ∧ c = false

theorem decides_or_continues (hop : isLogical op = true) (c : Bool) :
    Decides op c ∨ Continues op c ∧ ¬Skips op (pythonBool c) := by
  cases op <;> cases c <;> first
    | exact absurd hop (by decide)
    | simp [Decides, Continues, Skips, pythonBool]

theorem runCpp_decided (h : Decides op c) {o : Operand} (hrun : runCpp env use left = .ok o)
    (hbool : o.toBool = .ok c) :
    runCpp env use (.binary op left right) = .ok (.number (ofBool c)) := by
  unfold runCpp at hrun ⊢
  rcases h with ⟨rfl, rfl⟩ | ⟨rfl, rfl⟩ <;> simp only [evalWith, hrun, bind, Except.bind, hbool] <;>
    rfl

theorem runCpp_continued {d : Bool} (h : Continues op c) {o o' : Operand}
    (hrun : runCpp env use left = .ok o) (hbool : o.toBool = .ok c)
    (hrun' : runCpp env use right = .ok o') (hbool' : o'.toBool = .ok d) :
    runCpp env use (.binary op left right) = .ok (.number (ofBool d)) := by
  unfold runCpp at hrun hrun' ⊢
  rcases h with ⟨rfl, rfl⟩ | ⟨rfl, rfl⟩ <;>
    simp only [evalWith, hrun, hrun', bind, Except.bind, hbool, hbool'] <;> rfl

theorem runJava_decided (h : Decides op c) (hrun : runJava env left = some (.boolean c)) :
    runJava env (.binary op left right) = some (.boolean c) := by
  rcases h with ⟨rfl, rfl⟩ | ⟨rfl, rfl⟩ <;> rw [runJava, hrun] <;> rfl

theorem runJava_continued (h : Continues op c) (hrun : runJava env left = some (.boolean c)) :
    runJava env (.binary op left right) = runJava env right := by
  rcases h with ⟨rfl, rfl⟩ | ⟨rfl, rfl⟩ <;> rw [runJava, hrun] <;> rfl

theorem outer_logical (hop : isLogical op = true) : (outer && resolvesOuter op) = outer := by
  cases op <;> first | exact absurd hop (by decide) | exact Bool.and_true outer

theorem runPython_decided (h : Decides op c)
    (hrun : runPython env (outer && resolvesOuter op) left = some (pythonBool c)) :
    runPython env outer (.binary op left right) = some (pythonBool c) := by
  rcases h with ⟨rfl, rfl⟩ | ⟨rfl, rfl⟩ <;> rw [outer_logical rfl] at hrun <;>
    rw [runPython, hrun] <;> rfl

theorem runPython_continued (h : Continues op c)
    (hrun : runPython env (outer && resolvesOuter op) left = some (pythonBool c)) :
    runPython env outer (.binary op left right)
      = runPython env (outer && resolvesOuter op) right := by
  rcases h with ⟨rfl, rfl⟩ | ⟨rfl, rfl⟩ <;> rw [outer_logical rfl] at hrun ⊢ <;>
    rw [runPython, hrun] <;> rfl

theorem evaluates_logical (hop : isLogical op = true) (hp : Parsed (.binary op left right))
    (hcpp : (cppType env use (.binary op left right)).isSome)
    (hjava : (javaType env (.binary op left right)).isSome)
    (hl : Evaluates env use (outer && resolvesOuter op) left x)
    (hr : ¬Skips op x → ∃ y, Evaluates env use (outer && resolvesOuter op) right y) :
    ∃ n, Evaluates env use outer (.binary op left right) n := by
  obtain ⟨t, ht⟩ := isSome_iff_exists.1 hcpp
  obtain ⟨a, ha, ht⟩ := bind_eq_some_iff.1 ht
  obtain ⟨b, hb, -⟩ := bind_eq_some_iff.1 ht
  obtain ⟨j, hj⟩ := isSome_iff_exists.1 hjava
  obtain ⟨ja, hja, hj⟩ := bind_eq_some_iff.1 hj
  obtain ⟨jb, hjb, hj⟩ := bind_eq_some_iff.1 hj
  obtain ⟨rfl, rfl, -⟩ := javaBinaryType_logical hop hj
  obtain ⟨o, hol, hob⟩ := hl.toBool hp.1 ha hja
  obtain ⟨c, hcl, rfl⟩ := hl.boolean hp.1 hja
  rw [bne_zero_pythonBool] at hob
  rcases decides_or_continues hop c with hdec | ⟨hcont, hskip⟩
  · exact ⟨pythonBool c, ⟨_, _, runCpp_decided hdec hol hob, rfl, rfl⟩,
      ⟨_, runJava_decided hdec hcl, rfl⟩, runPython_decided hdec hl.python⟩
  obtain ⟨y, hy⟩ := hr hskip
  obtain ⟨o', hor, hob'⟩ := hy.toBool hp.2 hb hjb
  obtain ⟨d, hdr, rfl⟩ := hy.boolean hp.2 hjb
  rw [bne_zero_pythonBool] at hob'
  exact ⟨pythonBool d, ⟨_, _, runCpp_continued hcont hol hob hor hob', rfl, rfl⟩,
    ⟨_, (runJava_continued hcont hcl).trans hdr, rfl⟩,
    (runPython_continued hcont hl.python).trans hy.python⟩

theorem runPython_unary (outer : Bool) (op : UnaryOp) (h : runPython env false operand = some x) :
    runPython env outer (.unary op operand) = some (pythonUnary op x) := by
  rw [runPython, h]
  rfl

theorem evaluates_logNot (hp : Parsed operand) (ha : cppType env use operand = some a)
    (hj : javaType env (.unary .logNot operand) = some j) (hx : Evaluates env use false operand x) :
    ∃ n, Evaluates env use outer (.unary .logNot operand) n := by
  have hjo : javaType env operand = some .boolean := by
    rcases javaType_unary hj with ⟨b, hb, hbt⟩ | ⟨hop, -, -⟩
    · cases b with
      | boolean => exact hb
      | number => cases hbt
    · cases hop
  obtain ⟨o, hrun, hbool⟩ := hx.toBool hp ha hjo
  obtain ⟨c, hc, rfl⟩ := hx.boolean hp hjo
  rw [bne_zero_pythonBool] at hbool
  refine ⟨pythonBool !c, ⟨.number (ofBool !c), _, ?_, rfl, rfl⟩, ⟨.boolean !c, ?_, rfl⟩, ?_⟩
  · rw [runCpp_unary, hrun]
    show (o.toBool.map fun b => Operand.number (ofBool !b)) = _
    rw [hbool]
    rfl
  · rw [runJava_unary, hc]
    rfl
  · rw [runPython_unary outer .logNot hx.python]
    cases c <;> rfl

section

variable {op : UnaryOp} (hop : op ≠ .logNot) {p : JavaValue} (ht : javaUnaryType op p.type = some j)

include hop ht

theorem javaUnary_eq : ∃ l, j = .number l false
      ∧ javaUnary op p = some (.number l (javaWrap l (pythonUnary op p.toInt))) := by
  cases p with
  | boolean c => cases op <;> first | exact absurd rfl hop | cases ht
  | number l n | boxed l _ n =>
    cases op <;> first
      | exact absurd rfl hop
      | exact ⟨l, (some.inj ht).symm, rfl⟩

theorem javaGives_unary_iff : JavaGives (javaUnary op p) (pythonUnary op p.toInt)
      ↔ ∀ l b, j = .number l b → (javaInt l).Holds (pythonUnary op p.toInt) := by
  obtain ⟨l, rfl, hrun⟩ := javaUnary_eq hop ht
  rw [hrun, javaGives_some]
  refine javaWrap_eq_iff.trans ⟨?_, fun h => h _ _ rfl⟩
  rintro h _ _ ⟨⟩
  exact h

end

theorem evaluates_unary_iff {op : UnaryOp} (hp : Parsed operand)
    (hcpp : (cppType env use (.unary op operand)).isSome) (ha : cppType env use operand = some a)
    (hj : javaType env (.unary op operand) = some j) (hx : Evaluates env use false operand x) :
    (∃ n, Evaluates env use outer (.unary op operand) n) ↔ UnaryConforms op a.type j x := by
  by_cases hop : op = .logNot
  · subst hop
    exact iff_of_true (evaluates_logNot hp ha hj hx) (.inl rfl)
  rw [UnaryConforms, or_iff_right hop]
  have hpy := runPython_unary outer op hx.python
  obtain ⟨⟨o, v, hrun, hv, rfl⟩, ⟨p, hpr, hpx⟩, -⟩ := hx
  obtain ⟨t, ht⟩ : ∃ t, cppUnaryType op a = some t := by
    simpa [cppType, ha, isSome_iff_exists] using hcpp
  have hot := runCpp_hasType hp ha hrun
  obtain ⟨w, rfl, rfl⟩ := hot.number_of_unary ht hop
  obtain rfl := some.inj hv
  have hpt : javaUnaryType op p.type = some j := by
    rcases javaType_unary hj with ⟨b, hb, hbt⟩ | ⟨rfl, rfl, rfl⟩
    · rwa [(runJava_type hp hb hpr).1]
    rw [← some.inj hpr]
    rfl
  have hjava := javaGives_unary_iff hop hpt
  rw [hpx] at hjava
  have hcppGives : Gives (unary op w) (pythonUnary op w.value)
      ↔ w.type.Holds (pythonUnary op w.value) := by
    cases op with
    | negate => exact gives_negate_iff hot.1
    | bitNot => exact gives_bitNot_iff hot.1
    | logNot => exact absurd rfl hop
  rw [← hjava, ← hcppGives]
  constructor
  · rintro ⟨m, ⟨o, r, hrun', hr, rfl⟩, hjm, hpm⟩
    have hm := some.inj (hpm.symm.trans hpy)
    rw [runCpp_unary, hrun] at hrun'
    obtain ⟨r', hr', rfl⟩ := (unary_eq_ok_iff hop).1 hrun'
    cases hr
    rw [runJava_unary, hpr] at hjm
    exact ⟨⟨_, hr', hm⟩, hm ▸ hjm⟩
  · rintro ⟨⟨r, hr, hrn⟩, hjn⟩
    refine ⟨_, ⟨.number r, r, ?_, rfl, hrn⟩, ?_, hpy⟩
    · rw [runCpp_unary, hrun]
      exact (unary_eq_ok_iff hop).2 ⟨r, hr, rfl⟩
    · rw [runJava_unary, hpr]
      exact hjn

/-! ## Leaves -/

theorem promote_value (v : CppValue) : v.promote.value = v.value := by
  unfold promote
  split <;> rfl

theorem literal_value (n : Int) : (literal n).value = n := by
  unfold literal
  split <;> rfl

theorem evaluates_numberLit (n : Int) : Evaluates env use outer (.numberLit n) n :=
  ⟨⟨_, _, rfl, rfl, literal_value n⟩, ⟨_, rfl, rfl⟩, rfl⟩

theorem evaluates_boolLit (b : Bool) : Evaluates env use outer (.boolLit b) (pythonBool b) :=
  ⟨⟨_, _, rfl, rfl, rfl⟩, ⟨_, rfl, rfl⟩, rfl⟩

theorem runCpp_fieldRef (use : ExprUse) {f : IntField} (hf : env.field name = some f) :
    ∃ o, runCpp env use (.fieldRef name) = .ok o ∧ operandValue o = some f.cppValue.promote := by
  simp only [runCpp, evalWith, ExprEnv.cppRef, hf]
  split
  · exact ⟨_, rfl, rfl⟩
  · exact ⟨_, rfl, rfl⟩

theorem evaluates_fieldRef_iff {f : IntField} (hf : env.field name = some f) :
    (∃ n, Evaluates env use outer (.fieldRef name) n)
      ↔ (javaInt f.isLong).Holds f.value ∧ (f.isOuter = true → outer = true) := by
  have hpy : ∀ n, runPython env outer (.fieldRef name) = some n
      ↔ (f.isOuter = true → outer = true) ∧ f.value = n := by
    intro n
    simp only [runPython, hf, bind_some]
    cases f.isOuter <;> cases outer <;> simp
  have hjava : ∀ n, JavaGives (runJava env (.fieldRef name)) n ↔ javaWrap f.isLong f.value = n := by
    intro n
    simp only [runJava, hf, map_some, javaGives_some]
    split <;> rfl
  obtain ⟨o, hrun, ho⟩ := runCpp_fieldRef use hf
  rw [← javaWrap_eq_iff]
  constructor
  · rintro ⟨n, -, hj, hp⟩
    obtain ⟨hfound, rfl⟩ := (hpy n).1 hp
    exact ⟨(hjava _).1 hj, hfound⟩
  · rintro ⟨hwrap, hfound⟩
    exact ⟨f.value, ⟨o, _, hrun, ho, promote_value _⟩, (hjava _).2 hwrap, (hpy _).2 ⟨hfound, rfl⟩⟩

theorem holds_int_iff : (javaInt false).Holds n ↔ -2147483648 ≤ n ∧ n < 2147483648 := by
  simp [IntType.Holds, javaInt]

theorem parseDigits_zeros {base : Nat} (hbase : 0 < base) {cs : List Char} (hne : cs ≠ [])
    (h : ∀ c ∈ cs, c = '0') : parseDigits base cs = some 0 := by
  have hzero : digitValue base '0' = some 0 := by
    simp [digitValue, hbase, Char.isDigit]
  have hfold : ∀ cs : List Char, (∀ c ∈ cs, c = '0') →
      cs.foldlM (fun acc c => (digitValue base c).map (base * acc + ·)) 0 = some 0 := by
    intro cs hcs
    induction cs with
    | nil => rfl
    | cons c cs ih =>
      rw [List.forall_mem_cons] at hcs
      rw [List.foldlM_cons, hcs.1, hzero]
      exact ih hcs.2
  cases cs with
  | nil => exact absurd rfl hne
  | cons c cs => exact hfold _ h

theorem javaPattern_eq_iff {negate : Bool} {v : Nat} {m : Int} (h : javaPattern negate v = some m) :
    m = (if negate then -(v : Int) else v)
      ↔ (javaInt false).Holds (if negate then -(v : Int) else v) := by
  unfold javaPattern at h
  split at h
  next hsmall =>
    rw [← some.inj h, holds_int_iff]
    cases negate <;> simp [javaWrap, javaInt, Int.bmod_def] <;> omega
  next => cases h

theorem javaDecimal_eq {negate : Bool} {v : Nat} {m : Int} (h : javaDecimal negate v = some m) :
    m = (if negate then -(v : Int) else v) ∧ (javaInt false).Holds m := by
  unfold javaDecimal at h
  split at h
  next hsmall =>
    rw [← some.inj h, holds_int_iff]
    refine ⟨rfl, ?_⟩
    cases negate <;> simp at hsmall ⊢ <;> omega
  next => cases h

/-- A text that is a literal of all three languages denotes one number in C++ and in Python. In
Java it denotes this number if it fits in an `int`. -/
theorem literals_agree {s : String} {k m n : Int} (hcpp : cppLiteral s = some k)
    (hjava : javaLiteral s = some m) (hpython : pythonLiteral s = some n) :
    k = n ∧ (m = n ↔ (javaInt false).Holds n) := by
  unfold cppLiteral at hcpp
  unfold javaLiteral at hjava
  unfold pythonLiteral at hpython
  dsimp only at hcpp hjava hpython
  -- one string of digits for all of them
  have hread : ∀ {digits : Option Nat}, (digits >>= fun v => if v < 2 ^ 64 then
        some (if (splitSign s.toList).1 then -(v : Int) else v) else none) = some k →
      (digits >>= fun v => some (if (splitSign s.toList).1 then -(v : Int) else v)) = some n →
      ∃ v, digits = some v ∧ n = (if (splitSign s.toList).1 then -(v : Int) else v) ∧ k = n := by
    intro digits hk hn
    obtain ⟨v, hv, hn⟩ := bind_eq_some_iff.1 hn
    obtain ⟨v', hv', hk⟩ := bind_eq_some_iff.1 hk
    obtain rfl := some.inj (hv.symm.trans hv')
    exact ⟨v, hv, (some.inj hn).symm, (some.inj (ite_none_right_eq_some.1 hk).2).symm.trans
      (some.inj hn)⟩
  split at hjava
  next hhex =>
    simp only [hhex, if_true] at hcpp hpython
    obtain ⟨v, hv, rfl, hk⟩ := hread hcpp hpython
    rw [hv] at hjava
    exact ⟨hk, javaPattern_eq_iff hjava⟩
  next hhex =>
    simp only [hhex, Bool.false_eq_true, if_false] at hcpp hpython
    split at hjava
    next hzero =>
      simp only [hzero, if_true, Bool.true_and] at hcpp hpython
      split at hpython
      · cases hpython
      next hall =>
        have hzeros : ∀ c ∈ (splitSign s.toList).2, c = '0' := by simpa using hall
        have hne : (splitSign s.toList).2 ≠ [] := by
          rintro hnil
          simp [hnil] at hzero
        rw [parseDigits_zeros (by decide) hne hzeros] at hcpp hjava hpython
        obtain ⟨v, hv, rfl, hk⟩ := hread hcpp hpython
        obtain rfl := some.inj hv
        exact ⟨hk, javaPattern_eq_iff hjava⟩
    next hzero =>
      simp only [hzero, Bool.false_and, Bool.false_eq_true, if_false] at hcpp hpython
      obtain ⟨v, hv, rfl, hk⟩ := hread hcpp hpython
      rw [hv] at hjava
      obtain ⟨rfl, hholds⟩ := javaDecimal_eq hjava
      exact ⟨hk, iff_of_true rfl hholds⟩

theorem evaluates_constantRef_iff {v : CppValue} {m : Int} (hv : env.cppConstant name = some v)
    (hm : env.javaConstant name = some m) (hn : env.pythonConstant name = some n) :
    (∃ n, Evaluates env use outer (.constantRef name) n)
      ↔ v.type.Holds n ∧ (javaInt false).Holds n := by
  obtain ⟨c, hc, hconstant⟩ := bind_eq_some_iff.1 hv
  obtain ⟨t, k, ht, hk, hvk⟩ := constantValue_eq hconstant
  have hliterals : k = n ∧ (m = n ↔ (javaInt false).Holds n) := by
    unfold ExprEnv.javaConstant at hm
    unfold ExprEnv.pythonConstant at hn
    rw [hc] at hm hn
    exact literals_agree hk hm hn
  have hvalue : v.value = n ↔ v.type.Holds n := by
    rw [hvk, hliterals.1]
    exact convert_value_eq_iff (show 1 ≤ t.bits by omega)
  rw [← hvalue, ← hliterals.2]
  have hrun : runCpp env use (.constantRef name) = .ok (.number v.promote) := by
    have hv' : (env.index.constant? name).bind (constantValue env.index) = some v := hv
    simp only [runCpp, evalWith, hv']
  have hjava : runJava env (.constantRef name) = some (.number true m) := by
    rw [runJava, hm]
    rfl
  constructor
  · rintro ⟨k, ⟨o, w, hrun', hw, rfl⟩, ⟨p, hp, hpk⟩, hk⟩
    obtain rfl := Except.ok.inj (hrun.symm.trans hrun')
    cases hw
    obtain rfl := some.inj (hjava.symm.trans hp)
    have hkn := some.inj (hk.symm.trans hn)
    exact ⟨(promote_value v).symm.trans hkn, hpk.trans hkn⟩
  · rintro ⟨hvn, rfl⟩
    exact ⟨m, ⟨_, _, hrun, rfl, (promote_value v).trans hvn⟩, ⟨_, hjava, rfl⟩, hn⟩

theorem javaRemaining_eq_iff :
    env.javaRemaining = (env.remainingBits / 8 : Nat) ↔ env.remainingBits < 2 ^ 31 := by
  have hwrap := holds_int_iff.1 (holds_javaWrap false env.remainingBits)
  have hexact : env.remainingBits < 2147483648 →
      javaWrap false env.remainingBits = env.remainingBits := fun h =>
    javaWrap_eq_iff.2 (holds_int_iff.2 (by omega))
  unfold ExprEnv.javaRemaining
  omega

theorem evaluates_remaining_iff :
    (∃ n, Evaluates env use outer .remaining n) ↔ env.remainingBits < 2 ^ 31 := by
  have hjava : ∀ n, JavaGives (runJava env .remaining) n ↔ env.javaRemaining = n := by
    intro n
    rw [runJava, javaGives_some, toInt_number]
  rw [← javaRemaining_eq_iff]
  constructor
  · rintro ⟨n, -, hj, hn⟩
    rw [(hjava n).1 hj]
    exact (some.inj hn).symm
  · intro h
    exact ⟨_, ⟨_, _, rfl, rfl, rfl⟩, (hjava _).2 h, rfl⟩

/-! ## Expressions -/

theorem AgreesThroughout.evaluates (h : AgreesThroughout env use outer e) :
    ∃ n, Evaluates env use outer e n := by
  cases e with
  | binary => exact h.2.2
  | unary => exact h.2
  | _ => exact h

theorem AgreesThroughout.evaluates_of_python (h : AgreesThroughout env use outer e)
    (hx : runPython env outer e = some x) : Evaluates env use outer e x := by
  obtain ⟨n, hn⟩ := h.evaluates
  obtain rfl := some.inj (hn.python.symm.trans hx)
  exact hn

theorem not_skips (hop : isLogical op = false) (x : Int) : ¬Skips op x := by
  cases op <;> first | exact absurd hop (by decide) | exact id

theorem conforms_logical (hop : isLogical op = true) {a b : IntType} {ja jb : JavaType} {y : Int} :
    BinaryConforms op a b ja jb x y ∧ BoxesConform op left right ja jb x y := by
  cases op <;> first
    | exact absurd hop (by decide)
    | exact ⟨⟨trivial, fun _ _ _ _ _ _ => trivial⟩, fun h => by simp at h⟩

/-- The three codes agree on every evaluated part of an expression exactly if the expression
conforms. -/
theorem agreesThroughout_iff (hp : Parsed e) (hcpp : (cppType env use e).isSome)
    (hjava : (javaType env e).isSome ∨ ∃ n, e = .numberLit n) (hpy : pythonImports env e)
    (hadm : Admissible env outer e) :
    AgreesThroughout env use outer e ↔ Conforms env use outer e := by
  induction e generalizing outer with
  | numberLit n => exact iff_of_true ⟨n, evaluates_numberLit n⟩ trivial
  | boolLit b => exact iff_of_true ⟨_, evaluates_boolLit b⟩ trivial
  | fieldRef name =>
    obtain ⟨t, ht⟩ := isSome_iff_exists.1 hcpp
    obtain ⟨f, hf, -⟩ := map_eq_some_iff.1 ht
    refine (evaluates_fieldRef_iff hf).trans ⟨?_, fun h => h f hf⟩
    intro h g hg
    obtain rfl := some.inj (hf.symm.trans hg)
    exact h
  | constantRef name =>
    obtain ⟨t, ht⟩ := isSome_iff_exists.1 hcpp
    obtain ⟨v, hv, -⟩ := map_eq_some_iff.1 ht
    obtain ⟨j, hj⟩ := isSome_iff_exists.1 (hjava.resolve_right (by simp))
    obtain ⟨m, hm, -⟩ := map_eq_some_iff.1 hj
    obtain ⟨n, hn⟩ := isSome_iff_exists.1 hpy
    refine (evaluates_constantRef_iff hv hm hn).trans ⟨?_, fun h => h v n hv hn⟩
    intro h v' n' hv' hn'
    obtain rfl := some.inj (hv.symm.trans hv')
    obtain rfl := some.inj (hn.symm.trans hn')
    exact h
  | remaining => exact evaluates_remaining_iff
  | binary op left right ihl ihr =>
    have hjava := hjava.resolve_right (by simp)
    obtain ⟨t, ht⟩ := isSome_iff_exists.1 hcpp
    obtain ⟨a, ha, ht⟩ := bind_eq_some_iff.1 ht
    obtain ⟨b, hb, -⟩ := bind_eq_some_iff.1 ht
    obtain ⟨j, hj⟩ := isSome_iff_exists.1 hjava
    obtain ⟨ja, hja, hj⟩ := bind_eq_some_iff.1 hj
    obtain ⟨jb, hjb, -⟩ := bind_eq_some_iff.1 hj
    rw [pythonImports, Bool.and_eq_true] at hpy
    have hleft := ihl hp.1 (by rw [ha]; rfl) (.inl (by rw [hja]; rfl)) hpy.1 hadm.1
    have hright : ∀ x, runPython env (outer && resolvesOuter op) left = some x → ¬Skips op x →
        (AgreesThroughout env use (outer && resolvesOuter op) right
          ↔ Conforms env use (outer && resolvesOuter op) right) := fun x hx hskip =>
      ihr hp.2 (by rw [hb]; rfl) (.inl (by rw [hjb]; rfl)) hpy.2 (hadm.2 x hx hskip).1
    rw [Conforms, ← hleft]
    refine and_congr_right fun hagree => ?_
    obtain ⟨x, hx⟩ := hagree.evaluates
    cases hop : isLogical op with
    | false =>
      have hskip := not_skips hop x
      constructor
      · rintro ⟨hr, hn⟩ x' hx' hskip
        have hr := hr x' hx' hskip
        refine ⟨(hright x' hx' hskip).1 hr, ?_⟩
        intro y hy a' b' ja' jb' ha' hb' hja' hjb'
        exact (evaluates_binary_iff hop hp hcpp hjava ha' hb' hja' hjb'
          (hagree.evaluates_of_python hx') (hr.evaluates_of_python hy)
          ((hadm.2 x' hx' hskip).2 y hy)).1 hn
      · intro h
        obtain ⟨hr, hnode⟩ := h x hx.python hskip
        have hr := (hright x hx.python hskip).2 hr
        obtain ⟨y, hy⟩ := hr.evaluates
        exact ⟨fun _ _ _ => hr, (evaluates_binary_iff hop hp hcpp hjava ha hb hja hjb hx hy
          ((hadm.2 x hx.python hskip).2 y hy.python)).2
          (hnode y hy.python a b ja jb ha hb hja hjb)⟩
    | true =>
      constructor
      · rintro ⟨hr, -⟩ x' hx' hskip
        refine ⟨(hright x' hx' hskip).1 (hr x' hx' hskip), ?_⟩
        intros
        exact conforms_logical hop
      intro h
      have hr : ∀ x', runPython env (outer && resolvesOuter op) left = some x' → ¬Skips op x' →
          AgreesThroughout env use (outer && resolvesOuter op) right := fun x' hx' hskip =>
        (hright x' hx' hskip).2 (h x' hx' hskip).1
      exact ⟨hr, evaluates_logical hop hp hcpp hjava hx
        fun hskip => (hr x hx.python hskip).evaluates⟩
  | unary op operand ih =>
    have hjava := hjava.resolve_right (by simp)
    obtain ⟨j, hj⟩ := isSome_iff_exists.1 hjava
    obtain ⟨t, ht⟩ := isSome_iff_exists.1 hcpp
    obtain ⟨a, ha, -⟩ : ∃ a, cppType env use operand = some a ∧ cppUnaryType op a = some t :=
      bind_eq_some_iff.1 ht
    have hp' : Parsed operand := hp
    have hoperand := ih hp' (by rw [ha]; rfl)
      ((javaType_unary hj).imp (fun ⟨b, hb, _⟩ => by rw [hb]; rfl) fun h => ⟨_, h.2.1⟩) hpy hadm
    rw [Conforms, ← hoperand]
    refine and_congr_right fun hagree => ?_
    constructor
    · rintro hn x hx a' j' ha' hj'
      obtain rfl := some.inj (ha.symm.trans ha')
      obtain rfl := some.inj (hj.symm.trans hj')
      exact (evaluates_unary_iff hp' hcpp ha hj (hagree.evaluates_of_python hx)).1 hn
    · intro h
      obtain ⟨x, hx⟩ := hagree.evaluates
      exact (evaluates_unary_iff hp' hcpp ha hj hx).2 (h x hx.python a j ha hj)

theorem agreesIn_iff (hp : Parsed e) (hcompiles : Compiles env use e)
    (hn : Evaluates env use true e n) :
    AgreesIn env use e ↔ (use = .presentWhen ↔ javaType env e = some .boolean) := by
  obtain ⟨t, ht⟩ := isSome_iff_exists.1 hcompiles.cpp
  obtain ⟨j, hj⟩ := isSome_iff_exists.1 hcompiles.java
  cases use with
  | presentWhen =>
    simp only [true_iff]
    constructor
    · rintro ⟨b, -, hb, -⟩
      rw [hj, ← (runJava_type hp hj hb).1]
      rfl
    intro hbool
    obtain ⟨c, hc, rfl⟩ := hn.boolean hp hbool
    have hcpp := hn.toBool hp ht hbool
    rw [bne_zero_pythonBool] at hcpp
    exact ⟨c, hcpp, hc, _, hn.python, bne_zero_pythonBool c⟩
  | size | switch =>
    simp only [reduceCtorEq, false_iff]
    exact ⟨fun h => h.1, fun h => ⟨h, n, hn⟩⟩

end

/-- For an expression of the parser whose divisors are not zero and whose shift amounts are below
64: the codes that the three backends print are accepted, agree on every part that is evaluated,
and mean the same in the place where the expression stands, exactly if they are accepted, the
expression is a `boolean` of Java in a conditional child and only there, and it conforms. -/
theorem printed_expressions_agree_iff (env : ExprEnv) (use : ExprUse) (e : Expr) (hp : Parsed e)
    (hadm : Admissible env true e) :
    (Compiles env use e ∧ AgreesThroughout env use true e ∧ AgreesIn env use e)
      ↔ Compiles env use e ∧ (use = .presentWhen ↔ javaType env e = some .boolean)
          ∧ Conforms env use true e := by
  refine and_congr_right fun hcompiles => ?_
  rw [agreesThroughout_iff hp hcompiles.cpp (.inl hcompiles.java) hcompiles.python hadm, and_comm]
  refine and_congr_left fun hconf => ?_
  have hagree := (agreesThroughout_iff hp hcompiles.cpp (.inl hcompiles.java) hcompiles.python
    hadm).2 hconf
  obtain ⟨n, hn⟩ := hagree.evaluates
  exact agreesIn_iff hp hcompiles hn

/-- A struct with one unsigned field of eight bits that has been decoded. -/
def byteEnv (v : Fin 256) : ExprEnv where
  index := {}
  field name :=
    if name = "x" then
      some { bits := 8, isSigned := false, value := v.val, bits_pos := by decide,
             bits_le := by decide, holds := by simp [IntType.Holds] }
    else none
  remainingBits := 0
  remaining_lt := by decide

/-- `(x - 7) / 2`. -/
def halfExcess : Expr := .binary .div (.binary .sub (.fieldRef "x") (.numberLit 7)) (.numberLit 2)

theorem admissible_halfExcess (v : Fin 256) : Admissible (byteEnv v) true halfExcess := by
  refine ⟨⟨trivial, fun _ _ _ => ⟨trivial, fun _ _ => trivial⟩⟩, fun _ _ _ => ⟨trivial, ?_⟩⟩
  intro y hy
  cases hy
  exact (by decide : (2 : Int) ≠ 0)

/-- For a field that holds nine the three codes for `(x - 7) / 2` agree. -/
theorem printed_expressions_agree_nine :
    Compiles (byteEnv 9) .size halfExcess ∧ AgreesThroughout (byteEnv 9) .size true halfExcess
      ∧ AgreesIn (byteEnv 9) .size halfExcess := by
  refine (printed_expressions_agree_iff (byteEnv 9) .size halfExcess (by simp [halfExcess, Parsed])
    (admissible_halfExcess 9)).2 ⟨⟨rfl, rfl, rfl⟩, by decide, ⟨?_, ?_⟩, ?_⟩
  · intro f hf
    cases hf
    exact ⟨by decide, by simp⟩
  · intro x hx _
    refine ⟨trivial, ?_⟩
    rintro y ⟨⟩ a b ja jb ⟨⟩ ⟨⟩ ⟨⟩ ⟨⟩
    cases hx
    refine ⟨⟨?_, ?_⟩, by simp [BoxesConform]⟩
    · show IntType.Holds _ _
      decide
    rintro _ _ _ _ ⟨⟩ ⟨⟩
    show IntType.Holds _ _
    decide
  · intro x hx _
    refine ⟨trivial, ?_⟩
    rintro y ⟨⟩ a b ja jb ⟨⟩ ⟨⟩ ⟨⟩ ⟨⟩
    cases hx
    refine ⟨⟨⟨.inl (by decide), by decide⟩, ?_⟩, by simp [BoxesConform]⟩
    rintro _ _ _ _ ⟨⟩ ⟨⟩
    exact ⟨by decide, by decide⟩

/-- For a field that holds zero the C++ and the Java code for `(x - 7) / 2` give -3 and the Python
code gives -4. -/
theorem printed_expressions_differ_zero : Parsed halfExcess ∧ Admissible (byteEnv 0) true halfExcess
      ∧ Compiles (byteEnv 0) .size halfExcess
      ∧ runCpp (byteEnv 0) .size halfExcess = .ok (.number ⟨int32, -3⟩)
      ∧ runJava (byteEnv 0) halfExcess = some (.number false (-3))
      ∧ runPython (byteEnv 0) true halfExcess = some (-4)
      ∧ ¬AgreesIn (byteEnv 0) .size halfExcess := by
  refine ⟨by simp [halfExcess, Parsed], admissible_halfExcess 0, ⟨rfl, rfl, rfl⟩, rfl, rfl, rfl, ?_⟩
  rintro ⟨-, n, hn⟩
  have hpython := hn.python
  obtain ⟨j, hj, rfl⟩ := hn.java
  cases hj
  exact absurd hpython (by decide)

end Conduit.Ports

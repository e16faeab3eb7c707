import Conduit.Ports.Expr
import Conduit.Bgen.ExactOps

/-!
# Types of the printed expressions

The C++ and the Java compiler give an expression a type before it runs. A value that a run ends
with is of that type: it has the type's width and sign, and the type holds it.
-/

namespace Conduit.Ports

open Bgen CppValue Option

variable {v : CppValue} {o p : Operand} {t : IntType} {op : BinaryOp} {env : ExprEnv}
  {w r : CppValue}

def isLogical : BinaryOp → Bool
  | .logAnd | .logOr => true
  | _ => false

/-! ## C++ -/

/-- The number in an operand. An optional stands for the number it holds. -/
def operandValue : Operand → Option CppValue
  | .number v => some v
  | .optional v => v
  | .enumerator _ => none

/-- The operand is of the type, and the type holds its number. -/
def HasCppType (o : Operand) (t : CppType) : Prop :=
  match o with
  | .number v => v.WF ∧ v.type = t.type ∧ t.isOptional = false
  | .optional (some v) => v.WF ∧ v.type = t.type ∧ t.isOptional = true
  | _ => False

theorem hasCppType_number (h : v.WF) : HasCppType (.number v) ⟨v.type, false⟩ := ⟨h, rfl, rfl⟩

theorem HasCppType.value {t : CppType} (h : HasCppType o t) :
    ∃ v, operandValue o = some v ∧ v.WF ∧ v.type = t.type := by
  match o, h with
  | .number v, h => exact ⟨v, rfl, h.1, h.2.1⟩
  | .optional (some v), h => exact ⟨v, rfl, h.1, h.2.1⟩

theorem runCpp_binary (hop : isLogical op = false) (env : ExprEnv) (use : ExprUse)
    (left right : Expr) : runCpp env use (.binary op left right) = (do
      let a ← runCpp env use left
      let b ← runCpp env use right
      Operand.binary op a b) := by
  cases op <;> first | rfl | exact absurd hop (by decide)

theorem runCpp_logical (hop : isLogical op = true) {use : ExprUse} {left right : Expr}
    (h : runCpp env use (.binary op left right) = .ok o) : ∃ c, o = .number (ofBool c) := by
  cases op with
  | logAnd | logOr =>
    obtain ⟨p, -, h⟩ := except_bind_eq_ok.1 h
    obtain ⟨x, -, h⟩ := except_bind_eq_ok.1 h
    cases x <;> simp only [Bool.false_eq_true, if_false, if_true] at h
    all_goals first
      | exact ⟨_, (Except.ok.inj h).symm⟩
      | obtain ⟨q, -, h⟩ := except_bind_eq_ok.1 h
        obtain ⟨y, -, h⟩ := except_bind_eq_ok.1 h
        exact ⟨_, (Except.ok.inj h).symm⟩
  | _ => exact absurd hop (by decide)

theorem runCpp_unary (op : UnaryOp) (env : ExprEnv) (use : ExprUse) (operand : Expr) :
    runCpp env use (.unary op operand) = (do
      let a ← runCpp env use operand
      Operand.unary op a) :=
  rfl

theorem binary_eq_numberBinary {a b t : CppType} (ho : HasCppType o a) (hp : HasCppType p b)
    (ht : cppBinaryType op a b = some t) (hop : isLogical op = false) (hv : operandValue o = some v)
    (hw : operandValue p = some w) : Operand.binary op o p = numberBinary op v w := by
  match o, p, ho, hp with
  | .number _, .number _, _, _ =>
    cases hv
    cases hw
    rfl
  | .number _, .optional (some _), _, hp | .optional (some _), .optional (some _), _, hp =>
    cases hv
    cases hw
    cases op <;> first | rfl | exact absurd hop (by decide) | simp [cppBinaryType, hp.2.2] at ht
  | .optional (some _), .number _, ho, _ =>
    cases hv
    cases hw
    cases op <;> first | rfl | exact absurd hop (by decide) | simp [cppBinaryType, ho.2.2] at ht

theorem cppBinaryType_eq {a b t : CppType} (h : cppBinaryType op a b = some t) :
    cppBinaryType op ⟨a.type, false⟩ ⟨b.type, false⟩ = some t := by
  obtain ⟨a, oa⟩ := a
  obtain ⟨b, ob⟩ := b
  cases op <;> cases oa <;> cases ob <;> simp_all [cppBinaryType]

theorem numberBinary_eq_ok_iff :
    numberBinary op v w = .ok o ↔ ∃ r, binary op v w = some r ∧ o = .number r := by
  unfold numberBinary
  cases binary op v w with
  | some r => simp [eq_comm]
  | none => cases op <;> simp <;> split <;> simp

theorem holds_tmod {x : Int} (h : t.Holds x) (y : Int) : t.Holds (x.tmod y) := by
  have habs : (x.tmod y).natAbs ≤ x.natAbs := by
    rw [Int.natAbs_tmod]
    exact Nat.mod_le _ _
  refine h.of_between ?_
  rcases lt_or_ge x 0 with hneg | h0
  · have hsign := Int.tmod_nonneg y (a := -x) (by omega)
    rw [Int.neg_tmod] at hsign
    omega
  · have hsign := Int.tmod_nonneg y h0
    omega

theorem type_of_checked {n : Int} (h : checked t n = some v) : v.type = t := by
  unfold checked at h
  split at h
  · simp at h
  rw [← some.inj h]
  rfl

theorem shift_wf {left : Bool} (hv : v.WF) (h : shift left v w = some r) :
    r.WF ∧ r.type = v.type := by
  unfold shift at h
  split at h
  · simp at h
  · split at h <;> rw [← some.inj h] <;> exact ⟨wf_convert hv.promoted _, rfl⟩

theorem binary_wf (hv : v.WF) (hw : w.WF) (h : binary op v w = some r) :
    r.WF ∧ cppBinaryType op ⟨v.type, false⟩ ⟨w.type, false⟩ = some ⟨r.type, false⟩ := by
  have ht := isPromoted_common hv hw
  have hchecked : ∀ {n : Int}, checked (commonType v.type w.type) n = some r →
      r.WF ∧ some (CppType.mk (commonType v.type w.type) false) = some ⟨r.type, false⟩ :=
    fun h => ⟨wf_of_checked ht h, by rw [type_of_checked h]⟩
  cases op with
  | add | sub | mul => exact hchecked h
  | div =>
    simp only [binary] at h
    split at h
    · simp at h
    · exact hchecked h
  | mod =>
    simp only [binary] at h
    split at h
    · simp at h
    obtain ⟨-, -, rfl⟩ := map_eq_some_iff.1 h
    exact ⟨⟨ht, holds_tmod (holds_convert ht.bits_pos _) _⟩, rfl⟩
  | bitAnd | bitOr | bitXor =>
    cases h
    exact ⟨wf_convert ht _, rfl⟩
  | shiftLeft | shiftRight =>
    obtain ⟨hr, htype⟩ := shift_wf hv h
    exact ⟨hr, by rw [htype]; rfl⟩
  | logAnd | logOr | eq | neq | lt | lte | gt | gte =>
    cases h
    exact ⟨wf_ofBool _, rfl⟩

theorem unary_wf {op : UnaryOp} (hv : v.WF) (h : unary op v = some r) :
    r.WF ∧ cppUnaryType op ⟨v.type, false⟩ = some ⟨r.type, false⟩ := by
  cases op with
  | negate => exact ⟨wf_of_checked hv.promoted h, by rw [type_of_checked h]; rfl⟩
  | bitNot =>
    cases h
    exact ⟨wf_convert hv.promoted _, rfl⟩
  | logNot =>
    cases h
    exact ⟨wf_ofBool _, rfl⟩

theorem logNot_eq_ok (h : Operand.unary .logNot p = .ok o) : ∃ c, o = .number (ofBool c) := by
  change p.toBool.map (fun b => Operand.number (ofBool !b)) = .ok o at h
  cases hb : p.toBool with
  | ok b =>
    rw [hb] at h
    exact ⟨!b, (Except.ok.inj h).symm⟩
  | error s =>
    rw [hb] at h
    cases h

theorem unary_eq_ok_iff {op : UnaryOp} (hop : op ≠ .logNot) :
    Operand.unary op (.number v) = .ok o ↔ ∃ r, unary op v = some r ∧ o = .number r := by
  cases op with
  | logNot => exact absurd rfl hop
  | negate | bitNot =>
    unfold Operand.unary
    dsimp only
    split
    · next r hr => simp [hr, eq_comm]
    · next hr => simp [hr]

theorem HasCppType.number_of_unary {op : UnaryOp} {a t : CppType} (h : HasCppType p a)
    (ht : cppUnaryType op a = some t) (hop : op ≠ .logNot) :
    ∃ v, p = .number v ∧ a = ⟨v.type, false⟩ := by
  have ha : a.isOptional = false := by
    cases op <;> first | exact absurd rfl hop | (simp [cppUnaryType] at ht; exact ht.1)
  obtain ⟨type, isOptional⟩ := a
  match p, h with
  | .number v, h => exact ⟨v, rfl, by rw [h.2.1]; exact congrArg _ h.2.2⟩
  | .optional (some _), h => exact absurd h.2.2 (by simpa using ha)

theorem storageBits_cases (bits : Nat) :
    storageBits bits = 8 ∨ storageBits bits = 16 ∨ storageBits bits = 32 ∨ storageBits bits = 64 := by
  unfold storageBits
  split
  · simp
  split
  · simp
  · split <;> simp

theorem IntField.holds_storage (f : IntField) : f.cppValue.type.Holds f.cppValue.value := by
  refine f.holds.mono ?_
  have := f.bits_le
  unfold storageBits
  split
  · assumption
  split
  · assumption
  · split <;> assumption

theorem wf_promote_convert (ht : t.bits = 8 ∨ t.bits = 16 ∨ t.bits = 32 ∨ t.bits = 64) (n : Int) :
    (convert t n).promote.WF :=
  wf_promote ht (holds_convert (t := t) (by omega) n)

theorem IntField.wf_promote (f : IntField) : f.cppValue.promote.WF :=
  CppValue.wf_promote (storageBits_cases f.bits) f.holds_storage

theorem constantValue_eq {index : TypeIndex} {c : ConstDef} (h : constantValue index c = some v) :
    ∃ (t : IntType) (n : Int), (t.bits = 8 ∨ t.bits = 16 ∨ t.bits = 32 ∨ t.bits = 64)
      ∧ cppLiteral c.value = some n ∧ v = convert t n := by
  obtain ⟨n, hn, h⟩ := bind_eq_some_iff.1 h
  cases h
  refine ⟨_, n, ?_, hn, rfl⟩
  split
  · split
    · exact storageBits_cases _
    · decide
  · decide

theorem wf_constant {name : String} (h : env.cppConstant name = some v) : v.promote.WF := by
  obtain ⟨c, -, h⟩ := bind_eq_some_iff.1 h
  obtain ⟨t, n, ht, -, rfl⟩ := constantValue_eq h
  exact wf_promote_convert ht n

theorem runCpp_hasType {use : ExprUse} {e : Expr} (hp : Parsed e) {t : CppType}
    (ht : cppType env use e = some t) (h : runCpp env use e = .ok o) : HasCppType o t := by
  induction e generalizing t o with
  | numberLit n =>
    cases ht
    cases h
    exact hasCppType_number (wf_literal hp.1 hp.2)
  | boolLit b =>
    cases ht
    cases h
    exact hasCppType_number (wf_ofBool b)
  | fieldRef name =>
    obtain ⟨f, hf, rfl⟩ := map_eq_some_iff.1 ht
    simp only [runCpp, evalWith, ExprEnv.cppRef, hf] at h
    split at h
    · next hopt =>
      cases h
      exact ⟨f.wf_promote, rfl, hopt⟩
    · next hopt =>
      cases h
      exact ⟨f.wf_promote, rfl, by simpa using hopt⟩
  | constantRef name =>
    obtain ⟨v, hv, rfl⟩ := map_eq_some_iff.1 ht
    have hv' : (env.index.constant? name).bind (constantValue env.index) = some v := hv
    simp only [runCpp, evalWith, hv'] at h
    cases h
    exact hasCppType_number (wf_constant hv)
  | remaining =>
    cases ht
    cases h
    refine hasCppType_number (v := ⟨sizeType, _⟩) ⟨.inr rfl, ?_⟩
    have := env.remaining_lt
    simp [IntType.Holds, sizeType]
    omega
  | binary op left right ihl ihr =>
    obtain ⟨a, ha, ht⟩ := bind_eq_some_iff.1 ht
    obtain ⟨b, hb, ht⟩ := bind_eq_some_iff.1 ht
    cases hop : isLogical op with
    | false =>
      rw [runCpp_binary hop] at h
      obtain ⟨p, hl, h⟩ := except_bind_eq_ok.1 h
      obtain ⟨q, hr, h⟩ := except_bind_eq_ok.1 h
      have hpl := ihl hp.1 ha hl
      have hqr := ihr hp.2 hb hr
      obtain ⟨v, hv, hvwf, hvt⟩ := hpl.value
      obtain ⟨w, hw, hwwf, hwt⟩ := hqr.value
      rw [binary_eq_numberBinary hpl hqr ht hop hv hw, numberBinary_eq_ok_iff] at h
      obtain ⟨r, hr, rfl⟩ := h
      obtain ⟨hrwf, hrt⟩ := binary_wf hvwf hwwf hr
      rw [hvt, hwt, cppBinaryType_eq ht] at hrt
      rw [some.inj hrt]
      exact hasCppType_number hrwf
    | true =>
      obtain ⟨c, rfl⟩ := runCpp_logical hop h
      have htype : t = ⟨int32, false⟩ := by
        cases op <;> first | exact absurd hop (by decide) | exact (some.inj ht).symm
      rw [htype]
      exact hasCppType_number (wf_ofBool c)
  | unary op operand ih =>
    obtain ⟨a, ha, hut⟩ : ∃ a, cppType env use operand = some a ∧ cppUnaryType op a = some t :=
      bind_eq_some_iff.1 ht
    obtain ⟨p, hrun, h⟩ := except_bind_eq_ok.1 (runCpp_unary op env use operand ▸ h)
    have hpt := ih hp ha hrun
    cases op with
    | logNot =>
      obtain ⟨c, rfl⟩ := logNot_eq_ok h
      rw [← some.inj hut]
      exact hasCppType_number (wf_ofBool _)
    | negate | bitNot =>
      obtain ⟨v, rfl, ht'⟩ := hpt.number_of_unary hut (by decide)
      obtain ⟨r, hr, rfl⟩ := (unary_eq_ok_iff (by decide)).1 h
      obtain ⟨hrwf, hrt⟩ := unary_wf hpt.1 hr
      rw [ht'] at hut
      rw [some.inj (hut.symm.trans hrt)]
      exact hasCppType_number hrwf

/-! ## Java -/

namespace JavaValue

def type : JavaValue → JavaType
  | .boolean _ => .boolean
  | .number l _ => .number l false
  | .boxed l _ _ => .number l true

/-- The number that a value stands for in a comparison of the languages; `true` is one. -/
def toInt : JavaValue → Int
  | .boolean b => pythonBool b
  | .number _ n | .boxed _ _ n => n

@[simp] theorem toInt_number (l : Bool) (n : Int) : (JavaValue.number l n).toInt = n := rfl

/-- The type of the value holds its number. -/
def InRange : JavaValue → Prop
  | .boolean _ => True
  | .number l n | .boxed l _ n => (javaInt l).Holds n

end JavaValue

variable {n : Int} {op : BinaryOp} {v : JavaValue} {t a : JavaType} {env : ExprEnv} {l : Bool}

theorem holds_javaWrap (isLong : Bool) (n : Int) : (javaInt isLong).Holds (javaWrap isLong n) := by
  cases isLong <;> exact IntType.holds_bmod (by decide) n

theorem javaWrap_eq_iff {isLong : Bool} : javaWrap isLong n = n ↔ (javaInt isLong).Holds n := by
  cases isLong <;> exact IntType.bmod_eq_iff (by decide)

theorem runJava_binary (hop : isLogical op = false) (env : ExprEnv) (left right : Expr) :
    runJava env (.binary op left right) = (do
      let a ← runJava env left
      let b ← runJava env right
      javaBinary op a b) := by
  cases op <;> first | rfl | exact absurd hop (by decide)

theorem runJava_unary (op : UnaryOp) (env : ExprEnv) (operand : Expr) :
    runJava env (.unary op operand) = (do
      let a ← runJava env operand
      javaUnary op a) := by
  rw [runJava]

theorem javaArith_type {la lb ba bb : Bool} {x y : Int}
    (ht : javaBinaryType op (.number la ba) (.number lb bb) = some t)
    (h : javaArith op la lb x y = some v) : v.type = t ∧ v.InRange := by
  cases op with
  | logAnd | logOr => cases h
  | div | mod =>
    cases ht
    simp only [javaArith] at h
    split at h
    · cases h
    cases h
    exact ⟨rfl, holds_javaWrap _ _⟩
  | add | sub | mul | bitAnd | bitOr | bitXor | shiftLeft | shiftRight =>
    cases ht
    cases h
    exact ⟨rfl, holds_javaWrap _ _⟩
  | eq | neq =>
    simp only [javaBinaryType] at ht
    split at ht
    · cases ht
    cases ht
    cases h
    exact ⟨rfl, trivial⟩
  | lt | lte | gt | gte =>
    cases ht
    cases h
    exact ⟨rfl, trivial⟩

theorem javaLogic_type {p q : Bool} (ht : javaBinaryType op .boolean .boolean = some t)
    (h : javaLogic op p q = some v) : v.type = t ∧ v.InRange := by
  cases op <;> simp only [javaBinaryType, javaLogic, reduceCtorEq, some.injEq] at ht h <;>
    subst ht <;> subst h <;> exact ⟨rfl, trivial⟩

theorem javaBinary_type {a b : JavaValue} (ht : javaBinaryType op a.type b.type = some t)
    (h : javaBinary op a b = some v) : v.type = t ∧ v.InRange := by
  cases a with
  | boolean p =>
    cases b with
    | boolean q => exact javaLogic_type ht h
    | number | boxed => cases h
  | number la x =>
    cases b with
    | boolean => cases h
    | number | boxed => exact javaArith_type ht h
  | boxed la f x =>
    cases b with
    | boolean => cases h
    | number => exact javaArith_type ht h
    | boxed lb g y =>
      -- the two comparisons of references yield a boolean, as those of numbers do
      cases op with
      | eq | neq =>
        simp only [javaBinaryType, JavaValue.type] at ht
        split at ht
        · cases ht
        cases ht
        cases h
        exact ⟨rfl, trivial⟩
      | _ => exact javaArith_type (x := x) (y := y) ht h

theorem javaUnary_type {op : UnaryOp} {a : JavaValue} (ht : javaUnaryType op a.type = some t)
    (h : javaUnary op a = some v) : v.type = t ∧ v.InRange := by
  cases a <;> cases op <;> first
    | cases h; done
    | (cases ht
       cases h
       exact ⟨rfl, holds_javaWrap _ _⟩)
    | (cases ht
       cases h
       exact ⟨rfl, trivial⟩)

theorem holds_javaPattern {negate : Bool} {m : Nat} (h : javaPattern negate m = some n) :
    (javaInt false).Holds n := by
  unfold javaPattern at h
  split at h
  · cases h
    exact holds_javaWrap _ _
  · cases h

theorem holds_javaDecimal {negate : Bool} {m : Nat} (h : javaDecimal negate m = some n) :
    (javaInt false).Holds n := by
  unfold javaDecimal at h
  split at h
  · cases h
    cases negate <;> simp_all [IntType.Holds, javaInt]
    omega
  · cases h

theorem holds_javaLiteral {s : String} (h : javaLiteral s = some n) : (javaInt false).Holds n := by
  simp only [javaLiteral] at h
  split at h
  · obtain ⟨m, -, h⟩ := bind_eq_some_iff.1 h
    exact holds_javaPattern h
  split at h
  · obtain ⟨m, -, h⟩ := bind_eq_some_iff.1 h
    exact holds_javaPattern h
  · obtain ⟨m, -, h⟩ := bind_eq_some_iff.1 h
    exact holds_javaDecimal h

theorem holds_javaRemaining (env : ExprEnv) : (javaInt false).Holds env.javaRemaining := by
  have h := holds_javaWrap false env.remainingBits
  simp [IntType.Holds, javaInt, ExprEnv.javaRemaining] at h ⊢
  omega

theorem javaBinaryType_logical (hop : isLogical op = true) {b : JavaType}
    (h : javaBinaryType op a b = some t) : a = .boolean ∧ b = .boolean ∧ t = .boolean := by
  cases op <;> first
    | exact absurd hop (by decide)
    | (cases a <;> cases b <;> simp_all [javaBinaryType])

theorem runJava_logical (hop : isLogical op = true) {left right : Expr}
    (h : runJava env (.binary op left right) = some v) :
    (∃ c, v = .boolean c) ∨ runJava env right = some v := by
  cases op with
  | logAnd | logOr =>
    obtain ⟨a, -, h⟩ := bind_eq_some_iff.1 h
    split at h
    all_goals first
      | exact .inr h
      | exact .inl ⟨_, (some.inj h).symm⟩
      | cases h
  | _ => exact absurd hop (by decide)

theorem javaType_unary {op : UnaryOp} {operand : Expr}
    (h : javaType env (.unary op operand) = some t) :
    (∃ a, javaType env operand = some a ∧ javaUnaryType op a = some t)
      ∨ (op = .negate ∧ operand = .numberLit (2 ^ 31) ∧ t = .number false false) := by
  by_cases hlit : ∃ n, op = .negate ∧ operand = .numberLit n
  · obtain ⟨n, rfl, rfl⟩ := hlit
    simp only [javaType] at h
    split at h
    · next hn =>
      cases h
      by_cases hlt : n < 2 ^ 31
      · exact .inl ⟨_, if_pos hlt, rfl⟩
      obtain rfl : n = 2 ^ 31 := by omega
      exact .inr ⟨rfl, rfl, rfl⟩
    · cases h
  · refine .inl (bind_eq_some_iff.1 ?_)
    cases op <;> cases operand <;> first | exact h | exact absurd ⟨_, rfl, rfl⟩ hlit

theorem runJava_type {e : Expr} (hp : Parsed e) (ht : javaType env e = some t)
    (h : runJava env e = some v) : v.type = t ∧ v.InRange := by
  induction e generalizing t v with
  | numberLit n =>
    simp only [javaType] at ht
    split at ht
    · next hn =>
      cases ht
      cases h
      refine ⟨rfl, ?_⟩
      have := hp.1
      simp [JavaValue.InRange, IntType.Holds, javaInt]
      omega
    · cases ht
  | boolLit b =>
    cases ht
    cases h
    exact ⟨rfl, trivial⟩
  | fieldRef name =>
    obtain ⟨f, hf, rfl⟩ := map_eq_some_iff.1 ht
    obtain ⟨g, hg, rfl⟩ := map_eq_some_iff.1 h
    obtain rfl := some.inj (hf.symm.trans hg)
    cases hbox : f.isBoxed <;> exact ⟨rfl, holds_javaWrap _ _⟩
  | constantRef name =>
    obtain ⟨n, hn, rfl⟩ := map_eq_some_iff.1 ht
    obtain ⟨m, hm, rfl⟩ := map_eq_some_iff.1 h
    obtain ⟨c, -, hc⟩ := bind_eq_some_iff.1 hm
    exact ⟨rfl, (holds_javaLiteral hc).mono (by decide)⟩
  | remaining =>
    cases ht
    cases h
    exact ⟨rfl, holds_javaRemaining env⟩
  | binary op left right ihl ihr =>
    obtain ⟨a, ha, ht⟩ := bind_eq_some_iff.1 ht
    obtain ⟨b, hb, ht⟩ := bind_eq_some_iff.1 ht
    cases hop : isLogical op with
    | false =>
      rw [runJava_binary hop] at h
      obtain ⟨p, hl, h⟩ := bind_eq_some_iff.1 h
      obtain ⟨q, hr, h⟩ := bind_eq_some_iff.1 h
      rw [← (ihl hp.1 ha hl).1, ← (ihr hp.2 hb hr).1] at ht
      exact javaBinary_type ht h
    | true =>
      obtain ⟨-, rfl, rfl⟩ := javaBinaryType_logical hop ht
      rcases runJava_logical hop h with ⟨c, rfl⟩ | h
      · exact ⟨rfl, trivial⟩
      · exact ihr hp.2 hb h
  | unary op operand ih =>
    rw [runJava_unary] at h
    obtain ⟨p, hrun, h⟩ := bind_eq_some_iff.1 h
    rcases javaType_unary ht with ⟨a, ha, hut⟩ | ⟨rfl, rfl, rfl⟩
    · rw [← (ih hp ha hrun).1] at hut
      exact javaUnary_type hut h
    · cases hrun
      exact javaUnary_type rfl h

theorem javaBinaryType_ne_boxed {b : JavaType} : javaBinaryType op a b ≠ some (.number l true) := by
  cases op <;> cases a <;> cases b <;> simp [javaBinaryType]

theorem javaUnaryType_ne_boxed {op : UnaryOp} : javaUnaryType op a ≠ some (.number l true) := by
  cases op <;> cases a <;> simp [javaUnaryType]

theorem eq_fieldRef_of_boxed {e : Expr} (hp : Parsed e) (ht : javaType env e = some t) {f : String}
    (h : runJava env e = some (.boxed l f n)) : e = .fieldRef f := by
  obtain rfl : t = .number l true := (runJava_type hp ht h).1.symm
  cases e with
  | fieldRef name =>
    obtain ⟨g, -, hg⟩ := map_eq_some_iff.1 h
    split at hg <;> cases hg
    rfl
  | numberLit | boolLit | remaining => cases h
  | constantRef =>
    obtain ⟨m, -, hm⟩ := map_eq_some_iff.1 h
    cases hm
  | binary op left right =>
    obtain ⟨a, -, ht⟩ := bind_eq_some_iff.1 ht
    obtain ⟨b, -, ht⟩ := bind_eq_some_iff.1 ht
    exact absurd ht javaBinaryType_ne_boxed
  | unary op operand =>
    rcases javaType_unary ht with ⟨a, -, hut⟩ | ⟨-, -, hut⟩
    · exact absurd hut javaUnaryType_ne_boxed
    · cases hut

end Conduit.Ports

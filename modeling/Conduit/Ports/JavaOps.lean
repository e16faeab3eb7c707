import Conduit.Ports.ExprTypes

/-!
# When an operator of Java is exact

Each operator of Java is compared with the one of Python, which computes with integers. The
conditions on the two numbers are necessary and sufficient.
-/

namespace Conduit.Ports

open Bgen Bits

variable {n x : Int} {la : Bool}

/-- The operation has a value, and it is the given number. -/
def JavaGives (r : Option JavaValue) (n : Int) : Prop := ∃ j, r = some j ∧ j.toInt = n

@[simp] theorem javaGives_some {j : JavaValue} : JavaGives (some j) n ↔ j.toInt = n := by
  simp [JavaGives]

@[simp] theorem javaGives_none : ¬JavaGives none n := by simp [JavaGives]

/-- A logical shift of a number of `w` bits to the right gives the quotient if the number is not
negative and no bit that counts is brought back by the masked distance. -/
def ShiftConforms (w : Nat) (x y : Int) : Prop :=
  0 ≤ x ∧ (y < w ∨ x < (2 ^ (y.toNat - w) : Nat)) ∨ x < 0 ∧ y = 0 ∨ x = -1 ∧ y = w

/-- The condition under which an operator on two Java numbers is exact. -/
def JavaConforms (op : BinaryOp) (la lb : Bool) (x y : Int) : Prop :=
  match op with
  | .add => (javaInt (la || lb)).Holds (x + y)
  | .sub => (javaInt (la || lb)).Holds (x - y)
  | .mul => (javaInt (la || lb)).Holds (x * y)
  | .div => (y ∣ x ∨ 0 ≤ x * y) ∧ (javaInt (la || lb)).Holds (x.tdiv y)
  | .mod => y ∣ x ∨ 0 ≤ x * y
  | .bitAnd => (javaInt (la || lb)).Holds (x.land y)
  | .bitOr => (javaInt (la || lb)).Holds (x.lor y)
  | .bitXor => (javaInt (la || lb)).Holds (x.xor y)
  | .shiftLeft => (javaInt la).Holds (x * (2 ^ y.toNat : Nat))
  | .shiftRight => ShiftConforms (javaInt la).bits x y
  | _ => True

theorem holds_javaInt_or_left (lb : Bool) (h : (javaInt la).Holds n) :
    (javaInt (la || lb)).Holds n := by
  cases la <;> cases lb <;> exact IntType.Holds.mono h (by decide)

/-- A quotient that is rounded stays in the type of the dividend. Only the division of the least
number by minus one leaves it, and that one is exact. -/
theorem holds_tdiv_of_rounded {t : IntType} (hs : t.isSigned = true) {y : Int} (hx : t.Holds x)
    (h : ¬(y ∣ x ∨ 0 ≤ x * y)) : t.Holds (x.tdiv y) := by
  have habs := Int.natAbs_tdiv_le_natAbs x y
  have hsign : x * y < 0 := by
    by_contra hnot
    exact h (.inr (not_lt.1 hnot))
  simp only [IntType.Holds, hs, if_true] at hx ⊢
  rcases lt_or_ge x 0 with hneg | h0
  · have hy : 0 < y := by
      by_contra hy
      have := mul_nonneg_of_nonpos_of_nonpos hneg.le (not_lt.1 hy)
      omega
    have hquot : 0 ≤ (-x).tdiv y := Int.tdiv_nonneg (by omega) hy.le
    rw [Int.neg_tdiv] at hquot
    omega
  · omega

theorem two_pow_cast_pos (k : Nat) : (0 : Int) < (2 ^ k : Nat) := by
  exact_mod_cast Nat.two_pow_pos k

theorem wrap_shiftLeft_iff {y : Int} (h0 : 0 ≤ y) (h64 : y < 64) :
    javaWrap la (x * (2 ^ shiftDistance la y : Nat)) = x * (2 ^ y.toNat : Nat)
      ↔ (javaInt la).Holds (x * (2 ^ y.toNat : Nat)) := by
  by_cases hlt : y < (javaInt la).bits
  · have hdist : shiftDistance la y = y.toNat := by
      rw [shiftDistance, Int.emod_eq_of_lt h0 hlt]
    rw [hdist, javaWrap_eq_iff]
  -- an `int` that is shifted by 32 places or more
  · obtain rfl : la = false := by
      cases la
      · rfl
      · exact absurd h64 hlt
    have hbits : ((javaInt false).bits : Int) = 32 := rfl
    rw [hbits, not_lt] at hlt
    by_cases hx : x = 0
    · subst hx
      simp only [zero_mul]
      exact iff_of_true (by decide) (by decide)
    have hbig : (2 ^ 32 : Int) ≤ (2 ^ y.toNat : Nat) := by
      exact_mod_cast Nat.pow_le_pow_right (by decide) (show 32 ≤ y.toNat by omega)
    have hout : ¬(javaInt false).Holds (x * (2 ^ y.toNat : Nat)) := by
      generalize ((2 ^ y.toNat : Nat) : Int) = p at hbig
      simp only [IntType.Holds, javaInt]
      intro hin
      rcases lt_or_gt_of_ne hx with hneg | hpos
      · have := mul_le_mul_of_nonpos_left hbig hneg.le
        simp at hin
        omega
      · have := mul_le_mul_of_nonneg_left hbig hpos.le
        simp at hin
        omega
    refine iff_of_false (fun h => hout ?_) hout
    exact h ▸ holds_javaWrap _ _

theorem javaInt_holds_iff : (javaInt la).Holds n ↔ -(2 ^ ((javaInt la).bits - 1) : Nat) ≤ n
      ∧ n < (2 ^ ((javaInt la).bits - 1) : Nat) := by
  simp [IntType.Holds, javaInt]

theorem two_mul_half_javaInt (la : Bool) :
    2 * 2 ^ ((javaInt la).bits - 1) = 2 ^ (javaInt la).bits := by
  cases la <;> decide

section

variable (h : (javaInt la).Holds x)

include h

theorem emod_of_holds :
    x % (2 ^ (javaInt la).bits : Nat) = if x < 0 then x + (2 ^ (javaInt la).bits : Nat) else x := by
  have hhalf := two_mul_half_javaInt la
  have hpos := two_pow_cast_pos ((javaInt la).bits - 1)
  rw [javaInt_holds_iff] at h
  split
  · rw [← Int.add_emod_right, Int.emod_eq_of_lt] <;> omega
  · rw [Int.emod_eq_of_lt] <;> omega

theorem shiftLogical_of_nonneg (h0 : 0 ≤ x) (k : Nat) :
    shiftLogical la x k = x / (2 ^ k : Nat) := by
  rw [shiftLogical, emod_of_holds h, if_neg (by omega), javaWrap_eq_iff]
  exact h.of_between (.inl ⟨Int.ediv_nonneg h0 (two_pow_cast_pos k).le, Int.ediv_le_self _ h0⟩)

theorem shiftLogical_zero : shiftLogical la x 0 = x := by
  rw [shiftLogical, pow_zero, Nat.cast_one, Int.ediv_one, javaWrap, Int.emod_bmod]
  exact javaWrap_eq_iff.2 h

theorem shiftLogical_nonneg (hneg : x < 0) {k : Nat} (hk : 0 < k) : 0 ≤ shiftLogical la x k := by
  have hhalf := two_mul_half_javaInt la
  have hpos := two_pow_cast_pos k
  have hbound := javaInt_holds_iff.1 h
  have htwo : (2 : Int) ≤ (2 ^ k : Nat) := by exact_mod_cast Nat.le_self_pow (by omega) 2
  have hnum : 0 ≤ (x + (2 ^ (javaInt la).bits : Nat)) / (2 ^ k : Nat) :=
    Int.ediv_nonneg (by omega) hpos.le
  have hlt : (x + (2 ^ (javaInt la).bits : Nat)) / (2 ^ k : Nat)
      < (2 ^ ((javaInt la).bits - 1) : Nat) := by
    rw [Int.ediv_lt_iff_lt_mul hpos]
    have := mul_le_mul_of_nonneg_left htwo (two_pow_cast_pos ((javaInt la).bits - 1)).le
    omega
  rw [shiftLogical, emod_of_holds h, if_pos hneg, javaWrap_eq_iff.2]
  · exact hnum
  rw [javaInt_holds_iff]
  omega

end

theorem shiftLogical_eq_iff {y : Int} (h : (javaInt la).Holds x) (h0 : 0 ≤ y) (h64 : y < 64) :
    shiftLogical la x (shiftDistance la y) = x / (2 ^ y.toNat : Nat)
      ↔ ShiftConforms (javaInt la).bits x y := by
  have hneg_quot : x < 0 → x / (2 ^ y.toNat : Nat) < 0 := fun hneg =>
    Int.ediv_neg_of_neg_of_pos hneg (two_pow_cast_pos _)
  by_cases hlt : y < (javaInt la).bits
  · have hdist : shiftDistance la y = y.toNat := by
      rw [shiftDistance, Int.emod_eq_of_lt h0 hlt]
    rw [hdist]
    rcases lt_or_ge x 0 with hneg | hx
    · by_cases hy : y = 0
      · subst hy
        rw [Int.toNat_zero, shiftLogical_zero h, pow_zero, Nat.cast_one, Int.ediv_one]
        exact iff_of_true rfl (.inr (.inl ⟨hneg, rfl⟩))
      have := shiftLogical_nonneg h hneg (k := y.toNat) (by omega)
      have := hneg_quot hneg
      refine iff_of_false (by omega) ?_
      rintro (⟨hx, -⟩ | ⟨-, hy0⟩ | ⟨-, hyw⟩) <;> omega
    · exact iff_of_true (shiftLogical_of_nonneg h hx _) (.inl ⟨hx, .inl hlt⟩)
  -- an `int` whose distance is masked
  · obtain rfl : la = false := by
      cases la
      · rfl
      · exact absurd h64 hlt
    have hbits : ((javaInt false).bits : Int) = 32 := rfl
    have hbits' : (javaInt false).bits = 32 := rfl
    rw [hbits, not_lt] at hlt
    have hdist : shiftDistance false y = y.toNat - 32 := by
      rw [shiftDistance, hbits]
      omega
    have hbig : (2 ^ 32 : Int) ≤ (2 ^ y.toNat : Nat) := by
      exact_mod_cast Nat.pow_le_pow_right (by decide) (show 32 ≤ y.toNat by omega)
    have hbound := javaInt_holds_iff.1 h
    rw [hbits'] at hbound
    rw [hdist]
    rcases lt_or_ge x 0 with hneg | hx
    · have hquot : x / (2 ^ y.toNat : Nat) = -1 :=
        Int.ediv_eq_neg_one_of_neg_of_le hneg (by omega)
      rw [hquot]
      by_cases hy : y = 32
      · subst hy
        rw [show (32 : Int).toNat - 32 = 0 from rfl, shiftLogical_zero h]
        constructor
        · rintro rfl
          exact .inr (.inr ⟨rfl, rfl⟩)
        · rintro (⟨hx, -⟩ | ⟨-, hy0⟩ | ⟨hx, -⟩) <;> omega
      · have := shiftLogical_nonneg h hneg (k := y.toNat - 32) (by omega)
        refine iff_of_false (by omega) ?_
        rintro (⟨hx, -⟩ | ⟨-, hy0⟩ | ⟨-, hyw⟩) <;> omega
    have hquot : x / (2 ^ y.toNat : Nat) = 0 := Int.ediv_eq_zero_of_lt hx (by omega)
    have hzero : x / (2 ^ (y.toNat - 32) : Nat) = 0 ↔ x < (2 ^ (y.toNat - 32) : Nat) := by
      constructor
      · intro hz
        have := Int.lt_ediv_add_one_mul_self x (two_pow_cast_pos (y.toNat - 32))
        rw [hz] at this
        omega
      · exact Int.ediv_eq_zero_of_lt hx
    rw [shiftLogical_of_nonneg h hx, hquot, hzero]
    constructor
    · exact fun hx' => .inl ⟨hx, .inr hx'⟩
    rintro (⟨-, hy | hx'⟩ | ⟨hneg, -⟩ | ⟨hneg, -⟩)
    · omega
    · exact hx'
    · omega
    · omega

theorem javaGives_arith_iff {op : BinaryOp} {lb : Bool} {y : Int} (hop : isLogical op = false)
    (hx : (javaInt la).Holds x) (hshift : op = .shiftLeft ∨ op = .shiftRight → 0 ≤ y ∧ y < 64)
    (hn : pythonBinary op x y = some n) :
    JavaGives (javaArith op la lb x y) n ↔ JavaConforms op la lb x y := by
  cases op with
  | logAnd | logOr => exact absurd hop (by decide)
  | add | sub | mul | bitAnd | bitOr | bitXor =>
    cases hn
    exact javaGives_some.trans javaWrap_eq_iff
  | eq | neq | lt | lte | gt | gte =>
    cases hn
    exact iff_of_true (javaGives_some.2 rfl) trivial
  | div =>
    simp only [pythonBinary] at hn
    split at hn
    · cases hn
    next hy =>
    cases hn
    simp only [javaArith, if_neg hy, javaGives_some, JavaValue.toInt, JavaConforms,
      ← tdiv_eq_fdiv_iff hy]
    constructor
    · intro h
      by_cases hround : y ∣ x ∨ 0 ≤ x * y
      · have heq := (tdiv_eq_fdiv_iff hy).2 hround
        exact ⟨heq, javaWrap_eq_iff.1 (h.trans heq.symm)⟩
      have hin := holds_tdiv_of_rounded rfl (holds_javaInt_or_left lb hx) hround
      rw [javaWrap_eq_iff.2 hin] at h
      exact ⟨h, hin⟩
    · rintro ⟨heq, hin⟩
      rw [javaWrap_eq_iff.2 hin, heq]
  | mod =>
    simp only [pythonBinary] at hn
    split at hn
    · cases hn
    next hy =>
    cases hn
    have hin := holds_tmod (holds_javaInt_or_left lb hx) y
    simp only [javaArith, if_neg hy, javaGives_some, JavaValue.toInt, JavaConforms,
      javaWrap_eq_iff.2 hin]
    exact tmod_eq_fmod_iff hy
  | shiftLeft =>
    obtain ⟨h0, h64⟩ := hshift (.inl rfl)
    simp only [pythonBinary, if_neg (not_lt.2 h0)] at hn
    cases hn
    exact javaGives_some.trans (wrap_shiftLeft_iff h0 h64)
  | shiftRight =>
    obtain ⟨h0, h64⟩ := hshift (.inr rfl)
    simp only [pythonBinary, if_neg (not_lt.2 h0)] at hn
    cases hn
    exact javaGives_some.trans (shiftLogical_eq_iff hx h0 h64)

theorem javaGives_logic {op : BinaryOp} {p q : Bool} {t : JavaType} (hop : isLogical op = false)
    (ht : javaBinaryType op .boolean .boolean = some t)
    (hn : pythonBinary op (pythonBool p) (pythonBool q) = some n) :
    JavaGives (javaLogic op p q) n := by
  cases op with
  | logAnd | logOr => exact absurd hop (by decide)
  | bitAnd | bitOr | bitXor | eq | neq =>
    cases hn
    exact javaGives_some.2 (by cases p <;> cases q <;> decide)
  | _ => cases ht

end Conduit.Ports

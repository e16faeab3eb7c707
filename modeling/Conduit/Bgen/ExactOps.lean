import Conduit.Bgen.IntTypes
import Conduit.Bits.Integers
import Mathlib.Data.Int.ModEq

/-!
# When an operator of C++ is exact

The operators of C++ compute in the common type of their operands. Here each one is compared with
the operation on integers: the conditions are on the two numbers and on the types, and they are
necessary and sufficient.
-/

namespace Conduit.Bgen

open Bits

namespace CppValue

/-- The operator has a defined result, and it is the given number. -/
def Gives (r : Option CppValue) (n : Int) : Prop := ∃ v, r = some v ∧ v.value = n

@[simp] theorem gives_some {v : CppValue} {n : Int} : Gives (some v) n ↔ v.value = n := by
  simp [Gives]

@[simp] theorem gives_none {n : Int} : ¬Gives none n := by simp [Gives]

theorem convert_modEq (t : IntType) (n : Int) :
    (convert t n).value ≡ n [ZMOD (2 ^ t.bits : Nat)] := by
  unfold convert
  dsimp only
  split
  · exact Int.bmod_emod
  · exact Int.mod_modEq _ _

theorem convert_congr {t : IntType} {m n : Int} (h : m ≡ n [ZMOD (2 ^ t.bits : Nat)]) :
    convert t m = convert t n := by
  unfold convert
  congr 1
  split
  · rw [Int.bmod_def, Int.bmod_def, show m % _ = n % _ from h]
  · exact h

theorem gives_checked_iff {t : IntType} (ht : t.IsPromoted) {m n : Int}
    (hmod : m ≡ n [ZMOD (2 ^ t.bits : Nat)]) (hs : t.isSigned = true → m = n) :
    Gives (checked t m) n ↔ t.Holds n := by
  unfold checked
  cases hsign : t.isSigned with
  | true =>
    obtain rfl := hs hsign
    have hholds : t.Holds m ↔ -(2 ^ (t.bits - 1) : Nat) ≤ m ∧ m < (2 ^ (t.bits - 1) : Nat) := by
      simp [IntType.Holds, hsign]
    split
    · next h =>
      simp only [Bool.true_and, Bool.or_eq_true, decide_eq_true_eq] at h
      rw [hholds, iff_false_left gives_none]
      omega
    · rw [gives_some, convert_value_eq_iff ht.bits_pos]
  | false => rw [if_neg (by simp), gives_some, convert_congr hmod, convert_value_eq_iff ht.bits_pos]

section

variable {a b : CppValue} (ha : a.WF) (hb : b.WF)

include ha hb

theorem isPromoted_common : (commonType a.type b.type).IsPromoted :=
  isPromoted_commonType ha.promoted hb.promoted

theorem convert_left_eq_iff : (convert (commonType a.type b.type) a.value).value = a.value
      ↔ (commonType a.type b.type).Holds a.value :=
  convert_value_eq_iff (isPromoted_common ha hb).bits_pos

theorem convert_right_eq_iff : (convert (commonType a.type b.type) b.value).value = b.value
      ↔ (commonType a.type b.type).Holds b.value :=
  convert_value_eq_iff (isPromoted_common ha hb).bits_pos

theorem holds_of_signed (h : (commonType a.type b.type).isSigned = true) :
    (commonType a.type b.type).Holds a.value ∧ (commonType a.type b.type).Holds b.value :=
  ⟨(holds_commonType_left ha.promoted hb.promoted ha.holds).2 (.inl h),
    (holds_commonType_right ha.promoted hb.promoted hb.holds).2 (.inl h)⟩

/-- Sums, differences and products respect congruence, so only the result has to fit. -/
theorem gives_ring_iff {op : BinaryOp} (f : Int → Int → Int)
    (hop : binary op a b = checked (commonType a.type b.type)
      (f (convert (commonType a.type b.type) a.value).value
        (convert (commonType a.type b.type) b.value).value))
    (hf : ∀ {n x x' y y' : Int}, x ≡ x' [ZMOD n] → y ≡ y' [ZMOD n] → f x y ≡ f x' y' [ZMOD n]) :
    Gives (binary op a b) (f a.value b.value)
      ↔ (commonType a.type b.type).Holds (f a.value b.value) := by
  rw [hop]
  refine gives_checked_iff (isPromoted_common ha hb)
    (hf (convert_modEq _ _) (convert_modEq _ _)) fun h => ?_
  obtain ⟨hx, hy⟩ := holds_of_signed ha hb h
  rw [(convert_left_eq_iff ha hb).2 hx, (convert_right_eq_iff ha hb).2 hy]

theorem gives_bitwise_iff {f : Nat → Nat → Nat} {g : Int → Int → Int}
    (hfg : ∀ (x y : Int) (w : Nat),
      f (x % (2 ^ w : Nat)).toNat (y % (2 ^ w : Nat)).toNat = (g x y % (2 ^ w : Nat)).toNat) :
    Gives (some (bitwise (commonType a.type b.type) f
        (convert (commonType a.type b.type) a.value).value
        (convert (commonType a.type b.type) b.value).value)) (g a.value b.value)
      ↔ (commonType a.type b.type).Holds (g a.value b.value) := by
  have hx : (convert (commonType a.type b.type) a.value).value % _ = _ := convert_modEq _ _
  have hy : (convert (commonType a.type b.type) b.value).value % _ = _ := convert_modEq _ _
  have hpos : (0 : Int) < (2 ^ (commonType a.type b.type).bits : Nat) := by
    exact_mod_cast Nat.two_pow_pos _
  rw [gives_some, bitwise, hx, hy, hfg, Int.toNat_of_nonneg (Int.emod_nonneg _ hpos.ne'),
    convert_congr (Int.mod_modEq _ _)]
  exact convert_value_eq_iff (isPromoted_common ha hb).bits_pos

theorem gives_bitAnd_iff : Gives (binary .bitAnd a b) (a.value.land b.value)
      ↔ (commonType a.type b.type).Holds (a.value.land b.value) :=
  gives_bitwise_iff ha hb toNat_emod_land

theorem gives_bitOr_iff : Gives (binary .bitOr a b) (a.value.lor b.value)
      ↔ (commonType a.type b.type).Holds (a.value.lor b.value) :=
  gives_bitwise_iff ha hb toNat_emod_lor

theorem gives_bitXor_iff : Gives (binary .bitXor a b) (a.value.xor b.value)
      ↔ (commonType a.type b.type).Holds (a.value.xor b.value) :=
  gives_bitwise_iff ha hb toNat_emod_xor

/-! ## Operands that change -/

theorem changed_cases
    (h : ¬((commonType a.type b.type).Holds a.value ∧ (commonType a.type b.type).Holds b.value)) :
    (commonType a.type b.type).isSigned = false
      ∧ (a.value < 0 ∧ 0 ≤ b.value ∨ 0 ≤ a.value ∧ b.value < 0) := by
  have hsign : (commonType a.type b.type).isSigned = false := by
    by_contra hs
    exact h (holds_of_signed ha hb (by simpa using hs))
  rw [holds_commonType_left ha.promoted hb.promoted ha.holds,
    holds_commonType_right ha.promoted hb.promoted hb.holds, hsign] at h
  have := nonneg_of_unsigned ha.holds hb.holds hsign
  refine ⟨hsign, ?_⟩
  simp only [Bool.false_eq_true, false_or, not_and_or, not_le] at h
  omega

omit ha in
theorem convert_right_ne_zero (h : b.value ≠ 0) :
    (convert (commonType a.type b.type) b.value).value ≠ 0 := by
  intro h0
  have hdvd : ((2 ^ (commonType a.type b.type).bits : Nat) : Int) ∣ b.value := by
    have hmod := convert_modEq (commonType a.type b.type) b.value
    rw [h0] at hmod
    exact Int.modEq_zero_iff_dvd.1 hmod.symm
  have hle : b.type.bits ≤ (commonType a.type b.type).bits := by
    unfold commonType
    split
    · next heq => exact heq.symm.le
    · split <;> omega
  have hpow : 2 ^ b.type.bits ≤ 2 ^ (commonType a.type b.type).bits :=
    Nat.pow_le_pow_right (by decide) hle
  have hhalf := IntType.two_mul_half hb.promoted.bits_pos
  have hpos := Nat.two_pow_pos (b.type.bits - 1)
  have hrange := hb.holds
  refine h (Int.eq_zero_of_abs_lt_dvd hdvd ?_)
  unfold IntType.Holds at hrange
  rw [abs_lt]
  split at hrange <;> omega

/-! ## Quotients and remainders -/

theorem gives_div_iff (hy : b.value ≠ 0) (hround : b.value ∣ a.value ∨ 0 ≤ a.value * b.value) :
    Gives (binary .div a b) (a.value.tdiv b.value)
      ↔ ((commonType a.type b.type).Holds a.value ∧ (commonType a.type b.type).Holds b.value
          ∨ a.value = 0) ∧ (commonType a.type b.type).Holds (a.value.tdiv b.value) := by
  have hy' := convert_right_ne_zero (a := a) hb hy
  have ht := isPromoted_common ha hb
  simp only [binary, if_neg hy']
  by_cases hun : (commonType a.type b.type).Holds a.value ∧ (commonType a.type b.type).Holds b.value
  · rw [(convert_left_eq_iff ha hb).2 hun.1, (convert_right_eq_iff ha hb).2 hun.2,
      gives_checked_iff ht (Int.ModEq.refl _) fun _ => rfl]
    exact ⟨fun h => ⟨.inl hun, h⟩, fun h => h.2⟩
  obtain ⟨hsign, hcases⟩ := changed_cases ha hb hun
  by_cases hx : a.value = 0
  · have hzero : (convert (commonType a.type b.type) 0).value = 0 := by
      simp [convert, hsign]
    rw [hx, hzero, Int.zero_tdiv, Int.zero_tdiv,
      gives_checked_iff ht (Int.ModEq.refl _) fun _ => rfl]
    exact ⟨fun h => ⟨.inr rfl, h⟩, fun h => h.2⟩
  -- the signs differ, so the exact quotient is below zero
  refine iff_of_false ?_ (fun h => h.1.elim hun hx)
  rintro ⟨v, hv, hval⟩
  have hnonneg : 0 ≤ v.value := by
    have := (wf_of_checked ht hv).holds
    have htype : v.type = commonType a.type b.type := by
      unfold checked at hv
      split at hv
      · simp at hv
      rw [← Option.some.inj hv]
      rfl
    rw [htype, IntType.Holds, hsign] at this
    exact this.1
  have hneg : a.value * b.value < 0 := by
    rcases hcases with ⟨hx', hy'⟩ | ⟨hx', hy'⟩
    · exact mul_neg_of_neg_of_pos hx' (by omega)
    · exact mul_neg_of_pos_of_neg (by omega) hy'
  have hdvd : b.value ∣ a.value := hround.resolve_right (by omega)
  have hmul := Int.tdiv_mul_cancel hdvd
  rw [← hval] at hmul
  have hsq : 0 ≤ v.value * (b.value * b.value) := mul_nonneg hnonneg (mul_self_nonneg _)
  rw [← mul_assoc, hmul] at hsq
  omega

omit ha hb in
theorem checked_tdiv_isSome_iff {t : IntType} {x y : Int} (hx : t.Holds x) (hy : t.Holds y) :
    (checked t (x.tdiv y)).isSome ↔ t.Holds (x.tdiv y) := by
  cases hsign : t.isSigned with
  | true =>
    simp only [checked, IntType.Holds, hsign, Bool.true_and, if_true]
    split
    · next h =>
      simp only [Bool.or_eq_true, decide_eq_true_eq] at h
      simp only [Option.isSome_none, Bool.false_eq_true, false_iff]
      omega
    next h =>
    simp only [Bool.or_eq_true, decide_eq_true_eq] at h
    simp only [Option.isSome_some, true_iff]
    omega
  | false =>
    simp only [IntType.Holds, hsign, Bool.false_eq_true, if_false] at hx hy ⊢
    have hnonneg := Int.tdiv_nonneg hx.1 hy.1
    have hle := Int.tdiv_le_self y hx.1
    simp only [checked, hsign, Bool.false_and, Bool.false_eq_true, if_false, Option.isSome_some,
      true_iff]
    omega

theorem gives_mod_iff (hy : b.value ≠ 0) (hround : b.value ∣ a.value ∨ 0 ≤ a.value * b.value) :
    Gives (binary .mod a b) (a.value.tmod b.value)
      ↔ if (commonType a.type b.type).Holds a.value ∧ (commonType a.type b.type).Holds b.value
        then (commonType a.type b.type).Holds (a.value.tdiv b.value)
        else (convert (commonType a.type b.type) b.value).value
          ∣ (convert (commonType a.type b.type) a.value).value := by
  have hy' := convert_right_ne_zero (a := a) hb hy
  have ht := isPromoted_common ha hb
  simp only [binary, if_neg hy']
  split
  · next hun =>
    rw [(convert_left_eq_iff ha hb).2 hun.1, (convert_right_eq_iff ha hb).2 hun.2,
      ← checked_tdiv_isSome_iff hun.1 hun.2]
    cases checked (commonType a.type b.type) (a.value.tdiv b.value) <;> simp
  next hun =>
  obtain ⟨hsign, hcases⟩ := changed_cases ha hb hun
  have hzero : a.value.tmod b.value = 0 := by
    refine Int.tmod_eq_zero_of_dvd (hround.elim id fun hnonneg => ?_)
    rcases hcases with ⟨hx, hy0⟩ | ⟨hx, hy0⟩
    · have := mul_neg_of_neg_of_pos hx (lt_of_le_of_ne hy0 hy.symm)
      omega
    rcases hx.eq_or_lt with hx | hx
    · exact hx ▸ Int.dvd_zero _
    have := mul_neg_of_pos_of_neg hx hy0
    omega
  rw [hzero, checked, if_neg (by simp [hsign]), Option.map_some, gives_some]
  exact (Int.dvd_iff_tmod_eq_zero ..).symm

/-! ## Shifts -/

omit hb in
theorem gives_shiftLeft_iff (hy : 0 ≤ b.value) :
    Gives (binary .shiftLeft a b) (a.value * (2 ^ b.value.toNat : Nat))
      ↔ b.value < a.type.bits ∧ a.type.Holds (a.value * (2 ^ b.value.toNat : Nat)) := by
  simp only [binary, shift]
  by_cases hlt : b.value < a.type.bits
  · rw [if_neg (by simp; omega), if_pos trivial, gives_some,
      convert_value_eq_iff ha.promoted.bits_pos]
    exact ⟨fun h => ⟨hlt, h⟩, fun h => h.2⟩
  · rw [if_pos (by simp; omega)]
    exact iff_of_false gives_none fun h => hlt h.1

omit hb in
theorem holds_div_two_pow (k : Nat) : a.type.Holds (a.value / (2 ^ k : Nat)) := by
  have hpos : (0 : Int) < (2 ^ k : Nat) := by exact_mod_cast Nat.two_pow_pos k
  refine ha.holds.of_between ?_
  rcases lt_or_ge a.value 0 with hneg | h0
  · refine .inr ⟨?_, (Int.ediv_neg_of_neg_of_pos hneg hpos).le⟩
    rw [Int.le_ediv_iff_mul_le hpos]
    exact mul_le_of_one_le_right hneg.le hpos
  · exact .inl ⟨Int.ediv_nonneg h0 hpos.le, Int.ediv_le_self _ h0⟩

omit hb in
theorem gives_shiftRight_iff (hy : 0 ≤ b.value) :
    Gives (binary .shiftRight a b) (a.value / (2 ^ b.value.toNat : Nat))
      ↔ b.value < a.type.bits := by
  simp only [binary, shift]
  by_cases hlt : b.value < a.type.bits
  · rw [if_neg (by simp; omega), if_neg (by simp), gives_some,
      convert_value_eq_iff ha.promoted.bits_pos]
    exact ⟨fun _ => hlt, fun _ => holds_div_two_pow ha _⟩
  · rw [if_pos (by simp; omega)]
    exact iff_of_false gives_none hlt

/-! ## Operators with one operand -/

omit hb in
theorem gives_negate_iff : Gives (unary .negate a) (-a.value) ↔ a.type.Holds (-a.value) :=
  gives_checked_iff ha.promoted (Int.ModEq.refl _) fun _ => rfl

omit hb in
theorem gives_bitNot_iff :
    Gives (unary .bitNot a) (-a.value - 1) ↔ a.type.Holds (-a.value - 1) := by
  simp only [unary, gives_some]
  exact convert_value_eq_iff ha.promoted.bits_pos

end

end CppValue

end Conduit.Bgen

import Conduit.Bgen.StructExpr
import Mathlib.Algebra.Order.Ring.Int

/-!
# Ranges of the integer types

Which numbers a type holds, and what the conversions of an expression do to a number that its own
type holds: nothing, unless a negative number becomes unsigned.
-/

namespace Conduit.Bgen

open IntType

namespace IntType

variable {bits : Nat} {n : Int}

/-- The number is in the range of the type. -/
def Holds (t : IntType) (n : Int) : Prop :=
  if t.isSigned then -(2 ^ (t.bits - 1) : Nat) ≤ n ∧ n < (2 ^ (t.bits - 1) : Nat)
  else 0 ≤ n ∧ n < (2 ^ t.bits : Nat)

instance (t : IntType) (n : Int) : Decidable (t.Holds n) :=
  inferInstanceAs (Decidable (if t.isSigned then _ else _))

/-- The types that arithmetic is done in. -/
def IsPromoted (t : IntType) : Prop := t.bits = 32 ∨ t.bits = 64

theorem IsPromoted.bits_pos {t : IntType} (h : t.IsPromoted) : 1 ≤ t.bits := by
  rcases h with h | h <;> omega

theorem two_mul_half (h : 1 ≤ bits) : 2 * 2 ^ (bits - 1) = 2 ^ bits := by
  rw [← pow_succ', Nat.sub_add_cancel h]

theorem holds_bmod (h : 1 ≤ bits) (n : Int) : Holds ⟨bits, true⟩ (n.bmod (2 ^ bits)) := by
  have hpos : 0 < 2 ^ bits := Nat.two_pow_pos bits
  have hlo := Int.le_bmod (x := n) hpos
  have hhi := Int.bmod_lt (x := n) hpos
  have := two_mul_half h
  simp only [Holds, if_true]
  omega

theorem bmod_eq_iff (h : 1 ≤ bits) : n.bmod (2 ^ bits) = n ↔ Holds ⟨bits, true⟩ n := by
  constructor
  · intro heq
    exact heq ▸ holds_bmod h n
  intro hn
  simp only [Holds, if_true] at hn
  have := two_mul_half h
  exact Int.bmod_eq_of_le (by omega) (by omega)

theorem Holds.mono {bits' : Nat} {isSigned : Bool} (h : Holds ⟨bits, isSigned⟩ n)
    (hle : bits ≤ bits') : Holds ⟨bits', isSigned⟩ n := by
  have hpow : 2 ^ bits ≤ 2 ^ bits' := Nat.pow_le_pow_right (by decide) hle
  have hhalf : 2 ^ (bits - 1) ≤ 2 ^ (bits' - 1) := Nat.pow_le_pow_right (by decide) (by omega)
  unfold Holds at h ⊢
  cases isSigned <;> simp only [Bool.false_eq_true, if_true, if_false] at h ⊢ <;> omega

theorem Holds.of_between {t : IntType} {m : Int} (h : t.Holds n)
    (hm : 0 ≤ m ∧ m ≤ n ∨ n ≤ m ∧ m ≤ 0) : t.Holds m := by
  have hpos := Nat.two_pow_pos (t.bits - 1)
  unfold Holds at h ⊢
  split
  · next hsign =>
    rw [if_pos hsign] at h
    omega
  · next hsign =>
    rw [if_neg hsign] at h
    omega

end IntType

namespace CppValue

variable {t : IntType} {n : Int}

/-- A number in a promoted type that holds it. -/
structure WF (v : CppValue) : Prop where
  promoted : v.type.IsPromoted
  holds : v.type.Holds v.value

theorem convert_value_eq_iff (ht : 1 ≤ t.bits) : (convert t n).value = n ↔ t.Holds n := by
  obtain ⟨bits, isSigned⟩ := t
  cases isSigned with
  | true => exact bmod_eq_iff ht
  | false =>
    have hpos : (0 : Int) < (2 ^ bits : Nat) := by exact_mod_cast Nat.two_pow_pos bits
    show n % (2 ^ bits : Nat) = n ↔ 0 ≤ n ∧ n < (2 ^ bits : Nat)
    constructor
    · intro h
      exact h ▸ ⟨Int.emod_nonneg _ hpos.ne', Int.emod_lt_of_pos _ hpos⟩
    · rintro ⟨h0, hlt⟩
      exact Int.emod_eq_of_lt h0 hlt

theorem holds_convert (ht : 1 ≤ t.bits) (n : Int) : t.Holds (convert t n).value := by
  obtain ⟨bits, isSigned⟩ := t
  cases isSigned with
  | true => exact holds_bmod ht n
  | false =>
    have hpos : (0 : Int) < (2 ^ bits : Nat) := by exact_mod_cast Nat.two_pow_pos bits
    exact ⟨Int.emod_nonneg _ hpos.ne', Int.emod_lt_of_pos _ hpos⟩

theorem wf_convert (ht : t.IsPromoted) (n : Int) : (convert t n).WF :=
  ⟨ht, holds_convert ht.bits_pos n⟩

theorem wf_of_checked (ht : t.IsPromoted) {v : CppValue} (h : checked t n = some v) : v.WF := by
  unfold checked at h
  split at h
  · simp at h
  cases h
  exact wf_convert ht n

theorem wf_ofBool (b : Bool) : (ofBool b).WF := by
  cases b <;> exact ⟨.inl rfl, by decide⟩

theorem wf_literal (h0 : 0 ≤ n) (h : n < 2 ^ 63) : (literal n).WF := by
  unfold literal
  split
  · exact ⟨.inl rfl, by simp [Holds, int32]; omega⟩
  · exact ⟨.inr rfl, by simp [Holds]; omega⟩

theorem wf_promote {v : CppValue} (hbits : v.type.bits = 8 ∨ v.type.bits = 16 ∨ v.type.IsPromoted)
    (h : v.type.Holds v.value) : v.promote.WF := by
  obtain ⟨⟨bits, isSigned⟩, n⟩ := v
  unfold promote
  rcases hbits with hb | hb | hb
  · obtain rfl : bits = 8 := hb
    refine ⟨.inl rfl, ?_⟩
    cases isSigned <;> simp [Holds, int32] at h ⊢ <;> omega
  · obtain rfl : bits = 16 := hb
    refine ⟨.inl rfl, ?_⟩
    cases isSigned <;> simp [Holds, int32] at h ⊢ <;> omega
  · have hlt : ¬bits < 32 := by rcases hb with hb | hb <;> simp only at hb <;> omega
    rw [if_neg hlt]
    exact ⟨hb, h⟩

theorem isPromoted_commonType {a b : IntType} (ha : a.IsPromoted) (hb : b.IsPromoted) :
    (commonType a b).IsPromoted := by
  unfold commonType
  split
  · exact ha
  split
  · exact hb
  · exact ha

theorem holds_commonType_left {a b : IntType} (ha : a.IsPromoted) (hb : b.IsPromoted)
    (h : a.Holds n) : (commonType a b).Holds n ↔ (commonType a b).isSigned = true ∨ 0 ≤ n := by
  obtain ⟨abits, asigned⟩ := a
  obtain ⟨bbits, bsigned⟩ := b
  rcases ha with ha | ha <;> rcases hb with hb | hb <;> simp only at ha hb <;> subst ha <;> subst hb
    <;> cases asigned <;> cases bsigned <;> simp [commonType, Holds] at h ⊢ <;> omega

theorem commonType_comm (a b : IntType) : commonType a b = commonType b a := by
  unfold commonType
  by_cases h : a.bits = b.bits
  · simp [h, Bool.and_comm]
  have h' : ¬b.bits = a.bits := fun e => h e.symm
  rw [if_neg h, if_neg h']
  by_cases hlt : a.bits < b.bits
  · rw [if_pos hlt, if_neg (by omega)]
  · rw [if_neg hlt, if_pos (by omega)]

theorem holds_commonType_right {a b : IntType} (ha : a.IsPromoted) (hb : b.IsPromoted)
    (h : b.Holds n) : (commonType a b).Holds n ↔ (commonType a b).isSigned = true ∨ 0 ≤ n := by
  rw [commonType_comm]
  exact holds_commonType_left hb ha h

theorem nonneg_of_unsigned {a b : IntType} {x y : Int} (hx : a.Holds x) (hy : b.Holds y)
    (h : (commonType a b).isSigned = false) : 0 ≤ x ∨ 0 ≤ y := by
  unfold commonType at h
  simp only [Holds] at hx hy
  split at h
  · cases ha : a.isSigned <;> simp [ha] at hx h
    · exact .inl hx.1
    simp [h] at hy
    exact .inr hy.1
  split at h
  · simp [h] at hy
    exact .inr hy.1
  · simp [h] at hx
    exact .inl hx.1

end CppValue

end Conduit.Bgen

import Mathlib.Algebra.Order.Ring.Int
import Mathlib.Data.Int.Bitwise

/-!
# Integers as two's-complement patterns

The bits of an integer modulo a power of two, and where the rounding of a quotient matters.
-/

namespace Conduit.Bits

theorem testBit_toNat_emod (x : Int) (w k : Nat) :
    (x % (2 ^ w : Nat)).toNat.testBit k = (decide (k < w) && x.testBit k) := by
  cases x with
  | ofNat n =>
    have h : ((Int.ofNat n) % (2 ^ w : Nat)).toNat = n % 2 ^ w := rfl
    rw [h, Nat.testBit_mod_two_pow]
    rfl
  | negSucc n =>
    have hlt : n % 2 ^ w < 2 ^ w := Nat.mod_lt _ (Nat.two_pow_pos w)
    have h : (Int.negSucc n % (2 ^ w : Nat)).toNat = 2 ^ w - (n % 2 ^ w + 1) := by
      have hpos : (0 : Int) < (2 ^ w : Nat) := by exact_mod_cast Nat.two_pow_pos w
      rw [Int.negSucc_emod _ hpos, ← Int.natCast_emod]
      omega
    rw [h, Nat.testBit_two_pow_sub_succ hlt, Nat.testBit_mod_two_pow]
    by_cases hk : k < w
    · simp [hk, Int.testBit]
    · simp [hk]

theorem toNat_emod_land (x y : Int) (w : Nat) :
    (x % (2 ^ w : Nat)).toNat &&& (y % (2 ^ w : Nat)).toNat = (x.land y % (2 ^ w : Nat)).toNat := by
  refine Nat.eq_of_testBit_eq fun k => ?_
  rw [Nat.testBit_and, testBit_toNat_emod, testBit_toNat_emod, testBit_toNat_emod, Int.testBit_land]
  cases decide (k < w) <;> simp

theorem toNat_emod_lor (x y : Int) (w : Nat) :
    (x % (2 ^ w : Nat)).toNat ||| (y % (2 ^ w : Nat)).toNat = (x.lor y % (2 ^ w : Nat)).toNat := by
  refine Nat.eq_of_testBit_eq fun k => ?_
  rw [Nat.testBit_or, testBit_toNat_emod, testBit_toNat_emod, testBit_toNat_emod, Int.testBit_lor]
  cases decide (k < w) <;> simp

theorem toNat_emod_xor (x y : Int) (w : Nat) :
    (x % (2 ^ w : Nat)).toNat ^^^ (y % (2 ^ w : Nat)).toNat = (x.xor y % (2 ^ w : Nat)).toNat := by
  refine Nat.eq_of_testBit_eq fun k => ?_
  rw [Nat.testBit_xor, testBit_toNat_emod, testBit_toNat_emod, testBit_toNat_emod, Int.testBit_lxor]
  cases decide (k < w) <;> simp

theorem tdiv_eq_fdiv_iff {x y : Int} (hy : y ≠ 0) : x.tdiv y = x.fdiv y ↔ y ∣ x ∨ 0 ≤ x * y := by
  rw [Int.tdiv_eq_fdiv]
  by_cases hd : y ∣ x
  · simp [hd]
  have hx : x ≠ 0 := fun h => hd (h ▸ Int.dvd_zero y)
  rcases lt_or_gt_of_ne hx with hx | hx <;> rcases lt_or_gt_of_ne hy with hy | hy
  · have := mul_pos_of_neg_of_neg hx hy
    simp [hd, not_le.2 hx, not_le.2 hy, Int.sign_eq_neg_one_of_neg hy, this.le]
  · have := mul_neg_of_neg_of_pos hx hy
    simp [hd, not_le.2 hx, hy.le, Int.sign_eq_one_of_pos hy, this]
  · have := mul_neg_of_pos_of_neg hx hy
    simp [hd, hx.le, not_le.2 hy, this]
  · have := mul_pos hx hy
    simp [hd, hx.le, hy.le, this.le]

theorem tmod_eq_fmod_iff {x y : Int} (hy : y ≠ 0) : x.tmod y = x.fmod y ↔ y ∣ x ∨ 0 ≤ x * y := by
  rw [← tdiv_eq_fdiv_iff hy, Int.tmod_def, Int.fmod_def, sub_right_inj]
  exact ⟨fun h => mul_left_cancel₀ hy h, fun h => by rw [h]⟩

end Conduit.Bits

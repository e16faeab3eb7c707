import Conduit.Bits.MsbFirst

/-!
# Bits in octet strings, and strings that say where they end

Bit 0 of an octet string is the most significant bit of its first octet, as on the wire. A string
whose elements carry a mark for "another one follows" is cut off after the first element without
the mark.
-/

namespace Conduit.Bits

open List

/-! ## Single bits -/

/-- A bit of an octet string. There are no ones after its end. -/
def hasBit (octets : List UInt8) (bit : Nat) : Bool :=
  (octets.getD (bit / 8) 0).toNat.testBit (7 - bit % 8)

/-- The octet string with one more bit set. -/
def setBit (octets : List UInt8) (bit : Nat) : List UInt8 :=
  octets.modify (bit / 8) (· ||| UInt8.ofNat (2 ^ (7 - bit % 8)))

theorem and_two_pow_ne_zero (v i : Nat) : (v &&& 2 ^ i ≠ 0) ↔ v.testBit i = true := by
  rw [Nat.and_two_pow]
  cases v.testBit i <;> simp

theorem hasBit_replicate (n bit : Nat) : hasBit (replicate n 0) bit = false := by simp [hasBit]

theorem testBit_or_mask (b : UInt8) {i : Nat} (hi : i < 8) (j : Nat) :
    (b ||| UInt8.ofNat (2 ^ i)).toNat.testBit j = (b.toNat.testBit j || decide (i = j)) := by
  have hmask : (UInt8.ofNat (2 ^ i)).toNat = 2 ^ i := by
    rw [UInt8.toNat_ofNat', Nat.mod_eq_of_lt]
    exact Nat.pow_lt_pow_right (by decide) hi
  rw [UInt8.toNat_or, Nat.testBit_or, hmask, Nat.testBit_two_pow]

theorem getD_modify (octets : List UInt8) (f : UInt8 → UInt8) {i : Nat} (hi : i < octets.length)
    (k : Nat) :
    (octets.modify i f).getD k 0 = if i = k then f (octets.getD k 0) else octets.getD k 0 := by
  grind

theorem hasBit_setBit {octets : List UInt8} {bit : Nat} (h : bit / 8 < octets.length) (k : Nat) :
    hasBit (setBit octets bit) k = (hasBit octets k || decide (bit = k)) := by
  unfold hasBit setBit
  rw [getD_modify octets _ h]
  by_cases hoctet : bit / 8 = k / 8
  · rw [if_pos hoctet, testBit_or_mask _ (by omega)]
    have hiff : (7 - bit % 8 = 7 - k % 8) ↔ bit = k := by omega
    simp only [hiff]
  have hne : bit ≠ k := by
    rintro rfl
    exact hoctet rfl
  rw [if_neg hoctet]
  simp [hne]

theorem hasBit_append {front : List UInt8} (rest : List UInt8) {k : Nat}
    (h : k / 8 < front.length) : hasBit (front ++ rest) k = hasBit front k := by
  unfold hasBit
  rw [getD_append _ _ _ _ h]

/-! ## Continued strings -/

section Continued

variable {α : Type} (more : α → Bool)

/-- The elements up to the first one that is not continued, and what follows them. -/
def splitContinued : List α → Option (List α × List α)
  | [] => none
  | a :: as =>
    if more a then (splitContinued as).map fun (xs, rest) => (a :: xs, rest) else some ([a], as)

variable {more}

theorem splitContinued_append {xs : List α} (h : ∀ x ∈ xs, more x = true) (rest : List α) :
    splitContinued more (xs ++ rest)
      = (splitContinued more rest).map fun (ys, rest) => (xs ++ ys, rest) := by
  induction xs with
  | nil => simp
  | cons x xs ih =>
    have hx := h x mem_cons_self
    have hrest := ih fun y hy => h y (mem_cons_of_mem x hy)
    rw [cons_append, splitContinued, if_pos hx, hrest, Option.map_map]
    rfl

theorem splitContinued_last {xs : List α} {x : α} (h : ∀ y ∈ xs, more y = true)
    (hx : more x = false) (rest : List α) :
    splitContinued more (xs ++ x :: rest) = some (xs ++ [x], rest) := by
  rw [splitContinued_append h, splitContinued, hx]
  rfl

theorem splitContinued_eq_some {as xs rest : List α}
    (h : splitContinued more as = some (xs, rest)) : as = xs ++ rest ∧ xs ≠ [] := by
  induction as generalizing xs with
  | nil => cases h
  | cons a as ih =>
    rw [splitContinued] at h
    by_cases ha : more a = true
    · rw [if_pos ha, Option.map_eq_some_iff] at h
      obtain ⟨⟨ys, rest'⟩, hsplit, hpair⟩ := h
      cases hpair
      obtain ⟨rfl, -⟩ := ih hsplit
      exact ⟨rfl, cons_ne_nil _ _⟩
    · rw [if_neg ha] at h
      cases h
      exact ⟨rfl, cons_ne_nil _ _⟩

theorem length_lt_of_splitContinued {xs ys rest rest' : List α} (hxs : ∀ x ∈ xs, more x = true)
    (h : splitContinued more (xs ++ rest) = some (ys, rest')) : xs.length < ys.length := by
  rw [splitContinued_append hxs, Option.map_eq_some_iff] at h
  obtain ⟨⟨zs, rest''⟩, hsplit, hpair⟩ := h
  cases hpair
  have hne := (splitContinued_eq_some hsplit).2
  rw [length_append]
  have := length_pos_iff.mpr hne
  omega

end Continued

end Conduit.Bits

import Conduit.Bgen.MessageIds
import Conduit.Bgen.Narrowing

/-!
# Literals in 64 bits

`parse_literal` takes a minus sign off and leaves the rest to `std::from_chars`, which accepts a
sign of its own and has no room for `2 ^ 63` before the negation.
-/

namespace Conduit.Bgen

open List Option

variable {s : String} {base n : Nat} {cs : List Char}

/-- The base of a literal, and its text without the sign and the `0x`. -/
def literalDigits (s : String) : Nat × List Char :=
  let cs := (splitSign s.toList).2
  if isHexText cs then (16, cs.drop 2) else (10, cs)

theorem literalDigits_base (s : String) : (literalDigits s).1 = 10 ∨ (literalDigits s).1 = 16 := by
  unfold literalDigits
  dsimp only
  split <;> simp

theorem literalNumber_eq (s : String) : literalNumber s
    = (parseDigits (literalDigits s).1 (literalDigits s).2).map
      fun (n : Nat) => if (splitSign s.toList).1 then -(n : Int) else n := by
  unfold literalNumber literalDigits
  by_cases hhex : isHexText (splitSign s.toList).2 <;> simp only [hhex] <;> rfl

theorem parseLiteral_eq (s : String) : parseLiteral s
    = (fromChars (literalDigits s).1 (literalDigits s).2).map
      fun v => if (splitSign s.toList).1 then (-v).bmod (2 ^ 64) else v := by
  unfold parseLiteral literalDigits
  by_cases hempty : s.toList = []
  · simp [hempty, splitSign, isHexText, fromChars, parseDigits]
  rw [if_neg (by simpa using hempty)]
  dsimp only
  split <;> simp only [bind_eq_bind, Option.pure_def, Option.map_eq_bind] <;> rfl

/-! ## Digits -/

theorem exists_foldlM_digits (acc : Nat) (h : ∀ c ∈ cs, (digitValue base c).isSome) :
    ∃ n, cs.foldlM (fun acc c => (digitValue base c).map (base * acc + ·)) acc = some n := by
  induction cs generalizing acc with
  | nil => exact ⟨acc, rfl⟩
  | cons c cs ih =>
    obtain ⟨d, hd⟩ := isSome_iff_exists.mp (h c mem_cons_self)
    obtain ⟨n, hn⟩ := ih (base * acc + d) fun c hc => h c (mem_cons_of_mem _ hc)
    exact ⟨n, by simp [hd, hn]⟩

theorem isSome_parseDigits_iff :
    (parseDigits base cs).isSome ↔ cs ≠ [] ∧ ∀ c ∈ cs, (digitValue base c).isSome := by
  constructor
  · intro h
    obtain ⟨n, hn⟩ := isSome_iff_exists.mp h
    exact digits_of_parseDigits hn
  rintro ⟨hne, hall⟩
  cases cs with
  | nil => exact absurd rfl hne
  | cons c cs => exact isSome_iff_exists.mpr (exists_foldlM_digits 0 hall)

theorem isSome_digitValue_ten (c : Char) : (digitValue 10 c).isSome = c.isDigit := by
  by_cases hdigit : c.isDigit
  · have hrange : '0'.toNat ≤ c.toNat ∧ c.toNat ≤ '9'.toNat := by
      simpa [Char.isDigit, UInt32.le_iff_toNat_le] using hdigit
    have hlt : c.toNat - 48 < 10 := by
      have hnine : '9'.toNat = 57 := rfl
      omega
    simp [digitValue, hdigit, hlt]
  · rw [Bool.eq_false_iff.mpr hdigit, Bool.eq_false_iff]
    exact fun h => hdigit (isDigit_of_digitValue le_rfl h)

/-- The validator's test is whether the text has digits only. -/
theorem isValidNumericLiteral_iff : isValidNumericLiteral s = true ↔ (literalNumber s).isSome := by
  rw [literalNumber_eq, isSome_map, isSome_parseDigits_iff]
  unfold isValidNumericLiteral literalDigits
  dsimp only
  split
  next hhex =>
    rw [List.all_eq_true]
    refine (and_iff_right ?_).symm
    revert hhex
    unfold isHexText
    split
    next hcs => simp [hcs]
    next => simp
  next => simp [isSome_digitValue_ten]

theorem parseDigits_sign (hbase : base = 10 ∨ base = 16) : parseDigits base ('-' :: cs) = none := by
  have hsign : digitValue base '-' = none := by rcases hbase with rfl | rfl <;> decide
  simp [parseDigits, hsign]

/-! ## What is read -/

/-- `parse_literal` reads exactly the valid literals whose number is an `int64_t`, as that
number. -/
def ReadsLiteral (s : String) : Prop :=
  ∀ v, parseLiteral s = some v ↔
    isValidNumericLiteral s = true ∧ literalNumber s = some v ∧ -2 ^ 63 ≤ v ∧ v ≤ 2 ^ 63 - 1

/-- There is no second sign before a magnitude that `std::from_chars` has room for. -/
def SignedOnce (s : String) : Prop :=
  ∀ cs n, (literalDigits s).2 = '-' :: cs → parseDigits (literalDigits s).1 cs = some n → 2 ^ 63 < n

theorem readsLiteral_iff_number : ReadsLiteral s ↔
    ∀ v, parseLiteral s = some v ↔ literalNumber s = some v ∧ -2 ^ 63 ≤ v ∧ v ≤ 2 ^ 63 - 1 := by
  refine forall_congr' fun v => iff_congr Iff.rfl (and_iff_right_of_imp fun h => ?_)
  rw [isValidNumericLiteral_iff, h.1, isSome_some]

theorem readsLiteral_iff_of_sign (hdigits : (literalDigits s).2 = '-' :: cs) :
    ReadsLiteral s ↔ literalNumber s ≠ some (-2 ^ 63) ∧ SignedOnce s := by
  have hnone : literalNumber s = none := by
    rw [literalNumber_eq, hdigits, parseDigits_sign (literalDigits_base s), Option.map_none]
  have hreads : ReadsLiteral s ↔ fromChars (literalDigits s).1 ('-' :: cs) = none := by
    simp [readsLiteral_iff_number, hnone, parseLiteral_eq, hdigits, eq_none_iff_forall_ne_some]
  rw [hreads]
  simp only [hnone, SignedOnce, hdigits, cons.injEq, true_and, fromChars, bind_eq_bind,
    bind_eq_none_iff, ite_eq_right_iff, reduceCtorEq, imp_false, Nat.not_le, ne_eq,
    not_false_eq_true]
  exact ⟨fun h _ n hcs => hcs ▸ h n, fun h n => h cs n rfl⟩

/-- Without a second sign only the number of least value is lost. -/
theorem readsLiteral_iff_of_digits (hdigits : ∀ cs, (literalDigits s).2 ≠ '-' :: cs) :
    ReadsLiteral s ↔ literalNumber s ≠ some (-2 ^ 63) ∧ SignedOnce s := by
  have honce : SignedOnce s := fun cs _ h => absurd h (hdigits cs)
  have hfrom : fromChars (literalDigits s).1 (literalDigits s).2
      = (parseDigits (literalDigits s).1 (literalDigits s).2).bind
        fun n => if n < 2 ^ 63 then some (n : Int) else none := by
    unfold fromChars
    split
    next cs h => exact absurd h (hdigits cs)
    next => rfl
  rw [and_iff_left honce, readsLiteral_iff_number, literalNumber_eq, parseLiteral_eq, hfrom]
  cases parseDigits (literalDigits s).1 (literalDigits s).2 with
  | none => simp
  | some n =>
    simp only [Option.bind_some, Option.map_some, some.injEq, ne_eq]
    by_cases hn : n < 2 ^ 63
    · have hbmod : (-(n : Int)).bmod (2 ^ 64) = -n := Int.bmod_eq_of_le (by omega) (by omega)
      rw [if_pos hn, Option.map_some, hbmod]
      constructor
      · intro _ h
        split at h <;> omega
      intro _ v
      rw [some.injEq, iff_self_and]
      rintro rfl
      split <;> omega
    rw [if_neg hn, Option.map_none]
    constructor
    · intro h hleast
      have hnone := (h (-2 ^ 63)).mpr ⟨hleast, by omega, by omega⟩
      cases hnone
    intro hleast v
    simp only [reduceCtorEq, false_iff, not_and]
    rintro rfl hlow
    by_cases hneg : (splitSign s.toList).1 <;> simp only [hneg] at hlow hleast ⊢ <;> omega

/-- `parse_literal` reads a text as it should unless the text denotes the least `int64_t` or has a
second sign in front of a number that fits. -/
theorem readsLiteral_iff (s : String) :
    ReadsLiteral s ↔ literalNumber s ≠ some (-2 ^ 63) ∧ SignedOnce s := by
  by_cases hsign : ∃ cs, (literalDigits s).2 = '-' :: cs
  · obtain ⟨cs, hcs⟩ := hsign
    exact readsLiteral_iff_of_sign hcs
  · exact readsLiteral_iff_of_digits (not_exists.mp hsign)

/-- The least `int64_t` is valid and in range, and not read. A text with two signs is no literal,
and is read as a positive number. -/
theorem readsLiteral_fails : (isValidNumericLiteral "-9223372036854775808" = true
      ∧ literalNumber "-9223372036854775808" = some (-2 ^ 63)
      ∧ parseLiteral "-9223372036854775808" = none)
    ∧ isValidNumericLiteral "--5" = false ∧ parseLiteral "--5" = some 5 := by
  decide

end Conduit.Bgen

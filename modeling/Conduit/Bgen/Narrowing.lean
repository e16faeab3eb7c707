import Conduit.Bgen.Accepted
import Conduit.Bgen.Resolver

/-!
# Constraints of fields and of their types

`apply_inheritance_to_field` compares each bound of a field with the same bound of its type. What a
bound of one kind says beside a bound of another kind is not looked at, and neither are numbers
beyond 64 bits.
-/

namespace Conduit.Bgen

open Validator Resolver Constraint

/-! ## Literals -/

/-- The number that is written, decimal or hexadecimal, whatever its size. -/
def literalNumber (s : String) : Option Int :=
  let digits : Option Nat :=
    if isHexText (splitSign s.toList).2 then parseDigits 16 ((splitSign s.toList).2.drop 2)
    else parseDigits 10 (splitSign s.toList).2
  digits.map fun (n : Nat) => if (splitSign s.toList).1 then -(n : Int) else n

/-- `parse_literal` has room for the number. -/
def Fits (n : Int) : Prop := n.natAbs < 2 ^ 63

instance Fits.instDecidable (n : Int) : Decidable (Fits n) := inferInstanceAs (Decidable (_ < _))

theorem fromChars_of_parseDigits {base n : Nat} {cs : List Char} (hbase : base = 10 ∨ base = 16)
    (h : parseDigits base cs = some n) (hn : n < 2 ^ 63) :
    fromChars base cs = some ((n : Nat) : Int) := by
  unfold fromChars
  split
  next rest =>
    have hsign : digitValue base '-' = none := by rcases hbase with rfl | rfl <;> decide
    simp [parseDigits, hsign] at h
  next =>
    rw [h]
    exact if_pos hn

theorem parseLiteral_of_literalNumber {s : String} {n : Int} (h : literalNumber s = some n)
    (hfits : Fits n) : parseLiteral s = some n := by
  obtain ⟨m, hm, hn⟩ := Option.map_eq_some_iff.mp h
  have hlt : m < 2 ^ 63 := by
    unfold Fits at hfits
    split at hn <;> omega
  have hne : s.toList.isEmpty = false := by
    by_contra hempty
    have hnil : s.toList = [] := by simpa using hempty
    rw [hnil] at hm
    simp [splitSign, isHexText, parseDigits] at hm
  have hbmod : (-(m : Int)).bmod (2 ^ 64) = -m := Int.bmod_eq_of_le (by omega) (by omega)
  unfold parseLiteral
  rw [hne]
  simp only [Bool.false_eq_true, if_false]
  split at hm
  next hhex =>
    rw [if_pos hhex, fromChars_of_parseDigits (.inr rfl) hm hlt]
    simp only [Option.bind_eq_bind, Option.bind_some, Option.pure_def, hbmod, hn]
  next hdecimal =>
    rw [if_neg hdecimal, fromChars_of_parseDigits (.inl rfl) hm hlt]
    simp only [Option.bind_eq_bind, Option.bind_some, Option.pure_def, hbmod, hn]

/-! ## The comparisons -/

namespace Constraint

/-- The constraint states the number as one of its bounds. -/
def States (k : Constraint) (n : Int) : Prop :=
  ∃ text, (k.equals = some text ∨ k.min = some text ∨ k.max = some text)
    ∧ literalNumber text = some n

/-- The number satisfies the constraint. -/
structure Admits (k : Constraint) (n : Int) : Prop where
  equals : ∀ text m, k.equals = some text → literalNumber text = some m → n = m
  min : ∀ text m, k.min = some text → literalNumber text = some m → m ≤ n
  max : ∀ text m, k.max = some text → literalNumber text = some m → n ≤ m

end Constraint

/-- A bound of the type and a bound of the field, where both are given as numbers. -/
def Related (R : Int → Int → Prop) (ofType ofField : Option String) : Prop :=
  ∀ s t m n, ofType = some s → ofField = some t → literalNumber s = some m →
    literalNumber t = some n → R m n

/-- What the resolver does not compare: bounds of different kinds, and numbers that do not fit. A
name has the bound of the field first. -/
structure Constraint.Agrees (ofType ofField : Constraint) : Prop where
  equalsMin : Related (fun t f => t ≤ f) ofType.min ofField.equals
  equalsMax : Related (fun t f => f ≤ t) ofType.max ofField.equals
  minEquals : Related (fun t f => f = t) ofType.equals ofField.min
  minMax : Related (fun t f => f ≤ t) ofType.max ofField.min
  maxEquals : Related (fun t f => f = t) ofType.equals ofField.max
  maxMin : Related (fun t f => t ≤ f) ofType.min ofField.max
  wideMin : Related (fun t f => Fits t ∧ Fits f ∨ t ≤ f) ofType.min ofField.min
  wideMax : Related (fun t f => Fits t ∧ Fits f ∨ f ≤ t) ofType.max ofField.max

theorem related_of_boundErrors {relaxes : Int → Int → Bool} {message : String → String → String}
    {ofType ofField : Option String} (h : boundErrors relaxes message ofType ofField = []) :
    Related (fun t f => Fits t → Fits f → relaxes f t = false) ofType ofField := by
  rintro s t m n rfl rfl hs ht hm hn
  simp only [boundErrors, parseLiteral_of_literalNumber hs hm, parseLiteral_of_literalNumber ht hn,
    errorIf_eq_nil] at h
  exact h

/-- What the resolver does compare. -/
structure Constraint.Compared (ofType ofField : Constraint) : Prop where
  equals : ∀ s t, ofType.equals = some s → ofField.equals = some t → s = t
  min : Related (fun t f => Fits t → Fits f → t ≤ f) ofType.min ofField.min
  max : Related (fun t f => Fits t → Fits f → f ≤ t) ofType.max ofField.max

theorem compared_of_inheritanceErrors {index : TypeIndex} {f : Field} {t : TypeDef}
    {ofType ofField : Constraint} (ht : inheritedType index f = some t)
    (htype : t.constraint = some ofType) (hfield : f.constraint = some ofField)
    (h : inheritanceErrors index f = []) : ofType.Compared ofField := by
  simp only [inheritanceErrors, ht, htype, hfield, narrowingErrors, List.append_eq_nil_iff] at h
  obtain ⟨-, ⟨hequals, hmin⟩, hmax⟩ := h
  refine ⟨?_, ?_, ?_⟩
  · intro s t hs ht
    rw [hs, ht] at hequals
    simpa [errorIf_eq_nil] using hequals
  · intro s t m n hs ht hm hn hfm hfn
    simpa using related_of_boundErrors hmin s t m n hs ht hm hn hfm hfn
  · intro s t m n hs ht hm hn hfm hfn
    simpa using related_of_boundErrors hmax s t m n hs ht hm hn hfm hfn

/-- A field about which the resolver reports nothing narrows the constraint of its type exactly if
also the bounds agree that the resolver does not compare. -/
theorem narrows_iff_agrees {index : TypeIndex} {f : Field} {t : TypeDef}
    {ofType ofField : Constraint} (ht : inheritedType index f = some t)
    (htype : t.constraint = some ofType) (hfield : f.constraint = some ofField)
    (h : inheritanceErrors index f = []) :
    (∀ n, ofField.States n → ofType.Admits n) ↔ ofType.Agrees ofField := by
  have hcompared := compared_of_inheritanceErrors ht htype hfield h
  constructor
  · intro hnarrows
    refine ⟨?_, ?_, ?_, ?_, ?_, ?_, ?_, ?_⟩ <;> intro s t m n hs ht hm hn
    · exact (hnarrows n ⟨t, .inl ht, hn⟩).min s m hs hm
    · exact (hnarrows n ⟨t, .inl ht, hn⟩).max s m hs hm
    · exact (hnarrows n ⟨t, .inr (.inl ht), hn⟩).equals s m hs hm
    · exact (hnarrows n ⟨t, .inr (.inl ht), hn⟩).max s m hs hm
    · exact (hnarrows n ⟨t, .inr (.inr ht), hn⟩).equals s m hs hm
    · exact (hnarrows n ⟨t, .inr (.inr ht), hn⟩).min s m hs hm
    · exact .inr ((hnarrows n ⟨t, .inr (.inl ht), hn⟩).min s m hs hm)
    · exact .inr ((hnarrows n ⟨t, .inr (.inr ht), hn⟩).max s m hs hm)
  rintro hagrees n ⟨text, hequals | hmin | hmax, hn⟩
  · refine ⟨?_, ?_, ?_⟩ <;> intro s m hs hm
    · have heq := hcompared.equals s text hs hequals
      rw [heq, hn] at hm
      exact Option.some.inj hm
    · exact hagrees.equalsMin s text m n hs hequals hm hn
    · exact hagrees.equalsMax s text m n hs hequals hm hn
  · refine ⟨?_, ?_, ?_⟩ <;> intro s m hs hm
    · exact hagrees.minEquals s text m n hs hmin hm hn
    · rcases hagrees.wideMin s text m n hs hmin hm hn with ⟨hfm, hfn⟩ | hle
      · exact hcompared.min s text m n hs hmin hm hn hfm hfn
      · exact hle
    · exact hagrees.minMax s text m n hs hmin hm hn
  · refine ⟨?_, ?_, ?_⟩ <;> intro s m hs hm
    · exact hagrees.maxEquals s text m n hs hmax hm hn
    · exact hagrees.maxMin s text m n hs hmax hm hn
    rcases hagrees.wideMax s text m n hs hmax hm hn with ⟨hfm, hfn⟩ | hle
    · exact hcompared.max s text m n hs hmax hm hn hfm hfn
    · exact hle

def percentType : TypeDef :=
  { name := "Percent", bits := 8, constraint := some { max := some "100" } }

def percentField (k : Constraint) : Field :=
  { name := "load", typeRef := "Percent", constraint := some k }

theorem narrows_iff_agrees_percent : inheritanceErrors { types := [percentType] }
        (percentField { min := some "10", max := some "0x50" }) = []
      ∧ ∀ n, States { min := some "10", max := some "0x50" } n →
        Admits { max := some "100" } n := by
  have herrors : inheritanceErrors { types := [percentType] }
      (percentField { min := some "10", max := some "0x50" }) = [] := by decide
  refine ⟨herrors, (narrows_iff_agrees (t := percentType) rfl rfl rfl herrors).mpr ?_⟩
  have hten : literalNumber "10" = some 10 := by decide
  have heighty : literalNumber "0x50" = some 80 := by decide
  have hhundred : literalNumber "100" = some 100 := by decide
  constructor
  case minMax =>
    rintro _ _ m n ⟨⟩ ⟨⟩ hm hn
    rw [hhundred] at hm
    rw [hten] at hn
    cases hm
    cases hn
    decide
  case wideMax =>
    rintro _ _ m n ⟨⟩ ⟨⟩ hm hn
    rw [hhundred] at hm
    rw [heighty] at hn
    cases hm
    cases hn
    decide
  all_goals
    intro _ _ _ _ hs ht
    simp at hs ht

/-- The resolver has nothing against a field whose only value its type excludes. -/
theorem equals_beyond_max :
    inheritanceErrors { types := [percentType] } (percentField { equals := some "200" }) = []
      ∧ ∃ n, States { equals := some "200" } n ∧ ¬Admits { max := some "100" } n := by
  refine ⟨by decide, 200, ⟨"200", .inl rfl, by decide⟩, ?_⟩
  intro hadmits
  exact absurd (hadmits.max "100" 100 rfl (by decide)) (by decide)

end Conduit.Bgen

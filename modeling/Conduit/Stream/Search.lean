import Mathlib.Data.List.Basic

/-!
# The first occurrence of a pattern

`search` is the position of the first occurrence of a pattern in a list, as `std::search` finds
it. An occurrence stays the first one when the list grows, and when there is none yet only the
last `pattern.length - 1` items can belong to one.
-/

namespace Conduit.Stream

open List

variable {α : Type} [DecidableEq α] {pattern items : List α} {i : Nat}

/-- The position of the first occurrence of `pattern`. -/
def search (pattern : List α) : List α → Option Nat
  | [] => if pattern.isEmpty then some 0 else none
  | item :: items =>
    if pattern <+: item :: items then some 0 else (search pattern items).map (· + 1)

theorem search_of_starts (h : pattern <+: items) : search pattern items = some 0 := by
  cases items with
  | nil =>
    have hnil : pattern = [] := prefix_nil.mp h
    simp [search, hnil]
  | cons item items => rw [search, if_pos h]

theorem starts_of_search (h : search pattern items = some i) : pattern <+: items.drop i := by
  induction items generalizing i with
  | nil =>
    simp only [search, List.isEmpty_iff] at h
    split at h
    next hnil => simp [hnil]
    next => cases h
  | cons item items ih =>
    rw [search] at h
    split at h
    next hstarts =>
      obtain rfl : i = 0 := (Option.some.inj h).symm
      exact hstarts
    next =>
      obtain ⟨j, hj, rfl⟩ := Option.map_eq_some_iff.mp h
      exact ih hj

theorem search_le (h : search pattern items = some i) :
    i + pattern.length ≤ items.length ∨ pattern = [] := by
  have hstarts := (starts_of_search h).length_le
  rw [length_drop] at hstarts
  rcases Nat.lt_or_ge items.length i with hlt | hge
  · right
    exact eq_nil_of_length_eq_zero (by omega)
  · left
    omega

theorem search_append_of_some (later : List α) (h : search pattern items = some i) :
    search pattern (items ++ later) = some i := by
  induction items generalizing i with
  | nil =>
    simp only [search, List.isEmpty_iff] at h
    split at h
    next hnil =>
      subst hnil
      rw [← h]
      exact search_of_starts List.nil_prefix
    next => cases h
  | cons item items ih =>
    rw [search] at h
    split at h
    next hstarts =>
      rw [← h]
      exact search_of_starts (hstarts.trans (prefix_append _ _))
    next hnot =>
      obtain ⟨j, hj, rfl⟩ := Option.map_eq_some_iff.mp h
      have hlen : pattern.length ≤ (item :: items).length := by
        rcases search_le hj with hle | hnil
        · simp only [length_cons]
          omega
        · simp [hnil]
      have hnot' : ¬ pattern <+: item :: (items ++ later) := by
        intro hpre
        exact hnot (List.prefix_of_prefix_length_le hpre (prefix_append (item :: items) later) hlen)
      rw [cons_append, search, if_neg hnot', ih hj]
      rfl

/-- Without an occurrence, all but the last `pattern.length - 1` items can be dropped. -/
theorem search_append_of_none (later : List α) (hne : pattern ≠ [])
    (h : search pattern items = none) : search pattern (items ++ later)
      = (search pattern (items.drop (items.length - (pattern.length - 1)) ++ later)).map
          (items.length - (pattern.length - 1) + ·) := by
  have hpos : 0 < pattern.length := length_pos_iff.mpr hne
  induction items with
  | nil => simp
  | cons item items ih =>
    rw [search] at h
    split at h
    next => cases h
    next hnot =>
      rcases Nat.lt_or_ge items.length (pattern.length - 1) with hshort | hlong
      · have hzero : (item :: items).length - (pattern.length - 1) = 0 := by
          simp only [length_cons]
          omega
        rw [hzero, drop_zero]
        simp
      have hnone : search pattern items = none := by simpa using h
      have hnot' : ¬ pattern <+: item :: (items ++ later) := by
        intro hpre
        refine hnot (prefix_of_prefix_length_le hpre (prefix_append (item :: items) later) ?_)
        simp only [length_cons]
        omega
      have hsucc : (item :: items).length - (pattern.length - 1)
          = (items.length - (pattern.length - 1)) + 1 := by
        simp only [length_cons]
        omega
      rw [cons_append, search, if_neg hnot', ih hnone, hsucc, drop_succ_cons, Option.map_map]
      congr 1
      funext i
      simp only [Function.comp]
      omega

end Conduit.Stream

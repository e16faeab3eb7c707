import Mathlib.Data.List.Chain
import Mathlib.Order.Lattice

/-!
# Intervals in a sorted list

Intervals are given by their ends. In a list that is sorted by the lower ends, some two intervals
meet exactly when two neighbours do.
-/

namespace Conduit.Data

variable {α β : Type} [LinearOrder β] {lo hi : α → β}

/-- The intervals have a point in common. -/
def Meet (lo hi : α → β) (a b : α) : Prop := ∃ n, (lo a ≤ n ∧ n ≤ hi a) ∧ lo b ≤ n ∧ n ≤ hi b

theorem Meet.symm {a b : α} (h : Meet lo hi a b) : Meet lo hi b a := by
  obtain ⟨n, ha, hb⟩ := h
  exact ⟨n, hb, ha⟩

theorem not_meet_iff {a b : α} (hle : lo a ≤ lo b) (hb : lo b ≤ hi b) :
    ¬Meet lo hi a b ↔ hi a < lo b := by
  constructor
  · intro hnot
    by_contra hge
    exact hnot ⟨lo b, ⟨hle, not_lt.mp hge⟩, le_refl _, hb⟩
  · rintro hlt ⟨n, ⟨-, hna⟩, hnb, -⟩
    exact absurd (hnb.trans hna) (not_le.mpr hlt)

theorem pairwise_behind_of_isChain {xs : List α} (hne : ∀ x ∈ xs, lo x ≤ hi x)
    (h : xs.IsChain fun a b => hi a < lo b) : xs.Pairwise fun a b => hi a < lo b := by
  have hmem : xs.IsChain fun a b => hi a < lo b ∧ lo b ≤ hi b :=
    h.imp_of_mem_imp fun _ b _ hb hlt => ⟨hlt, hne b hb⟩
  have : Trans (fun a b : α => hi a < lo b ∧ lo b ≤ hi b) (fun a b => hi a < lo b ∧ lo b ≤ hi b)
      (fun a b => hi a < lo b ∧ lo b ≤ hi b) :=
    ⟨fun hab hbc => ⟨hab.1.trans_le hab.2 |>.trans hbc.1, hbc.2⟩⟩
  exact hmem.pairwise.imp And.left

/-- The neighbours of any sorted arrangement decide whether two intervals of the list meet. -/
theorem isChain_iff_pairwise_not_meet {xs sorted : List α} (hperm : sorted.Perm xs)
    (hsorted : sorted.Pairwise fun a b => lo a ≤ lo b) (hne : ∀ x ∈ xs, lo x ≤ hi x) :
    (sorted.IsChain fun a b => hi a < lo b) ↔ xs.Pairwise fun a b => ¬Meet lo hi a b := by
  have hne' : ∀ x ∈ sorted, lo x ≤ hi x := fun x hx => hne x (hperm.mem_iff.mp hx)
  have hsymm : ∀ {a b : α}, ¬Meet lo hi a b → ¬Meet lo hi b a := fun hab hba => hab hba.symm
  rw [← hperm.pairwise_iff hsymm]
  constructor
  · intro hchain
    have hbehind := pairwise_behind_of_isChain hne' hchain
    refine (hsorted.and hbehind).imp_of_mem ?_
    rintro a b - hb ⟨hle, hlt⟩
    exact (not_meet_iff hle (hne' b hb)).mpr hlt
  · intro hapart
    refine ((hsorted.and hapart).imp_of_mem ?_).isChain
    rintro a b - hb ⟨hle, hnot⟩
    exact (not_meet_iff hle (hne' b hb)).mp hnot

theorem not_pairwise_not_iff {R : α → α → Prop} (hsymm : ∀ {a b}, R a b → R b a) {xs : List α} :
    ¬(xs.Pairwise fun a b => ¬R a b) ↔
      ∃ (i j : ℕ) (a b : α), i ≠ j ∧ xs[i]? = some a ∧ xs[j]? = some b ∧ R a b := by
  rw [List.pairwise_iff_getElem]
  constructor
  · intro h
    push Not at h
    obtain ⟨i, j, hi, hj, hlt, hR⟩ := h
    exact ⟨i, j, xs[i], xs[j], hlt.ne, List.getElem?_eq_getElem hi, List.getElem?_eq_getElem hj, hR⟩
  rintro ⟨i, j, a, b, hne, ha, hb, hR⟩ hall
  obtain ⟨hi, rfl⟩ := List.getElem?_eq_some_iff.mp ha
  obtain ⟨hj, rfl⟩ := List.getElem?_eq_some_iff.mp hb
  rcases Nat.lt_or_gt_of_ne hne with hlt | hgt
  · exact hall i j hi hj hlt hR
  · exact hall j i hj hi hgt (hsymm hR)

end Conduit.Data

import Mathlib.Data.List.Infix

/-!
# Runs of a step function

The states that a list of events leads through, and when a property holds in all of them. An
invariant is kept by every event apart from those that clash with the state; one that clashes breaks
the property. The rule is for runs that stay within a bound.
-/

namespace Conduit.Data

open List

section Runs

variable {σ ε : Type} {step : σ → ε → σ} {inv goal : σ → Prop} (bound : σ → Prop)
  (clash : σ → ε → Prop) {s : σ} {events : List ε}

section

variable (hback : ∀ s e, bound (step s e) → bound s)

include hback

theorem bound_of_prefix {before : List ε}
    (hbefore : before <+: events) (hbound : bound (events.foldl step s)) :
    bound (before.foldl step s) := by
  obtain ⟨rest, rfl⟩ := hbefore
  induction rest using reverseRecOn with
  | nil => rwa [append_nil] at hbound
  | append_singleton rest e ih =>
    rw [← append_assoc, foldl_append] at hbound
    exact ih (hback _ e hbound)

variable (hkeep : ∀ s e, inv s → bound (step s e) → ¬clash s e → inv (step s e))

include hkeep

theorem inv_of_no_clash (hs : inv s) (hbound : bound (events.foldl step s))
    (hclash : ∀ before e, before ++ [e] <+: events → ¬clash (before.foldl step s) e) :
    inv (events.foldl step s) := by
  induction events using reverseRecOn with
  | nil => exact hs
  | append_singleton events e ih =>
    have hprefix := prefix_append events [e]
    rw [foldl_append] at hbound ⊢
    refine hkeep _ e (ih (hback _ e hbound) fun before e' h => ?_) hbound
      (hclash events e prefix_rfl)
    exact hclash before e' (h.trans hprefix)

/-- The property holds in all states of a run if and only if no event clashes. -/
theorem forall_prefix_iff (hbreak : ∀ s e, inv s → bound (step s e) → clash s e → ¬goal (step s e))
    (hgoal : ∀ s, inv s → goal s) (hs : inv s) (hbound : bound (events.foldl step s)) :
    (∀ before, before <+: events → goal (before.foldl step s))
      ↔ ∀ before e, before ++ [e] <+: events → ¬clash (before.foldl step s) e := by
  have hbounds : ∀ before, before <+: events → bound (before.foldl step s) :=
    fun before h => bound_of_prefix bound hback h hbound
  constructor
  · intro hall before e hmem hclash
    -- the first clash is met with the invariant
    induction hlen : before.length using Nat.strongRecOn generalizing before e with
    | ind n ih =>
      have hbefore := (prefix_append before [e]).trans hmem
      have hinv : inv (before.foldl step s) := by
        refine inv_of_no_clash bound clash hback hkeep hs (hbounds before hbefore) fun b e' h hb => ?_
        have hlt : b.length < n := by
          have := h.length_le
          rw [length_append, length_singleton] at this
          omega
        exact ih b.length hlt b e' (h.trans hbefore) hb rfl
      have hstep := hbounds _ hmem
      have hnext := hall _ hmem
      rw [foldl_append] at hstep hnext
      exact hbreak _ e hinv hstep hclash hnext
  · intro hclash before hbefore
    refine hgoal _ (inv_of_no_clash bound clash hback hkeep hs (hbounds before hbefore) fun b e h => ?_)
    exact hclash b e (h.trans hbefore)

end

omit bound clash in
/-- What the events write to a part of the state is decided by the last one that writes to it. -/
theorem foldl_eq_last_write {τ : Type} (view : σ → τ) {writes : ε → Option τ}
    (hstep : ∀ s e, view (step s e) = (writes e).getD (view s)) (s : σ) (events : List ε) :
    view (events.foldl step s) = (events.reverse.findSome? writes).getD (view s) := by
  induction events using reverseRecOn with
  | nil => rfl
  | append_singleton events e ih =>
    rw [foldl_append, foldl_cons, foldl_nil, hstep, ih, reverse_concat, findSome?_cons]
    cases writes e <;> rfl

end Runs

end Conduit.Data

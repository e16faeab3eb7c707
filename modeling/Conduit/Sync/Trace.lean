import Mathlib.Algebra.BigOperators.Group.List.Basic
import Mathlib.Algebra.Ring.Nat

/-!
# Traces of labelled steps

The runs of a system whose steps carry labels, the induction rule for what holds of a run and of the
labels that lead to it, how a run comes to its end, and how a sum over threads changes when one
of them moves.
-/

namespace Conduit.Sync

open List

variable {σ ε : Type} {step : σ → ε → σ → Prop}

/-- The labels of a run from `start`, in order, and where it ends. -/
inductive Trace (step : σ → ε → σ → Prop) (start : σ) : List ε → σ → Prop where
  | nil : Trace step start [] start
  | snoc (labels : List ε) (label : ε) (s s' : σ) :
      Trace step start labels s → step s label s' → Trace step start (labels ++ [label]) s'

/-- What holds at the start and is kept by every step holds in every run. -/
theorem Trace.invariant {start s : σ} {labels : List ε} (P : List ε → σ → Prop)
    (hstart : P [] start)
    (hstep : ∀ labels label s s', P labels s → step s label s' → P (labels ++ [label]) s')
    (h : Trace step start labels s) : P labels s := by
  induction h with
  | nil => exact hstart
  | snoc labels label s s' _ hs ih => exact hstep labels label s s' ih hs

theorem Trace.append {start s s' : σ} {labels more : List ε} (h : Trace step start labels s)
    (h' : Trace step s more s') : Trace step start (labels ++ more) s' := by
  induction h' with
  | nil => rwa [append_nil]
  | snoc more label s' s'' _ hs ih =>
    rw [← append_assoc]
    exact .snoc _ label s' s'' ih hs

/-- Where the owed steps keep `Inv` and lower a measure, they lead to a state without one. -/
theorem Trace.exists_last (Owed : ε → Prop) (Inv : σ → Prop) (measure : σ → ℕ)
    (hstep : ∀ s label s', Inv s → step s label s' → Owed label → Inv s' ∧ measure s' < measure s)
    (s : σ) (hs : Inv s) :
    ∃ labels s', Trace step s labels s' ∧ (∀ label ∈ labels, Owed label) ∧ Inv s'
      ∧ ∀ label s'', step s' label s'' → ¬Owed label := by
  generalize hn : measure s = n
  induction n using Nat.strongRecOn generalizing s with
  | ind n ih =>
    by_cases hlast : ∀ label s', step s label s' → ¬Owed label
    · exact ⟨[], s, .nil, fun _ hm => (nomatch hm), hs, hlast⟩
    push Not at hlast
    obtain ⟨label, s₁, hfirst, howed⟩ := hlast
    obtain ⟨hs₁, hlt⟩ := hstep s label s₁ hs hfirst howed
    obtain ⟨labels, s', htrace, hlabels, hend⟩ := ih _ (hn ▸ hlt) s₁ hs₁ rfl
    refine ⟨[label] ++ labels, s', (Trace.snoc [] label s s₁ .nil hfirst).append htrace, ?_, hend⟩
    intro label' hmem
    rcases mem_append.mp hmem with hmem | hmem
    · rw [mem_singleton.mp hmem]
      exact howed
    · exact hlabels label' hmem

theorem sum_map_set {α : Type} (f : α → ℕ) {ts : List α} {i : ℕ} {t : α} (h : ts[i]? = some t)
    (t' : α) : ((ts.set i t').map f).sum + f t = (ts.map f).sum + f t' := by
  induction ts generalizing i with
  | nil => cases h
  | cons u ts ih =>
    cases i with
    | zero =>
      cases h
      simp only [set_cons_zero, map_cons, sum_cons]
      omega
    | succ i =>
      rw [getElem?_cons_succ] at h
      have hrest := ih h
      simp only [set_cons_succ, map_cons, sum_cons]
      omega

theorem exists_mem_set {α : Type} {P : α → Prop} {ts : List α} {i : ℕ} {t : α}
    (h : ts[i]? = some t) {v : α} (hkeep : P t → P v) (hex : ∃ u ∈ ts, P u) :
    ∃ u ∈ ts.set i v, P u := by
  obtain ⟨u, hu, hP⟩ := hex
  obtain ⟨j, hj⟩ := mem_iff_getElem?.mp hu
  by_cases hij : i = j
  · grind [mem_set]
  · exact ⟨u, mem_iff_getElem?.mpr ⟨j, by rwa [getElem?_set_ne hij]⟩, hP⟩

end Conduit.Sync

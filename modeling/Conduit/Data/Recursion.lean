import Mathlib.Data.Finset.Card

/-!
# Recursive procedures

The body of a recursive procedure is a tree of calls: each call is followed by what is done with its
result. A procedure is run to a given depth of calls (`fix`), and gives nothing when the depth is
used up. It returns if some depth is enough.

There are two ways to find such a depth. Where a measure of the argument is lowered by every call,
the measure is enough, and a postcondition is shown along the way (`fix_total`). Where the calls
only lead through finitely many arguments, their number is enough exactly if no argument is called
from itself (`exists_returnsAt_iff`).
-/

namespace Conduit.Data

open Relation (ReflTransGen TransGen)

/-- What a procedure does: it ends with a result, or calls a procedure and goes on with the result
of the call. -/
inductive Proc (ν β α : Type) where
  | ret (a : α)
  | call (n : ν) (k : β → Proc ν β α)

namespace Proc

variable {ν β α γ σ τ : Type}

def andThen : Proc ν β α → (α → Proc ν β γ) → Proc ν β γ
  | ret a, f => f a
  | call n k, f => call n fun b => (k b).andThen f

instance : Monad (Proc ν β) where
  pure := ret
  bind := andThen

@[simp] theorem ret_bind (a : α) (f : α → Proc ν β γ) : (ret a : Proc ν β α) >>= f = f a := rfl

@[simp] theorem pure_bind' (a : α) (f : α → Proc ν β γ) : (pure a : Proc ν β α) >>= f = f a := rfl

@[simp] theorem call_bind (n : ν) (k : β → Proc ν β α) (f : α → Proc ν β γ) :
    call n k >>= f = call n fun b => k b >>= f :=
  rfl

/-- The result, where `f` tells the results of the calls. -/
def run (f : ν → Option β) : Proc ν β α → Option α
  | ret a => some a
  | call n k =>
    match f n with
    | none => none
    | some b => (k b).run f

/-- The calls that are made, up to the first one without a result. -/
def calls (f : ν → Option β) : Proc ν β α → List ν
  | ret _ => []
  | call n k =>
    n ::
      match f n with
      | none => []
      | some b => (k b).calls f

section

variable {f g : ν → Option β} {n : ν} {p : Proc ν β α}

@[simp] theorem run_ret (a : α) : (ret a : Proc ν β α).run f = some a := rfl

theorem run_call {b : β} (h : f n = some b) (k : β → Proc ν β α) :
    (call n k).run f = (k b).run f := by
  simp only [run, h]

theorem mem_calls_call {m : ν} {k : β → Proc ν β α} :
    m ∈ (call n k).calls f ↔ m = n ∨ ∃ b, f n = some b ∧ m ∈ (k b).calls f := by
  cases hn : f n with
  | none => simp [calls, hn]
  | some b => simp [calls, hn]

theorem run_bind (p : Proc ν β α) (q : α → Proc ν β γ) :
    (p >>= q).run f = (p.run f).bind fun a => (q a).run f := by
  induction p with
  | ret a => rfl
  | call n k ih =>
    rw [call_bind]
    cases hn : f n with
    | none => simp only [run, hn, Option.bind_none]
    | some b => rw [run_call hn, run_call hn, ih]

theorem run_mono (hle : ∀ n b, f n = some b → g n = some b) {a : α} (h : p.run f = some a) :
    p.run g = some a := by
  induction p with
  | ret a' => exact h
  | call n k ih =>
    cases hn : f n with
    | none => simp only [run, hn, reduceCtorEq] at h
    | some b =>
      rw [run_call hn] at h
      rw [run_call (hle n b hn)]
      exact ih b h

theorem run_isSome (h : ∀ n ∈ p.calls f, (f n).isSome) : ∃ a, p.run f = some a := by
  induction p with
  | ret a => exact ⟨a, rfl⟩
  | call n k ih =>
    obtain ⟨b, hb⟩ := Option.isSome_iff_exists.1 (h n (mem_calls_call.2 (.inl rfl)))
    rw [run_call hb]
    exact ih b fun m hm => h m (mem_calls_call.2 (.inr ⟨b, hb, hm⟩))

/-- A procedure with a result makes the same calls where calls have more results. -/
theorem mem_calls_of_run (hle : ∀ n b, f n = some b → g n = some b) {a : α} (h : p.run f = some a)
    (hn : n ∈ p.calls g) : (f n).isSome := by
  induction p with
  | ret a' => cases hn
  | call m k ih =>
    cases hm : f m with
    | none => simp only [run, hm, reduceCtorEq] at h
    | some b =>
      rw [run_call hm] at h
      rcases mem_calls_call.1 hn with rfl | ⟨b', hb', hn⟩
      · exact Option.isSome_iff_exists.2 ⟨b, hm⟩
      cases (hle m b hm).symm.trans hb'
      exact ih b h hn

theorem calls_mono (hle : ∀ n b, f n = some b → g n = some b) (h : n ∈ p.calls f) :
    n ∈ p.calls g := by
  induction p with
  | ret a => exact h
  | call m k ih =>
    rcases mem_calls_call.1 h with rfl | ⟨b, hb, h⟩
    · exact mem_calls_call.2 (.inl rfl)
    · exact mem_calls_call.2 (.inr ⟨b, hle m b hb, ih b h⟩)

end

theorem foldl_of_run {f : ν → Option β} {step : σ → τ → Proc ν β σ} {g : γ → τ → γ} (enc : σ → γ)
    (hstep : ∀ s x s', (step s x).run f = some s' → g (enc s) x = enc s') (l : List τ) {s s' : σ}
    (h : (l.foldlM step s).run f = some s') : l.foldl g (enc s) = enc s' := by
  induction l generalizing s with
  | nil =>
    cases h
    rfl
  | cons x l ih =>
    rw [List.foldlM_cons, run_bind, Option.bind_eq_some_iff] at h
    obtain ⟨s₁, hx, hl⟩ := h
    rw [List.foldl_cons, hstep s x s₁ hx]
    exact ih hl

/-! ## Recursion -/

variable (body : ν → Proc ν β β)

/-- The result of a procedure, with calls nested to a given depth. -/
def fix : Nat → ν → Option β
  | 0, _ => none
  | depth + 1, n => (body n).run (fix depth)

theorem fix_succ (depth : Nat) (n : ν) : fix body (depth + 1) n = (body n).run (fix body depth) :=
  rfl

variable {body}

theorem fix_step {depth : Nat} {n : ν} {b : β} (h : fix body depth n = some b) :
    fix body (depth + 1) n = some b := by
  induction depth generalizing n b with
  | zero => cases h
  | succ depth ih => exact run_mono (fun _ _ => ih) h

theorem fix_mono {depth depth' : Nat} (hle : depth ≤ depth') {n : ν} {b : β}
    (h : fix body depth n = some b) : fix body depth' n = some b := by
  induction depth', hle using Nat.le_induction with
  | base => exact h
  | succ d _ ih => exact fix_step ih

/-! ## Pre- and postconditions -/

/-- The procedure ends in `Q`, if every call meets its precondition and may be relied on for its
postcondition. -/
def Sat (pre : ν → Prop) (post : ν → β → Prop) : Proc ν β α → (α → Prop) → Prop
  | ret a, Q => Q a
  | call n k, Q => pre n ∧ ∀ b, post n b → (k b).Sat pre post Q

section

variable {pre : ν → Prop} {post : ν → β → Prop} {p : Proc ν β α} {Q : α → Prop}

theorem Sat.imp {R : α → Prop} (h : p.Sat pre post Q) (himp : ∀ a, Q a → R a) :
    p.Sat pre post R := by
  induction p with
  | ret a => exact himp a h
  | call n k ih => exact ⟨h.1, fun b hb => ih b (h.2 b hb)⟩

theorem Sat.bind {q : α → Proc ν β γ} {R : γ → Prop} (h : p.Sat pre post Q)
    (hq : ∀ a, Q a → (q a).Sat pre post R) : (p >>= q).Sat pre post R := by
  induction p with
  | ret a => exact hq a h
  | call n k ih => exact ⟨h.1, fun b hb => ih b (h.2 b hb)⟩

/-- The invariant of a loop over a list tells what holds after a part of it. -/
theorem sat_foldlM {step : σ → τ → Proc ν β σ} {I : List τ → σ → Prop} (l : List τ)
    (hstep : ∀ done x s, done ++ [x] <+: l → I done s → (step s x).Sat pre post (I (done ++ [x])))
    {s : σ} (hinit : I [] s) : (l.foldlM step s).Sat pre post (I l) := by
  suffices h : ∀ rest done s, done ++ rest = l → I done s →
      (rest.foldlM step s).Sat pre post (I l) from h l [] s rfl hinit
  intro rest
  induction rest with
  | nil =>
    intro done s hdone hI
    rw [List.append_nil] at hdone
    exact hdone ▸ hI
  | cons x rest ih =>
    intro done s hdone hI
    have hsplit : (done ++ [x]) ++ rest = l := by rw [← hdone, List.append_assoc]; rfl
    rw [List.foldlM_cons]
    exact (hstep done x s ⟨rest, hsplit⟩ hI).bind fun s' hI' => ih (done ++ [x]) s' hsplit hI'

theorem run_of_sat {f : ν → Option β} (hf : ∀ n, pre n → ∃ b, f n = some b ∧ post n b)
    (h : p.Sat pre post Q) : ∃ a, p.run f = some a ∧ Q a := by
  induction p with
  | ret a => exact ⟨a, rfl, h⟩
  | call n k ih =>
    obtain ⟨b, hb, hpost⟩ := hf n h.1
    rw [run_call hb]
    exact ih b (h.2 b hpost)

theorem pre_of_mem_calls {f : ν → Option β} (h : p.Sat pre (fun _ _ => True) Q) {n : ν}
    (hn : n ∈ p.calls f) : pre n := by
  induction p with
  | ret a => cases hn
  | call m k ih =>
    rcases mem_calls_call.1 hn with rfl | ⟨b, -, hn⟩
    · exact h.1
    · exact ih b (h.2 b trivial) hn

/-- The rule of total correctness: every call lowers the measure. -/
theorem fix_total (μ : ν → Nat)
    (hbody : ∀ n, pre n → (body n).Sat (fun m => pre m ∧ μ m < μ n) post (post n)) (n : ν)
    (hn : pre n) {depth : Nat} (hdepth : μ n < depth) :
    ∃ b, fix body depth n = some b ∧ post n b := by
  induction depth generalizing n with
  | zero => omega
  | succ depth ih =>
    refine run_of_sat (fun m hm => ?_) (hbody n hn)
    exact ih m hm.1 (by omega)

end

/-! ## Calls through finitely many arguments -/

variable (body)

def Returns (n : ν) : Prop := ∃ depth b, fix body depth n = some b

/-- The procedure at `n` calls the procedure at `m`. -/
def Calls (n m : ν) : Prop := ∃ depth, m ∈ (body n).calls (fix body depth)

/-- No call that the procedure leads to leads back to itself. -/
def Acyclic (n : ν) : Prop := ∀ m, ReflTransGen (Calls body) n m → ¬TransGen (Calls body) m m

/-- What makes recursive calls has a result, with calls nested to a given depth. -/
def ReturnsAt (depth : Nat) (p : Proc ν β α) : Prop := ∃ a, p.run (fix body depth) = some a

/-- None of the recursive calls leads to a call that leads back to itself. -/
def AcyclicFrom (p : Proc ν β α) : Prop := ∀ depth, ∀ n ∈ p.calls (fix body depth), Acyclic body n

variable {body} {n : ν} {depth : Nat}

/-- A procedure that returns to a depth makes calls that return to a smaller depth. -/
theorem Calls.fix_isSome {m : ν} (hcall : Calls body n m) {b : β}
    (h : fix body (depth + 1) n = some b) : ∃ b', fix body depth m = some b' := by
  obtain ⟨depth', hmem⟩ := hcall
  have hmem' : m ∈ (body n).calls (fix body (max depth depth')) :=
    calls_mono (fun _ _ => fix_mono (Nat.le_max_right depth depth')) hmem
  exact Option.isSome_iff_exists.1
    (mem_calls_of_run (fun _ _ => fix_mono (Nat.le_max_left depth depth')) h hmem')

theorem fix_isSome_of_transGen {m : ν} (hcalls : TransGen (Calls body) n m) {b : β}
    (h : fix body depth n = some b) : ∃ depth' < depth, ∃ b', fix body depth' m = some b' := by
  have hstep : ∀ {n m : ν} {depth : Nat} {b : β}, Calls body n m → fix body depth n = some b →
      ∃ depth' < depth, ∃ b', fix body depth' m = some b' := by
    intro n m depth b hcall h
    cases depth with
    | zero => cases h
    | succ depth => exact ⟨depth, Nat.lt_succ_self depth, hcall.fix_isSome h⟩
  induction hcalls with
  | single hcall => exact hstep hcall h
  | tail _ hcall ih =>
    obtain ⟨d, hd, b', hb'⟩ := ih
    obtain ⟨d', hd', hresult⟩ := hstep hcall hb'
    exact ⟨d', hd'.trans hd, hresult⟩

/-- A procedure that is called from itself has no depth that is enough. -/
theorem not_returns_of_transGen (h : TransGen (Calls body) n n) : ¬Returns body n := by
  rintro ⟨depth, b, hb⟩
  induction depth using Nat.strong_induction_on generalizing b with
  | _ depth ih =>
    obtain ⟨d, hd, b', hb'⟩ := fix_isSome_of_transGen h hb
    exact ih d hd b' hb'

theorem Returns.acyclic (h : Returns body n) : Acyclic body n := by
  intro m hreach hcycle
  obtain ⟨depth, b, hb⟩ := h
  rcases Relation.reflTransGen_iff_eq_or_transGen.1 hreach with rfl | hcalls
  · exact not_returns_of_transGen hcycle ⟨depth, b, hb⟩
  obtain ⟨d, -, b', hb'⟩ := fix_isSome_of_transGen hcalls hb
  exact not_returns_of_transGen hcycle ⟨d, b', hb'⟩

theorem ReturnsAt.mono {depth' : Nat} (hle : depth ≤ depth') {p : Proc ν β α}
    (h : ReturnsAt body depth p) : ReturnsAt body depth' p := by
  obtain ⟨a, ha⟩ := h
  exact ⟨a, run_mono (fun _ _ => fix_mono hle) ha⟩

theorem ReturnsAt.acyclicFrom {p : Proc ν β α} (h : ReturnsAt body depth p) :
    AcyclicFrom body p := by
  obtain ⟨a, ha⟩ := h
  intro depth' n hn
  have hn' : n ∈ p.calls (fix body (max depth depth')) :=
    calls_mono (fun _ _ => fix_mono (Nat.le_max_right depth depth')) hn
  have hsome := mem_calls_of_run (fun _ _ => fix_mono (Nat.le_max_left depth depth')) ha hn'
  obtain ⟨b, hb⟩ := Option.isSome_iff_exists.1 hsome
  exact Returns.acyclic ⟨depth, b, hb⟩

section

variable {arguments : Finset ν}

open Classical in
/-- The arguments that calls lead to. -/
noncomputable def reach (body : ν → Proc ν β β) (arguments : Finset ν) (n : ν) : Finset ν :=
  arguments.filter fun m => ReflTransGen (Calls body) n m

theorem mem_reach {n m : ν} :
    m ∈ reach body arguments n ↔ m ∈ arguments ∧ ReflTransGen (Calls body) n m := by
  classical
  rw [reach, Finset.mem_filter]

theorem reach_ssubset {n m : ν} (hn : n ∈ arguments) (hcall : Calls body n m)
    (hacyclic : Acyclic body n) : reach body arguments m ⊂ reach body arguments n := by
  have hsubset : reach body arguments m ⊆ reach body arguments n := by
    intro x hx
    rw [mem_reach] at hx ⊢
    exact ⟨hx.1, hx.2.head hcall⟩
  rw [Finset.ssubset_iff_of_subset hsubset]
  refine ⟨n, mem_reach.2 ⟨hn, .refl⟩, fun hback => ?_⟩
  exact hacyclic n .refl (TransGen.head' hcall (mem_reach.1 hback).2)

/-- The number of arguments is a depth that is enough, if no call leads back to itself. -/
theorem fix_isSome_of_acyclic (hclosed : ∀ n ∈ arguments, ∀ m, Calls body n m → m ∈ arguments)
    {n : ν} (hn : n ∈ arguments) (hacyclic : Acyclic body n) :
    ∃ b, fix body arguments.card n = some b := by
  suffices h : ∀ depth n, n ∈ arguments → Acyclic body n →
      (reach body arguments n).card ≤ depth → ∃ b, fix body depth n = some b from
    h _ n hn hacyclic (Finset.card_le_card fun x hx => (mem_reach.1 hx).1)
  intro depth
  induction depth with
  | zero =>
    intro n hn _ hcard
    have hself : n ∈ reach body arguments n := mem_reach.2 ⟨hn, .refl⟩
    rw [Finset.card_eq_zero.1 (Nat.le_zero.1 hcard)] at hself
    cases hself
  | succ depth ih =>
    intro n hn hacyclic hcard
    refine run_isSome fun m hm => ?_
    have hcall : Calls body n m := ⟨depth, hm⟩
    have hless := Finset.card_lt_card (reach_ssubset hn hcall hacyclic)
    obtain ⟨b, hb⟩ := ih m (hclosed n hn m hcall)
      (fun x hx => hacyclic x (hx.head hcall)) (by omega)
    exact Option.isSome_iff_exists.2 ⟨b, hb⟩

variable (hclosed : ∀ n ∈ arguments, ∀ m, Calls body n m → m ∈ arguments)
  {p : Proc ν β α} (hp : ∀ depth, ∀ n ∈ p.calls (fix body depth), n ∈ arguments)

include hclosed hp

theorem AcyclicFrom.returnsAt (h : AcyclicFrom body p) : ReturnsAt body arguments.card p := by
  refine run_isSome fun n hn => ?_
  obtain ⟨b, hb⟩ := fix_isSome_of_acyclic hclosed (hp _ n hn) (h _ n hn)
  exact Option.isSome_iff_exists.2 ⟨b, hb⟩

end

end Proc

end Conduit.Data

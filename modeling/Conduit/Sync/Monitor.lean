import Mathlib.Data.List.Basic

/-!
# Monitors

Threads that share a state under one mutex. The critical section of a call is one step. It ends in
one of two ways: the thread goes to sleep on the condition variable of its call, or it leaves with
a result and then, in separate steps after the unlock, notifies condition variables. A sleeping
thread may be woken by a notification, by a time-out or without a reason, and runs its critical
section again.
-/

namespace Conduit.Sync

/-- A notification of a condition variable: `notify_one` or `notify_all`. -/
inductive Signal (κ : Type) where
  | one (k : κ)
  | all (k : κ)
deriving DecidableEq

/-- How a critical section ends. A thread that waits leaves the state as it was. -/
inductive Outcome (σ κ R : Type) where
  | wait
  | done (state : σ) (result : R) (signals : List (Signal κ))

/-- The critical section of a call: when it enters, and when it has been woken. The flag says that
the time of a timed wait is up. A call waits on the condition variable `cond`; for one that never
waits it means nothing. -/
structure Monitor (σ κ C R : Type) where
  cond : C → κ
  enter : C → σ → Outcome σ κ R
  resume : C → Bool → σ → Outcome σ κ R

/-- Where a thread is: outside of the monitor, asleep, woken but not yet back in its critical
section, or behind it with notifications to send. -/
inductive Thread (κ C : Type) where
  | idle
  | sleeping (call : C)
  | woken (call : C)
  | signalling (signals : List (Signal κ))

structure Config (σ κ C : Type) where
  state : σ
  threads : List (Thread κ C)

/-- A call that has left its critical section. -/
structure Event (σ C R : Type) where
  call : C
  before : σ
  result : R
  after : σ

namespace Monitor

variable {σ κ C R : Type} [DecidableEq κ] (M : Monitor σ κ C R)

/-- A thread that can run a critical section, and how that ends. -/
inductive Runs (s : σ) : Thread κ C → C → Outcome σ κ R → Prop where
  | enter (c : C) : Runs s .idle c (M.enter c s)
  | resume (c : C) (timeUp : Bool) : Runs s (.woken c) c (M.resume c timeUp s)

/-- The thread sleeps on the condition variable. -/
def SleepsOn (k : κ) : Thread κ C → Prop
  | .sleeping c => M.cond c = k
  | _ => False

instance (k : κ) : DecidablePred (M.SleepsOn k) := fun t => by
  cases t <;> unfold SleepsOn <;> infer_instance

/-- `notify_all`, as it acts on one thread. -/
def wake (k : κ) (t : Thread κ C) : Thread κ C :=
  match t with
  | .sleeping c => if M.cond c = k then .woken c else .sleeping c
  | t => t

/-- One step of one thread. -/
inductive Step : Config σ κ C → Option (Event σ C R) → Config σ κ C → Prop where
  | wait (s : σ) (ts : List (Thread κ C)) (i : Nat) (t : Thread κ C) (c : C) :
      ts[i]? = some t → M.Runs s t c .wait → Step ⟨s, ts⟩ none ⟨s, ts.set i (.sleeping c)⟩
  | done (s s' : σ) (ts : List (Thread κ C)) (i : Nat) (t : Thread κ C) (c : C) (r : R)
      (signals : List (Signal κ)) :
      ts[i]? = some t → M.Runs s t c (.done s' r signals) →
        Step ⟨s, ts⟩ (some ⟨c, s, r, s'⟩) ⟨s', ts.set i (.signalling signals)⟩
  | wake (s : σ) (ts : List (Thread κ C)) (i : Nat) (c : C) :
      ts[i]? = some (.sleeping c) → Step ⟨s, ts⟩ none ⟨s, ts.set i (.woken c)⟩
  | signalOne (s : σ) (ts : List (Thread κ C)) (i j : Nat) (c : C) (signals : List (Signal κ)) :
      ts[i]? = some (.signalling (.one (M.cond c) :: signals)) → ts[j]? = some (.sleeping c) →
        Step ⟨s, ts⟩ none ⟨s, (ts.set j (.woken c)).set i (.signalling signals)⟩
  | signalNone (s : σ) (ts : List (Thread κ C)) (i : Nat) (k : κ) (signals : List (Signal κ)) :
      ts[i]? = some (.signalling (.one k :: signals)) → (∀ t ∈ ts, ¬M.SleepsOn k t) →
        Step ⟨s, ts⟩ none ⟨s, ts.set i (.signalling signals)⟩
  | signalAll (s : σ) (ts : List (Thread κ C)) (i : Nat) (k : κ) (signals : List (Signal κ)) :
      ts[i]? = some (.signalling (.all k :: signals)) →
        Step ⟨s, ts⟩ none ⟨s, (ts.map (M.wake k)).set i (.signalling signals)⟩
  | leave (s : σ) (ts : List (Thread κ C)) (i : Nat) :
      ts[i]? = some (.signalling []) → Step ⟨s, ts⟩ none ⟨s, ts.set i .idle⟩

/-- The runs from a configuration, with the calls that have left their critical section in order. -/
inductive Run (start : Config σ κ C) : List (Event σ C R) → Config σ κ C → Prop where
  | refl : Run start [] start
  | step (events : List (Event σ C R)) (e : Option (Event σ C R)) (cfg cfg' : Config σ κ C) :
      Run start events cfg → M.Step cfg e cfg' → Run start (events ++ e.toList) cfg'

/-- A critical section that leads from one state to another. -/
def Completes (c : C) (s : σ) (r : R) (s' : σ) : Prop :=
  ∃ t signals, M.Runs s t c (.done s' r signals)

variable {M}

/-- A step changes the state by a critical section that is left, or not at all. -/
theorem Step.state_cases {cfg cfg' : Config σ κ C} {e : Option (Event σ C R)}
    (h : M.Step cfg e cfg') : e = none ∧ cfg'.state = cfg.state
      ∨ ∃ c r, e = some ⟨c, cfg.state, r, cfg'.state⟩ ∧ M.Completes c cfg.state r cfg'.state := by
  cases h with
  | done s s' ts i t c r signals _ hruns => exact .inr ⟨c, r, rfl, t, signals, hruns⟩
  | _ => exact .inl ⟨rfl, rfl⟩

/-- What holds at the start and is kept by every critical section holds in every run. -/
theorem Run.history_induction {start cfg : Config σ κ C} {events : List (Event σ C R)}
    {P : List (Event σ C R) → σ → Prop} (hstart : P [] start.state)
    (hstep : ∀ events c s r s', P events s → M.Completes c s r s' →
      P (events ++ [⟨c, s, r, s'⟩]) s') (h : M.Run start events cfg) : P events cfg.state := by
  induction h with
  | refl => exact hstart
  | step events e cfg cfg' _ hs ih =>
    rcases hs.state_cases with ⟨rfl, hstate⟩ | ⟨c, r, rfl, hcompletes⟩
    · rw [hstate, Option.toList_none, List.append_nil]
      exact ih
    · exact hstep events c _ r _ ih hcompletes

theorem Run.call_alone {start : Config σ κ C} {events : List (Event σ C R)} {s s' : σ} {c : C}
    {r : R} {signals : List (Signal κ)} (h : M.Run start events ⟨s, [.idle]⟩)
    (hcall : M.enter c s = .done s' r signals) :
    M.Run start (events ++ [⟨c, s, r, s'⟩]) ⟨s', [.idle]⟩ := by
  have hdrain : ∀ signals : List (Signal κ), ∀ events : List (Event σ C R),
      M.Run start events ⟨s', [.signalling signals]⟩ → M.Run start events ⟨s', [.idle]⟩ := by
    intro signals
    induction signals with
    | nil =>
      intro events hrun
      have hlast := hrun.step _ none _ _ (.leave s' _ 0 rfl)
      rwa [Option.toList_none, List.append_nil] at hlast
    | cons signal signals ih =>
      intro events hrun
      apply ih
      have hnext : M.Step ⟨s', [.signalling (signal :: signals)]⟩ none
          ⟨s', [.signalling signals]⟩ := by
        cases signal with
        | one k =>
          refine .signalNone s' _ 0 k signals rfl ?_
          intro t ht
          rw [List.mem_singleton] at ht
          rw [ht]
          exact not_false
        | all k => exact .signalAll s' _ 0 k signals rfl
      have hlast := hrun.step _ none _ _ hnext
      rwa [Option.toList_none, List.append_nil] at hlast
  apply hdrain signals
  have hruns : M.Runs s .idle c (.done s' r signals) := hcall ▸ .enter c
  exact h.step _ (some _) _ _ (.done s s' [.idle] 0 .idle c r signals rfl hruns)

end Monitor

end Conduit.Sync

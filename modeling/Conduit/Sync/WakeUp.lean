import Conduit.Sync.Monitor
import Conduit.Sync.Trace
import Mathlib.Data.ENat.Basic

/-!
# No lost wake-ups

A counting rule for condition variables. The supply of a condition says how many threads that wait
for it can go on: nothing while the condition does not hold, and infinitely many once it holds for
good. If a critical section adds to a supply no more than it notifies, and a thread that was woken
for a supply uses it up, then a thread sleeps on a condition that holds only as long as a
notification or a woken thread is still under way.
-/

namespace Conduit.Sync.Monitor

open List

variable {σ κ C R : Type} [DecidableEq κ] {M : Monitor σ κ C R} {supply : κ → σ → ℕ∞}

/-- The call can wait. -/
def Waits (M : Monitor σ κ C R) (c : C) : Prop :=
  (∃ s, M.enter c s = .wait) ∨ ∃ timeUp s, M.resume c timeUp s = .wait

/-- The critical sections of a monitor respect a supply. -/
structure Supplied (M : Monitor σ κ C R) (supply : κ → σ → ℕ∞) : Prop where
  enter_wait : ∀ c s, M.enter c s = .wait → supply (M.cond c) s = 0
  resume_wait : ∀ c timeUp s, M.resume c timeUp s = .wait → supply (M.cond c) s = 0
  enter_done : ∀ c s s' r signals, M.enter c s = .done s' r signals → ∀ k,
    .all k ∈ signals ∨ supply k s' ≤ supply k s + (signals.count (.one k) : ℕ)
  resume_done : ∀ c timeUp s s' r signals, M.Waits c →
    M.resume c timeUp s = .done s' r signals → ∀ k,
    .all k ∈ signals ∨ supply k s' = 0 ∨ supply k s' + (if M.cond c = k then 1 else 0 : ℕ)
        ≤ supply k s + (signals.count (.one k) : ℕ)

variable (M) in
/-- The wake-ups of a condition that a thread stands for. -/
def credit (k : κ) : Thread κ C → ℕ
  | .woken c => if M.cond c = k then 1 else 0
  | .signalling signals => signals.count (.one k)
  | _ => 0

variable (M) in
def credits (k : κ) (ts : List (Thread κ C)) : ℕ := (ts.map (M.credit k)).sum

/-- The thread is going to notify everyone. -/
def Broadcasts (k : κ) : Thread κ C → Prop
  | .signalling signals => .all k ∈ signals
  | _ => False

variable (M supply) in
/-- If a thread sleeps on the condition, then everyone will be notified, or the wake-ups under way
cover the supply and `slack` more. -/
def Covered (k : κ) (slack : ℕ) (s : σ) (ts : List (Thread κ C)) : Prop :=
  (∃ t ∈ ts, M.SleepsOn k t) →
    (∃ t ∈ ts, Broadcasts k t) ∨ supply k s + slack ≤ (M.credits k ts : ℕ)

/-! ## Replacing a thread -/

theorem credits_set (k : κ) {ts : List (Thread κ C)} {i : ℕ} {t : Thread κ C}
    (h : ts[i]? = some t) (t' : Thread κ C) :
    M.credits k (ts.set i t') + M.credit k t = M.credits k ts + M.credit k t' :=
  sum_map_set (M.credit k) h t'

theorem Covered.set {k : κ} {slack slack' : ℕ} {s s' : σ} {ts : List (Thread κ C)} {i : ℕ}
    {t t' : Thread κ C} (hcov : Covered M supply k slack s ts) (h : ts[i]? = some t)
    (hsleep : ¬M.SleepsOn k t') (hkeep : Broadcasts k t → Broadcasts k t')
    (hsupply : Broadcasts k t'
      ∨ supply k s' + slack' + M.credit k t ≤ supply k s + slack + M.credit k t') :
    Covered M supply k slack' s' (ts.set i t') := by
  intro hsleeper
  have hi : i < ts.length := (List.getElem?_eq_some_iff.mp h).1
  have hbefore : ∃ u ∈ ts, M.SleepsOn k u := by
    obtain ⟨u, hu, hP⟩ := hsleeper
    rcases mem_or_eq_of_mem_set hu with hu | rfl
    · exact ⟨u, hu, hP⟩
    · exact absurd hP hsleep
  rcases hsupply with hbroad | hsupply
  · exact .inl ⟨t', mem_set hi t', hbroad⟩
  rcases hcov hbefore with hbroad | hcovered
  · exact .inl (exists_mem_set h hkeep hbroad)
  right
  have hsum : ((M.credits k (ts.set i t') + M.credit k t : ℕ) : ℕ∞)
      = (M.credits k ts + M.credit k t' : ℕ) := congrArg _ (credits_set k h t')
  push_cast at hsum
  have htotal : supply k s' + slack' + M.credit k t
      ≤ (M.credits k (ts.set i t') : ℕ∞) + M.credit k t := by
    calc supply k s' + slack' + M.credit k t ≤ supply k s + slack + M.credit k t' := hsupply
      _ ≤ (M.credits k ts : ℕ∞) + M.credit k t' := by gcongr
      _ = _ := hsum.symm
  exact (ENat.add_le_add_iff_right (ENat.natCast_ne_top _)).mp htotal

theorem covered_of_zero {k : κ} {s : σ} (ts : List (Thread κ C)) (h : supply k s = 0) :
    Covered M supply k 0 s ts := by
  intro _
  right
  simp [h]

/-! ## Steps -/

/-- The call in which a thread waits. -/
def waitingCall : Thread κ C → Option C
  | .sleeping c | .woken c => some c
  | _ => none

variable (M) in
/-- Whoever waits is in a call that can wait. -/
def CallsWait (ts : List (Thread κ C)) : Prop := ∀ t ∈ ts, ∀ c ∈ waitingCall t, M.Waits c

variable {ts : List (Thread κ C)} {i : ℕ} {t : Thread κ C} {s : σ} {c : C}
  {signals : List (Signal κ)} {k : κ}

omit [DecidableEq κ] in
theorem CallsWait.set (h : M.CallsWait ts) (i : ℕ) {t' : Thread κ C}
    (ht : ∀ c ∈ waitingCall t', M.Waits c) : M.CallsWait (ts.set i t') := by
  intro t hmem
  rcases mem_or_eq_of_mem_set hmem with hmem | rfl
  · exact h t hmem
  · exact ht

omit [DecidableEq κ] in
theorem CallsWait.set_none (h : M.CallsWait ts) (i : ℕ) {t' : Thread κ C}
    (ht : waitingCall t' = none) : M.CallsWait (ts.set i t') := by
  apply h.set
  intro c hc
  rw [ht] at hc
  cases hc

omit [DecidableEq κ] in
theorem CallsWait.of_getElem? (h : M.CallsWait ts) (hi : ts[i]? = some t) :
    ∀ c ∈ waitingCall t, M.Waits c :=
  h t (mem_of_getElem? hi)

theorem Step.callsWait {cfg cfg' : Config σ κ C} {e : Option (Event σ C R)}
    (hstep : M.Step cfg e cfg') (h : M.CallsWait cfg.threads) : M.CallsWait cfg'.threads := by
  cases hstep with
  | wait s ts i t c hi hruns =>
    apply h.set
    intro c' hc'
    cases hc'
    generalize hout : (Outcome.wait : Outcome σ κ R) = out at hruns
    cases hruns with
    | enter => exact .inl ⟨s, hout.symm⟩
    | resume _ timeUp => exact .inr ⟨timeUp, s, hout.symm⟩
  | wake s ts i c hi =>
    have hcall := CallsWait.of_getElem? h hi
    exact CallsWait.set h i hcall
  | signalOne s ts i j c signals hi hj =>
    have hcall := CallsWait.of_getElem? h hj
    have hwoken : M.CallsWait (ts.set j (.woken c)) := CallsWait.set h j hcall
    exact hwoken.set_none i rfl
  | signalAll s ts i k signals hi =>
    have hwoken : M.CallsWait (ts.map (M.wake k)) := by
      intro t hmem c hc
      obtain ⟨u, hu, rfl⟩ := mem_map.mp hmem
      refine h u hu c ?_
      cases u with
      | sleeping c' =>
        by_cases hk : M.cond c' = k
        · simpa [Monitor.wake, hk, waitingCall] using hc
        · simpa [Monitor.wake, hk, waitingCall] using hc
      | _ => exact hc
    exact hwoken.set_none i rfl
  | done s _ ts i | signalNone s ts i | leave s ts i => exact CallsWait.set_none h i rfl

theorem covered_wait (hM : M.Supplied supply) (h : ts[i]? = some t) (hruns : M.Runs s t c .wait)
    (k : κ) (hcov : Covered M supply k 0 s ts) :
    Covered M supply k 0 s (ts.set i (.sleeping c)) := by
  by_cases hk : M.cond c = k
  · -- whoever goes to sleep has found the condition false
    subst hk
    apply covered_of_zero
    generalize hout : (Outcome.wait : Outcome σ κ R) = out at hruns
    cases hruns with
    | enter => exact hM.enter_wait c s hout.symm
    | resume _ timeUp => exact hM.resume_wait c timeUp s hout.symm
  refine hcov.set h hk ?_ (.inr ?_)
  · generalize (Outcome.wait : Outcome σ κ R) = out at hruns
    cases hruns <;> exact fun hb => hb.elim
  have hcredit : M.credit k t = 0 := by
    generalize (Outcome.wait : Outcome σ κ R) = out at hruns
    cases hruns with
    | enter => rfl
    | resume _ timeUp => exact if_neg hk
  rw [hcredit]
  exact le_rfl

theorem covered_done {s' : σ} {r : R} (hM : M.Supplied supply) (hwaits : M.CallsWait ts)
    (h : ts[i]? = some t) (hruns : M.Runs s t c (.done s' r signals)) (k : κ)
    (hcov : Covered M supply k 0 s ts) :
    Covered M supply k 0 s' (ts.set i (.signalling signals)) := by
  generalize hout : Outcome.done s' r signals = out at hruns
  cases hruns with
  | enter =>
    refine hcov.set h not_false (fun hb => hb.elim) ?_
    rcases hM.enter_done c s s' r signals hout.symm k with hall | hle
    · exact .inl hall
    right
    simpa [credit] using hle
  | resume _ timeUp =>
    have hcall := hwaits.of_getElem? h c rfl
    rcases hM.resume_done c timeUp s s' r signals hcall hout.symm k with hall | hzero | hle
    · exact hcov.set h not_false (fun hb => hb.elim) (.inl hall)
    · exact covered_of_zero _ hzero
    refine hcov.set h not_false (fun hb => hb.elim) (.inr ?_)
    simpa [credit] using hle

theorem sleepsOn_wake {k' : κ} (hk : k ≠ k') (t : Thread κ C) :
    M.SleepsOn k' (M.wake k t) ↔ M.SleepsOn k' t := by
  cases t with
  | sleeping c =>
    by_cases hc : M.cond c = k
    · simp [wake, SleepsOn, hc, hk]
    · simp [wake, SleepsOn, hc]
  | _ => rfl

theorem credit_wake {k' : κ} (hk : k ≠ k') (t : Thread κ C) :
    M.credit k' (M.wake k t) = M.credit k' t := by
  cases t with
  | sleeping c =>
    by_cases hc : M.cond c = k
    · simp [wake, credit, hc, hk]
    · simp [wake, credit, hc]
  | _ => rfl

theorem broadcasts_wake (k k' : κ) (t : Thread κ C) :
    Broadcasts k' (M.wake k t) ↔ Broadcasts k' t := by
  cases t with
  | sleeping c =>
    by_cases hc : M.cond c = k
    · simp [wake, Broadcasts, hc]
    · simp [wake, Broadcasts, hc]
  | _ => rfl

theorem not_sleepsOn_wake (k : κ) (t : Thread κ C) : ¬M.SleepsOn k (M.wake k t) := by
  cases t with
  | sleeping c =>
    by_cases hc : M.cond c = k
    · simp [wake, SleepsOn, hc]
    · simp [wake, SleepsOn, hc]
  | _ => exact not_false

theorem covered_signalAll (h : ts[i]? = some (.signalling (.all k :: signals))) (k' : κ)
    (hcov : Covered M supply k' 0 s ts) :
    Covered M supply k' 0 s ((ts.map (M.wake k)).set i (.signalling signals)) := by
  by_cases hk : k = k'
  · subst hk
    rintro ⟨u, hu, hsleeps⟩
    rcases mem_or_eq_of_mem_set hu with hu | rfl
    · obtain ⟨v, -, rfl⟩ := mem_map.mp hu
      exact absurd hsleeps (not_sleepsOn_wake k v)
    · exact hsleeps.elim
  have hwoken : Covered M supply k' 0 s (ts.map (M.wake k)) := by
    intro hsleeper
    have hcredits : M.credits k' (ts.map (M.wake k)) = M.credits k' ts := by
      simp only [credits, map_map, Function.comp_def, credit_wake hk]
    rw [hcredits]
    simp only [mem_map, exists_exists_and_eq_and, sleepsOn_wake hk] at hsleeper
    simpa only [mem_map, exists_exists_and_eq_and, broadcasts_wake] using hcov hsleeper
  have h' : (ts.map (M.wake k))[i]? = some (.signalling (.all k :: signals)) := by
    rw [getElem?_map, h]
    rfl
  refine hwoken.set h' not_false ?_ (.inr ?_)
  · intro hb
    rcases mem_cons.mp hb with heq | hb
    · cases heq
      exact absurd rfl hk
    · exact hb
  · simp [credit]

theorem covered_signalOne {j : ℕ} (hi : ts[i]? = some (.signalling (.one (M.cond c) :: signals)))
    (hj : ts[j]? = some (.sleeping c)) (k : κ) (hcov : Covered M supply k 0 s ts) :
    Covered M supply k 0 s ((ts.set j (.woken c)).set i (.signalling signals)) := by
  have hij : j ≠ i := by
    rintro rfl
    rw [hi] at hj
    cases hj
  -- the woken thread brings the credit that the notification gives up
  have hwoken : Covered M supply k (M.credit k (.woken c)) s (ts.set j (.woken c)) :=
    hcov.set hj not_false (fun hb => hb.elim) (.inr (by simp [credit]))
  refine hwoken.set (by rwa [getElem?_set_ne hij]) not_false ?_ (.inr ?_)
  · intro hb
    rcases mem_cons.mp hb with heq | hb
    · cases heq
    · exact hb
  · by_cases hk : M.cond c = k
    · simp [credit, hk, add_assoc, add_comm]
    · simp [credit, hk]

theorem covered_signalNone (h : ts[i]? = some (.signalling (.one k :: signals)))
    (hnone : ∀ t ∈ ts, ¬M.SleepsOn k t) (k' : κ) (hcov : Covered M supply k' 0 s ts) :
    Covered M supply k' 0 s (ts.set i (.signalling signals)) := by
  by_cases hk : k = k'
  · subst hk
    rintro ⟨u, hu, hsleeps⟩
    rcases mem_or_eq_of_mem_set hu with hu | rfl
    · exact absurd hsleeps (hnone u hu)
    · exact hsleeps.elim
  · refine hcov.set h not_false ?_ (.inr ?_)
    · intro hb
      rcases mem_cons.mp hb with heq | hb
      · cases heq
      · exact hb
    · simp [credit, hk]

theorem Step.covered {cfg cfg' : Config σ κ C} {e : Option (Event σ C R)}
    (hM : M.Supplied supply) (h : M.Step cfg e cfg') (hwaits : M.CallsWait cfg.threads) (k : κ)
    (hcov : Covered M supply k 0 cfg.state cfg.threads) :
    Covered M supply k 0 cfg'.state cfg'.threads := by
  cases h with
  | wait s ts i t c hi hruns => exact covered_wait hM hi hruns k hcov
  | done s s' ts i t c r signals hi hruns => exact covered_done hM hwaits hi hruns k hcov
  | wake s ts i c hi => exact hcov.set hi not_false (fun hb => hb.elim) (.inr (by simp [credit]))
  | signalOne s ts i j c signals hi hj => exact covered_signalOne hi hj k hcov
  | signalNone s ts i k' signals hi hnone => exact covered_signalNone hi hnone k hcov
  | signalAll s ts i k' signals hi => exact covered_signalAll hi k hcov
  | leave s ts i hi =>
    refine hcov.set hi not_false ?_ (.inr (by simp [credit]))
    intro hb
    cases hb

/-! ## Runs -/

/-- No notification is outstanding, and the thread has not been woken without having run. -/
def Settled : Thread κ C → Prop
  | .woken _ => False
  | .signalling signals => signals = []
  | _ => True

theorem Covered.supply_eq_zero (h : Covered M supply (M.cond c) 0 s ts)
    (hsettled : ∀ t ∈ ts, Settled t) (hc : .sleeping c ∈ ts) : supply (M.cond c) s = 0 := by
  rcases h ⟨_, hc, rfl⟩ with ⟨t, ht, hb⟩ | hle
  · have hquiet := hsettled t ht
    cases t with
    | signalling signals =>
      cases hquiet
      cases hb
    | _ => exact hb.elim
  have hnone : M.credits (M.cond c) ts = 0 := by
    apply sum_eq_zero
    intro n hn
    obtain ⟨t, ht, rfl⟩ := mem_map.mp hn
    have hquiet := hsettled t ht
    cases t with
    | woken c' => exact hquiet.elim
    | signalling signals =>
      cases hquiet
      rfl
    | _ => rfl
  rw [hnone, Nat.cast_zero, add_zero] at hle
  exact nonpos_iff_eq_zero.mp hle

variable (M supply) in
/-- What the threads of a monitor keep: whoever waits is in a call that can wait, and the wake-ups
under way cover every supply. -/
structure Accounted (cfg : Config σ κ C) : Prop where
  callsWait : M.CallsWait cfg.threads
  covered : ∀ k, Covered M supply k 0 cfg.state cfg.threads

theorem accounted_of_idle {cfg : Config σ κ C} (h : ∀ t ∈ cfg.threads, t = .idle) :
    Accounted M supply cfg := by
  refine ⟨?_, ?_⟩
  · intro t ht c hc
    rw [h t ht] at hc
    cases hc
  · rintro k ⟨t, ht, hsleeps⟩
    rw [h t ht] at hsleeps
    exact hsleeps.elim

theorem Accounted.step (hM : M.Supplied supply) {cfg cfg' : Config σ κ C}
    {e : Option (Event σ C R)} (h : Accounted M supply cfg) (hstep : M.Step cfg e cfg') :
    Accounted M supply cfg' :=
  ⟨hstep.callsWait h.callsWait, fun k => hstep.covered hM h.callsWait k (h.covered k)⟩

/-- In a run that has settled, whoever sleeps waits for a condition that does not hold. -/
theorem Run.supply_eq_zero {start cfg : Config σ κ C} {events : List (Event σ C R)}
    (hM : M.Supplied supply) (hstart : ∀ t ∈ start.threads, t = .idle)
    (h : M.Run start events cfg) (hsettled : ∀ t ∈ cfg.threads, Settled t) {c : C}
    (hc : .sleeping c ∈ cfg.threads) : supply (M.cond c) cfg.state = 0 := by
  have haccounted : Accounted M supply cfg := by
    clear hsettled hc
    induction h with
    | refl => exact accounted_of_idle hstart
    | step events e cfg cfg' _ hs ih => exact ih.step hM hs
  exact (haccounted.covered _).supply_eq_zero hsettled hc

end Conduit.Sync.Monitor

import Conduit.Sync.WakeUp

/-!
# Programs that use a monitor

A thread that uses a monitor is at a place of its program. At some places it makes a call, and the
result says where it goes on; at others it moves by itself, and what it waits for there is told by
the other threads. Input is a move that the program does not owe.

Two rules lead to the end of such a system. If no thread can move, except by input or by waking
without a reason, then every thread rests at a place without a move or sleeps on a condition that
does not hold. And if calls and moves use up work, then every state leads to one where no thread can
move.
-/

namespace Conduit.Sync

open List

variable {σ κ C R S : Type} [DecidableEq κ]

/-- A thread and its place in the program. -/
structure Actor (κ C S : Type) where
  thread : Thread κ C
  place : S

/-- The calls of a program and its moves outside of the monitor. -/
structure Program (κ C R S : Type) where
  next : S → Option C
  back : S → R → S
  own : List (Actor κ C S) → S → S → Prop
  input : List (Actor κ C S) → S → S → Prop

structure System (σ κ C S : Type) where
  state : σ
  actors : List (Actor κ C S)

/-- The threads as the monitor sees them. -/
def System.config (s : System σ κ C S) : Config σ κ C := ⟨s.state, s.actors.map (·.thread)⟩

def System.places (s : System σ κ C S) : List S := s.actors.map (·.place)

/-- What a step does. -/
inductive Move (σ C R S : Type) where
  | quiet
  | spurious
  | returned (event : Event σ C R)
  | own (before after : S)
  | input (before after : S)

/-- The steps that a program owes. -/
def Move.Owed : Move σ C R S → Prop
  | .spurious | .input _ _ => False
  | _ => True

namespace Monitor

variable (M : Monitor σ κ C R) (P : Program κ C R S)

def wakeActor (k : κ) (a : Actor κ C S) : Actor κ C S := { a with thread := M.wake k a.thread }

/-- One step of one thread. -/
inductive SystemStep : System σ κ C S → Move σ C R S → System σ κ C S → Prop where
  | wait (s : σ) (as : List (Actor κ C S)) (i : ℕ) (a : Actor κ C S) (c : C) :
      as[i]? = some a → P.next a.place = some c → M.Runs s a.thread c .wait →
        SystemStep ⟨s, as⟩ .quiet ⟨s, as.set i ⟨.sleeping c, a.place⟩⟩
  | done (s s' : σ) (as : List (Actor κ C S)) (i : ℕ) (a : Actor κ C S) (c : C) (r : R)
      (signals : List (Signal κ)) :
      as[i]? = some a → P.next a.place = some c → M.Runs s a.thread c (.done s' r signals) →
        SystemStep ⟨s, as⟩ (.returned ⟨c, s, r, s'⟩)
          ⟨s', as.set i ⟨.signalling signals, P.back a.place r⟩⟩
  | wake (s : σ) (as : List (Actor κ C S)) (i : ℕ) (c : C) (p : S) :
      as[i]? = some ⟨.sleeping c, p⟩ → SystemStep ⟨s, as⟩ .spurious ⟨s, as.set i ⟨.woken c, p⟩⟩
  | signalOne (s : σ) (as : List (Actor κ C S)) (i j : ℕ) (c : C) (signals : List (Signal κ))
      (p p' : S) :
      as[i]? = some ⟨.signalling (.one (M.cond c) :: signals), p⟩ →
      as[j]? = some ⟨.sleeping c, p'⟩ →
        SystemStep ⟨s, as⟩ .quiet ⟨s, (as.set j ⟨.woken c, p'⟩).set i ⟨.signalling signals, p⟩⟩
  | signalNone (s : σ) (as : List (Actor κ C S)) (i : ℕ) (k : κ) (signals : List (Signal κ))
      (p : S) :
      as[i]? = some ⟨.signalling (.one k :: signals), p⟩ →
      (∀ a ∈ as, ¬M.SleepsOn k a.thread) →
        SystemStep ⟨s, as⟩ .quiet ⟨s, as.set i ⟨.signalling signals, p⟩⟩
  | signalAll (s : σ) (as : List (Actor κ C S)) (i : ℕ) (k : κ) (signals : List (Signal κ))
      (p : S) :
      as[i]? = some ⟨.signalling (.all k :: signals), p⟩ →
        SystemStep ⟨s, as⟩ .quiet ⟨s, (as.map (M.wakeActor k)).set i ⟨.signalling signals, p⟩⟩
  | leave (s : σ) (as : List (Actor κ C S)) (i : ℕ) (p : S) : as[i]? = some ⟨.signalling [], p⟩ →
        SystemStep ⟨s, as⟩ .quiet ⟨s, as.set i ⟨.idle, p⟩⟩
  | own (s : σ) (as : List (Actor κ C S)) (i : ℕ) (p p' : S) :
      as[i]? = some ⟨.idle, p⟩ → P.own as p p' →
        SystemStep ⟨s, as⟩ (.own p p') ⟨s, as.set i ⟨.idle, p'⟩⟩
  | input (s : σ) (as : List (Actor κ C S)) (i : ℕ) (p p' : S) :
      as[i]? = some ⟨.idle, p⟩ → P.input as p p' →
        SystemStep ⟨s, as⟩ (.input p p') ⟨s, as.set i ⟨.idle, p'⟩⟩

variable {M P} {supply : κ → σ → ℕ∞}

omit [DecidableEq κ] in
theorem getElem?_threads {as : List (Actor κ C S)} {i : ℕ} {a : Actor κ C S}
    (h : as[i]? = some a) : (as.map (·.thread))[i]? = some a.thread := by
  rw [getElem?_map, h]
  rfl

theorem set_self {α : Type} {l : List α} {i : ℕ} {x : α} (h : l[i]? = some x) : l.set i x = l := by
  obtain ⟨hi, rfl⟩ := List.getElem?_eq_some_iff.mp h
  exact set_getElem_self hi

/-! ## The threads in the monitor -/

/-- A step of a program is a step in the monitor, or it does not touch the monitor. -/
theorem SystemStep.config {s s' : System σ κ C S} {m : Move σ C R S} (h : M.SystemStep P s m s') :
    (∃ e, M.Step s.config e s'.config) ∨ s'.config = s.config := by
  cases h with simp only [System.config, map_set]
  | wait s as i a c hi _ hruns =>
    exact .inl ⟨none, .wait s _ i a.thread c (getElem?_threads hi) hruns⟩
  | done s s' as i a c r signals hi _ hruns =>
    exact .inl ⟨_, .done s s' _ i a.thread c r signals (getElem?_threads hi) hruns⟩
  | wake s as i c p hi => exact .inl ⟨none, .wake s _ i c (getElem?_threads hi)⟩
  | signalOne s as i j c signals p p' hi hj =>
    exact .inl ⟨none, .signalOne s _ i j c signals (getElem?_threads hi) (getElem?_threads hj)⟩
  | signalNone s as i k signals p hi hnone =>
    refine .inl ⟨none, .signalNone s _ i k signals (getElem?_threads hi) ?_⟩
    intro t ht
    obtain ⟨a, ha, rfl⟩ := mem_map.mp ht
    exact hnone a ha
  | signalAll s as i k signals p hi =>
    have hmap : (as.map (M.wakeActor k)).map (·.thread) = (as.map (·.thread)).map (M.wake k) := by
      rw [map_map, map_map]
      rfl
    rw [hmap]
    exact .inl ⟨none, .signalAll s _ i k signals (getElem?_threads hi)⟩
  | leave s as i p hi => exact .inl ⟨none, .leave s _ i (getElem?_threads hi)⟩
  | own s as i p p' hi _ | input s as i p p' hi _ =>
    have hthread := getElem?_threads hi
    exact .inr (congrArg (Config.mk s) (set_self hthread))

omit [DecidableEq κ] in
theorem getElem?_places {as : List (Actor κ C S)} {i : ℕ} {a : Actor κ C S}
    (h : as[i]? = some a) : (as.map (·.place))[i]? = some a.place := by
  rw [getElem?_map, h]
  rfl

omit [DecidableEq κ] in
theorem signalling_set {as : List (Actor κ C S)} {i j : ℕ} {signals : List (Signal κ)} {c : C}
    {p p' : S} (hi : as[i]? = some ⟨.signalling signals, p⟩)
    (hj : as[j]? = some ⟨.sleeping c, p'⟩) :
    (as.set j ⟨.woken c, p'⟩)[i]? = some ⟨.signalling signals, p⟩ := by
  have hij : j ≠ i := by
    rintro rfl
    rw [hi] at hj
    cases hj
  rwa [getElem?_set_ne hij]

variable (P) in
/-- How a step changes the state and the places. -/
inductive Moves (s : System σ κ C S) : Move σ C R S → σ → List S → Prop where
  | same (m : Move σ C R S) : (m = .quiet ∨ m = .spurious) → Moves s m s.state s.places
  | returned (i : ℕ) (p : S) (c : C) (r : R) (s' : σ) : s.places[i]? = some p →
      P.next p = some c → M.Completes c s.state r s' →
      Moves s (.returned ⟨c, s.state, r, s'⟩) s' (s.places.set i (P.back p r))
  | own (i : ℕ) (p p' : S) : s.places[i]? = some p → P.own s.actors p p' →
      Moves s (.own p p') s.state (s.places.set i p')
  | input (i : ℕ) (p p' : S) : s.places[i]? = some p → P.input s.actors p p' →
      Moves s (.input p p') s.state (s.places.set i p')

omit [DecidableEq κ] in
theorem Moves.of_places {s : σ} {as as' : List (Actor κ C S)} {m : Move σ C R S}
    (hm : m = .quiet ∨ m = .spurious) (h : as'.map (·.place) = as.map (·.place)) :
    Moves (M := M) P ⟨s, as⟩ m s (as'.map (·.place)) := by
  rw [h]
  exact .same m hm

theorem SystemStep.moves {s s' : System σ κ C S} {m : Move σ C R S}
    (h : M.SystemStep P s m s') : Moves (M := M) P s m s'.state s'.places := by
  have hplaces : ∀ {as : List (Actor κ C S)} {i : ℕ} {t t' : Thread κ C} {p : S},
      as[i]? = some ⟨t, p⟩ → (as.set i ⟨t', p⟩).map (·.place) = as.map (·.place) := by
    intro as i t t' p hi
    have hplace := getElem?_places hi
    rw [map_set]
    exact set_self hplace
  cases h with
  | wait s as i a c hi _ _ | signalNone s as i k signals p hi _ =>
    exact .of_places (.inl rfl) (hplaces hi)
  | done s s' as i a c r signals hi hnext hruns =>
    rw [System.places, map_set]
    exact .returned i a.place c r s' (getElem?_places hi) hnext ⟨a.thread, signals, hruns⟩
  | wake s as i c p hi => exact .of_places (.inr rfl) (hplaces hi)
  | signalOne s as i j c signals p p' hi hj =>
    exact .of_places (.inl rfl) ((hplaces (signalling_set hi hj)).trans (hplaces hj))
  | signalAll s as i k signals p hi =>
    have hi' : (as.map (M.wakeActor k))[i]? = some ⟨.signalling (.all k :: signals), p⟩ := by
      rw [getElem?_map, hi]
      rfl
    have hwake : (as.map (M.wakeActor k)).map (·.place) = as.map (·.place) := by
      rw [map_map]
      rfl
    exact .of_places (.inl rfl) ((hplaces hi').trans hwake)
  | leave s as i p hi => exact .of_places (.inl rfl) (hplaces hi)
  | own s as i p p' hi hown =>
    rw [System.places, map_set]
    exact .own i p p' (getElem?_places hi) hown
  | input s as i p p' hi hinput =>
    rw [System.places, map_set]
    exact .input i p p' (getElem?_places hi) hinput

variable (M P supply) in
/-- What every run of a program keeps: the accounts of the monitor, and that whoever waits is at the
place of its call. -/
structure Sound (s : System σ κ C S) : Prop where
  accounted : Accounted M supply s.config
  waits : ∀ a ∈ s.actors, ∀ c ∈ waitingCall a.thread, P.next a.place = some c

theorem sound_of_idle {s : System σ κ C S} (h : ∀ a ∈ s.actors, a.thread = .idle) :
    Sound M P supply s := by
  refine ⟨accounted_of_idle ?_, ?_⟩
  · intro t ht
    obtain ⟨a, ha, rfl⟩ := mem_map.mp ht
    exact h a ha
  · intro a ha c hc
    rw [h a ha] at hc
    cases hc

theorem Sound.step (hM : M.Supplied supply) {s s' : System σ κ C S} {m : Move σ C R S}
    (h : Sound M P supply s) (hstep : M.SystemStep P s m s') : Sound M P supply s' := by
  refine ⟨?_, ?_⟩
  · rcases hstep.config with ⟨e, hmonitor⟩ | hsame
    · exact h.accounted.step hM hmonitor
    rw [hsame]
    exact h.accounted
  obtain ⟨-, hwaits⟩ := h
  -- one thread has been replaced by another that waits at its place, if it waits
  have hset : ∀ {as : List (Actor κ C S)} {i : ℕ} {b : Actor κ C S},
      (∀ a ∈ as, ∀ c ∈ waitingCall a.thread, P.next a.place = some c) →
      (∀ c ∈ waitingCall b.thread, P.next b.place = some c) →
      ∀ a ∈ as.set i b, ∀ c ∈ waitingCall a.thread, P.next a.place = some c := by
    intro as i b has hb a ha
    rcases mem_or_eq_of_mem_set ha with ha | rfl
    · exact has a ha
    · exact hb
  cases hstep with
  | wait s as i a c hi hnext _ =>
    refine hset hwaits ?_
    rintro c' ⟨⟩
    exact hnext
  | wake s as i c p hi =>
    have hplace := hwaits _ (mem_of_getElem? hi)
    exact hset hwaits hplace
  | signalOne s as i j c signals p p' hi hj =>
    have hplace := hwaits _ (mem_of_getElem? hj)
    refine hset (hset hwaits hplace) ?_
    rintro c' ⟨⟩
  | signalAll s as i k signals p hi =>
    refine hset ?_ ?_
    · intro a ha c hc
      obtain ⟨b, hb, rfl⟩ := mem_map.mp ha
      refine hwaits b hb c ?_
      rcases b with ⟨t, p⟩
      cases t with
      | sleeping c' =>
        by_cases hk : M.cond c' = k
        · simpa [wakeActor, Monitor.wake, hk, waitingCall] using hc
        · simpa [wakeActor, Monitor.wake, hk] using hc
      | _ => exact hc
    · rintro c' ⟨⟩
  | done | signalNone | leave | own | input =>
    refine hset hwaits ?_
    rintro c' ⟨⟩

/-! ## When no thread can move -/

variable (M P) in
/-- Only input, or a thread that wakes without a reason, can go on. -/
def Stuck (s : System σ κ C S) : Prop := ∀ m s', M.SystemStep P s m s' → ¬m.Owed

variable {s : System σ κ C S} {a : Actor κ C S}

/-- The thread rests at a place without a move. -/
def Rests (P : Program κ C R S) (as : List (Actor κ C S)) (a : Actor κ C S) : Prop :=
  a.thread = .idle ∧ P.next a.place = none ∧ ∀ p, ¬P.own as a.place p

theorem Stuck.not_runs (h : Stuck M P s) (ha : a ∈ s.actors) {c : C}
    (hnext : P.next a.place = some c) {out : Outcome σ κ R} : ¬M.Runs s.state a.thread c out := by
  obtain ⟨i, hi⟩ := mem_iff_getElem?.mp ha
  intro hruns
  cases out with
  | wait => exact h _ _ (.wait s.state s.actors i a c hi hnext hruns) trivial
  | done s' r signals =>
    exact h _ _ (.done s.state s' s.actors i a c r signals hi hnext hruns) trivial

section

variable (h : Stuck M P s) (hsound : Sound M P supply s) (ha : a ∈ s.actors)

include h hsound ha

theorem Stuck.settled : a.thread = .idle ∨ ∃ c, a.thread = .sleeping c := by
  obtain ⟨i, hi⟩ := mem_iff_getElem?.mp ha
  rcases a with ⟨t, p⟩
  cases t with
  | idle => exact .inl rfl
  | sleeping c => exact .inr ⟨c, rfl⟩
  | woken c =>
    have hnext := hsound.waits _ ha c rfl
    exact absurd (.resume c false) (h.not_runs ha hnext)
  | signalling signals =>
    exfalso
    cases signals with
    | nil => exact h _ _ (.leave s.state s.actors i p hi) trivial
    | cons signal signals =>
      cases signal with
      | all k => exact h _ _ (.signalAll s.state s.actors i k signals p hi) trivial
      | one k =>
        by_cases hnone : ∀ b ∈ s.actors, ¬M.SleepsOn k b.thread
        · exact h _ _ (.signalNone s.state s.actors i k signals p hi hnone) trivial
        push Not at hnone
        obtain ⟨⟨t, p'⟩, hb, hsleeps⟩ := hnone
        obtain ⟨j, hj⟩ := mem_iff_getElem?.mp hb
        cases t with
        | sleeping c =>
          cases hsleeps
          exact h _ _ (.signalOne s.state s.actors i j c signals p p' hi hj) trivial
        | _ => exact hsleeps.elim

/-- In a stuck system every thread rests, or it sleeps in a call whose condition does not hold. -/
theorem Stuck.cases :
    Rests P s.actors a ∨
      ∃ c, P.next a.place = some c ∧ M.Waits c ∧ supply (M.cond c) s.state = 0 := by
  rcases h.settled hsound ha with hidle | ⟨c, hsleeping⟩
  · left
    obtain ⟨i, hi⟩ := mem_iff_getElem?.mp ha
    rcases a with ⟨t, p⟩
    obtain rfl : t = .idle := hidle
    refine ⟨rfl, ?_, ?_⟩
    · rcases hnext : P.next p with _ | c
      · rfl
      · exact absurd (.enter c) (h.not_runs ha hnext)
    · intro p' hown
      exact h _ _ (.own s.state s.actors i p p' hi hown) trivial
  right
  have hmem : .sleeping c ∈ s.config.threads := mem_map.mpr ⟨a, ha, hsleeping⟩
  refine ⟨c, hsound.waits a ha c (by rw [hsleeping]; rfl),
    hsound.accounted.callsWait _ hmem c rfl, ?_⟩
  refine (hsound.accounted.covered (M.cond c)).supply_eq_zero ?_ hmem
  intro t ht
  obtain ⟨b, hb, rfl⟩ := mem_map.mp ht
  rcases h.settled hsound hb with hidle | ⟨c', hsleeping'⟩
  · rw [hidle]
    trivial
  · rw [hsleeping']
    trivial

end

/-! ## Every state leads to one where no thread can move -/

variable (M P) in
/-- Calls and moves use up work, and a call leaves a bounded number of notifications. -/
structure Lowers (load : σ → ℕ) (work : S → ℕ) (burst : ℕ) : Prop where
  returned : ∀ {p c s t s' r signals}, P.next p = some c → M.Runs s t c (.done s' r signals) →
    load s' + work (P.back p r) < load s + work p ∧ signals.length ≤ burst
  own : ∀ {as p p'}, P.own as p p' → work p' < work p

/-- The cost of an actor among `n` of them: its work, with `unit` for each piece, and what it has
still to do in the monitor. -/
def actorCost (P : Program κ C R S) (work : S → ℕ) (unit n : ℕ) : Actor κ C S → ℕ
  | ⟨.idle, p⟩ => work p * unit + if (P.next p).isSome then 1 else 0
  | ⟨.sleeping _, p⟩ => work p * unit
  | ⟨.woken _, p⟩ => work p * unit + 1
  | ⟨.signalling signals, p⟩ => work p * unit + (signals.length * (n + 1) + 2)

/-- A piece of work outweighs all that a call can bring about in the monitor. -/
def unitCost (burst n : ℕ) : ℕ := burst * (n + 1) + 3

def potential (P : Program κ C R S) (load : σ → ℕ) (work : S → ℕ) (burst : ℕ)
    (s : System σ κ C S) : ℕ :=
  load s.state * unitCost burst s.actors.length
    + (s.actors.map (actorCost P work (unitCost burst s.actors.length) s.actors.length)).sum

variable {load : σ → ℕ} {work : S → ℕ} {burst : ℕ}

omit [DecidableEq κ] in
variable (P work) in
theorem work_le_actorCost (unit n : ℕ) (a : Actor κ C S) :
    work a.place * unit ≤ actorCost P work unit n a := by
  rcases a with ⟨t, p⟩
  cases t with
  | sleeping c => exact le_rfl
  | _ => exact Nat.le_add_right ..

variable (M P work) in
theorem sum_wakeActor_le (unit n : ℕ) (k : κ) (as : List (Actor κ C S)) :
    ((as.map (M.wakeActor k)).map (actorCost P work unit n)).sum
      ≤ (as.map (actorCost P work unit n)).sum + as.length := by
  have hone : ∀ a : Actor κ C S,
      actorCost P work unit n (M.wakeActor k a) ≤ actorCost P work unit n a + 1 := by
    rintro ⟨t, p⟩
    cases t with
    | sleeping c =>
      by_cases hk : M.cond c = k
      · simp [wakeActor, Monitor.wake, hk, actorCost]
      · simp [wakeActor, Monitor.wake, hk]
    | _ => exact Nat.le_add_right ..
  induction as with
  | nil => exact le_rfl
  | cons a as ih =>
    have ha := hone a
    simp only [map_cons, sum_cons, length_cons]
    omega

theorem SystemStep.potential_lt (hlowers : Lowers M P load work burst) {s s' : System σ κ C S}
    {m : Move σ C R S} (hstep : M.SystemStep P s m s') (howed : m.Owed) :
    potential P load work burst s' < potential P load work burst s := by
  have hset (n : ℕ) := @sum_map_set _ (actorCost P work (unitCost burst n) n)
  cases hstep with simp only [potential, length_set, length_map]
  | wait s as i a c hi hnext hruns =>
    have hsum := hset as.length hi ⟨.sleeping c, a.place⟩
    have hless : actorCost P work (unitCost burst as.length) as.length ⟨.sleeping c, a.place⟩
        < actorCost P work (unitCost burst as.length) as.length a := by
      rcases a with ⟨t, p⟩
      generalize (Outcome.wait : Outcome σ κ R) = out at hruns
      cases hruns with
      | enter =>
        have hsome : (P.next p).isSome = true := by rw [hnext]; rfl
        simp [actorCost, hsome]
      | resume _ timeUp => simp [actorCost]
    omega
  | done s s' as i a c r signals hi hnext hruns =>
    obtain ⟨hwork, hburst⟩ := hlowers.returned hnext hruns
    have hsum := hset as.length hi ⟨.signalling signals, P.back a.place r⟩
    have hbefore := work_le_actorCost P work (unitCost burst as.length) as.length a
    have hunits := Nat.mul_le_mul_right (unitCost burst as.length) hwork
    have hsignals := Nat.mul_le_mul_right (as.length + 1) hburst
    have hunit : unitCost burst as.length = burst * (as.length + 1) + 3 := rfl
    have hafter : actorCost P work (unitCost burst as.length) as.length
        ⟨.signalling signals, P.back a.place r⟩
        = work (P.back a.place r) * unitCost burst as.length
          + (signals.length * (as.length + 1) + 2) := rfl
    simp only [Nat.succ_mul, Nat.add_mul _ _ (unitCost burst as.length)] at hunits
    omega
  | wake => exact howed.elim
  | signalOne s as i j c signals p p' hi hj =>
    have hlength : 0 < as.length := Nat.zero_lt_of_lt (List.getElem?_eq_some_iff.mp hi).1
    have hfirst := hset as.length hj ⟨.woken c, p'⟩
    have hsecond := hset as.length (signalling_set hi hj) ⟨.signalling signals, p⟩
    simp only [actorCost, length_cons, Nat.succ_mul] at hfirst hsecond
    omega
  | signalNone s as i k signals p hi hnone =>
    have hsum := hset as.length hi ⟨.signalling signals, p⟩
    simp only [actorCost, length_cons, Nat.succ_mul] at hsum
    omega
  | signalAll s as i k signals p hi =>
    have hwoken := sum_wakeActor_le M P work (unitCost burst as.length) as.length k as
    have hi' : (as.map (M.wakeActor k))[i]? = some ⟨.signalling (.all k :: signals), p⟩ := by
      rw [getElem?_map, hi]
      rfl
    have hsum := hset as.length hi' ⟨.signalling signals, p⟩
    simp only [actorCost, length_cons, Nat.succ_mul] at hsum
    omega
  | leave s as i p hi =>
    have hsum := hset as.length hi ⟨.idle, p⟩
    have hone : (if (P.next p).isSome then 1 else 0) ≤ 1 := by split <;> decide
    simp only [actorCost, length_nil, Nat.zero_mul] at hsum
    omega
  | own s as i p p' hi hown =>
    have hsum := hset as.length hi ⟨.idle, p'⟩
    have hunits := Nat.mul_le_mul_right (unitCost burst as.length) (hlowers.own hown)
    have hone : (if (P.next p').isSome then 1 else 0) ≤ 1 := by split <;> decide
    have hunit : unitCost burst as.length = burst * (as.length + 1) + 3 := rfl
    simp only [actorCost, Nat.succ_mul] at hsum hunits
    omega
  | input => exact howed.elim

/-- By the steps that a program owes, every state leads to a stuck one. -/
theorem exists_stuck (hlowers : Lowers M P load work burst) (s : System σ κ C S) :
    ∃ moves s', Trace (M.SystemStep P) s moves s' ∧ (∀ m ∈ moves, m.Owed) ∧ Stuck M P s' := by
  obtain ⟨moves, s', htrace, hmoves, -, hstuck⟩ :=
    Trace.exists_last Move.Owed (fun _ => True) (potential P load work burst)
      (fun _ _ _ _ hstep howed => ⟨trivial, SystemStep.potential_lt hlowers hstep howed⟩) s trivial
  exact ⟨moves, s', htrace, hmoves, hstuck⟩

end Monitor

end Conduit.Sync

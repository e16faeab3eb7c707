import Conduit.Queue.Fifo
import Conduit.Queue.Wakeups
import Conduit.Sync.Actors

/-!
# Stopping the transceiver

`Transceiver::stop` (`transceiver.cpp:438-483`) with the I/O threads that push messages into the
dispatch queue (`transceiver.cpp:808-818`) and the workers that take them out
(`transceiver.cpp:986-1048`). The threads are programs that use the queue as a monitor, so that a
push into a full queue and a pop from an empty one sleep until they are notified.

The stop of a transport returns once its I/O thread is outside of a callback, and its I/O thread
begins no callback afterwards. A handler returns; what else a worker does with a message, the
back-pressure and the counters are left out. The wait for `shutdown_cv_` has a time limit.
-/

namespace Conduit.Transceiver.Shutdown

open Queue Sync BoundedQueue QueueEvent List

variable {T : Type}

/-- How far `stop` has come: not called, in `stop` of a transport, in `close` of the queue, in the
timed wait, or in `join` of a worker. -/
inductive StopPhase where
  | idle
  | stopping (transport : Nat)
  | closing
  | waiting
  | joining (worker : Nat)
  | returned

/-- The thread that calls `stop`, an I/O thread with what its callback has still to push, or a
worker. -/
inductive Place (T : Type) where
  | stopper (phase : StopPhase)
  | io (transport : Nat) (pending : List T)
  | popping (worker : Nat)
  | handling (worker : Nat) (message : T)
  | finished (worker : Nat)

/-- The worker whose place it is. -/
def Place.worker? : Place T → Option Nat
  | .popping worker | .handling worker _ | .finished worker => some worker
  | _ => none

/-- The transport can still bring data. -/
def StopPhase.Delivers (transport : Nat) : StopPhase → Prop
  | .idle => True
  | .stopping current => current ≤ transport
  | _ => False

/-- The threads outside of the queue. -/
inductive Own (transports workers : Nat) (as : List (Actor Condition (QueueCall T) (Place T))) :
    Place T → Place T → Prop where
  | stopTransport (k : Nat) : k < transports →
      (∀ a ∈ as, ∀ pending, a.place = .io k pending → a.thread = .idle ∧ pending = []) →
      Own transports workers as (.stopper (.stopping k)) (.stopper (.stopping (k + 1)))
  | stopped (k : Nat) : transports ≤ k →
      Own transports workers as (.stopper (.stopping k)) (.stopper .closing)
  | waited : Own transports workers as (.stopper .waiting) (.stopper (.joining 0))
  | join (j : Nat) : j < workers →
      (∀ a ∈ as, a.place.worker? = some j → a.thread = .idle ∧ a.place = .finished j) →
      Own transports workers as (.stopper (.joining j)) (.stopper (.joining (j + 1)))
  | joined (j : Nat) : workers ≤ j →
      Own transports workers as (.stopper (.joining j)) (.stopper .returned)
  | dispatch (worker : Nat) (message : T) :
      Own transports workers as (.handling worker message) (.popping worker)

/-- The call of `stop`, and a callback with new data. -/
inductive Input (as : List (Actor Condition (QueueCall T) (Place T))) :
    Place T → Place T → Prop where
  | stop : Input as (.stopper .idle) (.stopper (.stopping 0))
  | receive (k : Nat) (messages : List T) :
      (∀ a ∈ as, ∀ phase, a.place = .stopper phase → phase.Delivers k) →
      Input as (.io k []) (.io k messages)

def program (transports workers : Nat) :
    Program Condition (QueueCall T) (QueueResult T) (Place T) where
  next
    | .stopper .closing => some .close
    | .io _ (message :: _) => some (.push message)
    | .popping _ => some .pop
    | _ => none
  back
    | .stopper .closing, _ => .stopper .waiting
    | .io transport (_ :: rest), _ => .io transport rest
    | .popping worker, .popped (some message) => .handling worker message
    | .popping worker, _ => .finished worker
    | place, _ => place
  own := Own transports workers
  input := Input

/-- A running transceiver. No worker at all counts as one. -/
def start [Inhabited T] (capacity : Nat) (policy : DropPolicy) (transports workers : Nat) :
    System (BoundedQueue T) Condition (QueueCall T) (Place T) :=
  { state := .new capacity policy
    actors := ⟨.idle, .stopper .idle⟩
      :: ((range transports).map (fun k => ⟨.idle, .io k []⟩)
        ++ (range (max workers 1)).map (fun j => ⟨.idle, .popping j⟩)) }

abbrev QueueMove (T : Type) := Move (BoundedQueue T) (QueueCall T) (QueueResult T) (Place T)

/-- The calls of the queue in a run. -/
def events (moves : List (QueueMove T)) : List (QueueEvent T) :=
  moves.filterMap fun
    | .returned event => some event
    | _ => none

/-- The messages whose handlers have returned. -/
def dispatched (moves : List (QueueMove T)) : List T :=
  moves.filterMap fun
    | .own (.handling _ message) _ => some message
    | _ => none

def Place.message? : Place T → Option T
  | .handling _ message => some message
  | _ => none

/-- `stop` has been called. -/
def Called (places : List (Place T)) : Prop := ∃ phase, .stopper phase ∈ places ∧ phase ≠ .idle

variable {transports workers : Nat}

theorem next_cases {p : Place T} {c : QueueCall T}
    (h : (program transports workers).next p = some c) : (p = .stopper .closing ∧ c = .close) ∨
      (∃ k message rest, p = .io k (message :: rest) ∧ c = .push message) ∨
      ∃ j, p = .popping j ∧ c = .pop := by
  cases p with
  | stopper phase =>
    cases phase with
    | closing =>
      cases h
      exact .inl ⟨rfl, rfl⟩
    | _ => cases h
  | io k pending =>
    cases pending with
    | nil => cases h
    | cons message rest =>
      cases h
      exact .inr (.inl ⟨k, message, rest, rfl, rfl⟩)
  | popping j =>
    cases h
    exact .inr (.inr ⟨j, rfl, rfl⟩)
  | _ => cases h

/-! ## What has been done at each phase -/

/-- `close` has returned. -/
def StopPhase.HasClosed : StopPhase → Prop
  | .waiting | .joining _ | .returned => True
  | _ => False

/-- `join` of the worker has returned. -/
def StopPhase.HasJoined (worker : Nat) : StopPhase → Prop
  | .joining current => worker < current
  | .returned => True
  | _ => False

/-- The queue is closed before the first `join`, a worker ends when the queue is closed and empty,
and those that have been joined have ended. -/
structure Phases (workers : Nat) (q : BoundedQueue T) (places : List (Place T)) : Prop where
  closed : ∀ phase, .stopper phase ∈ places → phase.HasClosed → q.closed = true
  drained : ∀ j, .finished j ∈ places → q.closed = true ∧ q.size = 0
  joined : ∀ phase, .stopper phase ∈ places → ∀ p ∈ places, ∀ j, p.worker? = some j →
    phase.HasJoined j → p = .finished j
  crew : ∀ p ∈ places, ∀ j, p.worker? = some j → j < workers
  someone : ∃ p ∈ places, p.worker?.isSome = true

variable {q q' : BoundedQueue T} {places : List (Place T)} {i : Nat} {p' : Place T}

theorem someone_set (h : ∃ p ∈ places, p.worker?.isSome = true) {p : Place T}
    (hi : places[i]? = some p) (hworker : p'.worker? = p.worker?) :
    ∃ p ∈ places.set i p', p.worker?.isSome = true :=
  exists_mem_set hi (fun hp => hworker ▸ hp) h

section

variable (h : Phases workers q places)

include h

theorem Phases.set {p : Place T} (hi : places[i]? = some p)
    (hworker : p'.worker? = p.worker?) (hstopper : ∀ phase, p' ≠ .stopper phase)
    (hfinished : ∀ j, p ≠ .finished j) (hclosed : q'.closed = q.closed)
    (hdrained : ∀ j, .finished j ∈ places.set i p' → q'.closed = true ∧ q'.size = 0) :
    Phases workers q' (places.set i p') := by
  have hmem := mem_of_getElem? hi
  have hold : ∀ phase, .stopper phase ∈ places.set i p' → .stopper phase ∈ places := by
    intro phase hphase
    rcases mem_or_eq_of_mem_set hphase with hphase | heq
    · exact hphase
    · exact absurd heq.symm (hstopper phase)
  refine ⟨?_, hdrained, ?_, ?_, someone_set h.someone hi hworker⟩
  · intro phase hphase hhas
    rw [hclosed]
    exact h.closed phase (hold phase hphase) hhas
  · intro phase hphase r hr j hj hjoined
    rcases mem_or_eq_of_mem_set hr with hr | rfl
    · exact h.joined phase (hold phase hphase) r hr j hj hjoined
    -- whoever has been joined does not move
    rw [hworker] at hj
    exact absurd (h.joined phase (hold phase hphase) p hmem j hj hjoined) (hfinished j)
  · intro r hr j hj
    rcases mem_or_eq_of_mem_set hr with hr | rfl
    · exact h.crew r hr j hj
    · exact h.crew p hmem j (hworker ▸ hj)

theorem Phases.setStopper {old new : StopPhase}
    (hi : places[i]? = some (.stopper old)) (hkeeps : q.closed = true → q'.closed = true)
    (hsize : q'.size = q.size) (hclosed : new.HasClosed → q'.closed = true)
    (hjoined : ∀ p ∈ places, ∀ j, p.worker? = some j → new.HasJoined j → p = .finished j) :
    Phases workers q' (places.set i (.stopper new)) := by
  have hother : ∀ p ∈ places.set i (.stopper new), ∀ j, p.worker? = some j → p ∈ places := by
    intro p hp j hj
    rcases mem_or_eq_of_mem_set hp with hp | rfl
    · exact hp
    · cases hj
  refine ⟨?_, ?_, ?_, ?_, someone_set h.someone hi rfl⟩
  · intro phase hphase hhas
    rcases mem_or_eq_of_mem_set hphase with hphase | heq
    · exact hkeeps (h.closed phase hphase hhas)
    cases heq
    exact hclosed hhas
  · intro j hj
    obtain ⟨hq, hempty⟩ := h.drained j (hother _ hj j rfl)
    exact ⟨hkeeps hq, hsize.trans hempty⟩
  · intro phase hphase p hp j hj hhas
    rcases mem_or_eq_of_mem_set hphase with hphase | heq
    · exact h.joined phase hphase p (hother p hp j hj) j hj hhas
    cases heq
    exact hjoined p (hother p hp j hj) j hj hhas
  · intro p hp j hj
    exact h.crew p (hother p hp j hj) j hj

theorem Phases.finished_set (hp' : ∀ j, p' ≠ .finished j)
    (hsame : q.closed = true → q.size = 0 → q'.closed = true ∧ q'.size = 0) :
    ∀ j, .finished j ∈ places.set i p' → q'.closed = true ∧ q'.size = 0 := by
  intro j hj
  rcases mem_or_eq_of_mem_set hj with hj | heq
  · obtain ⟨hclosed, hempty⟩ := h.drained j hj
    exact hsame hclosed hempty
  · exact absurd heq.symm (hp' j)

end

/-! ## What the calls do -/

variable [Inhabited T] {policy : DropPolicy}
  {p : Place T} {m : QueueMove T} {i : Nat} {moves : List (QueueMove T)}
  {s s' : System (BoundedQueue T) Condition (QueueCall T) (Place T)}

abbrev Step (transports workers : Nat) :=
  (monitor (T := T)).SystemStep (program transports (max workers 1))

/-- What a call of the program does to the queue, with its result and its notifications. -/
inductive Served (q : BoundedQueue T) : QueueCall T → QueueResult T → BoundedQueue T →
    List (Signal Condition) → Prop where
  | close : Served q .close .none { q with closed := true } [.all .notEmpty, .all .notFull]
  | push (v : T) (accepted : Bool) (q' : BoundedQueue T) (signals : List (Signal Condition)) :
      q'.size ≤ q.size + 1 → q'.closed = q.closed → (q.closed = true → q' = q) →
      signals.length ≤ 1 → Served q (.push v) (.pushed accepted) q' signals
  | pop (v : T) (q' : BoundedQueue T) (signals : List (Signal Condition)) :
      q'.size + 1 = q.size → q'.closed = q.closed → signals.length ≤ 1 →
      Served q .pop (.popped (some v)) q' signals
  | popNone : q.size = 0 → q.closed = true → Served q .pop (.popped none) q []

theorem served {c : QueueCall T} (hnext : (program transports workers).next p = some c)
    {q q' : BoundedQueue T} {t : Thread Condition (QueueCall T)} {r : QueueResult T}
    {signals : List (Signal Condition)}
    (hruns : monitor.Runs q t c (.done q' r signals)) : Served q c r q' signals := by
  have henter : monitor.enter c q = .done q' r signals := by
    generalize hout : Outcome.done q' r signals = out at hruns
    obtain ⟨-, rfl⟩ | ⟨k, message, rest, -, rfl⟩ | ⟨j, -, rfl⟩ := next_cases hnext
    all_goals cases hruns <;> rfl
  obtain ⟨-, rfl⟩ | ⟨k, v, rest, -, rfl⟩ | ⟨j, -, rfl⟩ := next_cases hnext
  · cases henter
    exact .close
  · simp only [monitor, push] at henter
    split at henter
    · cases henter
    cases henter
    refine .push v _ _ _ (size_insert_le ..) (closed_insert ..) (insert_of_closed _ v) ?_
    split <;> simp
  simp only [monitor, pop] at henter
  split at henter
  next hitem =>
    cases henter
    unfold BoundedQueue.take
    by_cases hempty : q.size = 0
    · rw [if_pos hempty]
      refine .popNone hempty ?_
      simpa [hasItem, hempty] using hitem
    rw [if_neg hempty]
    refine .pop _ _ _ ?_ rfl (by simp)
    show q.size - 1 + 1 = q.size
    omega
  · cases henter

/-! ## Every run of `stop` can go on -/

/-- The steps that `stop` has still to do. -/
def StopPhase.work (transports workers : Nat) : StopPhase → Nat
  | .idle => 0
  | .stopping k => transports - k + workers + 4
  | .closing => workers + 3
  | .waiting => workers + 2
  | .joining j => workers - j + 1
  | .returned => 0

/-- A message costs a push, a pop and a dispatch. -/
def Place.work (transports workers : Nat) : Place T → Nat
  | .stopper phase => phase.work transports workers
  | .io _ pending => 3 * pending.length
  | .popping _ => 1
  | .handling _ _ => 2
  | .finished _ => 0

theorem lowers : Monitor.Lowers monitor (program (T := T) transports workers)
    (fun q => 2 * q.size) (Place.work transports workers) 2 where
  returned := by
    intro p c q t q' r signals hnext hruns
    have hserved := served hnext hruns
    obtain ⟨rfl, rfl⟩ | ⟨k, v, rest, rfl, rfl⟩ | ⟨j, rfl, rfl⟩ := next_cases hnext
    · cases hserved
      simp [program, Place.work, StopPhase.work]
    · cases hserved with
      | push _ accepted _ _ hsize _ _ hsignals =>
        simp only [program, Place.work, length_cons]
        omega
    cases hserved with
    | pop v _ _ hsize _ hsignals =>
      simp only [program, Place.work]
      omega
    | popNone hsize hclosed => simp [program, Place.work]
  own := by
    intro as p p' hown
    cases hown with
    | stopTransport | join | stopped | waited | joined | dispatch =>
      simp only [Place.work, StopPhase.work]
      omega

theorem Phases.step (h : Phases workers s.state s.places)
    (hstep : monitor.SystemStep (program transports workers) s m s') :
    Phases workers s'.state s'.places := by
  have hmoves := hstep.moves
  generalize s'.state = q' at hmoves ⊢
  generalize s'.places = places' at hmoves ⊢
  cases hmoves with
  | same => exact h
  | returned i p c r _ hi hnext hcompletes =>
    obtain ⟨t, signals, hruns⟩ := hcompletes
    have hserved := served hnext hruns
    obtain ⟨rfl, rfl⟩ | ⟨k, v, rest, rfl, rfl⟩ | ⟨j, rfl, rfl⟩ := next_cases hnext
    · cases hserved
      refine h.setStopper hi (fun _ => rfl) rfl (fun _ => rfl) ?_
      intro p _ j _ hjoined
      exact hjoined.elim
    · cases hserved with
      | push _ accepted _ _ _ hclosed hsame _ =>
        refine h.set hi rfl (fun _ => by simp [program]) (fun _ => by simp) hclosed ?_
        refine h.finished_set (fun _ => by simp [program]) ?_
        intro hq hempty
        rw [hsame hq]
        exact ⟨hq, hempty⟩
    cases hserved with
    | pop v _ _ hsize hclosed _ =>
      refine h.set hi rfl (fun _ => by simp [program]) (fun _ => by simp) hclosed ?_
      refine h.finished_set (fun _ => by simp [program]) ?_
      intro hq hempty
      omega
    | popNone hempty hq =>
      exact h.set hi rfl (fun _ => by simp [program]) (fun _ => by simp) rfl
        fun _ _ => ⟨hq, hempty⟩
  | own i p p' hi hown =>
    cases hown with
    | stopTransport | stopped =>
      exact h.setStopper hi id rfl (fun hc => hc.elim) fun p _ j _ hjoined => hjoined.elim
    | waited =>
      refine h.setStopper hi id rfl
        (fun _ => h.closed .waiting (mem_of_getElem? hi) trivial) ?_
      intro p _ j _ hjoined
      exact absurd hjoined (Nat.not_lt_zero j)
    | join j hj hdone =>
      have hmem := mem_of_getElem? hi
      refine h.setStopper hi id rfl (fun _ => h.closed _ hmem trivial) ?_
      intro p hp j' hj' hjoined
      rcases Nat.lt_succ_iff_lt_or_eq.mp hjoined with hlt | rfl
      · exact h.joined _ hmem p hp j' hj' hlt
      obtain ⟨a, ha, rfl⟩ := mem_map.mp hp
      exact (hdone a ha hj').2
    | joined k hk =>
      have hmem := mem_of_getElem? hi
      refine h.setStopper hi id rfl (fun _ => h.closed _ hmem trivial) ?_
      intro p hp j hj _
      exact h.joined _ hmem p hp j hj ((h.crew p hp j hj).trans_le hk)
    | dispatch j message =>
      exact h.set hi rfl (fun _ => by simp) (fun _ => by simp) rfl
        (h.finished_set (fun _ => by simp) fun hq hempty => ⟨hq, hempty⟩)
  | input i p p' hi hinput =>
    cases hinput with
    | stop => exact h.setStopper hi id rfl (fun hc => hc.elim) fun p _ j _ hjoined => hjoined.elim
    | receive k messages hdelivers =>
      exact h.set hi rfl (fun _ => by simp) (fun _ => by simp) rfl
        (h.finished_set (fun _ => by simp) fun hq hempty => ⟨hq, hempty⟩)

/-! ## Where the messages are -/

omit [Inhabited T] in
theorem perm_filterMap_set {places : List (Place T)} (h : places[i]? = some p) (p' : Place T) :
    ((places.set i p').filterMap Place.message? ++ p.message?.toList).Perm
      (places.filterMap Place.message? ++ p'.message?.toList) := by
  have hcons : ∀ (r : Place T) (rest : List (Place T)), (r :: rest).filterMap Place.message?
      = r.message?.toList ++ rest.filterMap Place.message? := by
    intro r rest
    rw [filterMap_cons]
    cases r.message? <;> rfl
  induction places generalizing i with
  | nil => cases h
  | cons r places ih =>
    cases i with
    | zero =>
      cases h
      rw [set_cons_zero, hcons, hcons]
      refine perm_append_comm.trans ?_
      rw [append_assoc]
      exact perm_append_comm.append_left _
    | succ i =>
      rw [set_cons_succ, hcons, hcons, append_assoc, append_assoc]
      exact (ih h).append_left _

/-- What the pops have returned has been dispatched or is with a worker. Nobody clears the queue. -/
structure Delivered (policy : DropPolicy) (moves : List (QueueMove T)) (q : BoundedQueue T)
    (places : List (Place T)) : Prop where
  history : History policy (events moves) q
  calls : ∀ e ∈ events moves, e.call ≠ .clear
  popped : ((events moves).flatMap popped).Perm
    (dispatched moves ++ places.filterMap Place.message?)

omit [Inhabited T] in
theorem events_concat (moves : List (QueueMove T)) (m : QueueMove T) :
    events (moves ++ [m]) = events moves ++ events [m] :=
  filterMap_append ..

omit [Inhabited T] in
theorem dispatched_concat (moves : List (QueueMove T)) (m : QueueMove T) :
    dispatched (moves ++ [m]) = dispatched moves ++ dispatched [m] :=
  filterMap_append ..

omit [Inhabited T] in
theorem perm_set_of_none {p' : Place T} (hi : places[i]? = some p) (hp : p.message? = none) :
    ((places.set i p').filterMap Place.message?).Perm
      (places.filterMap Place.message? ++ p'.message?.toList) := by
  have hperm := perm_filterMap_set hi p'
  rwa [hp, Option.toList_none, append_nil] at hperm

theorem Delivered.move {places' : List (Place T)} (h : Delivered policy moves q places)
    (hevents : events [m] = []) (hdispatched : dispatched [m] = [])
    (hperm : (places'.filterMap Place.message?).Perm (places.filterMap Place.message? ++ [])) :
    Delivered policy (moves ++ [m]) q places' := by
  rw [append_nil] at hperm
  refine ⟨?_, ?_, ?_⟩
  · rw [events_concat, hevents, append_nil]
    exact h.history
  · rw [events_concat, hevents, append_nil]
    exact h.calls
  · rw [events_concat, dispatched_concat, hevents, hdispatched, append_nil, append_nil]
    exact h.popped.trans (hperm.symm.append_left _)

theorem Delivered.call {e : QueueEvent T} {places' : List (Place T)}
    (h : Delivered policy moves q places)
    (hhistory : History policy (events moves ++ [e]) q') (hcall : e.call ≠ .clear)
    (hperm : (places'.filterMap Place.message?).Perm (places.filterMap Place.message? ++ e.popped)) :
    Delivered policy (moves ++ [.returned e]) q' places' := by
  have hevents : events (moves ++ [.returned e]) = events moves ++ [e] := events_concat ..
  have hdispatched : dispatched (moves ++ [.returned e]) = dispatched moves :=
    (dispatched_concat ..).trans (append_nil _)
  refine ⟨hevents ▸ hhistory, ?_, ?_⟩
  · rw [hevents]
    intro e' he'
    rcases mem_append.mp he' with he' | he'
    · exact h.calls e' he'
    rw [mem_singleton.mp he']
    exact hcall
  · rw [hevents, hdispatched, flatMap_append, flatMap_singleton]
    refine (h.popped.append_right _).trans ?_
    rw [append_assoc]
    exact hperm.symm.append_left _

theorem Delivered.step (h : Delivered policy moves s.state s.places)
    (hstep : monitor.SystemStep (program transports workers) s m s') :
    Delivered policy (moves ++ [m]) s'.state s'.places := by
  have hmoves := hstep.moves
  generalize s'.state = q' at hmoves ⊢
  generalize s'.places = places' at hmoves ⊢
  cases hmoves with
  | same _ hm =>
    have hperm := Perm.of_eq (append_nil (s.places.filterMap Place.message?)).symm
    rcases hm with rfl | rfl
    · exact h.move rfl rfl hperm
    · exact h.move rfl rfl hperm
  | returned i p c r _ hi hnext hcompletes =>
    have hhistory := h.history.step hcompletes
    obtain ⟨t, signals, hruns⟩ := hcompletes
    have hserved := served hnext hruns
    obtain ⟨rfl, rfl⟩ | ⟨k, v, rest, rfl, rfl⟩ | ⟨j, rfl, rfl⟩ := next_cases hnext
    all_goals
      cases hserved <;>
        exact h.call hhistory (fun hc => nomatch hc) (perm_set_of_none hi rfl)
  | own i p p' hi hown =>
    cases hown with
    | stopTransport | stopped | waited | join | joined =>
      exact h.move rfl rfl (perm_set_of_none hi rfl)
    | dispatch j message =>
      have hperm := perm_filterMap_set hi (.popping j)
      have hdispatched : dispatched (moves ++ [.own (.handling j message) (.popping j)])
          = dispatched moves ++ [message] := dispatched_concat ..
      have hevents : events (moves ++ [.own (.handling j message) (.popping j)]) = events moves :=
        (events_concat ..).trans (append_nil _)
      refine ⟨hevents ▸ h.history, hevents ▸ h.calls, ?_⟩
      rw [hevents, hdispatched, append_assoc]
      refine h.popped.trans (Perm.append_left _ ?_)
      rw [show (Place.popping (T := T) j).message? = none from rfl, Option.toList_none,
        append_nil] at hperm
      exact hperm.symm.trans perm_append_comm
  | input i p p' hi hinput =>
    cases hinput with
    | stop | receive => exact h.move rfl rfl (perm_set_of_none hi rfl)

/-! ## The end of `stop` -/

omit [Inhabited T] in
theorem Called.set (h : Called places) {p' : Place T} (hi : places[i]? = some p)
    (hkeeps : ∀ phase, p = .stopper phase → ∃ phase', p' = .stopper phase' ∧ phase' ≠ .idle) :
    Called (places.set i p') := by
  obtain ⟨phase, hmem, hne⟩ := h
  have hset := exists_mem_set (P := fun r => ∃ phase, r = .stopper phase ∧ phase ≠ .idle)
    hi (v := p') ?_ ⟨_, hmem, phase, rfl, hne⟩
  · obtain ⟨r, hr, phase', rfl, hne'⟩ := hset
    exact ⟨phase', hr, hne'⟩
  · rintro ⟨phase, rfl, -⟩
    exact hkeeps phase rfl

theorem Called.step (h : Called s.places)
    (hstep : monitor.SystemStep (program transports workers) s m s') : Called s'.places := by
  have hmoves := hstep.moves
  generalize s'.state = q' at hmoves
  generalize s'.places = places' at hmoves ⊢
  cases hmoves with
  | same => exact h
  | returned i p c r _ hi hnext _ =>
    refine h.set hi ?_
    rintro phase rfl
    obtain ⟨hphase, -⟩ | ⟨k, v, rest, hio, -⟩ | ⟨j, hpop, -⟩ := next_cases hnext
    · cases hphase
      exact ⟨.waiting, rfl, by simp⟩
    · cases hio
    · cases hpop
  | own i p p' hi hown =>
    refine h.set hi ?_
    rintro phase rfl
    cases hown <;> exact ⟨_, rfl, by simp⟩
  | input i p p' hi hinput =>
    refine h.set hi ?_
    rintro phase rfl
    cases hinput
    exact ⟨_, rfl, by simp⟩

section

variable (hstuck : monitor.Stuck (program (T := T) transports workers) s)
  (hsound : monitor.Sound (program transports workers) supply s)

include hstuck hsound

theorem worker_of_stuck {a : Actor Condition (QueueCall T) (Place T)} (ha : a ∈ s.actors) {j : Nat}
    (hj : a.place.worker? = some j) :
    (a.thread = .idle ∧ a.place = .finished j) ∨ (s.state.size = 0 ∧ s.state.closed = false) := by
  rcases a with ⟨t, p⟩
  rcases hstuck.cases hsound ha with ⟨hidle, hnext, hown⟩ | ⟨c, hnext, -, hsupply⟩
  · left
    cases p with
    | stopper | io => cases hj
    | popping i => cases hnext
    | handling i message => exact absurd (.dispatch i message) (hown (.popping i))
    | finished i =>
      cases hj
      exact ⟨hidle, rfl⟩
  · right
    obtain ⟨rfl, -⟩ | ⟨k, v, rest, rfl, -⟩ | ⟨i, rfl, rfl⟩ := next_cases hnext
    · cases hj
    · cases hj
    · exact empty_of_supply hsupply

theorem returned_of_stuck (hphases : Phases workers s.state s.places)
    (hcapacity : 0 < s.state.capacity)
    (hcalled : Called s.places) : .stopper .returned ∈ s.places := by
  obtain ⟨phase, hmem, hne⟩ := hcalled
  obtain ⟨⟨t, p⟩, ha, hp⟩ := mem_map.mp hmem
  obtain rfl : p = .stopper phase := hp
  rcases hstuck.cases hsound ha with ⟨-, hnext, hown⟩ | ⟨c, hnext, hwaits, -⟩
  · cases phase with
    | idle => exact absurd rfl hne
    | closing => cases hnext
    | returned => exact hmem
    | waiting => exact absurd .waited (hown _)
    | stopping k =>
      exfalso
      rcases Nat.lt_or_ge k transports with hk | hk
      · refine hown _ (.stopTransport k hk ?_)
        rintro ⟨t', p'⟩ hb pending hio
        obtain rfl : p' = .io k pending := hio
        rcases hstuck.cases hsound hb with ⟨hidle, hnone, -⟩ | ⟨c, hsome, -, hsupply⟩
        · cases pending with
          | nil => exact ⟨hidle, rfl⟩
          | cons message rest => cases hnone
        -- the I/O thread sleeps in front of a full queue, but a worker could take a message
        exfalso
        obtain ⟨hphase, -⟩ | ⟨_, v, rest, -, rfl⟩ | ⟨j, hpop, -⟩ := next_cases hsome
        · cases hphase
        · obtain ⟨hfull, hopen⟩ := full_of_supply hsupply
          obtain ⟨w, hw, hworker⟩ := hphases.someone
          obtain ⟨j, hj⟩ := Option.isSome_iff_exists.mp hworker
          obtain ⟨b, hb, rfl⟩ := mem_map.mp hw
          rcases worker_of_stuck hstuck hsound hb hj with ⟨-, hfinished⟩ | ⟨hempty, -⟩
          · have hclosed := (hphases.drained j (hfinished ▸ hw)).1
            rw [hopen] at hclosed
            cases hclosed
          · omega
        · cases hpop
      · exact hown _ (.stopped k hk)
    | joining j =>
      exfalso
      rcases Nat.lt_or_ge j workers with hj | hj
      · refine hown _ (.join j hj ?_)
        intro b hb hworker
        rcases worker_of_stuck hstuck hsound hb hworker with hdone | ⟨-, hopen⟩
        · exact hdone
        have hclosed := hphases.closed _ hmem trivial
        rw [hopen] at hclosed
        cases hclosed
      · exact hown _ (.joined j hj)
  · -- `close` does not wait
    exfalso
    obtain ⟨-, rfl⟩ | ⟨k, v, rest, hio, -⟩ | ⟨j, hpop, -⟩ := next_cases hnext
    · rcases hwaits with ⟨q, h⟩ | ⟨timeUp, q, h⟩ <;> cases h
    · cases hio
    · cases hpop

end

/-- What holds along a run. -/
structure Inv (policy : DropPolicy) (transports workers : Nat) (moves : List (QueueMove T))
    (s : System (BoundedQueue T) Condition (QueueCall T) (Place T)) : Prop where
  sound : monitor.Sound (program transports workers) supply s
  phases : Phases workers s.state s.places
  delivered : Delivered policy moves s.state s.places

theorem Inv.step (h : Inv policy transports workers moves s)
    (hstep : monitor.SystemStep (program transports workers) s m s') :
    Inv policy transports workers (moves ++ [m]) s' :=
  ⟨h.sound.step supplied hstep, h.phases.step hstep, h.delivered.step hstep⟩

theorem inv_start (capacity : Nat) (policy : DropPolicy) (transports workers : Nat) :
    Inv policy transports (max workers 1) [] (start (T := T) capacity policy transports workers) := by
  have hplaces : (start (T := T) capacity policy transports workers).places
      = .stopper .idle :: ((range transports).map (fun k => .io k [])
        ++ (range (max workers 1)).map .popping) := by
    simp [start, System.places, Function.comp_def]
  have hcases : ∀ p ∈ (start (T := T) capacity policy transports workers).places,
      p = .stopper .idle ∨ (∃ k, p = .io k []) ∨ ∃ j < max workers 1, p = .popping j := by
    intro p hp
    rw [hplaces] at hp
    rcases mem_cons.mp hp with rfl | hp
    · exact .inl rfl
    rcases mem_append.mp hp with hp | hp
    · obtain ⟨k, -, rfl⟩ := mem_map.mp hp
      exact .inr (.inl ⟨k, rfl⟩)
    · obtain ⟨j, hj, rfl⟩ := mem_map.mp hp
      exact .inr (.inr ⟨j, mem_range.mp hj, rfl⟩)
  refine ⟨Monitor.sound_of_idle ?_, ⟨?_, ?_, ?_, ?_, ?_⟩, history_new capacity policy, ?_, ?_⟩
  · intro a ha
    simp only [start, mem_cons, mem_append, mem_map] at ha
    rcases ha with rfl | ⟨k, -, rfl⟩ | ⟨j, -, rfl⟩ <;> rfl
  · intro phase hphase hclosed
    obtain hp | ⟨k, hp⟩ | ⟨j, -, hp⟩ := hcases _ hphase <;> cases hp
    exact hclosed.elim
  · intro j hj
    obtain hp | ⟨k, hp⟩ | ⟨i, -, hp⟩ := hcases _ hj <;> cases hp
  · intro phase hphase p _ j _ hjoined
    obtain hp | ⟨k, hp⟩ | ⟨i, -, hp⟩ := hcases _ hphase <;> cases hp
    exact hjoined.elim
  · intro p hp j hj
    obtain rfl | ⟨k, rfl⟩ | ⟨i, hi, rfl⟩ := hcases p hp <;> cases hj
    exact hi
  · refine ⟨.popping 0, ?_, rfl⟩
    rw [hplaces]
    refine mem_cons_of_mem _ (mem_append_right _ (mem_map.mpr ⟨0, ?_, rfl⟩))
    exact mem_range.mpr (by omega)
  · intro e he
    cases he
  have hnone : (start (T := T) capacity policy transports workers).places.filterMap Place.message?
      = [] := by
    refine filterMap_eq_nil_iff.mpr ?_
    intro p hp
    obtain rfl | ⟨k, rfl⟩ | ⟨j, -, rfl⟩ := hcases p hp <;> rfl
  rw [hnone]
  exact .refl _

/-- The messages that were dropped from a full queue to make room. -/
def evicted (moves : List (QueueMove T)) : List T :=
  (((events moves).flatMap removed).filter (·.2 = .evicted)).map (·.1)

omit [Inhabited T] in
theorem perm_fates {removed : List (T × Fate)} (h : ∀ v, (v, Fate.cleared) ∉ removed) :
    (removed.map (·.1)).Perm ((removed.filter (·.2 = .popped)).map (·.1)
      ++ (removed.filter (·.2 = .evicted)).map (·.1)) := by
  have hrest : removed.filter (fun r => !decide (r.2 = .popped))
      = removed.filter (·.2 = .evicted) := by
    refine filter_congr fun r hr => ?_
    rcases r with ⟨v, fate⟩
    cases fate with
    | popped | evicted => rfl
    | cleared => exact absurd hr (h v)
  rw [← map_append, ← hrest]
  exact ((filter_append_perm _ _).map _).symm

theorem Inv.drained (h : Inv policy transports workers moves s)
    (hreturned : .stopper .returned ∈ s.places) :
    ((events moves).flatMap accepted).Perm (dispatched moves ++ evicted moves) := by
  have hfinished : ∀ p ∈ s.places, ∀ j, p.worker? = some j → p = .finished j :=
    fun p hp j hj => h.phases.joined _ hreturned p hp j hj trivial
  have hnone : s.places.filterMap Place.message? = [] := by
    refine filterMap_eq_nil_iff.mpr ?_
    intro p hp
    cases p with
    | handling j message => cases hfinished _ hp j rfl
    | _ => rfl
  obtain ⟨p, hp, hworker⟩ := h.phases.someone
  obtain ⟨j, hj⟩ := Option.isSome_iff_exists.mp hworker
  have hempty := (h.phases.drained j (hfinished p hp j hj ▸ hp)).2
  have hcontents : s.state.contents = [] := by rw [← length_eq_zero_iff, length_contents, hempty]
  have hcleared : ∀ v, (v, Fate.cleared) ∉ (events moves).flatMap removed := by
    intro v hv
    obtain ⟨e, he, hv⟩ := mem_flatMap.mp hv
    exact absurd hv (not_cleared (h.delivered.calls e he) v)
  have hpopped := h.delivered.popped
  rw [hnone, append_nil, h.delivered.history.popped] at hpopped
  rw [h.delivered.history.accepted, hcontents, append_nil]
  exact (perm_fates hcleared).trans (hpopped.append_right _)

/-- `stop` can always go on until it has returned, by steps that the threads owe and without a
thread that wakes for no reason. When it has returned, what the queue has accepted is what has been
dispatched and what was evicted, each message as often as it was accepted. -/
theorem stop_returns {capacity transports workers : Nat} {policy : DropPolicy}
    {moves : List (QueueMove T)} {s : System (BoundedQueue T) Condition (QueueCall T) (Place T)}
    (hrun : Trace (Step transports workers) (start capacity policy transports workers) moves s) :
    (Called s.places → ∃ more s', Trace (Step transports workers) s more s' ∧
        (∀ m ∈ more, m.Owed) ∧ .stopper .returned ∈ s'.places) ∧
      (.stopper .returned ∈ s.places →
        ((events moves).flatMap accepted).Perm (dispatched moves ++ evicted moves)) := by
  have hinv : Inv policy transports (max workers 1) moves s :=
    hrun.invariant (Inv policy transports (max workers 1))
      (inv_start capacity policy transports workers) fun _ _ _ _ h hstep => h.step hstep
  refine ⟨?_, hinv.drained⟩
  intro hcalled
  have hlowers : Monitor.Lowers monitor (program (T := T) transports (max workers 1))
    _ _ 2 := lowers
  obtain ⟨more, s', hmore, howed, hstuck⟩ := Monitor.exists_stuck hlowers s
  refine ⟨more, s', hmore, howed, ?_⟩
  have hinv' : Inv policy transports (max workers 1) (moves ++ more) s' :=
    (hrun.append hmore).invariant (Inv policy transports (max workers 1))
      (inv_start capacity policy transports workers) fun _ _ _ _ h hstep => h.step hstep
  have hcalled' : Called s'.places :=
    hmore.invariant (fun _ s => Called s.places) hcalled fun _ _ _ _ h hstep => h.step hstep
  exact returned_of_stuck hstuck hinv'.sound hinv'.phases hinv'.delivered.history.ring.capacity
    hcalled'

/-- One transport, one worker and a message that is in the queue when `stop` is called. -/
theorem stop_returns_message : ∃ moves s, Trace (Step (T := Nat) 1 1) (start 1 .block 1 1) moves s ∧
      .stopper .returned ∈ s.places ∧ 5 ∈ (events moves).flatMap accepted ∧
      ((events moves).flatMap accepted).Perm (dispatched moves ++ evicted moves) := by
  have hdelivers : ∀ a ∈ (start (T := Nat) 1 .block 1 1).actors, ∀ phase,
      a.place = .stopper phase → phase.Delivers 0 := by
    intro a ha phase hphase
    rcases mem_cons.mp ha with rfl | ha
    · cases hphase
      trivial
    rcases mem_cons.mp ha with rfl | ha
    · cases hphase
    rw [mem_singleton.mp ha] at hphase
    cases hphase
  have hreceive : (program (T := Nat) 1 (max 1 1)).input (start 1 .block 1 1).actors
      (.io 0 []) (.io 0 [5]) := Input.receive 0 [5] hdelivers
  have hstop : ∀ as, (program (T := Nat) 1 (max 1 1)).input as (.stopper .idle)
      (.stopper (.stopping 0)) := fun _ => Input.stop
  have hstart : Trace (Step (T := Nat) 1 1) (start 1 .block 1 1) [] (start 1 .block 1 1) := .nil
  have hrun := hstart
    |>.snoc _ _ _ _ (.input _ _ 1 _ _ rfl hreceive)
    |>.snoc _ _ _ _ (.done _ _ _ 1 ⟨.idle, .io 0 [5]⟩ (.push 5) _ _ rfl rfl (.enter _))
    |>.snoc _ _ _ _ (.input _ _ 0 _ _ rfl (hstop _))
  obtain ⟨more, s', hmore, -, hreturned⟩ :=
    (stop_returns hrun).1 ⟨.stopping 0, mem_cons_self, by simp⟩
  refine ⟨_, s', hrun.append hmore, hreturned, ?_, (stop_returns (hrun.append hmore)).2 hreturned⟩
  exact mem_flatMap.mpr ⟨_, mem_cons_self, mem_singleton_self _⟩

end Conduit.Transceiver.Shutdown

import Conduit.Queue.Fifo
import Conduit.Sync.Trace

/-!
# Back-pressure

The end of `Transceiver::handle_data_received` (`transceiver.cpp:808-831`) and of a turn of
`Transceiver::worker_loop` (`transceiver.cpp:1029-1043`). An I/O thread measures the queue behind
its pushes and pauses its transport if the queue is filled; a worker measures it behind each
message and resumes all transports if it is not. Nothing keeps the other threads from running
between the measure and the call. A paused transport brings no data.
-/

namespace Conduit.Transceiver.BackPressure

open Queue Sync BoundedQueue List

variable {T : Type}

/-- The two comparisons of the fill, a quotient of doubles, with the threshold
(`transceiver.cpp:823-825`, `1035-1037`), and what is used of them: the fill of an empty queue is
zero, and without a capacity it is infinite or no number. -/
structure Config where
  capacity : Nat
  policy : DropPolicy
  transports : Nat
  workers : Nat
  pauses : Nat → Bool
  resumes : Nat → Bool
  resumes_zero : 0 < capacity → resumes 0 = true
  resumes_unbounded : capacity = 0 → ∀ size, resumes size = false

/-- An I/O thread: outside of a callback, with what is left to push, or about to pause. -/
inductive IoPhase (T : Type) where
  | outside
  | pushing (pending : List T)
  | pausing

/-- A worker: in `pop`, with a message, behind the dispatch, or in the loop over the transports. -/
inductive WorkerPhase (T : Type) where
  | waiting
  | handling (message : T)
  | checking
  | resuming (next : Nat)

/-- `paused` says of a transport that the last call was `pause`. -/
structure State (T : Type) where
  queue : BoundedQueue T
  io : List (IoPhase T)
  workers : List (WorkerPhase T)
  paused : Nat → Bool

/-- What a step does. A pause carries the state that it finds. -/
inductive Label (T : Type) where
  | receive (transport : Nat)
  | push (transport : Nat)
  | measure (transport : Nat)
  | pause (transport : Nat) (before : State T)
  | skip (transport : Nat)
  | pop (worker : Nat)
  | dispatch (worker : Nat)
  | check (worker : Nat)
  | resume (worker transport : Nat)
  | passed (worker : Nat)

/-- The steps without new data. -/
def Label.Owed : Label T → Prop
  | .receive _ => False
  | _ => True

variable [Inhabited T]

inductive Step (config : Config) : State T → Label T → State T → Prop where
  | receive (s : State T) (i : Nat) (messages : List T) : s.io[i]? = some .outside →
      s.paused i = false →
      Step config s (.receive i) { s with io := s.io.set i (.pushing messages) }
  | push (s : State T) (i : Nat) (message : T) (rest : List T) (accepted : Bool)
      (queue : BoundedQueue T) : s.io[i]? = some (.pushing (message :: rest)) →
      monitor.Completes (.push message) s.queue (.pushed accepted) queue →
      Step config s (.push i) { s with queue, io := s.io.set i (.pushing rest) }
  | measure (s : State T) (i : Nat) : s.io[i]? = some (.pushing []) →
      Step config s (.measure i) { s with
        io := s.io.set i (if config.pauses s.queue.size then .pausing else .outside) }
  | pause (s : State T) (i : Nat) : s.io[i]? = some .pausing → Step config s (.pause i s) { s with
        io := s.io.set i .outside, paused := Function.update s.paused i true }
  -- the peer has gone
  | skip (s : State T) (i : Nat) : s.io[i]? = some .pausing →
      Step config s (.skip i) { s with io := s.io.set i .outside }
  | pop (s : State T) (j : Nat) (message : T) (queue : BoundedQueue T) :
      s.workers[j]? = some .waiting →
      monitor.Completes .pop s.queue (.popped (some message)) queue →
      Step config s (.pop j) { s with queue, workers := s.workers.set j (.handling message) }
  | dispatch (s : State T) (j : Nat) (message : T) : s.workers[j]? = some (.handling message) →
      Step config s (.dispatch j) { s with workers := s.workers.set j .checking }
  | check (s : State T) (j : Nat) : s.workers[j]? = some .checking →
      Step config s (.check j) { s with
        workers := s.workers.set j (if config.resumes s.queue.size then .resuming 0 else .waiting) }
  | resume (s : State T) (j k : Nat) : s.workers[j]? = some (.resuming k) → k < config.transports →
      Step config s (.resume j k) { s with
        workers := s.workers.set j (.resuming (k + 1)), paused := Function.update s.paused k false }
  | passed (s : State T) (j k : Nat) : s.workers[j]? = some (.resuming k) → config.transports ≤ k →
      Step config s (.passed j) { s with workers := s.workers.set j .waiting }

/-- A running transceiver. No worker at all counts as one. -/
def start (config : Config) : State T :=
  { queue := .new config.capacity config.policy
    io := replicate config.transports .outside
    workers := replicate (max config.workers 1) .waiting
    paused := fun _ => false }

namespace State

/-- Nobody moves, and the transport stays paused. -/
structure Stalled (s : State T) (t : Nat) : Prop where
  empty : s.queue.size = 0
  io : ∀ p ∈ s.io, p = .outside
  workers : ∀ w ∈ s.workers, w = .waiting
  paused : s.paused t = true

end State

/-- The worker has still to come by the transport, unless the queue is filled again. -/
def WorkerPhase.Visits (t : Nat) : WorkerPhase T → Prop
  | .waiting => False
  | .handling _ | .checking => True
  | .resuming k => k ≤ t

/-- Somebody will still resume the transport: there is a message in the queue or about to get there,
or a worker has taken one and has not passed the transport yet. -/
def WillResume (config : Config) (s : State T) (t : Nat) : Prop :=
  0 < config.capacity ∧ (0 < s.queue.size ∨ (∃ message rest, .pushing (message :: rest) ∈ s.io) ∨
    ∃ w ∈ s.workers, w.Visits t)

/-- A pause that somebody will take back. -/
def Label.Timely (config : Config) : Label T → Prop
  | .pause t before => WillResume config before t
  | _ => True

variable {config : Config} {s s' : State T} {label : Label T}

/-! ## Invariants -/

variable {t : Nat} {w : WorkerPhase T} {r : IoPhase T} {j i : Nat} {v : WorkerPhase T}

structure Inv (config : Config) (s : State T) : Prop where
  ring : s.queue.Ring
  opened : s.queue.closed = false
  transports : s.io.length = config.transports
  paused : ∀ t, s.paused t = true → t < config.transports
  someone : 0 < s.workers.length
  noPass : config.capacity = 0 → ∀ k, .resuming k ∉ s.workers

theorem inv_start (config : Config) : Inv config (start config : State T) := by
  refine ⟨ring_new _ _, rfl, length_replicate, ?_, ?_, ?_⟩
  · intro t ht
    cases ht
  · rw [start, length_replicate]
    omega
  · intro _ k hk
    cases eq_of_mem_replicate hk

theorem Inv.step (h : Inv config s) (hstep : Step config s label s') : Inv config s' := by
  obtain ⟨hring, hopen, hio, hpaused, hsomeone, hnoPass⟩ := h
  -- a worker that is not in the loop afterwards
  have hworker : ∀ {j : Nat} {w : WorkerPhase T}, (∀ k, w ≠ .resuming k) →
      config.capacity = 0 → ∀ k, .resuming k ∉ s.workers.set j w := by
    intro j w hw hzero k hk
    rcases mem_or_eq_of_mem_set hk with hk | heq
    · exact hnoPass hzero k hk
    · exact hw k heq.symm
  cases hstep with
  | receive i messages | measure i | skip i =>
    exact ⟨hring, hopen, length_set.trans hio, hpaused, hsomeone, hnoPass⟩
  | push i message rest accepted queue hi hpush =>
    obtain ⟨-, -, rfl⟩ := push_completes hpush
    refine ⟨(hring.completes hpush).1.ring, ?_, length_set.trans hio, hpaused, hsomeone, hnoPass⟩
    rw [closed_insert, hopen]
  | pause i hi =>
    refine ⟨hring, hopen, length_set.trans hio, ?_, hsomeone, hnoPass⟩
    intro t ht
    rcases eq_or_ne t i with rfl | hne
    · rw [← hio]
      exact (List.getElem?_eq_some_iff.mp hi).1
    · exact hpaused t (by simpa [Function.update_of_ne hne] using ht)
  | pop j message queue hj hpop =>
    refine ⟨(hring.completes hpop).1.ring, (hring.pop_some hpop).2.trans hopen, hio, hpaused,
      hsomeone.trans_eq length_set.symm, hworker (by simp)⟩
  | dispatch j message hj | passed j k hj hk =>
    exact ⟨hring, hopen, hio, hpaused, hsomeone.trans_eq length_set.symm, hworker (by simp)⟩
  | check j hj =>
    refine ⟨hring, hopen, hio, hpaused, hsomeone.trans_eq length_set.symm, ?_⟩
    intro hzero
    rw [config.resumes_unbounded hzero]
    exact hworker (by simp) hzero
  | resume j k hj hk =>
    refine ⟨hring, hopen, hio, ?_, hsomeone.trans_eq length_set.symm, ?_⟩
    · intro t ht
      rcases eq_or_ne t k with rfl | hne
      · simp at ht
      · exact hpaused t (by simpa [Function.update_of_ne hne] using ht)
    · intro hzero
      exact absurd (mem_of_getElem? hj) (hnoPass hzero k)

/-! ## Timely pauses -/

/-- Every paused transport will be resumed. -/
def Promised (config : Config) (s : State T) : Prop :=
  ∀ t, s.paused t = true → WillResume config s t

omit [Inhabited T] in
theorem WillResume.setWorker (h : WillResume config s t) (hj : s.workers[j]? = some w)
    (hvisits : w.Visits t → v.Visits t) (paused : Nat → Bool) :
    WillResume config { s with workers := s.workers.set j v, paused } t := by
  obtain ⟨hcapacity, hsize | hpending | hworker⟩ := h
  · exact ⟨hcapacity, .inl hsize⟩
  · exact ⟨hcapacity, .inr (.inl hpending)⟩
  · exact ⟨hcapacity, .inr (.inr (exists_mem_set hj hvisits hworker))⟩

omit [Inhabited T] in
theorem WillResume.setIo {p : IoPhase T} (h : WillResume config s t) (hi : s.io[i]? = some p)
    (hp : ∀ message rest, p ≠ .pushing (message :: rest)) (paused : Nat → Bool) :
    WillResume config { s with io := s.io.set i r, paused } t := by
  obtain ⟨hcapacity, hsize | ⟨message, rest, hmem⟩ | hworker⟩ := h
  · exact ⟨hcapacity, .inl hsize⟩
  · refine ⟨hcapacity, .inr (.inl ⟨message, rest, ?_⟩)⟩
    obtain ⟨u, hu, rfl⟩ := exists_mem_set (P := (· = .pushing (message :: rest))) hi
      (fun heq => absurd heq (hp message rest)) ⟨_, hmem, rfl⟩
    exact hu
  · exact ⟨hcapacity, .inr (.inr hworker)⟩

theorem Promised.step (h : Promised config s) (hinv : Inv config s)
    (hstep : Step config s label s') (htimely : label.Timely config) : Promised config s' := by
  intro t ht
  cases hstep with
  | receive i messages hi _ | measure i hi | skip i hi => exact (h t ht).setIo hi (by simp) s.paused
  | push i message rest accepted queue hi hpush =>
    -- the queue is not empty after a push
    obtain ⟨-, -, rfl⟩ := push_completes hpush
    exact ⟨(h t ht).1, .inl (hinv.ring.size_insert_pos hinv.opened _ message)⟩
  | pause i hi =>
    rcases eq_or_ne t i with rfl | hne
    · exact WillResume.setIo htimely hi (by simp) _
    refine WillResume.setIo (h t ?_) hi (by simp) _
    simpa [Function.update_of_ne hne] using ht
  | pop j message queue hj hpop =>
    have hlength : j < s.workers.length := (List.getElem?_eq_some_iff.mp hj).1
    exact ⟨(h t ht).1, .inr (.inr ⟨.handling message, mem_set hlength _, trivial⟩)⟩
  | dispatch j message hj =>
    exact (h t ht).setWorker (v := .checking) hj (fun _ => trivial) s.paused
  | check j hj =>
    have hcapacity := (h t ht).1
    by_cases hlow : config.resumes s.queue.size = true
    · rw [if_pos hlow]
      exact (h t ht).setWorker (v := .resuming 0) hj (fun _ => Nat.zero_le t) s.paused
    -- the worker has found a message
    refine ⟨hcapacity, .inl (Nat.pos_of_ne_zero fun hzero => hlow ?_)⟩
    rw [hzero]
    exact config.resumes_zero hcapacity
  | resume j k hj hk =>
    rcases eq_or_ne t k with rfl | hne
    · simp at ht
    have hbefore : s.paused t = true := by simpa [Function.update_of_ne hne] using ht
    refine (h t hbefore).setWorker (v := .resuming (k + 1)) hj (fun hle => ?_) _
    exact Nat.lt_of_le_of_ne hle hne.symm
  | passed j k hj hk =>
    have hlt := hinv.paused t ht
    exact (h t ht).setWorker hj (fun hle : k ≤ t => absurd (hk.trans hle) hlt.not_ge) s.paused

omit [Inhabited T] in
theorem Promised.not_stalled (h : Promised config s) (t : Nat) : ¬s.Stalled t := by
  intro hstalled
  obtain ⟨-, hsize | ⟨message, rest, hmem⟩ | ⟨w, hw, hvisits⟩⟩ := h t hstalled.paused
  · exact hsize.ne' hstalled.empty
  · cases hstalled.io _ hmem
  rw [hstalled.workers w hw] at hvisits
  exact hvisits

/-! ## A pause that nobody takes back -/

/-- The transport is paused, and nobody will resume it. -/
structure Doomed (config : Config) (t : Nat) (s : State T) : Prop where
  inv : Inv config s
  paused : s.paused t = true
  unseen : ¬WillResume config s t

omit [Inhabited T] in
theorem WillResume.of_setWorker (hj : s.workers[j]? = some w) (hvisits : v.Visits t → w.Visits t)
    (paused : Nat → Bool)
    (h : WillResume config { s with workers := s.workers.set j v, paused } t) :
    WillResume config s t := by
  obtain ⟨hcapacity, hsize | hpending | ⟨u, hu, hvisitsU⟩⟩ := h
  · exact ⟨hcapacity, .inl hsize⟩
  · exact ⟨hcapacity, .inr (.inl hpending)⟩
  rcases mem_or_eq_of_mem_set hu with hu | rfl
  · exact ⟨hcapacity, .inr (.inr ⟨u, hu, hvisitsU⟩)⟩
  · exact ⟨hcapacity, .inr (.inr ⟨w, mem_of_getElem? hj, hvisits hvisitsU⟩)⟩

omit [Inhabited T] in
theorem WillResume.of_setIo (hp : ∀ message rest, r ≠ .pushing (message :: rest))
    (paused : Nat → Bool) (h : WillResume config { s with io := s.io.set i r, paused } t) :
    WillResume config s t := by
  obtain ⟨hcapacity, hsize | ⟨message, rest, hmem⟩ | hworker⟩ := h
  · exact ⟨hcapacity, .inl hsize⟩
  · rcases mem_or_eq_of_mem_set hmem with hmem | heq
    · exact ⟨hcapacity, .inr (.inl ⟨message, rest, hmem⟩)⟩
    · exact absurd heq.symm (hp message rest)
  · exact ⟨hcapacity, .inr (.inr hworker)⟩

theorem WillResume.of_step (hinv : Inv config s) (hstep : Step config s label s')
    (howed : label.Owed) (h : WillResume config s' t) : WillResume config s t := by
  have hcapacity := h.1
  cases hstep with
  | receive => exact howed.elim
  | push i message rest accepted queue hi hpush =>
    exact ⟨hcapacity, .inr (.inl ⟨message, rest, mem_of_getElem? hi⟩)⟩
  | measure i hi =>
    refine WillResume.of_setIo ?_ s.paused h
    intro message rest
    split <;> simp
  | pause i hi => exact WillResume.of_setIo (by simp) _ h
  | skip i hi => exact WillResume.of_setIo (by simp) s.paused h
  | pop j message queue hj hpop =>
    have hsize := congrArg length (hinv.ring.pop_some hpop).1
    rw [length_contents] at hsize
    exact ⟨hcapacity, .inl (hsize ▸ Nat.succ_pos _)⟩
  | dispatch j message hj => exact ⟨hcapacity, .inr (.inr ⟨_, mem_of_getElem? hj, trivial⟩)⟩
  | check j hj => exact ⟨hcapacity, .inr (.inr ⟨_, mem_of_getElem? hj, trivial⟩)⟩
  | resume j k hj hk =>
    exact WillResume.of_setWorker (v := .resuming (k + 1)) hj Nat.le_of_succ_le _ h
  | passed j k hj hk => exact WillResume.of_setWorker (v := .waiting) hj False.elim s.paused h

theorem Doomed.step (h : Doomed config t s) (hstep : Step config s label s') (howed : label.Owed) :
    Doomed config t s' := by
  refine ⟨h.inv.step hstep, ?_, fun hwill => h.unseen (hwill.of_step h.inv hstep howed)⟩
  have hpaused := h.paused
  cases hstep with
  | pause i hi =>
    rcases eq_or_ne t i with rfl | hne
    · exact Function.update_self ..
    · exact (Function.update_of_ne hne ..).trans hpaused
  | resume j k hj hk =>
    -- only a worker that has not come by yet could resume it
    have hmem := mem_of_getElem? hj
    have hne : t ≠ k := by
      rintro rfl
      rcases Nat.eq_zero_or_pos config.capacity with hzero | hpos
      · exact h.inv.noPass hzero t hmem
      · exact h.unseen ⟨hpos, .inr (.inr ⟨_, hmem, Nat.le_refl t⟩)⟩
    exact (Function.update_of_ne hne ..).trans hpaused
  | _ => exact hpaused

/-! ## Everything comes to rest -/

def IoPhase.work (n : Nat) : IoPhase T → Nat
  | .outside => 0
  | .pushing pending => (n + 7) * pending.length + 2
  | .pausing => 1

def WorkerPhase.work (n : Nat) : WorkerPhase T → Nat
  | .waiting => 0
  | .handling _ => n + 4
  | .checking => n + 3
  | .resuming k => n - k + 1

/-- The steps that are left, at most. -/
def State.work (n : Nat) (s : State T) : Nat :=
  (n + 6) * s.queue.size + (s.io.map (IoPhase.work n)).sum +
    (s.workers.map (WorkerPhase.work n)).sum

omit [Inhabited T] in
theorem State.work_setIo {n : Nat} {p : IoPhase T} (hi : s.io[i]? = some p)
    (hlt : r.work n < p.work n) (paused : Nat → Bool) :
    State.work n { s with io := s.io.set i r, paused } < s.work n := by
  have hsum := sum_map_set (IoPhase.work n) hi r
  simp only [State.work]
  omega

omit [Inhabited T] in
theorem State.work_setWorker {n : Nat} (hj : s.workers[j]? = some w) (hlt : v.work n < w.work n)
    (paused : Nat → Bool) :
    State.work n { s with workers := s.workers.set j v, paused } < s.work n := by
  have hsum := sum_map_set (WorkerPhase.work n) hj v
  simp only [State.work]
  omega

theorem Step.work_lt (hinv : Inv config s) (hstep : Step config s label s') (howed : label.Owed) :
    s'.work config.transports < s.work config.transports := by
  cases hstep with
  | receive => exact howed.elim
  | push i message rest accepted queue hi hpush =>
    obtain ⟨-, -, rfl⟩ := push_completes hpush
    have hsize := size_insert_le (s.queue.dropPolicy == .dropNewest) message s.queue
    have hscaled := Nat.mul_le_mul_left (config.transports + 6) hsize
    have hsum := sum_map_set (IoPhase.work config.transports) hi (.pushing rest)
    simp only [IoPhase.work, length_cons, Nat.mul_succ] at hsum hscaled
    simp only [State.work]
    omega
  | measure i hi =>
    refine State.work_setIo hi ?_ s.paused
    split <;> simp [IoPhase.work]
  | pause i hi => exact State.work_setIo (r := .outside) hi Nat.zero_lt_one _
  | skip i hi => exact State.work_setIo (r := .outside) hi Nat.zero_lt_one s.paused
  | pop j message queue hj hpop =>
    have hsize := congrArg length (hinv.ring.pop_some hpop).1
    simp only [length_contents, length_cons] at hsize
    have hsum := sum_map_set (WorkerPhase.work config.transports) hj (.handling message)
    simp only [WorkerPhase.work] at hsum
    simp only [State.work, hsize, Nat.mul_succ]
    omega
  | dispatch j message hj =>
    exact State.work_setWorker (v := .checking) hj (Nat.lt_succ_self _) s.paused
  | check j hj =>
    refine State.work_setWorker hj ?_ s.paused
    split <;> simp only [WorkerPhase.work] <;> omega
  | resume j k hj hk =>
    refine State.work_setWorker hj ?_ _
    simp only [WorkerPhase.work]
    omega
  | passed j k hj hk => exact State.work_setWorker (v := .waiting) hj (Nat.succ_pos _) s.paused

theorem worker_waits (hlast : ∀ label s', Step config s label s' → ¬label.Owed)
    (hw : w ∈ s.workers) : w = .waiting := by
  obtain ⟨j, hj⟩ := mem_iff_getElem?.mp hw
  cases w with
  | waiting => rfl
  | handling message => exact absurd trivial (hlast _ _ (.dispatch s j message hj))
  | checking => exact absurd trivial (hlast _ _ (.check s j hj))
  | resuming k =>
    rcases Nat.lt_or_ge k config.transports with hk | hk
    · exact absurd trivial (hlast _ _ (.resume s j k hj hk))
    · exact absurd trivial (hlast _ _ (.passed s j k hj hk))

theorem Doomed.stalled (h : Doomed config t s)
    (hlast : ∀ label s', Step config s label s' → ¬label.Owed) : s.Stalled t := by
  have hempty : s.queue.size = 0 := by
    by_contra hne
    obtain ⟨message, queue, hpop⟩ := completes_pop (Nat.pos_of_ne_zero hne)
    have hwaits := worker_waits hlast (getElem_mem h.inv.someone)
    have hfirst : s.workers[0]? = some .waiting := by rw [getElem?_eq_getElem h.inv.someone, hwaits]
    exact absurd trivial (hlast _ _ (.pop s 0 message queue hfirst hpop))
  refine ⟨hempty, ?_, fun w hw => worker_waits hlast hw, h.paused⟩
  intro p hp
  obtain ⟨i, hi⟩ := mem_iff_getElem?.mp hp
  cases p with
  | outside => rfl
  | pausing => exact absurd trivial (hlast _ _ (.skip s i hi))
  | pushing pending =>
    cases pending with
    | nil => exact absurd trivial (hlast _ _ (.measure s i hi))
    | cons message rest =>
      obtain ⟨accepted, queue, hpush⟩ := completes_push (hempty ▸ h.inv.ring.capacity) message
      exact absurd trivial (hlast _ _ (.push s i message rest accepted queue hi hpush))

theorem Doomed.exists_stalled (h : Doomed config t s) :
    ∃ more s', Trace (Step config) s more s' ∧ s'.Stalled t := by
  obtain ⟨more, s', htrace, -, hdoomed, hlast⟩ :=
    Trace.exists_last Label.Owed (Doomed config t) (State.work config.transports)
      (fun _ _ _ hs hstep howed => ⟨hs.step hstep howed, Step.work_lt hs.inv hstep howed⟩) s h
  exact ⟨more, s', htrace, hdoomed.stalled hlast⟩

/-! ## The runs -/

section

variable {labels : List (Label T)} (h : Trace (Step config) (start config) labels s)

include h

theorem inv_of_trace : Inv config s :=
  h.invariant (fun _ s => Inv config s) (inv_start config) fun _ _ _ _ hs hstep => hs.step hstep

theorem promised_of_trace (htimely : ∀ l ∈ labels, l.Timely config) : Promised config s := by
  refine h.invariant (fun labels s => Inv config s ∧ ((∀ l ∈ labels, l.Timely config) →
    Promised config s)) ⟨inv_start config, fun _ t ht => by cases ht⟩ ?_ |>.2 htimely
  intro labels label s s' ⟨hinv, hpromised⟩ hstep
  refine ⟨hinv.step hstep, fun hall => ?_⟩
  have hbefore := hpromised fun l hl => hall l (mem_append_left _ hl)
  exact hbefore.step hinv hstep (hall label (by simp))

end

/-- No transport is left paused if every pause comes while somebody still has to measure the queue
behind it. A pause that comes later can leave its transport paused for good. -/
theorem stalls_iff_late (config : Config) :
    (∀ labels (s : State T), Trace (Step config) (start config) labels s →
      (∀ l ∈ labels, l.Timely config) → ∀ t, ¬s.Stalled t)
    ∧ ∀ labels (s s' : State T) t, Trace (Step config) (start config) labels s →
      Step config s (.pause t s) s' → ¬WillResume config s t →
      ∃ more s'', Trace (Step config) s' more s'' ∧ s''.Stalled t := by
  constructor
  · intro labels s htrace htimely t
    exact (promised_of_trace htrace htimely).not_stalled t
  intro labels s s' t htrace hpause hlate
  have hinv := inv_of_trace htrace
  have hpaused : s'.paused t = true := by
    cases hpause
    exact Function.update_self ..
  have hdoomed : Doomed config t s' :=
    ⟨hinv.step hpause, hpaused, fun hwill => hlate (hwill.of_step hinv hpause trivial)⟩
  exact hdoomed.exists_stalled

/-! One place in the queue, one transport, one worker, and the threshold 1. -/

def tight : Config :=
  { capacity := 1, policy := .block, transports := 1, workers := 1
    pauses := fun size => decide (1 ≤ size), resumes := fun size => decide (size = 0)
    resumes_zero := fun _ => rfl, resumes_unbounded := fun h => absurd h (by decide) }

def filled : BoundedQueue Nat := ((new 1 .block).insert false 7).2

def drained : BoundedQueue Nat := filled.take.2

theorem trace_measured : Trace (Step tight) (start tight) [.receive 0, .push 0, .measure 0]
    ⟨filled, [.pausing], [.waiting], fun _ => false⟩ := by
  have hpauses : tight.pauses filled.size = true := rfl
  have hmeasure : Step tight ⟨filled, [.pushing []], [.waiting], fun _ => false⟩ (.measure 0)
      ⟨filled, [.pausing], [.waiting], fun _ => false⟩ := by
    have h : Step tight _ (.measure 0) _ :=
      .measure ⟨filled, [.pushing []], [.waiting], fun _ => false⟩ 0 rfl
    rwa [hpauses] at h
  have hstart : Trace (Step (T := Nat) tight) (start tight) [] (start tight) := .nil
  exact hstart
    |>.snoc _ _ _ _ (.receive _ 0 [7] rfl rfl)
    |>.snoc _ _ _ _ (.push _ 0 7 [] true filled rfl
      ⟨.idle, [.one .notEmpty], .enter (QueueCall.push 7)⟩)
    |>.snoc _ _ _ _ hmeasure

/-- Before the I/O thread goes on, the worker takes the message and resumes everything. -/
theorem trace_drained : Trace (Step tight) ⟨filled, [.pausing], [.waiting], fun _ => false⟩
    [.pop 0, .dispatch 0, .check 0, .resume 0 0, .passed 0]
    ⟨drained, [.pausing], [.waiting], Function.update (fun _ => false) 0 false⟩ := by
  have hresumes : tight.resumes drained.size = true := rfl
  have hcheck : Step tight ⟨drained, [.pausing], [.checking], fun _ => false⟩ (.check 0)
      ⟨drained, [.pausing], [.resuming 0], fun _ => false⟩ := by
    have h : Step tight _ (.check 0) _ :=
      .check ⟨drained, [.pausing], [.checking], fun _ => false⟩ 0 rfl
    rwa [hresumes] at h
  have hstart : Trace (Step tight) ⟨filled, [.pausing], [.waiting], fun _ => false⟩ [] _ := .nil
  exact hstart
    |>.snoc _ _ _ _ (.pop _ 0 7 drained rfl ⟨.idle, [.one .notFull], .enter QueueCall.pop⟩)
    |>.snoc _ _ _ _ (.dispatch _ 0 7 rfl)
    |>.snoc _ _ _ _ hcheck
    |>.snoc _ _ _ _ (.resume _ 0 0 rfl Nat.zero_lt_one)
    |>.snoc _ _ _ _ (.passed _ 0 1 rfl (Nat.le_refl 1))

theorem not_willResume_drained : ¬WillResume tight
      ⟨drained, [.pausing], [.waiting], Function.update (fun _ => false) 0 false⟩ 0 := by
  rintro ⟨-, hsize | ⟨message, rest, hmem⟩ | ⟨w, hw, hvisits⟩⟩
  · exact absurd hsize (by decide)
  · simp at hmem
  rw [mem_singleton.mp hw] at hvisits
  exact hvisits

theorem stalls_iff_late_tight : (Trace (Step tight) (start tight) [.receive 0, .push 0, .measure 0,
          .pause 0 ⟨filled, [.pausing], [.waiting], fun _ => false⟩]
        ⟨filled, [.outside], [.waiting], Function.update (fun _ => false) 0 true⟩
      ∧ ¬State.Stalled ⟨filled, [.outside], [.waiting], Function.update (fun _ => false) 0 true⟩ 0)
    ∧ ∃ labels, ∃ s : State Nat, Trace (Step tight) (start tight) labels s ∧ s.Stalled 0 := by
  have hpause : Step tight ⟨filled, [.pausing], [.waiting], fun _ => false⟩ (.pause 0 _)
      ⟨filled, [.outside], [.waiting], Function.update (fun _ => false) 0 true⟩ := .pause _ 0 rfl
  have hearly := Trace.snoc _ _ _ _ trace_measured hpause
  have hlate := trace_measured.append trace_drained
  refine ⟨⟨hearly, (stalls_iff_late tight).1 _ _ hearly ?_ 0⟩, ?_⟩
  · have htimely : WillResume tight ⟨filled, [.pausing], [.waiting], fun _ => false⟩ 0 :=
      ⟨Nat.zero_lt_one, .inl (by decide)⟩
    simpa [Label.Timely] using htimely
  · obtain ⟨more, s, htrace, hstalled⟩ :=
      (stalls_iff_late tight).2 _ _ _ 0 hlate (.pause _ 0 rfl) not_willResume_drained
    exact ⟨_, s, (Trace.snoc _ _ _ _ hlate (.pause _ 0 rfl)).append htrace, hstalled⟩

/-- The worker has resumed the transport before the I/O thread pauses it. -/
theorem resumed_before_pause :
    ∃ labels, ∃ s : State Nat, Trace (Step tight) (start tight) labels s ∧ s.Stalled 0 := by
  refine ⟨_, _, .snoc _ _ _ _ (trace_measured.append trace_drained) (.pause _ 0 rfl), ?_⟩
  exact ⟨rfl, by simp, by simp, rfl⟩

end Conduit.Transceiver.BackPressure

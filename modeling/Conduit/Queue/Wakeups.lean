import Conduit.Queue.BoundedQueue
import Conduit.Sync.WakeUp

/-!
# No lost wake-ups in the queue

The supply of `not_empty_` is the number of elements, that of `not_full_` the number of free slots,
and both are endless once the queue is closed. A push notifies for the one element it adds, a pop
for the one slot it frees; a batch, `clear` and `close` notify everyone.
-/

namespace Conduit.Queue.BoundedQueue

open Sync

variable {T : Type} {q q' : BoundedQueue T} {k : Condition}

/-- How many threads that wait for the condition can go on. -/
def supply (k : Condition) (q : BoundedQueue T) : ℕ∞ :=
  if q.closed then ⊤
  else
    match k with
    | .notEmpty => (q.size : ℕ)
    | .notFull => (q.capacity - q.size : ℕ)

theorem supply_closed (k : Condition) (h : q.closed = true) : supply k q = ⊤ := by simp [supply, h]

theorem supply_notEmpty (h : q.closed = false) : supply .notEmpty q = (q.size : ℕ) := by
  simp [supply, h]

theorem supply_notFull (h : q.closed = false) : supply .notFull q = (q.capacity - q.size : ℕ) := by
  simp only [supply, h, Bool.false_eq_true, if_false]

theorem supply_of_hasRoom (h : q.hasRoom = false) : supply .notFull q = 0 := by
  simp only [hasRoom, Bool.or_eq_false_iff, decide_eq_false_iff_not] at h
  rw [supply_notFull h.2, Nat.sub_eq_zero_of_le (by omega), Nat.cast_zero]

theorem supply_of_hasItem (h : q.hasItem = false) : supply .notEmpty q = 0 := by
  simp only [hasItem, Bool.or_eq_false_iff, decide_eq_false_iff_not] at h
  rw [supply_notEmpty h.2, Nat.eq_zero_of_not_pos h.1, Nat.cast_zero]

theorem closed_of_supply (h : supply k q = 0) : q.closed = false := by
  by_contra hclosed
  rw [supply_closed k (by simpa using hclosed)] at h
  cases h

theorem empty_of_supply (h : supply .notEmpty q = 0) : q.size = 0 ∧ q.closed = false := by
  have hopen := closed_of_supply h
  rw [supply_notEmpty hopen] at h
  exact ⟨by exact_mod_cast h, hopen⟩

theorem full_of_supply (h : supply .notFull q = 0) : q.capacity ≤ q.size ∧ q.closed = false := by
  have hopen := closed_of_supply h
  rw [supply_notFull hopen] at h
  exact ⟨Nat.sub_eq_zero_iff_le.mp (by exact_mod_cast h), hopen⟩

/-- The supply of free slots has been used: one slot less, or none is left. -/
def Uses (k : Condition) (q q' : BoundedQueue T) : Prop :=
  supply k q' = 0 ∨ supply k q' + 1 ≤ supply k q

theorem uses_of_closed (k : Condition) (h : q.closed = true) (h' : q'.closed = true) :
    Uses k q q' := by
  right
  rw [supply_closed k h, supply_closed k h']
  exact le_top

variable [Inhabited T]

theorem supply_insert (refuses : Bool) (v : T) (q : BoundedQueue T) :
    Uses .notFull q (q.insert refuses v).2 ∧ supply .notEmpty (q.insert refuses v).2
        ≤ supply .notEmpty q + (if (q.insert refuses v).1 then 1 else 0 : ℕ) := by
  unfold BoundedQueue.insert
  by_cases hclosed : q.closed = true
  · rw [if_pos hclosed]
    exact ⟨uses_of_closed _ hclosed hclosed, le_self_add⟩
  rw [if_neg hclosed]
  have hopen : q.closed = false := Bool.eq_false_iff.mpr hclosed
  by_cases hfull : q.size ≥ q.capacity
  · rw [if_pos hfull]
    by_cases hpolicy : q.dropPolicy = .dropOldest
    · rw [if_pos hpolicy]
      refine ⟨.inl ?_, ?_⟩
      · rw [supply_notFull (by exact hopen)]
        exact congrArg _ (Nat.sub_eq_zero_of_le (show q.capacity ≤ q.size - 1 + 1 by omega))
      · rw [supply_notEmpty (by exact hopen), supply_notEmpty hopen]
        exact_mod_cast (show q.size - 1 + 1 ≤ q.size + 1 by omega)
    rw [if_neg hpolicy]
    by_cases hrefuses : refuses = true
    · rw [if_pos hrefuses]
      refine ⟨.inl ?_, le_self_add⟩
      rw [supply_notFull (by exact hopen)]
      exact congrArg _ (Nat.sub_eq_zero_of_le hfull)
    rw [if_neg hrefuses]
    refine ⟨.inl ?_, ?_⟩
    · rw [supply_notFull (by exact hopen)]
      exact congrArg _ (Nat.sub_eq_zero_of_le (show q.capacity ≤ q.size + 1 by omega))
    · rw [supply_notEmpty (by exact hopen), supply_notEmpty hopen]
      exact_mod_cast le_rfl
  · rw [if_neg hfull]
    refine ⟨.inr ?_, ?_⟩
    · rw [supply_notFull (by exact hopen), supply_notFull hopen]
      exact_mod_cast (show q.capacity - (q.size + 1) + 1 ≤ q.capacity - q.size by omega)
    · rw [supply_notEmpty (by exact hopen), supply_notEmpty hopen]
      exact_mod_cast le_rfl

theorem supply_take (q : BoundedQueue T) : Uses .notEmpty q q.take.2 ∧ supply .notFull q.take.2
        ≤ supply .notFull q + (if q.take.1.isSome then 1 else 0 : ℕ) := by
  unfold BoundedQueue.take
  by_cases hclosed : q.closed = true
  · by_cases hempty : q.size = 0
    · rw [if_pos hempty]
      exact ⟨uses_of_closed _ hclosed hclosed, le_self_add⟩
    rw [if_neg hempty]
    refine ⟨uses_of_closed _ hclosed hclosed, ?_⟩
    rw [supply_closed _ hclosed, top_add]
    exact le_top
  have hopen : q.closed = false := Bool.eq_false_iff.mpr hclosed
  by_cases hempty : q.size = 0
  · rw [if_pos hempty]
    refine ⟨.inl ?_, le_self_add⟩
    rw [supply_notEmpty hopen, hempty, Nat.cast_zero]
  rw [if_neg hempty]
  refine ⟨.inr ?_, ?_⟩
  · rw [supply_notEmpty (by exact hopen), supply_notEmpty hopen]
    exact_mod_cast (show q.size - 1 + 1 ≤ q.size by omega)
  · rw [supply_notFull (by exact hopen), supply_notFull hopen]
    exact_mod_cast (show q.capacity - (q.size - 1) ≤ q.capacity - q.size + 1 by omega)

theorem supply_takeBatch (maxCount : Nat) (q : BoundedQueue T) :
    supply .notEmpty (q.takeBatch maxCount).2 ≤ supply .notEmpty q ∧ (min maxCount q.size = 0 →
        supply .notFull (q.takeBatch maxCount).2 ≤ supply .notFull q) := by
  obtain ⟨hsize, hclosed, hcapacity⟩ := takeLoop_same (min maxCount q.size) q
  have hsize' : (q.takeBatch maxCount).2.size = q.size - min maxCount q.size :=
    congrArg (· - min maxCount q.size) hsize
  have hclosed' : (q.takeBatch maxCount).2.closed = q.closed := hclosed
  have hcapacity' : (q.takeBatch maxCount).2.capacity = q.capacity := hcapacity
  by_cases hc : q.closed = true
  · rw [supply_closed _ (hclosed'.trans hc), supply_closed _ (hclosed'.trans hc),
      supply_closed _ hc, supply_closed _ hc]
    exact ⟨le_rfl, fun _ => le_rfl⟩
  have hopen : q.closed = false := Bool.eq_false_iff.mpr hc
  rw [supply_notEmpty (hclosed'.trans hopen), supply_notFull (hclosed'.trans hopen),
    supply_notEmpty hopen, supply_notFull hopen, hsize', hcapacity']
  refine ⟨Nat.cast_le.mpr (Nat.sub_le _ _), ?_⟩
  intro hzero
  rw [hzero, Nat.sub_zero]

theorem supply_clear (q : BoundedQueue T) : supply .notEmpty q.clear ≤ supply .notEmpty q := by
  obtain ⟨hsize, hclosed⟩ := clearLoop_same q.size q
  have hclosed' : q.clear.closed = q.closed := hclosed
  have hsize' : q.clear.size = 0 := hsize.trans (Nat.sub_self _)
  by_cases hc : q.closed = true
  · rw [supply_closed _ hc]
    exact le_top
  · rw [supply_notEmpty (hclosed'.trans (Bool.eq_false_iff.mpr hc)), hsize']
    exact zero_le

/-! ## The monitor -/

/-- What a section that was woken for the condition `k` owes to the others that wait: to notify
all of them, or not to leave more than there was. -/
def Pays (k : Condition) (q q' : BoundedQueue T) (signals : List (Signal Condition)) : Prop :=
  ∀ k', .all k' ∈ signals ∨ supply k' q' = 0 ∨ supply k' q' + (if k = k' then 1 else 0 : ℕ)
      ≤ supply k' q + (signals.count (.one k') : ℕ)

theorem pays_insert (refuses : Bool) (v : T) (q : BoundedQueue T) :
    Pays .notFull q (q.insert refuses v).2
      (if (q.insert refuses v).1 then [.one .notEmpty] else []) := by
  obtain ⟨huses, hadds⟩ := supply_insert refuses v q
  intro k'
  right
  cases k' with
  | notEmpty =>
    right
    by_cases hok : (q.insert refuses v).1 = true
    · simpa [hok] using hadds
    · simpa [hok] using hadds
  | notFull =>
    rcases huses with hzero | hless
    · exact .inl hzero
    right
    refine le_trans ?_ le_self_add
    simpa using hless

theorem pays_take (q : BoundedQueue T) :
    Pays .notEmpty q q.take.2 (if q.take.1.isSome then [.one .notFull] else []) := by
  obtain ⟨huses, hfrees⟩ := supply_take q
  intro k'
  right
  cases k' with
  | notFull =>
    right
    by_cases hok : q.take.1.isSome = true
    · simpa [hok] using hfrees
    · simpa [hok] using hfrees
  | notEmpty =>
    rcases huses with hzero | hless
    · exact .inl hzero
    right
    refine le_trans ?_ le_self_add
    simpa using hless

omit [Inhabited T] in
theorem Pays.enter {signals : List (Signal Condition)} (h : Pays k q q' signals) (k' : Condition) :
    .all k' ∈ signals ∨ supply k' q' ≤ supply k' q + (signals.count (.one k') : ℕ) := by
  rcases h k' with hall | hzero | hle
  · exact .inl hall
  · right
    rw [hzero]
    exact zero_le
  · exact .inr (le_self_add.trans hle)

omit [Inhabited T] in
theorem pays_nothing (h : supply k q = 0) : Pays k q q [] := by
  intro k'
  right
  by_cases hk : k = k'
  · exact .inl (hk ▸ h)
  right
  simp [hk]

/-- How a section may end that waits on `k`: with what it owes, or asleep when nothing is there. -/
def Fair (k : Condition) (q : BoundedQueue T) :
    Outcome (BoundedQueue T) Condition (QueueResult T) → Prop
  | .wait => supply k q = 0
  | .done q' _ signals => Pays k q q' signals

theorem fair_push (v : T) (q : BoundedQueue T) : Fair .notFull q (push v q) := by
  unfold push
  split
  next hwait => exact supply_of_hasRoom hwait.2
  next => exact pays_insert _ v q

theorem fair_pushFor (v : T) (q : BoundedQueue T) : Fair .notFull q (pushFor v q) := by
  unfold pushFor
  split
  next hwait => exact supply_of_hasRoom hwait.2.2
  next => exact pays_insert _ v q

theorem fair_pushForWoken (v : T) (timeUp : Bool) (q : BoundedQueue T) :
    Fair .notFull q (pushForWoken v timeUp q) := by
  unfold pushForWoken
  split
  next => exact pays_insert _ v q
  next hroom =>
    have hnone := supply_of_hasRoom (Bool.eq_false_iff.mpr hroom)
    split
    · exact pays_nothing hnone
    · exact hnone

theorem fair_pop (q : BoundedQueue T) : Fair .notEmpty q (pop q) := by
  unfold pop
  split
  next => exact pays_take q
  next hitem => exact supply_of_hasItem (Bool.eq_false_iff.mpr hitem)

theorem fair_popForWoken (timeUp : Bool) (q : BoundedQueue T) :
    Fair .notEmpty q (popForWoken timeUp q) := by
  unfold popForWoken
  split
  next => exact pays_take q
  next hitem =>
    have hnone := supply_of_hasItem (Bool.eq_false_iff.mpr hitem)
    split
    · exact pays_nothing hnone
    · exact hnone

theorem fair_resume {c : QueueCall T} (hc : monitor.Waits c) (timeUp : Bool)
    (q : BoundedQueue T) : Fair (monitor.cond c) q (monitor.resume c timeUp q) := by
  cases c with
  | push v => exact fair_push v q
  | pushFor v => exact fair_pushForWoken v timeUp q
  | pop => exact fair_pop q
  | popFor => exact fair_popForWoken timeUp q
  | _ => rcases hc with ⟨s, h⟩ | ⟨t, s, h⟩ <;> cases h

theorem supplied : (monitor (T := T)).Supplied supply where
  enter_wait := by
    intro c q h
    cases c with
    | push v => exact (congrArg (Fair .notFull q) h).mp (fair_push v q)
    | pushFor v => exact (congrArg (Fair .notFull q) h).mp (fair_pushFor v q)
    | pop | popFor => exact (congrArg (Fair .notEmpty q) h).mp (fair_pop q)
    | _ => cases h
  resume_wait := by
    intro c timeUp q h
    exact (congrArg (Fair _ q) h).mp (fair_resume (.inr ⟨timeUp, q, h⟩) timeUp q)
  enter_done := by
    intro c q q' r signals h
    have hfair : ∀ {k : Condition}, Fair k q (monitor.enter c q) → Pays k q q' signals := by
      intro k hk
      rwa [h] at hk
    cases c with
    | tryPush v => exact (hfair (pays_insert true v q)).enter
    | push v => exact (hfair (fair_push v q)).enter
    | pushFor v => exact (hfair (fair_pushFor v q)).enter
    | tryPop => exact (hfair (pays_take q)).enter
    | pop | popFor => exact (hfair (fair_pop q)).enter
    | popBatch maxCount =>
      cases h
      obtain ⟨hitems, hslots⟩ := supply_takeBatch maxCount q
      intro k
      by_cases hcount : 0 < min maxCount q.size
      · cases k with
        | notEmpty => exact .inr (hitems.trans le_self_add)
        | notFull => exact .inl (by simp [hcount])
      · cases k with
        | notEmpty => exact .inr (hitems.trans le_self_add)
        | notFull => exact .inr ((hslots (by omega)).trans le_self_add)
    | close =>
      cases h
      intro k
      left
      cases k <;> simp
    | clear =>
      cases h
      intro k
      cases k with
      | notEmpty => exact .inr ((supply_clear q).trans le_self_add)
      | notFull => exact .inl (List.mem_singleton.mpr rfl)
  resume_done := by
    intro c timeUp q q' r signals hc h
    exact (congrArg (Fair _ q) h).mp (fair_resume hc timeUp q)

/-- No run of any number of threads ends up with a thread asleep that could go on, once all
notifications are sent and all woken threads have run. -/
theorem run_no_lost_wakeup {capacity threads : Nat} {policy : DropPolicy}
    {events : List (Event (BoundedQueue T) (QueueCall T) (QueueResult T))}
    {cfg : Config (BoundedQueue T) Condition (QueueCall T)}
    (h : monitor.Run (start capacity policy threads) events cfg)
    (hsettled : ∀ t ∈ cfg.threads, Monitor.Settled t) :
    (∀ t ∈ cfg.threads, monitor.SleepsOn .notEmpty t →
        cfg.state.size = 0 ∧ cfg.state.closed = false)
      ∧ ∀ t ∈ cfg.threads, monitor.SleepsOn .notFull t →
        cfg.state.capacity ≤ cfg.state.size ∧ cfg.state.closed = false := by
  have hzero : ∀ k, ∀ t ∈ cfg.threads, monitor.SleepsOn k t → supply k cfg.state = 0 := by
    intro k t ht hsleeps
    cases t with
    | sleeping c =>
      cases hsleeps
      refine h.supply_eq_zero supplied ?_ hsettled ht
      intro t ht
      exact List.eq_of_mem_replicate ht
    | _ => exact hsleeps.elim
  exact ⟨fun t ht hsleeps => empty_of_supply (hzero .notEmpty t ht hsleeps),
    fun t ht hsleeps => full_of_supply (hzero .notFull t ht hsleeps)⟩

/-- A producer sleeps in front of a full queue. -/
theorem run_no_lost_wakeup_full :
    ∃ events, ∃ cfg : Config (BoundedQueue Nat) Condition (QueueCall Nat),
      monitor.Run (start 1 .block 2) events cfg ∧ .sleeping (.push 8) ∈ cfg.threads
        ∧ cfg.state.capacity ≤ cfg.state.size ∧ cfg.state.closed = false := by
  have hrun : (monitor (T := Nat)).Run (start 1 .block 2) [] (start 1 .block 2) := .refl
  have hrun := hrun.step _ _ _ _ (.done _ _ [.idle, .idle] 0 .idle (.tryPush 7) (.pushed true)
    [.one .notEmpty] rfl (.enter _))
  have hrun := hrun.step _ _ _ _ (.signalNone _ _ 0 .notEmpty [] rfl (by
    intro t ht
    rcases List.mem_cons.mp ht with rfl | ht
    · exact not_false
    rw [List.mem_singleton.mp ht]
    exact not_false))
  have hrun := hrun.step _ _ _ _ (.wait _ _ 1 .idle (.push 8) rfl (.enter _))
  have hsleeps : .sleeping (.push 8)
      ∈ ([.signalling [], .sleeping (.push 8)] : List (Thread Condition (QueueCall Nat))) :=
    List.mem_cons_of_mem _ (List.mem_singleton.mpr rfl)
  refine ⟨_, _, hrun, hsleeps, ?_⟩
  refine (run_no_lost_wakeup hrun ?_).2 (.sleeping (.push 8)) hsleeps rfl
  intro t ht
  rcases List.mem_cons.mp ht with rfl | ht
  · rfl
  rw [List.mem_singleton.mp ht]
  trivial

end Conduit.Queue.BoundedQueue

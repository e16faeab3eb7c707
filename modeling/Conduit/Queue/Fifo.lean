import Conduit.Queue.BoundedQueue

/-!
# The queue is a bounded list

The abstract queue is the list of its elements, oldest first, and whether it is closed. Every
critical section of the ring buffer is a step of it. What was accepted is therefore what was
removed, in this order, and then what is still there.
-/

namespace Conduit.Queue

open Data Sync BoundedQueue List

variable {T : Type}

/-! ## The abstract queue -/

/-- The element that a call wants to add. -/
def QueueCall.item? : QueueCall T → Option T
  | .tryPush item | .push item | .pushFor item => some item
  | _ => none

/-- A call that takes one element. -/
def QueueCall.Pops : QueueCall T → Prop
  | .tryPop | .pop | .popFor => True
  | _ => False

structure Fifo (T : Type) where
  items : List T
  closed : Bool

/-- The steps of a list of at most `capacity` elements. -/
inductive Fifo.Step (capacity : Nat) (policy : DropPolicy) :
    QueueCall T → Fifo T → QueueResult T → Fifo T → Prop where
  | accept (c : QueueCall T) (v : T) (items : List T) : c.item? = some v → items.length < capacity →
      Step capacity policy c ⟨items, false⟩ (.pushed true) ⟨items ++ [v], false⟩
  | evict (c : QueueCall T) (v oldest : T) (items : List T) : c.item? = some v →
      policy = .dropOldest → items.length + 1 = capacity →
      Step capacity policy c ⟨oldest :: items, false⟩ (.pushed true) ⟨items ++ [v], false⟩
  | refuse (c : QueueCall T) (v : T) (q : Fifo T) : c.item? = some v →
      q.closed = true ∨ q.items.length = capacity → Step capacity policy c q (.pushed false) q
  | pop (c : QueueCall T) (v : T) (items : List T) (closed : Bool) : c.Pops →
      Step capacity policy c ⟨v :: items, closed⟩ (.popped (some v)) ⟨items, closed⟩
  | popNone (c : QueueCall T) (closed : Bool) : c.Pops →
      Step capacity policy c ⟨[], closed⟩ (.popped none) ⟨[], closed⟩
  | popBatch (maxCount : Nat) (items : List T) (closed : Bool) :
      Step capacity policy (.popBatch maxCount) ⟨items, closed⟩ (.batch (items.take maxCount))
        ⟨items.drop maxCount, closed⟩
  | close (items : List T) (closed : Bool) :
      Step capacity policy .close ⟨items, closed⟩ .none ⟨items, true⟩
  | clear (items : List T) (closed : Bool) :
      Step capacity policy .clear ⟨items, closed⟩ .none ⟨[], closed⟩

/-! ## The ring -/

namespace BoundedQueue

variable [Inhabited T] {q : BoundedQueue T} {q' : BoundedQueue T} {c : QueueCall T} {v : T}
  {r : QueueResult T}

/-- The elements, oldest first. -/
def contents (q : BoundedQueue T) : List T := window q.buffer q.head q.size

def abstract (q : BoundedQueue T) : Fifo T := ⟨q.contents, q.closed⟩

/-- The invariant of the ring buffer. -/
structure Ring (q : BoundedQueue T) : Prop where
  buffer : q.buffer.length = q.capacity
  capacity : 0 < q.capacity
  head : q.head < q.capacity
  tail : q.tail = (q.head + q.size) % q.capacity
  size : q.size ≤ q.capacity

/-- A section that keeps the ring, its capacity and its policy. -/
structure Keeps (q q' : BoundedQueue T) : Prop where
  ring : q'.Ring
  capacity : q'.capacity = q.capacity
  policy : q'.dropPolicy = q.dropPolicy

@[simp] theorem length_contents (q : BoundedQueue T) : q.contents.length = q.size := by
  simp [contents]

theorem ring_new (capacity : Nat) (policy : DropPolicy) :
    (new capacity policy : BoundedQueue T).Ring := by
  have hpos : 0 < (if capacity > 0 then capacity else 1) := by
    split
    next h => exact h
    next => exact Nat.one_pos
  exact ⟨by simp [new], hpos, hpos, by simp [new], by simp [new]⟩

theorem Ring.enqueue (h : q.Ring) (hroom : q.size < q.capacity) (v : T) :
    q.Keeps (q.enqueue v) ∧ (q.enqueue v).contents = q.contents ++ [v] := by
  refine ⟨⟨⟨?_, h.capacity, h.head, ?_, hroom⟩, rfl, rfl⟩, ?_⟩
  · simp [BoundedQueue.enqueue, h.buffer]
  · show (q.tail + 1) % q.capacity = (q.head + (q.size + 1)) % q.capacity
    rw [h.tail, Nat.mod_add_mod, Nat.add_assoc]
  have hpush : window (q.buffer.set ((q.head + q.size) % q.buffer.length) v) q.head (q.size + 1)
      = q.contents ++ [v] := window_push v (by rw [h.buffer]; exact hroom)
  rw [h.buffer, ← h.tail] at hpush
  exact hpush

theorem Ring.dropHead (h : q.Ring) (hne : q.size ≠ 0) : q.Keeps q.dropHead
      ∧ q.contents = q.buffer.getD q.head default :: q.dropHead.contents := by
  obtain ⟨n, hn⟩ := Nat.exists_eq_succ_of_ne_zero hne
  have hsize := h.size
  have hpop := window_pop default (show q.head < q.buffer.length by rw [h.buffer]; exact h.head)
    (show n < q.buffer.length by rw [h.buffer]; omega)
  refine ⟨⟨⟨?_, h.capacity, Nat.mod_lt _ h.capacity, ?_, ?_⟩, rfl, rfl⟩, ?_⟩
  · simp [BoundedQueue.dropHead, h.buffer]
  · show q.tail = ((q.head + 1) % q.capacity + (q.size - 1)) % q.capacity
    rw [h.tail, Nat.mod_add_mod, Nat.add_assoc]
    congr 2
    omega
  · show q.size - 1 ≤ q.capacity
    omega
  · rw [h.buffer] at hpop
    rw [contents, BoundedQueue.dropHead, hn]
    exact hpop

theorem Ring.countDropped (h : q.Ring) :
    q.Keeps q.countDropped ∧ q.countDropped.contents = q.contents :=
  ⟨⟨⟨h.buffer, h.capacity, h.head, h.tail, h.size⟩, rfl, rfl⟩, rfl⟩

omit [Inhabited T] in
theorem Keeps.refl (h : q.Ring) : q.Keeps q := ⟨h, rfl, rfl⟩

omit [Inhabited T] in
theorem Keeps.trans {q'' : BoundedQueue T} (h : q.Keeps q') (h' : q'.Keeps q'') : q.Keeps q'' :=
  ⟨h'.ring, h'.capacity.trans h.capacity, h'.policy.trans h.policy⟩

/-! ## The critical sections -/

/-- A section that is a step of the abstract queue. -/
def Refines (c : QueueCall T) (q : BoundedQueue T) (r : QueueResult T) (q' : BoundedQueue T) :
    Prop :=
  q.Keeps q' ∧ Fifo.Step q.capacity q.dropPolicy c q.abstract r q'.abstract

theorem abstract_eq {items : List T} {closed : Bool} (hitems : q.contents = items)
    (hclosed : q.closed = closed) : q.abstract = ⟨items, closed⟩ := by
  rw [abstract, hitems, hclosed]

theorem Ring.insert (h : q.Ring) (hc : c.item? = some v) {refuses : Bool}
    (hfull : q.size < q.capacity ∨ q.closed = true ∨ refuses = true ∨ q.dropPolicy = .dropOldest) :
    Refines c q (.pushed (q.insert refuses v).1) (q.insert refuses v).2 := by
  unfold BoundedQueue.insert
  by_cases hclosed : q.closed = true
  · rw [if_pos hclosed]
    exact ⟨.refl h, .refuse c v _ hc (.inl hclosed)⟩
  rw [if_neg hclosed]
  have hopen : q.closed = false := Bool.eq_false_iff.mpr hclosed
  by_cases hroom : q.size < q.capacity
  · rw [if_neg (by omega)]
    obtain ⟨hkeeps, hcontents⟩ := h.enqueue hroom v
    refine ⟨hkeeps, ?_⟩
    rw [abstract_eq rfl hopen, abstract_eq hcontents hopen]
    exact .accept c v q.contents hc (by rwa [length_contents])
  rw [if_pos (by omega)]
  have hsize : q.size = q.capacity := Nat.le_antisymm h.size (by omega)
  by_cases hpolicy : q.dropPolicy = .dropOldest
  · rw [if_pos hpolicy]
    have hne : q.size ≠ 0 := by
      have := h.capacity
      omega
    obtain ⟨hdrop, hhead⟩ := h.dropHead hne
    obtain ⟨hcount, hsame⟩ := hdrop.ring.countDropped
    have hmade : q.dropHead.countDropped.size < q.dropHead.countDropped.capacity := by
      show q.size - 1 < q.capacity
      omega
    obtain ⟨hadd, hcontents⟩ := hcount.ring.enqueue hmade v
    refine ⟨(hdrop.trans hcount).trans hadd, ?_⟩
    rw [abstract_eq hhead hopen, abstract_eq hcontents hopen]
    refine .evict c v _ _ hc hpolicy ?_
    rw [length_contents]
    show q.size - 1 + 1 = q.capacity
    omega
  have hrefuses : refuses = true := by
    rcases hfull with hlt | hcl | hr | hp
    · exact absurd hlt hroom
    · exact absurd hcl hclosed
    · exact hr
    · exact absurd hp hpolicy
  rw [if_neg hpolicy, if_pos hrefuses]
  obtain ⟨hcount, hsame⟩ := h.countDropped
  refine ⟨hcount, ?_⟩
  refine .refuse c v _ hc (.inr ?_)
  rw [← hsize]
  exact length_contents q

theorem Ring.take (h : q.Ring) (hc : c.Pops) : Refines c q (.popped q.take.1) q.take.2 := by
  unfold BoundedQueue.take
  by_cases hempty : q.size = 0
  · rw [if_pos hempty]
    have hnone : q.contents = [] := length_eq_zero_iff.mp (by rw [length_contents, hempty])
    refine ⟨.refl h, ?_⟩
    rw [abstract_eq hnone rfl]
    exact .popNone c _ hc
  · rw [if_neg hempty]
    obtain ⟨hdrop, hhead⟩ := h.dropHead hempty
    have hring := hdrop.ring
    refine ⟨⟨⟨hring.buffer, hring.capacity, hring.head, hring.tail, hring.size⟩, rfl, rfl⟩, ?_⟩
    rw [abstract_eq hhead rfl]
    exact .pop c _ _ _ hc

theorem takeLoop_size (n m : Nat) (q : BoundedQueue T) : takeLoop n { q with size := m }
      = ((takeLoop n q).1, { (takeLoop n q).2 with size := m }) := by
  induction n generalizing q with
  | zero => rfl
  | succ n ih =>
    simp only [takeLoop]
    rw [ih { q with
      buffer := q.buffer.set q.head default
      head := (q.head + 1) % q.capacity }]

theorem takeLoop_succ (n : Nat) (q : BoundedQueue T) : takeLoop (n + 1) q
      = (q.buffer.getD q.head default :: (takeLoop n q.dropHead).1,
        { (takeLoop n q.dropHead).2 with size := q.size }) := by
  have hturn := takeLoop_size n q.size q.dropHead
  exact congrArg (fun r : List T × BoundedQueue T => (q.buffer.getD q.head default :: r.1, r.2))
    hturn

theorem Ring.takeLoop (n : Nat) (h : q.Ring) (hn : n ≤ q.size) :
    (takeLoop n q).1 = q.contents.take n
      ∧ q.Keeps { (takeLoop n q).2 with size := (takeLoop n q).2.size - n }
      ∧ contents { (takeLoop n q).2 with size := (takeLoop n q).2.size - n }
        = q.contents.drop n := by
  rw [(takeLoop_same n q).1]
  induction n generalizing q with
  | zero => exact ⟨rfl, .refl h, rfl⟩
  | succ n ih =>
    obtain ⟨hdrop, hhead⟩ := h.dropHead (by omega)
    have hsize : q.dropHead.size = q.size - 1 := rfl
    obtain ⟨hitems, hkeeps, hrest⟩ := ih hdrop.ring (by omega)
    have hsub : q.size - (n + 1) = q.dropHead.size - n := by omega
    rw [takeLoop_succ, hsub, hhead]
    refine ⟨?_, hdrop.trans hkeeps, hrest⟩
    rw [take_succ_cons, ← hitems]

theorem Ring.takeBatch (h : q.Ring) (maxCount : Nat) :
    Refines (.popBatch maxCount) q (.batch (q.takeBatch maxCount).1) (q.takeBatch maxCount).2 := by
  obtain ⟨hitems, hkeeps, hrest⟩ := h.takeLoop _ (Nat.min_le_right maxCount q.size)
  have hring := hkeeps.ring
  refine ⟨⟨⟨hring.buffer, hring.capacity, hring.head, hring.tail, hring.size⟩, hkeeps.capacity,
    hkeeps.policy⟩, ?_⟩
  have hcontents : (q.takeBatch maxCount).2.contents = q.contents.drop maxCount := by
    rw [drop_eq_drop_min, length_contents]
    exact hrest
  have htaken : (q.takeBatch maxCount).1 = q.contents.take maxCount := by
    rw [take_eq_take_min, length_contents]
    exact hitems
  rw [abstract_eq hcontents (takeLoop_same _ q).2.1, htaken]
  exact .popBatch maxCount q.contents q.closed

theorem Ring.clearLoop (n : Nat) (h : q.Ring) (hn : q.size = n) : q.Keeps (clearLoop n q) := by
  induction n generalizing q with
  | zero => exact .refl h
  | succ n ih =>
    obtain ⟨hdrop, -⟩ := h.dropHead (by omega)
    exact hdrop.trans (ih hdrop.ring (show q.size - 1 = n by omega))

theorem Ring.clear (h : q.Ring) : Refines .clear q .none q.clear := by
  have hkeeps := h.clearLoop q.size rfl
  obtain ⟨hsize, hclosed⟩ := clearLoop_same q.size q
  have hring := hkeeps.ring
  refine ⟨⟨⟨hring.buffer, hring.capacity, hring.head, hring.tail, hring.size⟩, hkeeps.capacity,
    hkeeps.policy⟩, ?_⟩
  have hnone : q.clear.contents = [] := by
    rw [← length_eq_zero_iff, length_contents]
    exact hsize.trans (Nat.sub_self _)
  rw [abstract_eq hnone hclosed]
  exact .clear q.contents q.closed

theorem Ring.close (h : q.Ring) : Refines .close q .none { q with closed := true } :=
  ⟨⟨⟨h.buffer, h.capacity, h.head, h.tail, h.size⟩, rfl, rfl⟩, .close q.contents q.closed⟩

/-- A queue into which `insert` puts no element too many. -/
def Takes (refuses : Bool) (q : BoundedQueue T) : Prop :=
  q.size < q.capacity ∨ q.closed = true ∨ refuses = true ∨ q.dropPolicy = .dropOldest

/-- All that a critical section can do. -/
inductive Effect (q : BoundedQueue T) : QueueCall T → QueueResult T → BoundedQueue T → Prop where
  | insert {c : QueueCall T} {v : T} (refuses : Bool) (hc : c.item? = some v)
      (h : q.Takes refuses) :
      Effect q c (.pushed (q.insert refuses v).1) (q.insert refuses v).2
  | timeUp (v : T) (h : q.hasRoom = false) : Effect q (.pushFor v) (.pushed false) q
  | take {c : QueueCall T} (hc : c.Pops) : Effect q c (.popped q.take.1) q.take.2
  | takeBatch (maxCount : Nat) :
      Effect q (.popBatch maxCount) (.batch (q.takeBatch maxCount).1) (q.takeBatch maxCount).2
  | close : Effect q .close .none { q with closed := true }
  | clear : Effect q .clear .none q.clear

theorem effect_push {signals : List (Signal Condition)} (hdone : push v q = .done q' r signals) :
    Effect q (.push v) r q' := by
  unfold push at hdone
  by_cases hwait : q.dropPolicy = .block ∧ q.hasRoom = false
  · rw [if_pos hwait] at hdone
    cases hdone
  rw [if_neg hwait] at hdone
  cases hdone
  refine .insert _ rfl ?_
  cases hpolicy : q.dropPolicy with
  | dropOldest => exact .inr (.inr (.inr hpolicy))
  | dropNewest => exact .inr (.inr (.inl rfl))
  | block =>
    have hroom : q.hasRoom = true := by
      by_contra hnot
      exact hwait ⟨hpolicy, by simpa using hnot⟩
    simp only [hasRoom, Bool.or_eq_true, decide_eq_true_eq] at hroom
    rcases hroom with hlt | hclosed
    · exact .inl hlt
    · exact .inr (.inl hclosed)

theorem effect_pop (hc : c.Pops) {signals : List (Signal Condition)}
    (hdone : pop q = .done q' r signals) : Effect q c r q' := by
  unfold pop at hdone
  split at hdone
  · cases hdone
    exact .take hc
  · cases hdone

theorem effect_completes (hc : monitor.Completes c q r q') : Effect q c r q' := by
  have hrefuses : q.Takes true := .inr (.inr (.inl rfl))
  obtain ⟨t, signals, hruns⟩ := hc
  generalize hout : Outcome.done q' r signals = out at hruns
  cases c with
  | tryPush v => cases hruns <;> cases hout <;> exact .insert _ rfl hrefuses
  | push v => cases hruns <;> exact effect_push hout.symm
  | tryPop => cases hruns <;> cases hout <;> exact .take trivial
  | pop => cases hruns <;> exact effect_pop (c := .pop) trivial hout.symm
  | popBatch maxCount => cases hruns <;> cases hout <;> exact .takeBatch maxCount
  | close => cases hruns <;> cases hout <;> exact .close
  | clear => cases hruns <;> cases hout <;> exact .clear
  | pushFor v =>
    cases hruns with
    | enter =>
      simp only [monitor, pushFor] at hout
      split at hout
      · cases hout
      cases hout
      exact .insert _ rfl hrefuses
    | resume _ timeUp =>
      simp only [monitor, pushForWoken] at hout
      split at hout
      · cases hout
        exact .insert _ rfl hrefuses
      next hroom =>
        split at hout
        · cases hout
          exact .timeUp v (Bool.eq_false_iff.mpr hroom)
        · cases hout
  | popFor =>
    cases hruns with
    | enter => exact effect_pop (c := .popFor) trivial hout.symm
    | resume _ timeUp =>
      simp only [monitor, popForWoken] at hout
      split at hout
      · cases hout
        exact .take trivial
      next hitem =>
        split at hout
        · cases hout
          -- there is nothing to take when the time is up
          simp only [hasItem, Bool.or_eq_true, decide_eq_true_eq, not_or] at hitem
          have htake : q.take = (none, q) := if_pos (by omega)
          have heffect : Effect q .popFor _ _ := .take trivial
          rwa [htake] at heffect
        · cases hout

/-- Every critical section that is left keeps the ring and is a step of the abstract queue. -/
theorem Ring.completes (h : q.Ring) (hc : monitor.Completes c q r q') : Refines c q r q' := by
  cases effect_completes hc with
  | insert refuses hitem htakes => exact h.insert hitem htakes
  | timeUp v hroom =>
    refine ⟨.refl h, .refuse _ v _ rfl (.inr ?_)⟩
    simp only [hasRoom, Bool.or_eq_false_iff, decide_eq_false_iff_not] at hroom
    exact (length_contents q).trans (Nat.le_antisymm h.size (by omega))
  | take hpops => exact h.take hpops
  | takeBatch maxCount => exact h.takeBatch maxCount
  | close => exact h.close
  | clear => exact h.clear

/-! ## Single pushes and pops -/

/-- A push makes room by dropping the oldest element. -/
def Evicts (q : BoundedQueue T) : Prop :=
  q.closed = false ∧ q.dropPolicy = .dropOldest ∧ q.capacity ≤ q.size

omit [Inhabited T] in
instance : DecidablePred (Evicts (T := T)) := fun _ => inferInstanceAs (Decidable (_ ∧ _ ∧ _))

theorem size_insert_le (refuses : Bool) (v : T) (q : BoundedQueue T) :
    (q.insert refuses v).2.size ≤ q.size + 1 := by
  unfold insert
  split
  · exact Nat.le_succ _
  split
  · split
    · exact Nat.succ_le_succ (Nat.sub_le _ _)
    split
    · exact Nat.le_succ _
    · exact le_rfl
  · exact le_rfl

theorem closed_insert (refuses : Bool) (v : T) (q : BoundedQueue T) :
    (q.insert refuses v).2.closed = q.closed := by
  unfold insert
  repeat' split
  all_goals rfl

theorem insert_of_closed (refuses : Bool) (v : T) {q : BoundedQueue T} (h : q.closed = true) :
    (q.insert refuses v).2 = q := by
  rw [insert, if_pos h]

theorem Ring.size_insert_pos (h : q.Ring) (hopen : q.closed = false) (refuses : Bool) (v : T) :
    0 < (q.insert refuses v).2.size := by
  unfold BoundedQueue.insert
  rw [if_neg (by rw [hopen]; decide)]
  split
  next hfull =>
    split
    · exact Nat.succ_pos _
    split
    · exact h.capacity.trans_le hfull
    · exact Nat.succ_pos _
  next => exact Nat.succ_pos _

theorem push_completes (hc : monitor.Completes (.push v) q r q') :
    ¬(q.dropPolicy = .block ∧ q.hasRoom = false)
      ∧ r = .pushed (q.insert (q.dropPolicy == .dropNewest) v).1
      ∧ q' = (q.insert (q.dropPolicy == .dropNewest) v).2 := by
  obtain ⟨t, signals, hruns⟩ := hc
  have hpush : push v q = .done q' r signals := by
    generalize hout : Outcome.done q' r signals = out at hruns
    cases hruns with
    | enter => rfl
    | resume _ timeUp => rfl
  unfold push at hpush
  split at hpush
  next => cases hpush
  next hgo =>
    cases hpush
    exact ⟨hgo, rfl, rfl⟩

theorem completes_push (h : q.size < q.capacity) (v : T) :
    ∃ accepted q', monitor.Completes (.push v) q (.pushed accepted) q' := by
  have hroom : q.hasRoom = true := by simp [hasRoom, h]
  have hpush : push v q = pushEnd (q.insert (q.dropPolicy == .dropNewest) v) := by
    rw [push, if_neg (by simp [hroom])]
  have henter : monitor.Runs q .idle (.push v) (push v q) := .enter (QueueCall.push v)
  rw [hpush] at henter
  exact ⟨_, _, .idle, _, henter⟩

theorem Ring.push_size (h : q.Ring) {accepted : Bool}
    (hc : monitor.Completes (.push v) q (.pushed accepted) q') :
    q'.size + (if q.Evicts then 1 else 0) = q.size + (if accepted then 1 else 0) := by
  obtain ⟨-, hr, rfl⟩ := push_completes hc
  cases hr
  have hpos := h.capacity
  unfold BoundedQueue.insert Evicts
  by_cases hclosed : q.closed = true
  · simp [hclosed]
  by_cases hfull : q.size ≥ q.capacity
  · by_cases hpolicy : q.dropPolicy = .dropOldest
    · simp only [hclosed, hfull, hpolicy, if_true, if_false, Bool.false_eq_true, and_self]
      show q.size - 1 + 1 + 1 = q.size + 1
      omega
    · by_cases hrefuses : (q.dropPolicy == .dropNewest) = true
      · simp [hclosed, hfull, hpolicy, hrefuses, BoundedQueue.countDropped]
      · simp [hclosed, hfull, hpolicy, hrefuses, BoundedQueue.enqueue]
  · simp [hclosed, hfull, BoundedQueue.enqueue]

theorem Ring.push_block (h : q.Ring) (hpolicy : q.dropPolicy = .block) {accepted : Bool}
    (hc : monitor.Completes (.push v) q (.pushed accepted) q') :
    (accepted = true ∧ q.closed = false ∧ q'.closed = false ∧ q'.contents = q.contents ++ [v])
      ∨ (accepted = false ∧ q.closed = true ∧ q' = q) := by
  obtain ⟨hgo, hr, rfl⟩ := push_completes hc
  cases hr
  by_cases hclosed : q.closed = true
  · right
    simp [BoundedQueue.insert, hclosed]
  left
  have hopen : q.closed = false := Bool.eq_false_iff.mpr hclosed
  have hroom : q.size < q.capacity := by
    by_contra hfull
    apply hgo
    simp [hpolicy, hasRoom, hopen, hfull]
  have hinsert : q.insert (q.dropPolicy == .dropNewest) v = (true, q.enqueue v) := by
    simp [BoundedQueue.insert, hopen, Nat.not_le.mpr hroom]
  rw [hinsert]
  exact ⟨rfl, hopen, hopen, (h.enqueue hroom v).2⟩

theorem Ring.pop_some (h : q.Ring) (hc : monitor.Completes .pop q (.popped (some v)) q') :
    q.contents = v :: q'.contents ∧ q'.closed = q.closed := by
  obtain ⟨-, hstep⟩ := h.completes hc
  unfold abstract at hstep
  generalize q.contents = before at hstep ⊢
  generalize q.closed = closed at hstep ⊢
  cases hstep with
  | pop _ _ _ _ _ => exact ⟨rfl, rfl⟩

theorem completes_pop (h : 0 < q.size) :
    ∃ v q', monitor.Completes .pop q (.popped (some v)) q' := by
  have hpop : pop q = popEnd q.take := by rw [pop, if_pos (by simp [hasItem, h])]
  have henter : monitor.Runs q .idle .pop (pop q) := .enter QueueCall.pop
  rw [hpop, take, if_neg h.ne'] at henter
  exact ⟨_, _, .idle, _, henter⟩

theorem Ring.pop_none (h : q.Ring) (hc : monitor.Completes .pop q (.popped none) q') :
    q.contents = [] ∧ q'.contents = [] ∧ q'.closed = q.closed := by
  obtain ⟨-, hstep⟩ := h.completes hc
  unfold abstract at hstep
  generalize q.contents = before at hstep ⊢
  generalize q'.contents = after at hstep ⊢
  generalize q.closed = closed at hstep ⊢
  cases hstep with
  | popNone _ _ _ => exact ⟨rfl, rfl, rfl⟩

theorem Ring.close_contents (h : q.Ring) (hc : monitor.Completes .close q .none q') :
    q'.contents = q.contents := by
  obtain ⟨-, hstep⟩ := h.completes hc
  unfold abstract at hstep
  generalize q.contents = before at hstep ⊢
  generalize q.closed = closed at hstep
  generalize q'.closed = closed' at hstep
  cases hstep with
  | close _ _ => rfl

end BoundedQueue

/-! ## What becomes of an element -/

inductive Fate where
  | popped | cleared | evicted
deriving DecidableEq

abbrev QueueEvent (T : Type) := Event (BoundedQueue T) (QueueCall T) (QueueResult T)

namespace QueueEvent

/-- The element that a push has added. -/
def accepted (e : QueueEvent T) : List T :=
  match e.call.item?, e.result with
  | some v, .pushed true => [v]
  | _, _ => []

/-- The elements that a pop has returned. -/
def popped (e : QueueEvent T) : List T :=
  match e.result with
  | .popped item => item.toList
  | .batch items => items
  | _ => []

variable [Inhabited T] {c : QueueCall T} {v : T} {r : QueueResult T}

/-- The elements that are no longer in the queue, in their order, and why. -/
def removed (e : QueueEvent T) : List (T × Fate) :=
  match e.call, e.result with
  | .clear, _ => e.before.contents.map (·, .cleared)
  | _, .pushed true =>
    if e.before.size = e.before.capacity then (e.before.contents.take 1).map (·, .evicted) else []
  | _, _ => e.popped.map (·, .popped)

theorem removed_of_push (hc : c.item? = some v) (q q' : BoundedQueue T) :
    removed ⟨c, q, .pushed true, q'⟩
      = if q.size = q.capacity then (q.contents.take 1).map (·, .evicted) else [] := by
  cases c <;> first | rfl | cases hc

theorem removed_of_refused (hc : c.item? = some v) (q q' : BoundedQueue T) :
    removed ⟨c, q, .pushed false, q'⟩ = [] := by
  cases c <;> first | rfl | cases hc

theorem removed_of_pop (hc : c.Pops) (q q' : BoundedQueue T) (item : Option T) :
    removed ⟨c, q, .popped item, q'⟩ = item.toList.map (·, .popped) := by
  cases c <;> first | rfl | cases hc

omit [Inhabited T] in
theorem accepted_of_push (hc : c.item? = some v) (q q' : BoundedQueue T) :
    accepted ⟨c, q, .pushed true, q'⟩ = [v] := by
  simp only [accepted, hc]

omit [Inhabited T] in
theorem accepted_of_refused (c : QueueCall T) (q q' : BoundedQueue T) :
    accepted ⟨c, q, .pushed false, q'⟩ = [] := by
  unfold accepted
  split <;> simp_all

omit [Inhabited T] in
theorem accepted_of_pop (c : QueueCall T) (q q' : BoundedQueue T) (item : Option T) :
    accepted ⟨c, q, .popped item, q'⟩ = [] := by
  unfold accepted
  split <;> simp_all

theorem contents_append {q q' : BoundedQueue T} (h : Refines c q r q') :
    q.contents ++ accepted ⟨c, q, r, q'⟩ = (removed ⟨c, q, r, q'⟩).map (·.1) ++ q'.contents := by
  obtain ⟨-, hstep⟩ := h
  generalize hq : q.abstract = a at hstep
  generalize hq' : q'.abstract = a' at hstep
  have hitems : q.contents = a.items := congrArg Fifo.items hq
  have hitems' : q'.contents = a'.items := congrArg Fifo.items hq'
  have hsize : q.size = a.items.length := by rw [← hitems, length_contents]
  rw [hitems, hitems']
  cases hstep with
  | accept _ v items hc hroom =>
    rw [accepted_of_push hc, removed_of_push hc, if_neg (by rw [hsize]; exact hroom.ne)]
    rfl
  | evict _ v oldest items hc hpolicy hfull =>
    rw [accepted_of_push hc, removed_of_push hc, if_pos (hsize.trans hfull), hitems]
    rfl
  | refuse _ v _ hc hfull =>
    rw [accepted_of_refused, removed_of_refused hc, append_nil]
    rfl
  | pop _ v items closed hc =>
    rw [accepted_of_pop, removed_of_pop hc, append_nil]
    rfl
  | popNone _ closed hc =>
    rw [accepted_of_pop, removed_of_pop hc]
    rfl
  | popBatch maxCount items closed =>
    have hremoved : (removed ⟨.popBatch maxCount, q, .batch (items.take maxCount), q'⟩).map (·.1)
        = items.take maxCount := by
      simp [removed, popped, Function.comp_def]
    rw [hremoved, take_append_drop]
    exact append_nil _
  | close items closed => exact append_nil _
  | clear items closed =>
    have hremoved : (removed ⟨.clear, q, .none, q'⟩).map (·.1) = q.contents := by
      simp [removed, Function.comp_def]
    rw [hremoved, hitems]
    rfl

omit [Inhabited T] in
theorem filter_fate (vs : List T) (f : Fate) :
    ((vs.map (·, f)).filter (·.2 = .popped)).map (·.1) = if f = .popped then vs else [] := by
  by_cases hf : f = .popped
  · simp [hf, filter_map, Function.comp_def]
  · simp [hf, filter_map, Function.comp_def]

section

variable {q q' : BoundedQueue T} (h : Refines c q r q')

include h

theorem popped_eq : popped ⟨c, q, r, q'⟩
      = ((removed ⟨c, q, r, q'⟩).filter (·.2 = .popped)).map (·.1) := by
  obtain ⟨-, hstep⟩ := h
  generalize hq : q.abstract = a at hstep
  generalize hq' : q'.abstract = a' at hstep
  have hpushed : ∀ {v : T}, c.item? = some v →
      ((removed ⟨c, q, .pushed true, q'⟩).filter (·.2 = .popped)).map (·.1) = [] := by
    intro v hc
    rw [removed_of_push hc]
    split
    · exact filter_fate _ .evicted
    · rfl
  cases hstep with
  | accept _ v items hc hroom => exact (hpushed hc).symm
  | evict _ v oldest items hc hpolicy hfull => exact (hpushed hc).symm
  | refuse _ v _ hc hfull =>
    rw [removed_of_refused hc]
    rfl
  | pop _ v items closed hc =>
    rw [removed_of_pop hc]
    exact (filter_fate _ .popped).symm
  | popNone _ closed hc =>
    rw [removed_of_pop hc]
    rfl
  | popBatch maxCount items closed => exact (filter_fate _ .popped).symm
  | close items closed => rfl
  | clear items closed => exact (filter_fate _ .cleared).symm

theorem evicted_of_mem (hv : (v, Fate.evicted) ∈ removed ⟨c, q, r, q'⟩) :
    q.dropPolicy = .dropOldest ∧ q.size = q.capacity ∧ q.contents.head? = some v
      ∧ r = .pushed true := by
  obtain ⟨-, hstep⟩ := h
  generalize hq : q.abstract = a at hstep
  generalize hq' : q'.abstract = a' at hstep
  have hitems : q.contents = a.items := congrArg Fifo.items hq
  have hsize : q.size = a.items.length := by rw [← hitems, length_contents]
  cases hstep with
  | accept _ w items hc hroom =>
    rw [removed_of_push hc, if_neg (by rw [hsize]; exact hroom.ne)] at hv
    cases hv
  | evict _ w oldest items hc hpolicy hfull =>
    rw [removed_of_push hc, if_pos (hsize.trans hfull), hitems] at hv
    simp only [take_succ_cons, take_zero, map_cons, map_nil,
      mem_singleton, Prod.mk.injEq, and_true] at hv
    subst hv
    exact ⟨hpolicy, hsize.trans hfull, by rw [hitems]; rfl, rfl⟩
  | refuse _ w _ hc hfull =>
    rw [removed_of_refused hc] at hv
    cases hv
  | pop _ w items closed hc =>
    rw [removed_of_pop hc] at hv
    simp at hv
  | popNone _ closed hc =>
    rw [removed_of_pop hc] at hv
    cases hv
  | popBatch maxCount items closed =>
    obtain ⟨w, -, hw⟩ := mem_map.mp hv
    cases hw
  | close items closed => cases hv
  | clear items closed => simp [removed] at hv

theorem drains (hclosed : q.closed = true)
    (hc : c ≠ .clear) : q'.closed = true ∧ accepted ⟨c, q, r, q'⟩ = []
      ∧ q.contents = popped ⟨c, q, r, q'⟩ ++ q'.contents := by
  obtain ⟨-, hstep⟩ := h
  unfold abstract at hstep
  rw [hclosed] at hstep
  generalize q.contents = before at hstep ⊢
  generalize q'.contents = after at hstep ⊢
  generalize q'.closed = closed at hstep ⊢
  cases hstep with
  | refuse => exact ⟨rfl, accepted_of_refused _ _ _, rfl⟩
  | pop | popNone => exact ⟨rfl, accepted_of_pop _ _ _ _, rfl⟩
  | popBatch n => exact ⟨rfl, rfl, (take_append_drop n _).symm⟩
  | close => exact ⟨rfl, rfl, rfl⟩
  | clear => exact absurd rfl hc

end

theorem not_cleared {e : QueueEvent T} (h : e.call ≠ .clear) (v : T) :
    (v, Fate.cleared) ∉ removed e := by
  have hmap : ∀ (vs : List T) {fate : Fate}, fate ≠ .cleared → (v, Fate.cleared) ∉ vs.map (·, fate) := by
    intro vs fate hne hmem
    obtain ⟨w, -, hw⟩ := mem_map.mp hmem
    cases hw
    exact hne rfl
  unfold removed
  split
  next hcall => exact absurd hcall h
  next =>
    split
    · exact hmap _ (by decide)
    · exact not_mem_nil
  next => exact hmap _ (by decide)

end QueueEvent

/-! ## Runs -/

namespace BoundedQueue

variable [Inhabited T]

open QueueEvent

/-- What holds of a queue and of the calls that have brought it about. -/
structure History (policy : DropPolicy) (events : List (QueueEvent T)) (q : BoundedQueue T) :
    Prop where
  ring : q.Ring
  samePolicy : q.dropPolicy = policy
  steps : ∀ e ∈ events, Fifo.Step e.before.capacity policy e.call e.before.abstract e.result
    e.after.abstract
  accepted : events.flatMap accepted = (events.flatMap removed).map (·.1) ++ q.contents
  popped : events.flatMap popped = ((events.flatMap removed).filter (·.2 = .popped)).map (·.1)
  evicted : ∀ e ∈ events, ∀ v, (v, Fate.evicted) ∈ removed e →
    policy = .dropOldest ∧ e.before.size = e.before.capacity
      ∧ e.before.contents.head? = some v ∧ e.result = .pushed true

theorem history_new (capacity : Nat) (policy : DropPolicy) :
    History policy [] (new capacity policy : BoundedQueue T) := by
  refine ⟨ring_new capacity policy, rfl, ?_, rfl, rfl, ?_⟩ <;>
  · intro e he
    cases he

theorem History.step {policy : DropPolicy} {events : List (QueueEvent T)} {c : QueueCall T}
    {q q' : BoundedQueue T} {r : QueueResult T} (h : History policy events q)
    (hcompletes : monitor.Completes c q r q') : History policy (events ++ [⟨c, q, r, q'⟩]) q' := by
  have hrefines := h.ring.completes hcompletes
  refine ⟨hrefines.1.ring, hrefines.1.policy.trans h.samePolicy, ?_, ?_, ?_, ?_⟩
  · rw [forall_mem_append, forall_mem_singleton]
    exact ⟨h.steps, h.samePolicy ▸ hrefines.2⟩
  · simp only [flatMap_append, flatMap_singleton, map_append]
    rw [h.accepted, append_assoc, contents_append hrefines, append_assoc]
  · simp only [flatMap_append, flatMap_singleton, filter_append, map_append]
    rw [h.popped, popped_eq hrefines]
  intro e he v hv
  rcases mem_append.mp he with he | he
  · exact h.evicted e he v hv
  rw [mem_singleton] at he
  subst he
  have hlast := evicted_of_mem hrefines hv
  rwa [h.samePolicy] at hlast

/-- In every run of any number of threads the queue is a ring, and every call is a step of a bounded
list. What the pushes have added is, in this order, what was removed and what is still there. What the pops have returned
are the removed elements that were neither cleared nor evicted, and evicted is only the oldest
element of a full queue under `dropOldest`. -/
theorem run_fifo {capacity threads : Nat} {policy : DropPolicy} {events : List (QueueEvent T)}
    {cfg : Config (BoundedQueue T) Condition (QueueCall T)}
    (h : monitor.Run (start capacity policy threads) events cfg) :
    (cfg.state.tail = (cfg.state.head + cfg.state.size) % cfg.state.capacity
        ∧ cfg.state.size ≤ cfg.state.capacity)
      ∧ (∀ e ∈ events, Fifo.Step e.before.capacity policy e.call e.before.abstract e.result
        e.after.abstract)
      ∧ events.flatMap accepted = (events.flatMap removed).map (·.1) ++ cfg.state.contents
      ∧ events.flatMap popped = ((events.flatMap removed).filter (·.2 = .popped)).map (·.1)
      ∧ ∀ e ∈ events, ∀ v, (v, Fate.evicted) ∈ removed e →
        policy = .dropOldest ∧ e.before.size = e.before.capacity
          ∧ e.before.contents.head? = some v ∧ e.result = .pushed true := by
  have hhistory : History policy events cfg.state :=
    h.history_induction (history_new capacity policy) fun _ _ _ _ _ hbefore => hbefore.step
  exact ⟨⟨hhistory.ring.tail, hhistory.ring.size⟩, hhistory.steps, hhistory.accepted,
    hhistory.popped, hhistory.evicted⟩

/-- Two pushes into a queue of one element and a pop: the second element comes out, the first one
was evicted. -/
theorem run_fifo_evict : ∃ events : List (QueueEvent Nat),
      ∃ cfg, monitor.Run (start 1 .dropOldest 1) events cfg
        ∧ events.flatMap accepted = [7, 8] ∧ events.flatMap removed = [(7, .evicted), (8, .popped)]
        ∧ events.flatMap accepted = (events.flatMap removed).map (·.1) ++ cfg.state.contents := by
  have hrun : (monitor (T := Nat)).Run (start 1 .dropOldest 1) [] ⟨new 1 .dropOldest, [.idle]⟩ :=
    .refl
  have hrun := hrun.call_alone (show monitor.enter (.tryPush 7) _ = .done _ _ _ from rfl)
  have hrun := hrun.call_alone (show monitor.enter (.push 8) _ = .done _ _ _ from rfl)
  have hrun := hrun.call_alone (show monitor.enter .pop _ = .done _ _ _ from rfl)
  exact ⟨_, _, hrun, by decide, by decide, (run_fifo hrun).2.2.1⟩

/-- Once closed, the queue stays closed and accepts nothing. Unless it is cleared, what it held comes
out in order, and what has not come out is still there. -/
theorem run_drains {capacity threads : Nat} {policy : DropPolicy}
    {events later : List (QueueEvent T)} {cfg cfg' : Config (BoundedQueue T) Condition (QueueCall T)}
    (h : monitor.Run (start capacity policy threads) events cfg) (hclosed : cfg.state.closed = true)
    (hlater : monitor.Run cfg later cfg') (hkept : ∀ e ∈ later, e.call ≠ .clear) :
    cfg'.state.closed = true ∧ later.flatMap accepted = []
      ∧ cfg.state.contents = later.flatMap popped ++ cfg'.state.contents := by
  have hhistory : History policy events cfg.state :=
    h.history_induction (history_new capacity policy) fun _ _ _ _ _ hbefore => hbefore.step
  refine (hlater.history_induction (P := fun later q => (∀ e ∈ later, e.call ≠ .clear) → q.Ring
    ∧ q.closed = true ∧ later.flatMap accepted = []
      ∧ cfg.state.contents = later.flatMap popped ++ q.contents)
    (fun _ => ⟨hhistory.ring, hclosed, rfl, rfl⟩) ?_ hkept).2
  intro later c q r q' ih hcompletes hkept
  obtain ⟨hbefore, hlast⟩ := forall_mem_append.mp hkept
  obtain ⟨hring, hclosed, haccepted, hpopped⟩ := ih hbefore
  have hrefines := hring.completes hcompletes
  obtain ⟨hclosed', hnone, hout⟩ := drains hrefines hclosed (hlast _ (mem_singleton_self _))
  refine ⟨hrefines.1.ring, hclosed', ?_, ?_⟩
  · rw [flatMap_append, haccepted, flatMap_singleton, hnone]
    rfl
  · rw [flatMap_append, flatMap_singleton, append_assoc, ← hout, hpopped]

/-- A push, the closing of the queue, a push that is refused and a pop. -/
theorem run_drains_one : ∃ later : List (QueueEvent Nat), later.map (·.call) = [.push 8, .pop]
    ∧ later.flatMap accepted = [] ∧ ∃ rest, [7] = later.flatMap popped ++ rest := by
  let q : BoundedQueue Nat := { (new 2 .block).enqueue 7 with closed := true }
  have hrun : (monitor (T := Nat)).Run (start 2 .block 1) [] ⟨new 2 .block, [.idle]⟩ := .refl
  have hrun := hrun.call_alone (show monitor.enter (.push 7) _ = .done _ _ _ from rfl)
  have hrun := hrun.call_alone (show monitor.enter .close _ = .done q _ _ from rfl)
  have hlater : monitor.Run ⟨q, [.idle]⟩ [] ⟨q, [.idle]⟩ := .refl
  have hlater := hlater.call_alone (show monitor.enter (.push 8) _ = .done _ _ _ from rfl)
  have hlater := hlater.call_alone (show monitor.enter .pop _ = .done _ _ _ from rfl)
  obtain ⟨-, hnone, hout⟩ := run_drains hrun rfl hlater (by simp)
  exact ⟨_, rfl, hnone, _, hout⟩

end BoundedQueue

end Conduit.Queue

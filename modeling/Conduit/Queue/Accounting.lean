import Conduit.Queue.Fifo

/-!
# The counters of the bounded queue

The statistics say how many elements were added, taken and dropped. They are kept in every critical
section; the counters wrap around as numbers of 64 bits. A `push_for` whose time is up changes
nothing, and `clear` drops elements that are counted nowhere.
-/

namespace Conduit.Queue

open Sync List

variable {T : Type} [Inhabited T]

namespace QueueEvent

/-- A push that an open and full queue has refused. -/
def rejected (e : QueueEvent T) : Bool :=
  match e.result with
  | .pushed false => !e.before.hasRoom
  | _ => false

/-- A `push_for` that has waited in vain. -/
def TimedOut (e : QueueEvent T) : Prop :=
  (∃ v, e.call = .pushFor v) ∧ e.result = .pushed false ∧ e.before.hasRoom = false
    ∧ e.after = e.before

/-- The elements that a push has dropped. -/
def evicted (e : QueueEvent T) : List (T × Fate) := e.removed.filter (·.2 = .evicted)

end QueueEvent

namespace BoundedQueue

open QueueEvent

variable {q q' : BoundedQueue T} {c : QueueCall T} {r : QueueResult T}

/-- The statistics after one more event. -/
structure Counted (e : QueueEvent T) : Prop where
  enqueued : e.after.stats.enqueued = e.before.stats.enqueued + UInt64.ofNat e.accepted.length
  dequeued : e.after.stats.dequeued = e.before.stats.dequeued + UInt64.ofNat e.popped.length
  dropped : e.after.stats.dropped
    = e.before.stats.dropped + UInt64.ofNat (e.evicted.length + e.rejected.toNat)
  current : e.before.stats.currentSize = e.before.size → e.after.stats.currentSize = e.after.size
  peak : e.before.size ≤ e.before.stats.peakSize →
    e.after.stats.peakSize = max e.before.stats.peakSize e.after.size

theorem counted_same {e : QueueEvent T} (hstats : e.after.stats = e.before.stats)
    (hsize : e.after.size = e.before.size) (haccepted : e.accepted = []) (hpopped : e.popped = [])
    (hevicted : e.evicted = []) (hrejected : e.rejected = false) : Counted e := by
  constructor
  · rw [hstats, haccepted]
    exact (UInt64.add_zero _).symm
  · rw [hstats, hpopped]
    exact (UInt64.add_zero _).symm
  · rw [hstats, hevicted, hrejected]
    exact (UInt64.add_zero _).symm
  · rw [hstats, hsize]
    exact id
  · intro hpeak
    rw [hstats, hsize, Nat.max_eq_left hpeak]

theorem Ring.counted_insert (h : q.Ring) {v : T} (hitem : c.item? = some v) {refuses : Bool}
    (htakes : q.Takes refuses) :
    Counted ⟨c, q, .pushed (q.insert refuses v).1, (q.insert refuses v).2⟩ := by
  by_cases hclosed : q.closed = true
  · have hinsert : q.insert refuses v = (false, q) := if_pos hclosed
    rw [hinsert]
    refine counted_same rfl rfl (accepted_of_refused _ _ _) rfl ?_ (by simp [rejected, hasRoom, hclosed])
    rw [evicted, removed_of_refused hitem, filter_nil]
  have hopen : q.closed = false := Bool.eq_false_iff.mpr hclosed
  by_cases hroom : q.size < q.capacity
  · have hinsert : q.insert refuses v = (true, q.enqueue v) := by
      rw [BoundedQueue.insert, if_neg hclosed, if_neg (by omega)]
    rw [hinsert]
    have hnone : evicted ⟨c, q, .pushed true, q.enqueue v⟩ = [] := by
      rw [evicted, removed_of_push hitem, if_neg hroom.ne, filter_nil]
    exact ⟨by rw [accepted_of_push hitem]; rfl, (UInt64.add_zero _).symm,
      by rw [hnone]; exact (UInt64.add_zero _).symm, fun _ => rfl, fun _ => rfl⟩
  have hfull : q.size = q.capacity := Nat.le_antisymm h.size (by omega)
  by_cases hpolicy : q.dropPolicy = .dropOldest
  · have hinsert : q.insert refuses v = (true, q.dropHead.countDropped.enqueue v) := by
      rw [BoundedQueue.insert, if_neg hclosed, if_pos (by omega), if_pos hpolicy]
    rw [hinsert]
    have hone : (evicted ⟨c, q, .pushed true, q.dropHead.countDropped.enqueue v⟩).length = 1 := by
      have hpos := h.capacity
      have hlength := length_contents q
      have hall : ∀ x ∈ (q.contents.take 1).map (·, Fate.evicted), decide (x.2 = .evicted) = true := by
        intro x hx
        obtain ⟨w, -, rfl⟩ := mem_map.mp hx
        rfl
      rw [evicted, removed_of_push hitem, if_pos hfull, filter_eq_self.mpr hall,
        length_map, length_take]
      omega
    exact ⟨by rw [accepted_of_push hitem]; rfl, (UInt64.add_zero _).symm, by rw [hone]; rfl,
      fun _ => rfl, fun _ => rfl⟩
  have hrefuses : refuses = true := by
    rcases htakes with hlt | hcl | hr | hp
    · exact absurd hlt hroom
    · exact absurd hcl hclosed
    · exact hr
    · exact absurd hp hpolicy
  have hinsert : q.insert refuses v = (false, q.countDropped) := by
    rw [BoundedQueue.insert, if_neg hclosed, if_pos (by omega), if_neg hpolicy, if_pos hrefuses]
  rw [hinsert]
  have hnone : evicted ⟨c, q, .pushed false, q.countDropped⟩ = [] := by
    rw [evicted, removed_of_refused hitem, filter_nil]
  have hrejected : rejected ⟨c, q, .pushed false, q.countDropped⟩ = true := by
    simp [rejected, hasRoom, hopen, hroom]
  exact ⟨by rw [accepted_of_refused]; exact (UInt64.add_zero _).symm, (UInt64.add_zero _).symm,
    by rw [hnone, hrejected]; rfl, id, fun hpeak => (Nat.max_eq_left hpeak).symm⟩

theorem counted_take (hc : c.Pops) : Counted ⟨c, q, .popped q.take.1, q.take.2⟩ := by
  have hnone : ∀ item, evicted ⟨c, q, .popped item, q.take.2⟩ = [] := by
    intro item
    rw [evicted, removed_of_pop hc]
    exact filter_eq_nil_iff.mpr (by simp)
  by_cases hempty : q.size = 0
  · have htake : q.take = (none, q) := if_pos hempty
    rw [htake] at hnone ⊢
    exact counted_same rfl rfl (accepted_of_pop _ _ _ _) rfl (hnone _) rfl
  have htake : q.take = (some q.takeHead.1, q.takeHead.2) := if_neg hempty
  rw [htake] at hnone ⊢
  refine ⟨by rw [accepted_of_pop]; exact (UInt64.add_zero _).symm, rfl,
    by rw [hnone]; exact (UInt64.add_zero _).symm, fun _ => rfl, fun hpeak => ?_⟩
  exact (Nat.max_eq_left ((Nat.sub_le _ _).trans hpeak)).symm

theorem takeLoop_stats (n : Nat) (q : BoundedQueue T) :
    (takeLoop n q).2.stats = q.stats ∧ (takeLoop n q).1.length = n := by
  induction n generalizing q with
  | zero => exact ⟨rfl, rfl⟩
  | succ n ih => exact ⟨(ih _).1, congrArg (· + 1) (ih _).2⟩

theorem counted_takeBatch (maxCount : Nat) :
    Counted ⟨.popBatch maxCount, q, .batch (q.takeBatch maxCount).1, (q.takeBatch maxCount).2⟩ := by
  obtain ⟨hstats, hlength⟩ := takeLoop_stats (min maxCount q.size) q
  obtain ⟨hsize, -, -⟩ := takeLoop_same (min maxCount q.size) q
  have hnone : evicted ⟨.popBatch maxCount, q, .batch (q.takeBatch maxCount).1,
      (q.takeBatch maxCount).2⟩ = [] :=
    filter_eq_nil_iff.mpr (by simp [removed])
  refine ⟨?_, ?_, ?_, fun _ => rfl, fun hpeak => ?_⟩
  · exact (congrArg QueueStats.enqueued hstats).trans (UInt64.add_zero _).symm
  · show (takeLoop _ q).2.stats.dequeued + _ = q.stats.dequeued + UInt64.ofNat (takeLoop _ q).1.length
    rw [hstats, hlength]
  · rw [hnone]
    exact (congrArg QueueStats.dropped hstats).trans (UInt64.add_zero _).symm
  · show (takeLoop _ q).2.stats.peakSize = max q.stats.peakSize ((takeLoop _ q).2.size - _)
    rw [hstats, hsize, Nat.max_eq_left ((Nat.sub_le _ _).trans hpeak)]

theorem Ring.counted (h : q.Ring) (hcompletes : monitor.Completes c q r q') (hclear : c ≠ .clear)
    (htime : ¬ TimedOut ⟨c, q, r, q'⟩) : Counted ⟨c, q, r, q'⟩ := by
  cases effect_completes hcompletes with
  | insert refuses hitem htakes => exact h.counted_insert hitem htakes
  | timeUp v hroom => exact absurd ⟨⟨v, rfl⟩, rfl, hroom, rfl⟩ htime
  | take hpops => exact counted_take hpops
  | takeBatch maxCount => exact counted_takeBatch maxCount
  | close => exact counted_same rfl rfl rfl rfl rfl rfl
  | clear => exact absurd rfl hclear

/-- What the statistics say after some events. -/
structure Accounts (events : List (QueueEvent T)) (q : BoundedQueue T) : Prop where
  enqueued : q.stats.enqueued = UInt64.ofNat (events.flatMap accepted).length
  dequeued : q.stats.dequeued = UInt64.ofNat (events.flatMap popped).length
  dropped : q.stats.dropped
    = UInt64.ofNat ((events.flatMap evicted).length + events.countP rejected)
  current : q.stats.currentSize = q.size
  peak : q.stats.peakSize = (events.map (·.after.size)).foldl max 0
  le_peak : q.size ≤ q.stats.peakSize

theorem Accounts.step {events : List (QueueEvent T)} (h : Accounts events q)
    (he : Counted ⟨c, q, r, q'⟩) : Accounts (events ++ [⟨c, q, r, q'⟩]) q' := by
  have hpeak := he.peak h.le_peak
  constructor
  · rw [he.enqueued, h.enqueued, ← UInt64.ofNat_add, flatMap_append, length_append,
      flatMap_singleton]
  · rw [he.dequeued, h.dequeued, ← UInt64.ofNat_add, flatMap_append, length_append,
      flatMap_singleton]
  · rw [he.dropped, h.dropped, ← UInt64.ofNat_add, flatMap_append, length_append,
      flatMap_singleton, countP_append, countP_singleton]
    congr 1
    cases rejected ⟨c, q, r, q'⟩ <;> simp <;> omega
  · exact he.current h.current
  · rw [hpeak, h.peak, map_append, foldl_append]
    rfl
  · rw [hpeak]
    exact Nat.le_max_right _ _

variable {capacity threads : Nat} {policy : DropPolicy} {events : List (QueueEvent T)}
  {cfg : Config (BoundedQueue T) Condition (QueueCall T)}

theorem accounts_run (h : monitor.Run (start capacity policy threads) events cfg)
    (hcalls : ∀ e ∈ events, e.call ≠ .clear ∧ ¬ TimedOut e) :
    Accounts events cfg.state ∧ History policy events cfg.state := by
  have hboth : History policy events cfg.state
      ∧ ((∀ e ∈ events, e.call ≠ .clear ∧ ¬ TimedOut e) → Accounts events cfg.state) := by
    refine h.history_induction (P := fun events q => History policy events q
      ∧ ((∀ e ∈ events, e.call ≠ .clear ∧ ¬ TimedOut e) → Accounts events q)) ?_ ?_
    · exact ⟨history_new capacity policy, fun _ => ⟨rfl, rfl, rfl, rfl, rfl, Nat.le_refl _⟩⟩
    rintro events c q r q' ⟨hhistory, haccounts⟩ hcompletes
    refine ⟨hhistory.step hcompletes, fun hall => ?_⟩
    have hbefore := haccounts fun e he => hall e (mem_append_left _ he)
    obtain ⟨hclear, htime⟩ := hall ⟨c, q, r, q'⟩ (mem_append_right _ (mem_singleton.mpr rfl))
    exact hbefore.step (hhistory.ring.counted hcompletes hclear htime)
  exact ⟨hboth.2 hcalls, hboth.1⟩

theorem balance (h : History policy events q) (hcalls : ∀ e ∈ events, e.call ≠ .clear) :
    (events.flatMap accepted).length
      = (events.flatMap popped).length + (events.flatMap evicted).length + q.size := by
  have hevicted : events.flatMap evicted = (events.flatMap removed).filter (·.2 = .evicted) := by
    rw [filter_flatMap]
    rfl
  have hfates : (events.flatMap removed).countP (fun x => !decide (x.2 = .popped))
      = (events.flatMap removed).countP (·.2 = .evicted) := by
    refine countP_congr fun x hx => ?_
    obtain ⟨e, he, hx⟩ := mem_flatMap.mp hx
    obtain ⟨v, fate⟩ := x
    cases fate with
    | popped => simp
    | evicted => simp
    | cleared => exact absurd hx (not_cleared (hcalls e he) v)
  have hlength := length_eq_countP_add_countP (fun x : T × Fate => decide (x.2 = .popped))
    (l := events.flatMap removed)
  rw [h.accepted, h.popped, hevicted, length_append, length_map, length_map,
    length_contents, ← countP_eq_length_filter, ← countP_eq_length_filter]
  simp only [decide_not, Bool.decide_eq_true] at hlength
  omega

/-- In every run without `clear` and without a `push_for` whose time is up, the counters are the
numbers of the elements that were added, taken and dropped, modulo their 64 bits. -/
theorem run_accounts (h : monitor.Run (start capacity policy threads) events cfg)
    (hcalls : ∀ e ∈ events, e.call ≠ .clear ∧ ¬ TimedOut e) :
    cfg.state.stats.enqueued.toNat = (events.flatMap accepted).length % 2 ^ 64
      ∧ cfg.state.stats.dequeued.toNat = (events.flatMap popped).length % 2 ^ 64
      ∧ cfg.state.stats.dropped.toNat
        = ((events.flatMap evicted).length + events.countP rejected) % 2 ^ 64
      ∧ (events.flatMap accepted).length
        = (events.flatMap popped).length + (events.flatMap evicted).length + cfg.state.size
      ∧ cfg.state.stats.currentSize = cfg.state.size
      ∧ cfg.state.stats.peakSize = (events.map (·.after.size)).foldl max 0 := by
  obtain ⟨haccounts, hhistory⟩ := accounts_run h hcalls
  refine ⟨?_, ?_, ?_, balance hhistory fun e he => (hcalls e he).1, haccounts.current,
    haccounts.peak⟩
  · rw [haccounts.enqueued, UInt64.toNat_ofNat']
  · rw [haccounts.dequeued, UInt64.toNat_ofNat']
  · rw [haccounts.dropped, UInt64.toNat_ofNat']

/-- Any number of pushes, all of them accepted. -/
theorem exists_run_pushes (n : Nat) : ∃ (events : List (QueueEvent Nat)) (q : BoundedQueue Nat),
    monitor.Run (start 1 .dropOldest 1) events ⟨q, [.idle]⟩
      ∧ q.closed = false ∧ q.dropPolicy = .dropOldest
      ∧ (∀ e ∈ events, e.call ≠ .clear ∧ ¬ TimedOut e) ∧ (events.flatMap accepted).length = n := by
  induction n with
  | zero => exact ⟨[], new 1 .dropOldest, .refl, rfl, rfl, by simp, rfl⟩
  | succ n ih =>
    obtain ⟨events, q, hrun, hopen, hpolicy, hcalls, hlength⟩ := ih
    obtain ⟨haccepted, hsame⟩ : (q.insert true 0).1 = true
        ∧ (q.insert true 0).2.dropPolicy = .dropOldest := by
      rw [BoundedQueue.insert, if_neg (by simp [hopen]), if_pos hpolicy]
      split <;> exact ⟨rfl, hpolicy⟩
    have henter : monitor.enter (.tryPush 0) q
        = .done (q.insert true 0).2 (.pushed true) [.one .notEmpty] := by
      show pushEnd _ = _
      rw [pushEnd, haccepted]
      rfl
    refine ⟨_, _, hrun.call_alone henter, (closed_insert true 0 q).trans hopen, hsame, ?_, ?_⟩
    · intro e he
      rcases mem_append.mp he with he | he
      · exact hcalls e he
      rw [mem_singleton] at he
      subst he
      simp [TimedOut]
    · rw [flatMap_append, length_append, hlength]
      rfl

/-- Two pushes are counted. -/
theorem run_accounts_two :
    ∃ events : List (QueueEvent Nat), ∃ cfg, monitor.Run (start 1 .dropOldest 1) events cfg
      ∧ (∀ e ∈ events, e.call ≠ .clear ∧ ¬ TimedOut e) ∧ cfg.state.stats.enqueued.toNat = 2 := by
  obtain ⟨events, q, hrun, -, -, hcalls, hlength⟩ := exists_run_pushes 2
  exact ⟨events, _, hrun, hcalls, by rw [(run_accounts hrun hcalls).1, hlength]; rfl⟩

/-- After as many pushes as the counter has values it is at zero again. -/
theorem run_accounts_wraps :
    ∃ events : List (QueueEvent Nat), ∃ cfg, monitor.Run (start 1 .dropOldest 1) events cfg
      ∧ (∀ e ∈ events, e.call ≠ .clear ∧ ¬ TimedOut e)
      ∧ (events.flatMap accepted).length = 2 ^ 64 ∧ cfg.state.stats.enqueued = 0 := by
  obtain ⟨events, q, hrun, -, -, hcalls, hlength⟩ := exists_run_pushes (2 ^ 64)
  refine ⟨events, _, hrun, hcalls, hlength, ?_⟩
  rw [(accounts_run hrun hcalls).1.enqueued, hlength]
  rfl

end BoundedQueue

end Conduit.Queue

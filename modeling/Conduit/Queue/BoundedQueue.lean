import Conduit.Data.Ring
import Conduit.Sync.Monitor

/-!
# The bounded queue

`include/conduit/queue/bounded_queue.hpp`: a ring buffer under a mutex with the condition variables
`not_empty_` and `not_full_`. Every operation is the critical section of a monitor call. The
counters are 64-bit numbers. The queries and `reset_stats` change nothing that the operations look
at, and are left out.
-/

namespace Conduit.Queue

open Sync

/-- `bounded_queue.hpp:20-24`. -/
inductive DropPolicy where
  | dropOldest | dropNewest | block
deriving DecidableEq

/-- `bounded_queue.hpp:30-44`. -/
structure QueueStats where
  enqueued : UInt64 := 0
  dequeued : UInt64 := 0
  dropped : UInt64 := 0
  peakSize : Nat := 0
  currentSize : Nat := 0

/-- `bounded_queue.hpp:349-363`, without the mutex and the condition variables. -/
structure BoundedQueue (T : Type) where
  capacity : Nat
  dropPolicy : DropPolicy
  buffer : List T
  head : Nat
  tail : Nat
  size : Nat
  closed : Bool
  stats : QueueStats

namespace BoundedQueue

variable {T : Type} [Inhabited T] (q : BoundedQueue T)

/-- The constructor (`bounded_queue.hpp:71-78`). -/
def new (capacity : Nat) (policy : DropPolicy) : BoundedQueue T :=
  let capacity := if capacity > 0 then capacity else 1
  { capacity, dropPolicy := policy, buffer := List.replicate capacity default
    head := 0, tail := 0, size := 0, closed := false, stats := {} }

/-- The slot at the head is emptied and the head moves on. -/
def dropHead : BoundedQueue T :=
  { q with
    buffer := q.buffer.set q.head default
    head := (q.head + 1) % q.capacity
    size := q.size - 1 }

def countDropped : BoundedQueue T :=
  { q with stats := { q.stats with dropped := q.stats.dropped + 1 } }

/-- The common end of the pushes, with `update_peak_size`. -/
def enqueue (item : T) (q : BoundedQueue T) : BoundedQueue T :=
  { q with
    buffer := q.buffer.set q.tail item
    tail := (q.tail + 1) % q.capacity
    size := q.size + 1
    stats := { q.stats with
      enqueued := q.stats.enqueued + 1
      currentSize := q.size + 1
      peakSize := max q.stats.peakSize (q.size + 1) } }

/-- The common body of the pushes. They differ in whether a queue that is full, and may not drop
its oldest element, refuses the new one. -/
def insert (refuses : Bool) (item : T) (q : BoundedQueue T) : Bool × BoundedQueue T :=
  if q.closed then (false, q)
  else if q.size ≥ q.capacity then
    if q.dropPolicy = .dropOldest then (true, q.dropHead.countDropped.enqueue item)
    else if refuses then (false, q.countDropped)
    else (true, q.enqueue item)
  else (true, q.enqueue item)

/-- The common end of the single pops, for a queue that is not empty. -/
def takeHead : T × BoundedQueue T :=
  let item := q.buffer.getD q.head default
  let q := q.dropHead
  (item, { q with stats := { q.stats with
    dequeued := q.stats.dequeued + 1, currentSize := q.size } })

/-- The common body of the single pops. -/
def take : Option T × BoundedQueue T :=
  if q.size = 0 then (none, q) else (some q.takeHead.1, q.takeHead.2)

/-- The loop of `pop_batch`; the size is corrected behind it. -/
def takeLoop : Nat → BoundedQueue T → List T × BoundedQueue T
  | 0, q => ([], q)
  | n + 1, q =>
    let item := q.buffer.getD q.head default
    let (items, q) := takeLoop n { q with
      buffer := q.buffer.set q.head default
      head := (q.head + 1) % q.capacity }
    (item :: items, q)

theorem takeLoop_same (n : Nat) (q : BoundedQueue T) :
    (takeLoop n q).2.size = q.size ∧ (takeLoop n q).2.closed = q.closed
      ∧ (takeLoop n q).2.capacity = q.capacity := by
  induction n generalizing q with
  | zero => exact ⟨rfl, rfl, rfl⟩
  | succ n ih => exact ih _

/-- `bounded_queue.hpp:264-284`, the critical section. -/
def takeBatch (maxCount : Nat) (q : BoundedQueue T) : List T × BoundedQueue T :=
  let count := min maxCount q.size
  let (items, q) := takeLoop count q
  let size := q.size - count
  (items, { q with
    size
    stats := { q.stats with
      dequeued := q.stats.dequeued + UInt64.ofNat count, currentSize := size } })

/-- `while (size_ > 0)` of `clear`: every turn takes one element. -/
def clearLoop : Nat → BoundedQueue T → BoundedQueue T
  | 0, q => q
  | n + 1, q => clearLoop n q.dropHead

theorem clearLoop_same (n : Nat) (q : BoundedQueue T) :
    (clearLoop n q).size = q.size - n ∧ (clearLoop n q).closed = q.closed := by
  induction n generalizing q with
  | zero => exact ⟨rfl, rfl⟩
  | succ n ih =>
    obtain ⟨hsize, hclosed⟩ := ih q.dropHead
    refine ⟨hsize.trans ?_, hclosed⟩
    show q.size - 1 - n = q.size - (n + 1)
    omega

/-- `bounded_queue.hpp:304-313`, the critical section. -/
def clear : BoundedQueue T :=
  let q := clearLoop q.size q
  { q with stats := { q.stats with currentSize := 0 } }

/-- What a producer waits for. -/
def hasRoom : Bool := decide (q.size < q.capacity) || q.closed

/-- What a consumer waits for. -/
def hasItem : Bool := decide (q.size > 0) || q.closed

end BoundedQueue

/-! ## The operations -/

inductive Condition where
  | notEmpty | notFull
deriving DecidableEq

inductive QueueCall (T : Type) where
  | tryPush (item : T)
  | push (item : T)
  | pushFor (item : T)
  | tryPop
  | pop
  | popFor
  | popBatch (maxCount : Nat)
  | close
  | clear

inductive QueueResult (T : Type) where
  | pushed (accepted : Bool)
  | popped (item : Option T)
  | batch (items : List T)
  | none

namespace BoundedQueue

variable {T : Type} [Inhabited T] (item : T) (q : BoundedQueue T)

/-- The end of a push: `not_empty_.notify_one()` if the element was accepted. -/
def pushEnd (r : Bool × BoundedQueue T) : Outcome (BoundedQueue T) Condition (QueueResult T) :=
  .done r.2 (.pushed r.1) (if r.1 then [.one .notEmpty] else [])

/-- The end of a pop: `not_full_.notify_one()` if there was an element. -/
def popEnd (r : Option T × BoundedQueue T) : Outcome (BoundedQueue T) Condition (QueueResult T) :=
  .done r.2 (.popped r.1) (if r.1.isSome then [.one .notFull] else [])

/-- `bounded_queue.hpp:89-121`. -/
def tryPush : Outcome (BoundedQueue T) Condition (QueueResult T) := pushEnd (q.insert true item)

/-- `bounded_queue.hpp:123-156`. -/
def push : Outcome (BoundedQueue T) Condition (QueueResult T) :=
  if q.dropPolicy = .block ∧ q.hasRoom = false then .wait
  else pushEnd (q.insert (q.dropPolicy == .dropNewest) item)

/-- `bounded_queue.hpp:158-194`, up to a wait. -/
def pushFor : Outcome (BoundedQueue T) Condition (QueueResult T) :=
  if q.dropPolicy = .block ∧ q.size ≥ q.capacity ∧ q.hasRoom = false then .wait
  else pushEnd (q.insert true item)

/-- `push_for` after a wait: when the time is up the predicate decides. -/
def pushForWoken (timeUp : Bool) (q : BoundedQueue T) :
    Outcome (BoundedQueue T) Condition (QueueResult T) :=
  if q.hasRoom then pushEnd (q.insert true item)
  else if timeUp then .done q (.pushed false) []
  else .wait

/-- `bounded_queue.hpp:200-215`. -/
def tryPop : Outcome (BoundedQueue T) Condition (QueueResult T) := popEnd q.take

/-- `bounded_queue.hpp:217-236`. -/
def pop : Outcome (BoundedQueue T) Condition (QueueResult T) :=
  if q.hasItem then popEnd q.take else .wait

/-- `bounded_queue.hpp:239-262` after a wait. -/
def popForWoken (timeUp : Bool) (q : BoundedQueue T) :
    Outcome (BoundedQueue T) Condition (QueueResult T) :=
  if q.hasItem then popEnd q.take
  else if timeUp then .done q (.popped none) []
  else .wait

/-- `bounded_queue.hpp:264-284`. -/
def popBatch (maxCount : Nat) (q : BoundedQueue T) :
    Outcome (BoundedQueue T) Condition (QueueResult T) :=
  .done (q.takeBatch maxCount).2 (.batch (q.takeBatch maxCount).1)
    (if 0 < min maxCount q.size then [.all .notFull] else [])

/-- The queue as a monitor. -/
def monitor : Monitor (BoundedQueue T) Condition (QueueCall T) (QueueResult T) where
  cond
    | .tryPush _ | .push _ | .pushFor _ => .notFull
    | _ => .notEmpty
  enter
    | .tryPush item => tryPush item
    | .push item => push item
    | .pushFor item => pushFor item
    | .tryPop => tryPop
    | .pop | .popFor => pop
    | .popBatch maxCount => popBatch maxCount
    | .close => fun q => .done { q with closed := true } .none [.all .notEmpty, .all .notFull]
    | .clear => fun q => .done q.clear .none [.all .notFull]
  resume
    | .push item, _ => push item
    | .pushFor item, timeUp => pushForWoken item timeUp
    | .pop, _ => pop
    | .popFor, timeUp => popForWoken timeUp
    -- the others never wait
    | .tryPush item, _ => tryPush item
    | .tryPop, _ => tryPop
    | .popBatch maxCount, _ => popBatch maxCount
    | .close, _ => fun q => .done { q with closed := true } .none [.all .notEmpty, .all .notFull]
    | .clear, _ => fun q => .done q.clear .none [.all .notFull]

/-- A queue with `threads` threads that have not called anything yet. -/
def start (capacity : Nat) (policy : DropPolicy) (threads : Nat) :
    Config (BoundedQueue T) Condition (QueueCall T) :=
  { state := new capacity policy, threads := List.replicate threads .idle }

end BoundedQueue

end Conduit.Queue

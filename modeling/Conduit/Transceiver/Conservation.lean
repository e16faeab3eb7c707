import Conduit.Transceiver.Pipeline

/-!
# Where the messages go

Every decoded message is held by an I/O thread, by the queue or by a worker, or it has left the
pipeline and was counted, found no handler, or was dropped by a push into a full queue. The last
kind is counted by the queue and not by the transceiver.
-/

namespace Conduit.Transceiver

open Queue Sync Label BoundedQueue IoThread TransceiverStats List

variable {ι S P : Type}

/-- The messages an I/O thread has still to account for. -/
def IoThread.held : IoThread ι P → Nat
  | .pushing pending => pending.length
  | .refused rest => rest.length + 1

def Worker.held : Worker ι P → Nat
  | .handling _ => 1
  | _ => 0

/-- A push that finds the queue open and full under `DropPolicy::DropOldest`. -/
def Label.evicts : Label ι P → Bool
  | .push _ _ before _ => decide before.Evicts
  | _ => false

/-- A dispatch that finds no handler. -/
def Label.notFound : Label ι P → Bool
  | .dispatch _ _ result => result == .notFound
  | _ => false

namespace Pipeline

/-- The messages in the callbacks. -/
def pending (p : Pipeline ι S P) : Nat := (p.io.map held).sum

/-- The messages with the workers. -/
def handling (p : Pipeline ι S P) : Nat := (p.workers.map Worker.held).sum

/-- The messages that a counter of the transceiver or a dispatch without a handler accounts for. -/
def accounted (labels : List (Label ι P)) (p : Pipeline ι S P) : Nat :=
  p.stats.messagesDispatched.toNat + p.stats.handlerErrors.toNat + p.stats.messagesDropped.toNat
    + labels.countP notFound

variable [DecidableEq ι] [Inhabited ι] [Inhabited P] {session : ISession S P}
  {labels : List (Label ι P)} {p : Pipeline ι S P}

structure Conserved (labels : List (Label ι P)) (p : Pipeline ι S P) : Prop where
  ring : p.queue.Ring
  total : p.stats.messagesReceived.toNat
    = (p.accounted labels + labels.countP evicts + p.pending + p.queue.size + p.handling) % 2 ^ 64

omit [DecidableEq ι] in
theorem conserved_start (peers : ι → Option (PeerContext S)) (threads capacity : Nat)
    (policy : DropPolicy) (workers : Nat) :
    Conserved [] (start peers threads capacity policy workers : Pipeline ι S P) := by
  refine ⟨ring_new capacity policy, ?_⟩
  simp [start, accounted, pending, handling, held, Worker.held, new]

theorem Conserved.step {label : Label ι P} {p' : Pipeline ι S P} (h : Conserved labels p)
    (hstep : Step session p label p') : Conserved (labels ++ [label]) p' := by
  obtain ⟨hring, htotal⟩ := h
  refine And.elim Conserved.mk ?_
  simp only [accounted, pending, handling, countP_append, countP_singleton] at htotal ⊢
  cases hstep with simp only [notFound, evicts, Bool.false_eq_true, if_false]
  | receive i peer data old ctx messages errors hio _ _ =>
    refine ⟨hring, ?_⟩
    have hmove := sum_map_set held hio (.pushing (messages.map (InboundMessage.mk peer)))
    simp only [held, length_map, length_nil] at hmove
    simp only [received, UInt64.toNat_add, UInt64.toNat_ofNat']
    omega
  | receiveUnknown i peer data _ _ =>
    refine ⟨hring, ?_⟩
    simp only [received, UInt64.toNat_add, UInt64.toNat_ofNat']
    omega
  | push i message rest accepted queue hio hpush =>
    refine ⟨(hring.completes hpush).1.ring, ?_⟩
    have hsize := hring.push_size hpush
    have hmove := sum_map_set held hio (if accepted then .pushing rest else .refused rest)
    cases accepted with
    | true =>
      simp only [if_true, held, length_cons] at hmove hsize
      simp only [if_true, decide_eq_true_eq]
      omega
    | false =>
      simp only [if_false, Bool.false_eq_true, held, length_cons] at hmove hsize
      simp only [Bool.false_eq_true, if_false, decide_eq_true_eq]
      omega
  | drop i rest hio =>
    refine ⟨hring, ?_⟩
    have hmove := sum_map_set held hio (.pushing rest)
    simp only [held] at hmove
    simp only [dropped, UInt64.toNat_add, UInt64.toNat_one]
    omega
  | pop j message queue hworker hpop =>
    refine ⟨(hring.completes hpop).1.ring, ?_⟩
    have hsize := congrArg length (hring.pop_some hpop).1
    rw [length_cons, length_contents, length_contents] at hsize
    have hmove := sum_map_set Worker.held hworker (.handling message)
    simp only [Worker.held] at hmove
    omega
  | finish j queue hworker hpop =>
    refine ⟨(hring.completes hpop).1.ring, ?_⟩
    obtain ⟨hbefore, hafter, -⟩ := hring.pop_none hpop
    have hempty : p.queue.size = 0 := by rw [← length_contents, hbefore]; rfl
    have hempty' : queue.size = 0 := by rw [← length_contents, hafter]; rfl
    have hmove := sum_map_set Worker.held hworker .finished
    simp only [Worker.held] at hmove
    omega
  | dispatch j message result hworker =>
    refine ⟨hring, ?_⟩
    have hmove := sum_map_set Worker.held hworker .waiting
    simp only [Worker.held] at hmove
    cases result with
    | handled | notFound | error =>
      simp [dispatched, -map_set]
      omega
  | close queue hclose =>
    refine ⟨(hring.completes hclose).1.ring, ?_⟩
    have hsize := congrArg length (hring.close_contents hclose)
    rw [length_contents, length_contents] at hsize
    omega
  | connect | disconnect | reset =>
    refine ⟨hring, ?_⟩
    omega

theorem conserved_of_trace {peers : ι → Option (PeerContext S)} {threads capacity : Nat}
    {policy : DropPolicy} {workers : Nat}
    (h : Trace (Step session) (start peers threads capacity policy workers) labels p) :
    Conserved labels p :=
  h.invariant Conserved (conserved_start peers threads capacity policy workers)
    fun _ _ _ _ hconserved hstep => hconserved.step hstep

/-- With nothing in the queue and nothing with a worker, the counters miss the messages that the
callbacks hold and those that a push dropped for another. They count modulo `2 ^ 64`. -/
theorem received_accounted_iff {peers : ι → Option (PeerContext S)} {threads capacity : Nat}
    {policy : DropPolicy} {workers : Nat} {labels : List (Label ι P)} {p : Pipeline ι S P}
    (h : Trace (Step session) (start peers threads capacity policy workers) labels p)
    (hqueue : p.queue.size = 0) (hworkers : p.handling = 0) :
    (p.stats.messagesReceived
          = p.stats.messagesDispatched + p.stats.handlerErrors + p.stats.messagesDropped
            + UInt64.ofNat (labels.countP notFound)
        ↔ 2 ^ 64 ∣ p.pending + labels.countP evicts)
      ∧ (p.pending + labels.countP evicts < 2 ^ 64 →
        (2 ^ 64 ∣ p.pending + labels.countP evicts
          ↔ p.pending = 0 ∧ ∀ label ∈ labels, label.evicts = false)) := by
  have htotal := (conserved_of_trace h).total
  have hevicts : labels.countP evicts = 0 ↔ ∀ label ∈ labels, label.evicts = false := by
    simp [countP_eq_zero]
  rw [← hevicts, ← UInt64.toNat_inj]
  simp only [UInt64.toNat_add, UInt64.toNat_ofNat']
  unfold accounted at htotal
  omega

/-! ### One datagram peer -/

/-- Every datagram is one message. -/
def datagrams : ISession Unit Unit where
  decodeFrame s frame := (.ok [⟨0, (), frame⟩], s)
  reset s := s

/-- One I/O thread, one peer, one worker and a queue with one place. -/
def single (policy : DropPolicy) : Pipeline Unit Unit Unit :=
  start (fun _ => some ⟨⟨[], 1, fun _ => 1⟩, (), none⟩) 1 1 policy 1

def datagram (byte : UInt8) : InboundMessage Unit Unit := ⟨(), 0, (), [byte]⟩

/-- A message that is received, pushed, popped and handled. -/
theorem received_accounted_single :
    ∃ labels p, Trace (Step datagrams) (single .block) labels p ∧ p.stats.messagesReceived = 1
      ∧ p.stats.messagesReceived
        = p.stats.messagesDispatched + p.stats.handlerErrors + p.stats.messagesDropped
          + UInt64.ofNat (labels.countP notFound) := by
  have hstart : Trace (Step datagrams) (single .block) [] (single .block) := .nil
  have hrun := ((hstart.snoc _ _ _ _ (.receive _ 0 () [1] _ _ _ _ rfl rfl rfl)).snoc _ _ _ _
    (.push _ 0 (datagram 1) [] true _ rfl ⟨.idle, _, .enter _⟩)).snoc _ _ _ _
    (.pop _ 0 (datagram 1) _ rfl ⟨.idle, _, .enter _⟩) |>.snoc _ _ _ _
    (.dispatch _ 0 (datagram 1) .handled rfl)
  exact ⟨_, _, hrun, rfl, (received_accounted_iff hrun rfl rfl).1.mpr (by decide)⟩

/-- The second message takes the place of the first, which no counter of the transceiver shows. -/
theorem received_accounted_fails :
    ∃ labels p, Trace (Step datagrams) (single .dropOldest) labels p ∧ p.queue.size = 0
      ∧ p.handling = 0 ∧ p.pending = 0
      ∧ p.stats.messagesReceived
        ≠ p.stats.messagesDispatched + p.stats.handlerErrors + p.stats.messagesDropped
          + UInt64.ofNat (labels.countP notFound) := by
  have hstart : Trace (Step datagrams) (single .dropOldest) [] (single .dropOldest) := .nil
  have hrun := ((hstart.snoc _ _ _ _ (.receive _ 0 () [1] _ _ _ _ rfl rfl rfl)).snoc _ _ _ _
    (.push _ 0 (datagram 1) [] true _ rfl ⟨.idle, _, .enter _⟩)).snoc _ _ _ _
    (.receive _ 0 () [2] _ _ _ _ rfl rfl rfl) |>.snoc _ _ _ _
    (.push _ 0 (datagram 2) [] true _ rfl ⟨.idle, _, .enter _⟩) |>.snoc _ _ _ _
    (.pop _ 0 (datagram 2) _ rfl ⟨.idle, _, .enter _⟩) |>.snoc _ _ _ _
    (.dispatch _ 0 (datagram 2) .handled rfl)
  exact ⟨_, _, hrun, rfl, rfl, rfl, by decide⟩

end Pipeline

end Conduit.Transceiver

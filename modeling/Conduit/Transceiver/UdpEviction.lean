import Conduit.Transceiver.UdpRegistry

/-!
# The eviction of silent UDP peers

The I/O loop looks for silent peers only when a poll times out, and at most once a second. Times are
nanoseconds of the steady clock.
-/

namespace Conduit.Transceiver.UdpPeers

open List

/-- What a poll leads to; `idle` stands for an interrupt, a wake-up or a failed receive. -/
inductive Poll where
  | timedOut (now clock : Nat)
  | datagram (sender : SockAddr) (newId now : Nat)
  | idle

structure Turn where
  poll : Poll
  finish : Nat

structure IoLoop where
  peers : UdpPeers
  lastEviction : Nat

/-- `udp.cpp:593-601`: the peers reported as disconnected. -/
def evicted (config : UdpConfig) (now : Nat) (t : UdpPeers) : List Nat :=
  (t.evictions config now).map (·.1)

/-- The time-out is a positive number of seconds whose nanoseconds are `timeout`, in 64 bits. -/
structure HasTimeout (config : UdpConfig) (timeout : Nat) : Prop where
  seconds : config.peerTimeout.toInt * 10 ^ 9 = timeout
  pos : 0 < timeout
  small : timeout < 2 ^ 63

theorem HasTimeout.ne_zero {config : UdpConfig} {timeout : Nat} (h : HasTimeout config timeout) :
    config.peerTimeout ≠ 0 := by
  intro hzero
  have hseconds := h.seconds
  have hpos := h.pos
  rw [hzero] at hseconds
  simp at hseconds
  omega

theorem HasTimeout.nanos {config : UdpConfig} {timeout : Nat} (h : HasTimeout config timeout) :
    config.timeoutNanos = timeout := by
  have hfactor : (1000000000 : Int64).toInt = 10 ^ 9 := by decide
  have hsmall := h.small
  rw [UdpConfig.timeoutNanos, Int64.toInt_mul, hfactor, h.seconds]
  exact Int.bmod_eq_of_le (by omega) (by omega)

variable (config : UdpConfig)

/-- `udp.cpp:400-499` with several peers, and the peers reported as disconnected. -/
def IoLoop.step (s : IoLoop) : Poll → IoLoop × List Nat
  | .timedOut now clock =>
    if now - s.lastEviction ≥ 10 ^ 9 then
      (⟨s.peers.evictStalePeers config clock, now⟩, s.peers.evicted config clock)
    else (s, [])
  | .datagram sender newId now =>
    ({ s with peers := (s.peers.resolvePeer config sender newId now).2 }, [])
  | .idle => (s, [])

/-- The clock is read during the turn. -/
def Poll.Within (start finish : Nat) : Poll → Prop
  | .timedOut now clock => start ≤ now ∧ now ≤ clock ∧ clock ≤ finish
  | .datagram _ _ now => start ≤ now ∧ now ≤ finish
  | .idle => start ≤ finish

def Poll.Fresh (t : UdpPeers) : Poll → Prop
  | .datagram _ newId _ => newId = 0 ∨ t.peerToAddr.lookup newId = none
  | _ => True

/-- Each turn takes at most `d` more than the 100 ms of its poll, and new ids are not in use. -/
def Runs (d : Nat) : IoLoop → Nat → List Turn → Prop
  | _, _, [] => True
  | s, start, turn :: rest =>
    turn.poll.Within start turn.finish ∧ turn.finish ≤ start + 10 ^ 8 + d
      ∧ turn.poll.Fresh s.peers ∧ Runs d (s.step config turn.poll).1 turn.finish rest

/-- A turn of the kind `P` ends by the deadline. -/
def Before (deadline : Nat) (P : IoLoop → Poll → Prop) : IoLoop → List Turn → Prop
  | _, [] => False
  | s, turn :: rest =>
    turn.finish ≤ deadline ∧ P s turn.poll ∨ Before deadline P (s.step config turn.poll).1 rest

/-- The turn evicts the peer and reports it. -/
def Evicts (p : Nat) (s : IoLoop) (poll : Poll) : Prop :=
  p ∈ (s.step config poll).2 ∧ ¬ (s.step config poll).1.peers.Knows p

/-- The poll times out a second or more after the last look, and the look is after `due`. -/
def Looks (due : Nat) (s : IoLoop) : Poll → Prop
  | .timedOut now clock => now - s.lastEviction ≥ 10 ^ 9 ∧ due < clock
  | _ => False

/-- When the address was last heard of, after a poll. -/
def Poll.heard (a : SockAddr) (last : Nat) : Poll → Nat
  | .datagram sender _ now => if sender = a then now else last
  | _ => last

/-- No poll times out later than the time-out after the last datagram of the address. -/
def Sends (timeout : Nat) (a : SockAddr) : Nat → List Turn → Prop
  | _, [] => True
  | last, turn :: rest =>
    (∀ now clock, turn.poll = .timedOut now clock → clock ≤ last + timeout)
      ∧ Sends timeout a (turn.poll.heard a last) rest

/-- The peer is known and was last heard of at `last`. -/
def Heard (t : UdpPeers) (p : Nat) (a : SockAddr) (last : Nat) : Prop :=
  t.peerToAddr.lookup p = some a ∧ t.lastActivity.lookup p = some last

variable {config} {t : UdpPeers} {s : IoLoop} {log : List (SockAddr × Option Nat)} {a : SockAddr}
  {p last d start clock timeout : Nat} {poll : Poll} {turns : List Turn}

theorem Heard.mem_evicted_iff (h : t.Heard p a last) (htimeout : HasTimeout config timeout) :
    p ∈ t.evicted config clock ↔ last + timeout < clock := by
  have hentry : ∀ l, (⟨p, l⟩ : Sigma fun _ : Nat => Nat) ∈ t.lastActivity.entries ↔ l = last := by
    intro l
    rw [← AList.mem_lookup_iff, h.2, Option.mem_some_iff, eq_comm]
  have hnanos := htimeout.nanos
  rw [evicted, evictions, if_neg htimeout.ne_zero, mem_map]
  constructor
  · rintro ⟨q, hq, rfl⟩
    simp only [UdpPeers.stale, mem_filterMap] at hq
    obtain ⟨⟨r, l⟩, hmem, hq⟩ := hq
    split at hq
    next hlate =>
      obtain ⟨b, -, rfl⟩ := Option.map_eq_some_iff.mp hq
      rw [(hentry l).mp hmem] at hlate
      dsimp only at hlate
      omega
    next => cases hq
  · intro hdue
    refine ⟨(p, a), mem_filterMap.mpr ⟨⟨p, last⟩, (hentry last).mpr rfl, ?_⟩, rfl⟩
    simp only [h.1, Option.map_some]
    exact if_pos (by omega)

theorem Heard.foldl_erase {ps : List (Nat × SockAddr)} (h : t.Heard p a last)
    (hp : p ∉ ps.map (·.1)) : (ps.foldl .erase t).Heard p a last := by
  induction ps generalizing t with
  | nil => exact h
  | cons q ps ih =>
    obtain ⟨hne, hps⟩ := not_or.mp (mt mem_cons.mpr hp)
    refine ih ⟨?_, ?_⟩ hps
    · rw [lookup_erase, if_neg hne, h.1]
    · rw [UdpPeers.erase, AList.lookup_erase_ne hne, h.2]

theorem Heard.resolve (h : t.Heard p a last) (hreach : Reaches config t log) {sender : SockAddr}
    (hsender : sender ≠ a) {newId : Nat} (hfresh : newId = 0 ∨ t.peerToAddr.lookup newId = none)
    (now : Nat) : (t.resolvePeer config sender newId now).2.Heard p a last := by
  have hid : p ≠ newId ∨ newId = 0 := hfresh.symm.imp_left fun hnone hp => by
    rw [← hp, h.1] at hnone
    cases hnone
  unfold resolvePeer
  split
  next q hq =>
    have hne : p ≠ q := by
      rintro rfl
      exact hsender (Option.some.inj ((hreach.consistent.inverse sender p hq).symm.trans h.1))
    exact ⟨h.1, (AList.lookup_insert_ne hne).trans h.2⟩
  · split_ifs with _ hzero
    · exact h
    · exact h
    have hne := hid.resolve_right hzero
    exact ⟨(AList.lookup_insert_ne hne).trans h.1, (AList.lookup_insert_ne hne).trans h.2⟩

section
variable (htimeout : HasTimeout config timeout) (hreach : Reaches config s.peers log)
  (h : s.peers.Heard p a last)

include htimeout hreach h

theorem Heard.evicts_iff : Evicts config p s poll ↔ Looks (last + timeout) s poll := by
  cases poll with
  | idle => simp [Evicts, Looks, IoLoop.step]
  | datagram sender newId now => simp [Evicts, Looks, IoLoop.step]
  | timedOut now clock =>
    have hvalid := hreach.consistent.valid
    have hgone : p ∈ s.peers.evicted config clock →
        ¬ (s.peers.evictStalePeers config clock).Knows p := by
      rw [evicted, evictions, evictStalePeers, if_neg htimeout.ne_zero, if_neg htimeout.ne_zero,
        (hvalid.foldl_erase (hvalid.stale config clock)).2]
      exact fun hp hknown => hknown.2 hp
    rw [Evicts, Looks, ← h.mem_evicted_iff htimeout, IoLoop.step]
    split
    next hpass => exact ⟨fun h => ⟨hpass, h.1⟩, fun h => ⟨h.2, hgone h.2⟩⟩
    next hpass => exact iff_of_false (fun h => not_mem_nil h.1) fun h => hpass h.1

theorem Heard.step (hfresh : poll.Fresh s.peers) (hsilent : ∀ id now, poll ≠ .datagram a id now)
    (hlooks : ¬ Looks (last + timeout) s poll) :
    (s.step config poll).1.peers.Heard p a last
      ∧ ∃ log, Reaches config (s.step config poll).1.peers log := by
  cases poll with
  | idle => exact ⟨h, log, hreach⟩
  | datagram sender newId now =>
    have hsender : sender ≠ a := fun heq => hsilent newId now (by rw [heq])
    refine ⟨h.resolve hreach hsender hfresh now, ?_⟩
    by_cases hnew : s.peers.addrToPeer.lookup sender = none
    · exact ⟨_, hreach.unknown sender newId now hnew hfresh⟩
    · exact ⟨_, hreach.known sender newId now hnew⟩
  | timedOut now clock =>
    rw [IoLoop.step]
    split
    next hpass =>
      have hstays := mt (h.mem_evicted_iff htimeout).mp fun hdue => hlooks ⟨hpass, hdue⟩
      rw [evicted, evictions, if_neg htimeout.ne_zero] at hstays
      refine ⟨?_, _, hreach.evict clock⟩
      rw [evictStalePeers, if_neg htimeout.ne_zero]
      exact h.foldl_erase hstays
    next => exact ⟨h, log, hreach⟩

theorem Heard.next (hfresh : poll.Fresh s.peers)
    (htime : ∀ now clock, poll = .timedOut now clock → clock ≤ last + timeout) :
    p ∉ (s.step config poll).2 ∧ (s.step config poll).1.peers.Heard p a (poll.heard a last)
      ∧ ∃ log, Reaches config (s.step config poll).1.peers log := by
  cases poll with
  | idle => exact ⟨not_mem_nil, h, log, hreach⟩
  | timedOut now clock =>
    have hintime : ¬ last + timeout < clock := (htime now clock rfl).not_gt
    refine ⟨?_, h.step htimeout hreach hfresh nofun fun hlooks => hintime hlooks.2⟩
    rw [IoLoop.step]
    split
    · exact mt (h.mem_evicted_iff htimeout).mp hintime
    · exact not_mem_nil
  | datagram sender newId now =>
    refine ⟨not_mem_nil, ?_⟩
    by_cases hsender : sender = a
    · -- the address is known, and its peer has its time renewed
      have hp := hreach.consistent.valid p a h.1
      rw [hsender, Poll.heard, if_pos rfl]
      refine ⟨?_, log, hreach.known a newId now (by rw [hp]; nofun)⟩
      simp only [IoLoop.step, resolvePeer, hp]
      exact ⟨h.1, AList.lookup_insert _⟩
    · rw [Poll.heard, if_neg hsender]
      exact h.step htimeout hreach hfresh (fun _ _ heq => hsender (Poll.datagram.inj heq).1) id

/-- A peer that keeps sending is never reported as disconnected, it keeps its id, and its time of
last activity is that of its last datagram. -/
theorem sending_kept (hruns : Runs config d s start turns) (hsends : Sends timeout a last turns) :
    (∀ deadline, ¬ Before config deadline (fun s poll => p ∈ (s.step config poll).2) s turns)
      ∧ (turns.foldl (fun s turn => (s.step config turn.poll).1) s).peers.peerToAddr.lookup p
        = some a
      ∧ (turns.foldl (fun s turn => (s.step config turn.poll).1) s).peers.lastActivity.lookup p
        = some (turns.foldl (fun last turn => turn.poll.heard a last) last) := by
  induction turns generalizing s start log last with
  | nil => exact ⟨fun _ => id, h⟩
  | cons turn rest ih =>
    obtain ⟨-, -, hfresh, hrest⟩ := hruns
    obtain ⟨hreported, h', log', hreach'⟩ := h.next htimeout hreach hfresh hsends.1
    obtain ⟨hlater, hknown⟩ := ih hreach' h' hrest hsends.2
    exact ⟨fun deadline => not_or.mpr ⟨fun hnow => hreported hnow.2, hlater deadline⟩, hknown⟩

end

theorem Runs.not_before {deadline : Nat} {P : IoLoop → Poll → Prop}
    (h : Runs config d s start turns) (hlate : deadline < start) :
    ¬ Before config deadline P s turns := by
  induction turns generalizing s start with
  | nil => exact id
  | cons turn rest ih =>
    obtain ⟨hwithin, -, -, hrest⟩ := h
    have hle : start ≤ turn.finish := by
      revert hwithin
      cases turn.poll <;> simp only [Poll.Within] <;> omega
    rintro (⟨hfinish, -⟩ | hbefore)
    · omega
    · exact ih hrest (by omega) hbefore

/-- When nobody sends, a look comes in time: a turn never begins more than `10 ^ 8 + d` after the
time-out of the peer or a second from the last look, whichever is later. -/
theorem Runs.looks_of_quiet {due : Nat} (h : Runs config d s start turns)
    (hquiet : ∀ turn ∈ turns, ∃ now clock, turn.poll = .timedOut now clock)
    (hlast : s.lastEviction ≤ due)
    (hstart : start ≤ max due (s.lastEviction + 10 ^ 9) + (10 ^ 8 + d)) :
    Before config (due + 10 ^ 9 + 2 * (10 ^ 8 + d)) (Looks due) s turns
      ∨ ∀ turn ∈ turns, turn.finish ≤ due + 10 ^ 9 + 2 * (10 ^ 8 + d) := by
  induction turns generalizing s start with
  | nil => exact .inr (by simp)
  | cons turn rest ih =>
    obtain ⟨poll, finish⟩ := turn
    obtain ⟨⟨now, clock, hpoll⟩, hothers⟩ := forall_mem_cons.mp hquiet
    obtain rfl : poll = _ := hpoll
    obtain ⟨⟨hnow, hclock, hfinish⟩, htime, -, hrest⟩ := h
    simp only [Before, forall_mem_cons, IoLoop.step] at hrest htime hfinish ⊢
    by_cases hpass : now - s.lastEviction ≥ 10 ^ 9
    · by_cases hdue : due < clock
      · exact .inl (.inl ⟨by omega, hpass, hdue⟩)
      rw [if_pos hpass] at hrest ⊢
      have hnext := ih hrest hothers (by dsimp only; omega) (by dsimp only; omega)
      exact hnext.imp .inr fun hall => ⟨by omega, hall⟩
    · rw [if_neg hpass] at hrest ⊢
      exact (ih hrest hothers hlast (by dsimp only; omega)).imp .inr fun hall => ⟨by omega, hall⟩

/-- A silent peer is evicted and reported in time exactly if a poll times out in time that is a
second or more after the last look and comes after the time-out of the peer. When nobody sends, one
does. -/
theorem silent_evicted_iff (config : UdpConfig) (d : Nat) (s : IoLoop) (start : Nat)
    (turns : List Turn) (log : List (SockAddr × Option Nat)) (p : Nat) (a : SockAddr)
    (last timeout : Nat) (htimeout : HasTimeout config timeout) (hreach : Reaches config s.peers log)
    (hheard : s.peers.Heard p a last) (hruns : Runs config d s start turns)
    (hsilent : ∀ turn ∈ turns, ∀ newId now, turn.poll ≠ .datagram a newId now) :
    let due := last + timeout
    let deadline := due + 10 ^ 9 + 2 * (10 ^ 8 + d)
    (Before config deadline (Evicts config p) s turns ↔ Before config deadline (Looks due) s turns)
    ∧ ((∀ turn ∈ turns, ∃ now clock, turn.poll = .timedOut now clock) →
      s.lastEviction ≤ start → start ≤ due →
      Before config deadline (Looks due) s turns ∨ ∀ turn ∈ turns, turn.finish ≤ deadline) := by
  intro due deadline
  refine ⟨?_, fun hquiet hlast hstart =>
    hruns.looks_of_quiet hquiet (hlast.trans hstart) (by omega)⟩
  induction turns generalizing s start log with
  | nil => exact Iff.rfl
  | cons turn rest ih =>
    obtain ⟨-, -, hfresh, hrest⟩ := hruns
    obtain ⟨hturn, hsilent⟩ := forall_mem_cons.mp hsilent
    rw [Before, Before, hheard.evicts_iff htimeout hreach]
    by_cases hlooks : Looks (last + timeout) s turn.poll
    · -- the peer is evicted now, and what happens after the deadline does not matter
      by_cases hle : turn.finish ≤ deadline
      · exact iff_of_true (.inl ⟨hle, hlooks⟩) (.inl ⟨hle, hlooks⟩)
      have hlate := not_le.mp hle
      exact or_congr Iff.rfl (iff_of_false (hrest.not_before hlate) (hrest.not_before hlate))
    · obtain ⟨hheard', log', hreach'⟩ := hheard.step htimeout hreach hfresh hturn hlooks
      exact or_congr Iff.rfl (ih _ _ log' hreach' hheard' hrest hsilent)

/-- Two known peers, last heard of at the start. -/
def bothHeard : IoLoop :=
  let one := (({} : UdpPeers).resolvePeer ⟨0, 1⟩ ⟨1, 4000⟩ 7 0).2
  ⟨(one.resolvePeer ⟨0, 1⟩ ⟨2, 4000⟩ 8 0).2, 0⟩

theorem reaches_bothHeard :
    Reaches ⟨0, 1⟩ bothHeard.peers [(⟨2, 4000⟩, some 8), (⟨1, 4000⟩, some 7)] :=
  (Reaches.start.unknown ⟨1, 4000⟩ 7 0 rfl (.inr rfl)).unknown ⟨2, 4000⟩ 8 0 (by decide)
    (.inr (by decide))

theorem heard_bothHeard : bothHeard.peers.Heard 7 ⟨1, 4000⟩ 0 := ⟨by decide, by decide⟩

theorem hasTimeout_second : HasTimeout ⟨0, 1⟩ (10 ^ 9) := ⟨by decide, by decide, by decide⟩

theorem silent_evicted_timedOut :
    Before ⟨0, 1⟩ (0 + 10 ^ 9 + 10 ^ 9 + 2 * (10 ^ 8 + 0)) (Evicts ⟨0, 1⟩ 7) bothHeard
      [⟨.timedOut (2 * 10 ^ 9) (2 * 10 ^ 9), 2 * 10 ^ 9⟩] :=
  (silent_evicted_iff ⟨0, 1⟩ 0 bothHeard (2 * 10 ^ 9) _ _ 7 ⟨1, 4000⟩ 0 (10 ^ 9) hasTimeout_second
    reaches_bothHeard heard_bothHeard (by simp [Runs, Poll.Within, Poll.Fresh]) (by simp)).1.mpr
    (by simp [Before, Looks, bothHeard])

/-- Another peer sends a datagram each 100 ms, and the silent peer is not evicted in time. -/
theorem silent_kept : ∃ turns : List Turn, Runs ⟨0, 1⟩ 0 bothHeard 0 turns
    ∧ (∀ turn ∈ turns, ∃ now, turn.poll = .datagram ⟨2, 4000⟩ 0 now)
    ∧ (∃ turn ∈ turns, 0 + 10 ^ 9 + 10 ^ 9 + 2 * (10 ^ 8 + 0) < turn.finish)
    ∧ ¬ Before ⟨0, 1⟩ (0 + 10 ^ 9 + 10 ^ 9 + 2 * (10 ^ 8 + 0)) (Evicts ⟨0, 1⟩ 7) bothHeard
      turns := by
  refine ⟨(range 23).map fun i => ⟨.datagram ⟨2, 4000⟩ 0 (i * 10 ^ 8), (i + 1) * 10 ^ 8⟩, ?_⟩
  simp [range_succ, Runs, Before, Evicts, IoLoop.step, Poll.Within, Poll.Fresh]

/-- A datagram comes just before the look. -/
theorem sending_kept_datagram : ¬ Before ⟨0, 1⟩ (10 ^ 10)
    (fun s poll => 7 ∈ (s.step ⟨0, 1⟩ poll).2) bothHeard
    [⟨.datagram ⟨1, 4000⟩ 0 (2 * 10 ^ 9), 2 * 10 ^ 9⟩,
      ⟨.timedOut (2 * 10 ^ 9) (2 * 10 ^ 9), 2 * 10 ^ 9⟩] :=
  (sending_kept hasTimeout_second reaches_bothHeard heard_bothHeard
    (show Runs _ 0 _ (2 * 10 ^ 9) _ by simp [Runs, Poll.Within, Poll.Fresh])
    (by simp [Sends, Poll.heard])).1 _

end Conduit.Transceiver.UdpPeers

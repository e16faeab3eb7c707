import Conduit.Transceiver.SendWindow

/-!
# The peers of the UDP transport

The transport keeps three maps: from addresses to ids, from ids to addresses, and the time of the
last datagram of an id. They are changed by datagrams and by evictions, both on the I/O thread. The
id of a new peer comes from a callback; it is assumed to be invalid or not in use.
-/

namespace Conduit.Transceiver.UdpPeers

/-- `udp.cpp:502-562`: the id of a sender, zero if it has none. The callback returns `newId`. -/
def resolvePeer (config : UdpConfig) (sender : SockAddr) (newId now : Nat) (t : UdpPeers) :
    Nat × UdpPeers :=
  match t.addrToPeer.lookup sender with
  | some peer => (peer, { t with lastActivity := t.lastActivity.insert peer now })
  | none =>
    if t.full config then (0, t)
    else if newId = 0 then (0, t)
    -- the limit is checked again after the callback
    else if t.full config then (0, t)
    else (newId, t.insert newId sender now)

/-- `udp.cpp:564-590`. -/
def evictStalePeers (config : UdpConfig) (now : Nat) (t : UdpPeers) : UdpPeers :=
  if config.peerTimeout = 0 then t else (t.stale config now).foldl .erase t

/-- The peers that are evicted. -/
def evictions (config : UdpConfig) (now : Nat) (t : UdpPeers) : List (Nat × SockAddr) :=
  if config.peerTimeout = 0 then [] else t.stale config now

/-- An evicted address is noted without an id. -/
def noteEviction (log : List (SockAddr × Option Nat)) (peer : Nat × SockAddr) :
    List (SockAddr × Option Nat) :=
  (peer.2, none) :: log

/-- The maps after some datagrams and evictions, with the registered addresses and their ids and the
evicted addresses, the latest first. -/
inductive Reaches (config : UdpConfig) : UdpPeers → List (SockAddr × Option Nat) → Prop where
  | start : Reaches config {} []
  | known {t log} (h : Reaches config t log) (sender : SockAddr) (newId now : Nat)
      (hold : t.addrToPeer.lookup sender ≠ none) :
      Reaches config (t.resolvePeer config sender newId now).2 log
  | unknown {t log} (h : Reaches config t log) (sender : SockAddr) (newId now : Nat)
      (hnew : t.addrToPeer.lookup sender = none)
      (hfree : newId = 0 ∨ t.peerToAddr.lookup newId = none) :
      Reaches config (t.resolvePeer config sender newId now).2
        (if (t.resolvePeer config sender newId now).1 = 0 then log else (sender, some newId) :: log)
  | evict {t log} (h : Reaches config t log) (now : Nat) :
      Reaches config (t.evictStalePeers config now) ((t.evictions config now).foldl noteEviction log)

variable {config : UdpConfig} {t : UdpPeers} {log : List (SockAddr × Option Nat)}

structure Consistent (config : UdpConfig) (t : UdpPeers) (log : List (SockAddr × Option Nat)) :
    Prop where
  valid : t.Valid
  inverse : ∀ a p, t.addrToPeer.lookup a = some p → t.peerToAddr.lookup p = some a
  activity : ∀ p, (t.lastActivity.lookup p).isSome ↔ t.Knows p
  bounded : 0 < config.maxPeers → t.addrToPeer.entries.length ≤ config.maxPeers
  registered : ∀ a p, t.addrToPeer.lookup a = some p → log.lookup a = some (some p) ∧ p ≠ 0
  known : ∀ a p, log.lookup a = some (some p) → t.addrToPeer.lookup a = some p

section

variable (h : Consistent config t log)

include h

theorem Consistent.touch {p : Nat} (hp : t.Knows p) (now : Nat) :
    Consistent config { t with lastActivity := t.lastActivity.insert p now } log := by
  refine { h with activity := fun q => ?_ }
  rcases eq_or_ne q p with rfl | hne
  · simpa [Knows] using hp
  rw [AList.lookup_insert_ne hne]
  exact h.activity q

theorem Consistent.insert {p : Nat} {a : SockAddr} (now : Nat)
    (hp : p ≠ 0) (hnew : t.addrToPeer.lookup a = none) (hfree : t.peerToAddr.lookup p = none)
    (hroom : t.full config = false) : Consistent config (t.insert p a now) ((a, some p) :: log) where
  valid := h.valid.insert p hnew now
  inverse b q hb := by
    rcases eq_or_ne b a with rfl | hne
    · obtain rfl : p = q := by simpa [UdpPeers.insert] using hb
      simp [UdpPeers.insert]
    have hq := h.inverse b q (by simpa [UdpPeers.insert, AList.lookup_insert_ne hne] using hb)
    have hqp : q ≠ p := by
      rintro rfl
      rw [hfree] at hq
      cases hq
    simpa [UdpPeers.insert, AList.lookup_insert_ne hqp] using hq
  activity q := by
    rcases eq_or_ne q p with rfl | hne
    · simp [UdpPeers.insert, Knows]
    · simpa [UdpPeers.insert, Knows, AList.lookup_insert_ne hne] using h.activity q
  bounded hmax := by
    have hlt : t.addrToPeer.entries.length < config.maxPeers := by simpa [full, hmax] using hroom
    have hle := (List.kerase_sublist a t.addrToPeer.entries).length_le
    rw [UdpPeers.insert, AList.entries_insert, List.length_cons]
    omega
  registered b q hb := by
    rcases eq_or_ne b a with rfl | hne
    · obtain rfl : p = q := by simpa [UdpPeers.insert] using hb
      simp [hp]
    · have hq := h.registered b q (by simpa [UdpPeers.insert, AList.lookup_insert_ne hne] using hb)
      rwa [List.lookup_cons, beq_false_of_ne hne]
  known b q hb := by
    rcases eq_or_ne b a with rfl | hne
    · obtain rfl : p = q := by simpa using hb
      simp [UdpPeers.insert]
    · rw [List.lookup_cons, beq_false_of_ne hne] at hb
      simpa [UdpPeers.insert, AList.lookup_insert_ne hne] using h.known b q hb

/-- The peer and the address belong together, as far as the maps know them. -/
def Agrees (t : UdpPeers) (p : Nat × SockAddr) : Prop :=
  (∀ q, t.addrToPeer.lookup p.2 = some q → q = p.1)
    ∧ ∀ a, t.peerToAddr.lookup p.1 = some a → a = p.2

theorem Consistent.erase {p : Nat × SockAddr} (hp : t.Agrees p) :
    Consistent config (t.erase p) (noteEviction log p) := by
  have hnote : ∀ {b}, b ≠ p.2 → (noteEviction log p).lookup b = log.lookup b := by
    intro b hne
    rw [noteEviction, List.lookup_cons, beq_false_of_ne hne]
  have hold : ∀ {b q}, (t.erase p).addrToPeer.lookup b = some q →
      b ≠ p.2 ∧ t.addrToPeer.lookup b = some q := by
    intro b q hb
    rcases eq_or_ne b p.2 with rfl | hne
    · simp [UdpPeers.erase] at hb
    · exact ⟨hne, by simpa [UdpPeers.erase, AList.lookup_erase_ne hne] using hb⟩
  refine ⟨h.valid.erase fun q hq => hp.1 q (h.valid q _ hq), ?_, ?_, ?_, ?_, ?_⟩
  · intro b q hb
    obtain ⟨hne, hq⟩ := hold hb
    rw [lookup_erase, if_neg]
    · exact h.inverse b q hq
    rintro rfl
    exact hne (hp.2 b (h.inverse b _ hq))
  · intro q
    rw [Knows, lookup_erase]
    rcases eq_or_ne q p.1 with rfl | hne
    · simp [UdpPeers.erase]
    rw [if_neg hne]
    simpa [UdpPeers.erase, Knows, AList.lookup_erase_ne hne] using h.activity q
  · intro hmax
    exact (List.kerase_sublist p.2 t.addrToPeer.entries).length_le.trans (h.bounded hmax)
  · intro b q hb
    obtain ⟨hne, hq⟩ := hold hb
    rw [hnote hne]
    exact h.registered b q hq
  · intro b q hb
    rcases eq_or_ne b p.2 with rfl | hne
    · simp [noteEviction] at hb
    · rw [hnote hne] at hb
      simpa [UdpPeers.erase, AList.lookup_erase_ne hne] using h.known b q hb

end

theorem Consistent.foldl_erase {ps : List (Nat × SockAddr)} (h : Consistent config t log)
    (hps : ∀ p ∈ ps, t.Agrees p) :
    Consistent config (ps.foldl .erase t) (ps.foldl noteEviction log) := by
  induction ps generalizing t log with
  | nil => exact h
  | cons p ps ih =>
    -- erasing a pair takes nothing into the maps, so the other pairs still agree with them
    refine ih (h.erase (hps p List.mem_cons_self)) fun p' hp' => ?_
    obtain ⟨hpeer, haddr⟩ := hps p' (List.mem_cons_of_mem _ hp')
    refine ⟨fun q hq => ?_, fun a ha => ?_⟩
    · rcases eq_or_ne p'.2 p.2 with heq | hne
      · rw [heq] at hq
        simp [UdpPeers.erase] at hq
      · exact hpeer q (by simpa [UdpPeers.erase, AList.lookup_erase_ne hne] using hq)
    rw [lookup_erase] at ha
    split at ha
    · cases ha
    · exact haddr a ha

theorem Consistent.evict (h : Consistent config t log) (now : Nat) :
    Consistent config (t.evictStalePeers config now)
      ((t.evictions config now).foldl noteEviction log) := by
  unfold evictStalePeers evictions
  split
  · exact h
  refine h.foldl_erase fun p hp => ?_
  simp only [UdpPeers.stale, List.mem_filterMap] at hp
  obtain ⟨⟨peer, last⟩, -, hp⟩ := hp
  split at hp
  · obtain ⟨a, ha, rfl⟩ := Option.map_eq_some_iff.mp hp
    refine ⟨fun q hq => ?_, fun b hb => ?_⟩
    · exact Option.some.inj (hq.symm.trans (h.valid peer a ha))
    · exact Option.some.inj (hb.symm.trans ha)
  · cases hp

theorem Reaches.consistent (h : Reaches config t log) : Consistent config t log := by
  induction h with
  | start => exact ⟨nofun, nofun, by simp [Knows], by simp, nofun, nofun⟩
  | known h sender newId now hold ih =>
    obtain ⟨p, hp⟩ := Option.ne_none_iff_exists'.mp hold
    simp only [resolvePeer, hp]
    refine ih.touch ?_ now
    rw [Knows, ih.inverse sender p hp]
    rfl
  | @unknown t log h sender newId now hnew hfree ih =>
    simp only [resolvePeer, hnew]
    by_cases hfull : t.full config = true
    · simpa [hfull] using ih
    by_cases hid : newId = 0
    · simpa [hfull, hid] using ih
    simp only [hfull, hid, Bool.false_eq_true, if_false]
    exact ih.insert now hid hnew (hfree.resolve_left hid) (Bool.eq_false_iff.mpr hfull)
  | evict h now ih => exact ih.evict now

/-- After all datagrams and evictions the maps between addresses and ids are inverse to each other,
the known ids are those with a last datagram, the limit is kept, an address is known under an id
exactly if it was registered under it and neither registered again nor evicted since, and a datagram
from a known address is delivered under that id, which is valid. -/
theorem peers_consistent (config : UdpConfig) (t : UdpPeers) (log : List (SockAddr × Option Nat))
    (h : Reaches config t log) :
    (∀ a p, t.addrToPeer.lookup a = some p ↔ t.peerToAddr.lookup p = some a)
      ∧ (∀ p, (t.lastActivity.lookup p).isSome ↔ (t.peerToAddr.lookup p).isSome)
      ∧ (0 < config.maxPeers → t.addrToPeer.entries.length ≤ config.maxPeers)
      ∧ (∀ a p, t.addrToPeer.lookup a = some p ↔ log.lookup a = some (some p))
      ∧ ∀ a p newId now, t.addrToPeer.lookup a = some p →
        (t.resolvePeer config a newId now).1 = p ∧ p ≠ 0 := by
  have hc := h.consistent
  refine ⟨fun a p => ⟨hc.inverse a p, hc.valid p a⟩, hc.activity, hc.bounded,
    fun a p => ⟨fun hp => (hc.registered a p hp).1, hc.known a p⟩, ?_⟩
  intro a p newId now hp
  exact ⟨by simp only [resolvePeer, hp], (hc.registered a p hp).2⟩

/-- With room for one peer, the second sender is not registered. -/
theorem peers_consistent_full : ∃ t, Reaches ⟨1, 0⟩ t [(⟨1, 4000⟩, some 7)]
      ∧ (0 < 1 → t.addrToPeer.entries.length ≤ 1) := by
  have hstart : Reaches ⟨1, 0⟩ {} [] := .start
  have hone := hstart.unknown ⟨1, 4000⟩ 7 0 rfl (.inr rfl)
  have htwo := hone.unknown ⟨2, 4000⟩ 8 0 (by decide) (.inr (by decide))
  exact ⟨_, htwo, (peers_consistent _ _ _ htwo).2.2.1⟩

end Conduit.Transceiver.UdpPeers

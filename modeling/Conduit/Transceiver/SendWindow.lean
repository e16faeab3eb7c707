import Conduit.Transceiver.StateNotices

/-!
# Sends to a peer that has been announced

A peer is announced before its transport enters it into the map that sends look it up in. The map of
a lawful transport is told by the life of its connections: it has the peers that were entered and
not removed since. Between the announcement and the entry a send finds no peer.
-/

namespace Conduit.Transceiver

open Sync HandlerAction List

/-! ## Peers in the map -/

/-- The peer has been entered, and it has not been removed since. -/
def Entered (peer : Nat) (log : List Happening) : Prop :=
  ∃ before after, log = before ++ .entered peer :: after ∧ .removed peer ∉ after

theorem entered_concat {peer : Nat} {log : List Happening} {h : Happening} :
    Entered peer (log ++ [h]) ↔ h = .entered peer ∨ Entered peer log ∧ h ≠ .removed peer := by
  constructor
  · rintro ⟨before, after, hlog, hafter⟩
    rcases eq_nil_or_concat after with rfl | ⟨rest, x, rfl⟩
    · exact .inl (singleton_inj.mp (append_inj' hlog rfl).2)
    rw [concat_eq_append, ← cons_append, ← append_assoc] at hlog
    obtain ⟨rfl, hx⟩ := append_inj' hlog rfl
    obtain rfl : h = x := singleton_inj.mp hx
    simp only [concat_eq_append, mem_append, mem_singleton, not_or] at hafter
    exact .inr ⟨⟨before, rest, rfl, hafter.1⟩, Ne.symm hafter.2⟩
  · rintro (rfl | ⟨⟨before, after, rfl, hafter⟩, hne⟩)
    · exact ⟨log, [], rfl, not_mem_nil⟩
    refine ⟨before, after ++ [h], by simp, ?_⟩
    simpa [hafter] using Ne.symm hne

theorem entered_append_removed {peer : Nat} {log : List Happening} (peers : List Nat) :
    Entered peer (log ++ peers.map .removed) ↔ Entered peer log ∧ peer ∉ peers := by
  induction peers generalizing log with
  | nil => simp
  | cons q peers ih =>
    rw [map_cons, ← singleton_append, ← append_assoc, ih, entered_concat]
    simp only [reduceCtorEq, false_or, ne_eq, Happening.removed.injEq, mem_cons, not_or,
      eq_comm (a := q), and_assoc]

namespace Driver

variable {τ ε α : Type}

/-- The map of the transport has what is entered into it, until it is removed. `fresh` is what an
announced address has to be when it is entered. -/
structure Lawful (D : Driver τ ε α) (valid : τ → Prop) (fresh : α → τ → Prop) : Prop where
  quiet : ∀ {e t t'}, D.event e t = .quiet t' → valid t → valid t' ∧ ∀ q, D.knows t' q = D.knows t q
  announce : ∀ {e t endpoint hasSession a}, D.event e t = .announce endpoint hasSession a →
    fresh a t
  enter : ∀ {p a t t'}, D.enter p a t = some t' → valid t → fresh a t →
    valid t' ∧ ∀ q, D.knows t' q = true ↔ q = p ∨ D.knows t q = true
  remove : ∀ {e t t' peers}, D.event e t = .remove t' peers → valid t →
    valid t' ∧ ∀ q, D.knows t' q = true ↔ D.knows t q = true ∧ q ∉ peers

end Driver

theorem lawful_tcpServer (maxClients : Nat) :
    (tcpServer maxClients).Lawful (fun _ => True) (fun _ _ => True) where
  quiet := by
    intro e t t' he _
    cases e <;> simp only [tcpServer] at he
    all_goals
      repeat' split at he
      all_goals cases he <;> exact ⟨trivial, fun _ => rfl⟩
  announce := fun _ => trivial
  enter := by
    intro p a t t' he _ _
    cases he
    refine ⟨trivial, fun q => ?_⟩
    rcases eq_or_ne q p with rfl | hne
    · simp [tcpServer]
    · simp [tcpServer, AList.lookup_insert_ne hne, hne]
  remove := by
    intro e t t' peers he _
    refine ⟨trivial, fun q => ?_⟩
    cases e with simp only [tcpServer] at he
    | accept endpoint socket noDelay hasSession => split at he <;> cases he
    | data peer => cases he
    | closed peer =>
      split at he
      · cases he
        rcases eq_or_ne q peer with rfl | hne
        · simp [tcpServer]
        · simp [tcpServer, AList.lookup_erase_ne hne, hne]
      · cases he
    | stop =>
      cases he
      simp [tcpServer, AList.lookup_isSome, AList.mem_keys]

namespace UdpPeers

variable {t : UdpPeers}

/-- The two maps agree. -/
def Valid (t : UdpPeers) : Prop :=
  ∀ q a, t.peerToAddr.lookup q = some a → t.addrToPeer.lookup a = some q

def Knows (t : UdpPeers) (q : Nat) : Prop := (t.peerToAddr.lookup q).isSome = true

theorem Valid.insert (h : t.Valid) (p : Nat) {a : SockAddr} (ha : t.addrToPeer.lookup a = none)
    (now : Nat) : (t.insert p a now).Valid := by
  intro q b hq
  rcases eq_or_ne q p with rfl | hne
  · obtain rfl : a = b := by simpa [UdpPeers.insert] using hq
    simp [UdpPeers.insert]
  have hb := h q b (by simpa [UdpPeers.insert, AList.lookup_insert_ne hne] using hq)
  have hba : b ≠ a := by
    rintro rfl
    rw [ha] at hb
    cases hb
  simpa [UdpPeers.insert, AList.lookup_insert_ne hba] using hb

theorem Valid.erase (h : t.Valid) {p : Nat × SockAddr}
    (hp : ∀ q, t.peerToAddr.lookup q = some p.2 → q = p.1) : (t.erase p).Valid := by
  intro q b hq
  rcases eq_or_ne q p.1 with rfl | hne
  · simp [UdpPeers.erase] at hq
  have hqb : t.peerToAddr.lookup q = some b := by
    simpa [UdpPeers.erase, AList.lookup_erase_ne hne] using hq
  have hb : b ≠ p.2 := by
    rintro rfl
    exact hne (hp q hqb)
  simpa [UdpPeers.erase, AList.lookup_erase_ne hb] using h q b hqb

theorem lookup_erase (p : Nat × SockAddr) (q : Nat) :
    (t.erase p).peerToAddr.lookup q = if q = p.1 then none else t.peerToAddr.lookup q := by
  rcases eq_or_ne q p.1 with rfl | hne
  · simp [UdpPeers.erase]
  · simp [UdpPeers.erase, AList.lookup_erase_ne hne, hne]

theorem Valid.foldl_erase (h : t.Valid) {ps : List (Nat × SockAddr)}
    (hps : ∀ p ∈ ps, ∀ q, t.peerToAddr.lookup q = some p.2 → q = p.1) : (ps.foldl .erase t).Valid ∧
      ∀ q, (ps.foldl .erase t).Knows q ↔ t.Knows q ∧ q ∉ ps.map (·.1) := by
  induction ps generalizing t with
  | nil => exact ⟨h, by simp⟩
  | cons p ps ih =>
    have hrest : ∀ p' ∈ ps, ∀ q, (t.erase p).peerToAddr.lookup q = some p'.2 → q = p'.1 := by
      intro p' hmem q hq
      rw [lookup_erase] at hq
      split at hq
      · cases hq
      · exact hps p' (mem_cons_of_mem _ hmem) q hq
    obtain ⟨hvalid, hknows⟩ := ih (h.erase (hps p mem_cons_self)) hrest
    refine ⟨hvalid, fun q => ?_⟩
    rw [foldl_cons, hknows, Knows, Knows, lookup_erase]
    by_cases hq : q = p.1 <;> simp [hq]

theorem Valid.stale (h : t.Valid) (config : UdpConfig) (now : Nat) :
    ∀ p ∈ t.stale config now, ∀ q, t.peerToAddr.lookup q = some p.2 → q = p.1 := by
  intro p hp q hq
  simp only [UdpPeers.stale, mem_filterMap] at hp
  obtain ⟨⟨peer, last⟩, -, hp⟩ := hp
  split at hp
  · obtain ⟨a, ha, rfl⟩ := Option.map_eq_some_iff.mp hp
    have hpeer := h peer a ha
    rw [h q a hq] at hpeer
    exact Option.some_inj.mp hpeer
  · cases hp

end UdpPeers

theorem lawful_udp (config : UdpConfig) :
    (udp config).Lawful UdpPeers.Valid (fun a t => t.addrToPeer.lookup a.1 = none) where
  quiet := by
    intro e t t' he hvalid
    cases e <;> simp only [udp] at he
    all_goals
      repeat' split at he
      all_goals cases he <;> exact ⟨hvalid, fun _ => rfl⟩
  announce := by
    intro e t endpoint hasSession a he
    cases e with simp only [udp] at he
    | datagram sender now hasSession =>
      split at he
      · cases he
      next hnone =>
        split at he
        · cases he
        cases he
        exact hnone
    | timer now => split at he <;> cases he
    | stop => cases he
  enter := by
    intro p a t t' he hvalid hfresh
    simp only [udp] at he
    split at he
    · cases he
    cases he
    refine ⟨hvalid.insert p hfresh a.2, fun q => ?_⟩
    rcases eq_or_ne q p with rfl | hne
    · simp [udp, UdpPeers.insert]
    · simp [udp, UdpPeers.insert, AList.lookup_insert_ne hne, hne]
  remove := by
    intro e t t' peers he hvalid
    cases e with simp only [udp] at he
    | datagram sender now hasSession =>
      split at he
      · cases he
      · split at he <;> cases he
    | timer now =>
      split at he
      · cases he
      cases he
      exact hvalid.foldl_erase (hvalid.stale config now)
    | stop =>
      cases he
      refine ⟨fun q a hq => by simp at hq, fun q => ?_⟩
      -- the peers that are reported are those of the other map
      have hall : t.Knows q → q ∈ t.addrToPeer.entries.map (·.2) := by
        intro hq
        obtain ⟨a, ha⟩ := Option.isSome_iff_exists.mp hq
        have hmem := AList.mem_lookup_iff.mp (hvalid q a ha)
        exact mem_map.mpr ⟨_, hmem, rfl⟩
      constructor
      · intro hq
        simp [udp] at hq
      · rintro ⟨hq, hnot⟩
        exact absurd (hall hq) hnot

/-! ## Runs -/

namespace Connections

variable {τ α : Type}

/-- A callback has been told of the peer, or will be, and the transport has not begun to remove
it. -/
def Live (s : Connections τ α) (p : Nat) : Prop :=
  p ∈ s.announced ∨ (∃ a ∈ s.pending, p ∈ a.announced) ∨ ∃ a, s.entering = some (p, a)

end Connections

variable {callbacks : List Nat} {peer p : Nat} {a : HandlerAction}

theorem HandlerAction.announced_tells {state : ConnectionState}
    (ha : a ∈ tells callbacks peer state) (hp : p ∈ a.announced) :
    state = .connected ∧ p = peer := by
  obtain ⟨callback, -, rfl⟩ := mem_map.mp ha
  simp only [announced] at hp
  split at hp
  next hstate => exact ⟨hstate, mem_singleton.mp hp⟩
  · cases hp

theorem HandlerAction.announced_stateChanged {state : ConnectionState}
    (ha : a ∈ stateChanged callbacks peer state) (hp : p ∈ a.announced) :
    state = .connected ∧ p = peer := by
  rcases mem_cons.mp ha with rfl | ha
  · cases hp
  · exact announced_tells ha hp

theorem HandlerAction.announced_peerDisconnected (ha : a ∈ peerDisconnected callbacks peer) :
    p ∉ a.announced := by
  intro hp
  rcases mem_cons.mp ha with rfl | ha
  · cases hp
  · cases (announced_tells ha hp).1

theorem HandlerAction.announced_removed {peers : List Nat}
    (ha : a ∈ peers.flatMap (removed callbacks)) : p ∉ a.announced := by
  intro hp
  obtain ⟨peer, -, ha⟩ := mem_flatMap.mp ha
  rcases mem_append.mp ha with ha | ha
  · cases (announced_stateChanged ha hp).1
  · exact announced_peerDisconnected ha hp

theorem HandlerAction.drop_mem_removed {peers : List Nat}
    (h : .drop p ∈ peers.flatMap (removed callbacks)) : p ∈ peers := by
  obtain ⟨peer, hpeer, h⟩ := mem_flatMap.mp h
  obtain rfl : p = peer := by simpa [removed, stateChanged, peerDisconnected, tells] using h
  exact hpeer

namespace Driver

variable {τ ε α : Type} (D : Driver τ ε α) {transport : Transport} {valid : τ → Prop}
  {fresh : α → τ → Prop}

/-- The map follows the log. A live peer is registered, and it is in the map unless it is about to
be entered or its id is zero; the handlers drop no live peer. -/
structure Tracked (valid : τ → Prop) (fresh : α → τ → Prop) (s : Connections τ α) : Prop where
  valid : valid s.transport
  fresh : ∀ p a, s.entering = some (p, a) → fresh a s.transport
  knows : ∀ p, D.knows s.transport p = true ↔ Entered p s.log
  ready : ∀ p, s.Live p → p = 0 ∨ D.knows s.transport p = true ∨ ∃ a, s.entering = some (p, a)
  found : ∀ p, s.Live p → s.registry.findPeer p ≠ none
  dropped : ∀ p, .drop p ∈ s.pending → ¬s.Live p

theorem entered_concat_iff_of_ne {p : Nat} {log : List Happening} {h : Happening}
    (hentered : h ≠ .entered p) (hremoved : h ≠ .removed p) :
    Entered p (log ++ [h]) ↔ Entered p log := by
  simp only [entered_concat, hentered, false_or, ne_eq, hremoved, not_false_eq_true, and_true]

variable {s : Connections τ α} {peer : Nat} {address : α} {t : τ}

section

variable (h : D.Tracked valid fresh s)
include h

theorem Tracked.announce (hidle : s.Idle) {r : Registry}
    (hfresh : fresh address s.transport) (hconnects : s.registry.Connects (some peer) r) :
    D.Tracked valid fresh (s.announce r peer address) := by
  -- a live peer was live before, or it is the new one
  have hlive : ∀ p, (s.announce r peer address).Live p → p ∈ s.announced ∨ p = peer := by
    rintro p (hmem | ⟨a, ha, hp⟩ | ⟨a, ha⟩)
    · exact .inl hmem
    · exact .inr (announced_stateChanged ha hp).2
    simp only [Connections.announce] at ha
    split at ha
    · cases ha
    cases ha
    exact .inr rfl
  refine ⟨h.valid, ?_, ?_, ?_, ?_, ?_⟩
  · intro p a ha
    simp only [Connections.announce] at ha
    split at ha
    · cases ha
    cases ha
    exact hfresh
  · intro p
    rw [Connections.announce, entered_concat_iff_of_ne (by simp) (by simp)]
    exact h.knows p
  · intro p hp
    rcases hlive p hp with hmem | rfl
    · rcases h.ready p (.inl hmem) with hzero | hknows | ⟨a, ha⟩
      · exact .inl hzero
      · exact .inr (.inl hknows)
      rw [hidle.2] at ha
      cases ha
    · rcases eq_or_ne p 0 with hzero | hzero
      · exact .inl hzero
      · exact .inr (.inr ⟨address, if_neg hzero⟩)
  · intro p hp
    rcases hlive p hp with hmem | rfl
    · exact hconnects.found p (h.found p (.inl hmem))
    · exact hconnects.new p rfl
  · intro p hdrop
    simp [Connections.announce, stateChanged, tells] at hdrop

theorem Tracked.act {a : HandlerAction} {rest : List HandlerAction}
    (hpending : s.pending = a :: rest) : D.Tracked valid fresh (s.act a rest) := by
  have hlive : ∀ p, (s.act a rest).Live p → s.Live p := by
    rintro p (hmem | ⟨b, hb, hp⟩ | hentering)
    · rcases mem_append.mp hmem with hmem | hmem
      · exact .inr (.inl ⟨a, hpending ▸ mem_cons_self, hmem⟩)
      · exact .inl hmem
    · exact .inr (.inl ⟨b, hpending ▸ mem_cons_of_mem _ hb, hp⟩)
    · exact .inr (.inr hentering)
  refine ⟨h.valid, h.fresh, h.knows, fun p hp => h.ready p (hlive p hp), ?_, ?_⟩
  · intro p hp
    have hfound := h.found p (hlive p hp)
    cases a with
    | setState q state => exact (Registry.findPeer_setState q state p).symm ▸ hfound
    | tell notice => exact hfound
    | drop q =>
      -- what is dropped is not live
      have hne : p ≠ q := by
        rintro rfl
        exact h.dropped p (hpending ▸ mem_cons_self) (hlive p hp)
      exact (Registry.findPeer_dropPeer_of_ne hne).symm ▸ hfound
  · intro p hdrop hp
    exact h.dropped p (hpending ▸ mem_cons_of_mem _ hdrop) (hlive p hp)

theorem Tracked.enter (hentering : s.entering = some (peer, address))
    (hvalid : valid t) (hknows : ∀ q, D.knows t q = true ↔ q = peer ∨ D.knows s.transport q = true) :
    D.Tracked valid fresh (s.enter D.confirms t peer) := by
  have hlive : ∀ p, (s.enter D.confirms t peer).Live p → s.Live p := by
    rintro p (hmem | ⟨a, ha, hp⟩ | ⟨a, ha⟩)
    · exact .inl hmem
    · simp only [Connections.enter] at ha
      split at ha
      · obtain ⟨-, rfl⟩ := announced_stateChanged ha hp
        exact .inr (.inr ⟨address, hentering⟩)
      · cases ha
    · cases ha
  refine ⟨hvalid, ?_, ?_, ?_, fun p hp => h.found p (hlive p hp), ?_⟩
  · intro p a ha
    cases ha
  · intro p
    rw [Connections.enter, hknows, h.knows, entered_concat]
    simp [eq_comm]
  · intro p hp
    rcases h.ready p (hlive p hp) with hzero | hknown | ⟨a, ha⟩
    · exact .inl hzero
    · exact .inr (.inl ((hknows p).mpr (.inr hknown)))
    rw [hentering] at ha
    cases ha
    exact .inr (.inl ((hknows _).mpr (.inl rfl)))
  · intro p hdrop
    simp only [Connections.enter] at hdrop
    split at hdrop
    · simp [stateChanged, tells] at hdrop
    · cases hdrop

theorem Tracked.reject (hentering : s.entering = some (peer, address)) :
    D.Tracked valid fresh (s.reject peer) := by
  have hlive : ∀ p, (s.reject peer).Live p → p ∈ s.announced ∧ p ≠ peer := by
    rintro p (hmem | ⟨a, ha, hp⟩ | ⟨a, ha⟩)
    · simpa [Connections.reject] using hmem
    · exact absurd hp (announced_peerDisconnected ha)
    · cases ha
  refine ⟨h.valid, ?_, ?_, ?_, fun p hp => h.found p (.inl (hlive p hp).1), ?_⟩
  · intro p a ha
    cases ha
  · intro p
    rw [Connections.reject, entered_concat_iff_of_ne (by simp) (by simp)]
    exact h.knows p
  · intro p hp
    obtain ⟨hmem, hne⟩ := hlive p hp
    rcases h.ready p (.inl hmem) with hzero | hknows | ⟨a, ha⟩
    · exact .inl hzero
    · exact .inr (.inl hknows)
    rw [hentering] at ha
    cases ha
    exact absurd rfl hne
  · intro p hdrop hp
    obtain rfl : p = peer := by simpa [Connections.reject, peerDisconnected, tells] using hdrop
    exact (hlive p hp).2 rfl

theorem Tracked.remove (hidle : s.Idle) {peers : List Nat}
    (hvalid : valid t) (hknows : ∀ q, D.knows t q = true ↔ D.knows s.transport q = true ∧ q ∉ peers) :
    D.Tracked valid fresh (s.remove (D.knows t) t peers) := by
  have hlive : ∀ p, (s.remove (D.knows t) t peers).Live p → p ∈ s.announced ∧ D.knows t p = true := by
    rintro p (hmem | ⟨a, ha, hp⟩ | ⟨a, ha⟩)
    · exact mem_filter.mp hmem
    · exact absurd hp (announced_removed ha)
    rw [Connections.remove, hidle.2] at ha
    cases ha
  refine ⟨hvalid, ?_, ?_, fun p hp => .inr (.inl (hlive p hp).2),
    fun p hp => h.found p (.inl (hlive p hp).1), ?_⟩
  · intro p a ha
    rw [Connections.remove, hidle.2] at ha
    cases ha
  · intro p
    rw [Connections.remove, hknows, h.knows, entered_append_removed]
  · intro p hdrop hp
    exact ((hknows p).mp (hlive p hp).2).2 (drop_mem_removed hdrop)

end

theorem Tracked.step (hlawful : D.Lawful valid fresh) {s' : Connections τ α}
    {label : ConnectionLabel} (h : D.Tracked valid fresh s) (hstep : D.Step transport s label s') :
    D.Tracked valid fresh s' := by
  cases hstep with
  | quiet e t hidle he =>
    obtain ⟨hvalid, hknows⟩ := hlawful.quiet he h.valid
    refine ⟨hvalid, ?_, fun p => by rw [hknows, h.knows], ?_, h.found, h.dropped⟩
    · intro p a ha
      rw [hidle.2] at ha
      cases ha
    · intro p hp
      rw [hknows]
      exact h.ready p hp
  | refuse _ remoteEndpoint hasSession _ r _ _ hconnect =>
    have hconnects := s.registry.connects_connectPeer transport remoteEndpoint hasSession
    rw [hconnect] at hconnects
    exact ⟨h.valid, h.fresh, h.knows, h.ready,
      fun p hp => hconnects.found p (h.found p hp), h.dropped⟩
  | announce _ remoteEndpoint hasSession _ q r hidle he hconnect =>
    have hconnects := s.registry.connects_connectPeer transport remoteEndpoint hasSession
    rw [hconnect] at hconnects
    exact h.announce D hidle (hlawful.announce he) hconnects
  | act a rest hpending => exact h.act D hpending
  | enter q a t hpending hentering henter =>
    obtain ⟨hvalid, hknows⟩ := hlawful.enter henter h.valid (h.fresh q a hentering)
    exact h.enter D hentering hvalid hknows
  | reject q a hpending hentering => exact h.reject D hentering
  | remove e t peers hidle he =>
    obtain ⟨hvalid, hknows⟩ := hlawful.remove he h.valid
    exact h.remove D hidle hvalid hknows
  | start | unregistered | encode | fail | unknown | send =>
    exact ⟨h.valid, h.fresh, h.knows, h.ready, h.found, h.dropped⟩

theorem tracked (hlawful : D.Lawful valid fresh) (hvalid : valid t)
    (hempty : ∀ p, D.knows t p = false) {callbacks : List Nat} {calls : List Registry.AddCall}
    {senders : Nat} {labels : List ConnectionLabel}
    (hrun : Trace (D.Step transport) (.start t callbacks calls senders) labels s) :
    D.Tracked valid fresh s := by
  refine hrun.invariant (fun _ s => D.Tracked valid fresh s) ?_
    fun _ _ _ _ h hstep => h.step D hlawful hstep
  have hlive : ∀ p, ¬(Connections.start (α := α) t callbacks calls senders).Live p := by
    rintro p (hmem | ⟨a, ha, -⟩ | ⟨a, ha⟩)
    · cases hmem
    · cases ha
    · cases ha
  refine ⟨hvalid, fun p a ha => (nomatch ha), ?_, fun p hp => absurd hp (hlive p),
    fun p hp => absurd hp (hlive p), fun p _ => hlive p⟩
  intro p
  rw [Connections.start, hempty]
  simp [Entered]

/-! ## Sends -/

/-- A send that was begun after the announcement of its peer is about to end with `PeerNotFound`. -/
def MissesPeer (transport : Transport) (s : Connections τ α) (i p : Nat) : Prop :=
  ∃ s', D.Step transport s (.notFound i p true) s'

/-- When such sends miss their peer: at the first lookup if the peer is not registered any more, at
the second one if the peer is not in the map of the transport. As long as the removal of the peer
has not begun, it is registered, and it is in the map unless the I/O thread has still to enter
it. -/
structure MissesOutsideMap (transport : Transport) (s : Connections τ α) : Prop where
  misses_iff : ∀ i p, D.MissesPeer transport s i p ↔
    s.senders[i]? = some (.started p true) ∧ s.registry.findPeer p = none ∨
      s.senders[i]? = some (.encoded p true) ∧ ¬Entered p s.log
  registered : ∀ p ∈ s.announced, s.registry.findPeer p ≠ none
  window : ∀ p ∈ s.announced, p = 0 ∨ Entered p s.log ∨ ∃ a, s.entering = some (p, a)

theorem Tracked.misses (h : D.Tracked valid fresh s) (transport : Transport) :
    D.MissesOutsideMap transport s := by
  refine ⟨?_, fun p hp => h.found p (.inl hp), ?_⟩
  · intro i p
    rw [← h.knows, Bool.not_eq_true]
    constructor
    · rintro ⟨s', hstep⟩
      cases hstep with
      | unregistered _ _ _ hsender hfind => exact .inl ⟨hsender, hfind⟩
      | unknown _ _ _ hsender hknows => exact .inr ⟨hsender, hknows⟩
    · rintro (⟨hsender, hfind⟩ | ⟨hsender, hknows⟩)
      · exact ⟨_, .unregistered s i p true hsender hfind⟩
      · exact ⟨_, .unknown s i p true hsender hknows⟩
  · intro p hp
    rw [← h.knows]
    exact h.ready p (.inl hp)

end Driver

theorem missesOutsideMap (transport : Transport) (callbacks : List Nat)
    (calls : List Registry.AddCall) (senders : Nat) :
    (∀ (maxClients : Nat) (labels : List ConnectionLabel) (s : Connections _ _),
      Trace ((tcpServer maxClients).Step transport) (.start ∅ callbacks calls senders) labels s →
      (tcpServer maxClients).MissesOutsideMap transport s) ∧
    (∀ (config : UdpConfig) (labels : List ConnectionLabel) (s : Connections _ _),
      Trace ((udp config).Step transport) (.start {} callbacks calls senders) labels s →
      (udp config).MissesOutsideMap transport s) := by
  constructor
  · intro maxClients labels s hrun
    have htracked := Driver.tracked _ (lawful_tcpServer maxClients) trivial (fun _ => rfl) hrun
    exact htracked.misses _ transport
  intro config labels s hrun
  have hvalid : UdpPeers.Valid {} := fun q a hq => nomatch hq
  have htracked := Driver.tracked _ (lawful_udp config) hvalid (fun _ => rfl) hrun
  exact htracked.misses _ transport

/-- A send that has been begun after the announcement and has passed the first lookup. -/
theorem trace_encoded {τ ε α : Type} {D : Driver τ ε α} {transport : Transport}
    {start s : Connections τ α} {labels : List ConnectionLabel}
    (hrun : Trace (D.Step transport) start labels s) (hsenders : s.senders = [.idle]) {p : Nat}
    (hannounced : p ∈ s.announced) (hfound : s.registry.findPeer p ≠ none) :
    Trace (D.Step transport) start (labels ++ [.start 0 p true, .encoded 0])
      { s with senders := [.encoded p true] } := by
  have hstart := Trace.snoc _ _ _ _ hrun (.start s 0 p (by rw [hsenders]; rfl))
  rw [decide_eq_true hannounced, Connections.setSender, hsenders] at hstart
  have hencode := Trace.snoc _ _ _ _ hstart (.encode _ 0 p true rfl hfound)
  rw [append_assoc] at hencode
  exact hencode

/-- A send to a client that the server has entered does not miss it. -/
theorem missesOutsideMap_client :
    ∃ labels s, Trace ((tcpServer 1).Step soleServer) (.start ∅ [0] soleServerCalls 1)
        (labels ++ [.start 0 2 true, .encoded 0]) s ∧
      s.senders = [.encoded 2 true] ∧ ¬(tcpServer 1).MissesPeer soleServer s 0 2 := by
  obtain ⟨labels, s, hrun, -, -, hlog, hsenders, hannounced⟩ := exists_client
  have hmap := (missesOutsideMap soleServer [0] soleServerCalls 1).1 1
  have hencoded := trace_encoded hrun hsenders hannounced ((hmap _ _ hrun).registered 2 hannounced)
  refine ⟨labels, _, hencoded, rfl, ?_⟩
  rw [(hmap _ _ hencoded).misses_iff]
  rintro (⟨hstarted, -⟩ | ⟨-, hentered⟩)
  · cases hstarted
  · exact hentered ⟨[.announced 2], [], hlog, not_mem_nil⟩

/-- A send to a client that a callback has been told about, before the server enters it: the peer is
not found, although nothing has removed it. -/
theorem missesOutsideMap_fails :
    ∃ labels s, Trace ((tcpServer 1).Step soleServer) (.start ∅ [0] soleServerCalls 1)
        (labels ++ [.start 0 2 true, .encoded 0] ++ [.notFound 0 2 true]) s ∧
      s.log = [.announced 2] := by
  obtain ⟨labels, s, hrun, -, -, htransport, hlog, hsenders, hannounced⟩ :=
    exists_announced (tcpServer 1) (t := ∅) (e := .accept loopback 7 true true) rfl
  have htracked := Driver.tracked _ (lawful_tcpServer 1) trivial (fun _ => rfl) hrun
  have hencoded := trace_encoded hrun hsenders hannounced (htracked.found 2 (.inl hannounced))
  have hunknown : (tcpServer 1).knows s.transport 2 = false := by rw [htransport]; rfl
  exact ⟨labels, _, .snoc _ _ _ _ hencoded (.unknown _ 0 2 true rfl hunknown), hlog⟩

end Conduit.Transceiver

import Conduit.Transceiver.StateNotices

/-!
# Peers of the configuration

The constructor of the transceiver registers the peers that its configuration lists. Which overload
of `add_peer` is used follows from the configuration of the transport; the overloads ask the
transport itself.
-/

namespace Conduit.Transceiver

open List

/-- The transports that can be configured, with what decides how many peers they have. -/
inductive TransportConfig where
  | udp (remoteAddress multicastGroup : String)
  | tcpClient
  | tcpServer
  | serial
deriving DecidableEq

/-- A peer of the configuration. Its session factory returns a session or a null pointer. -/
structure PeerConfig where
  name : String
  transport : TransportConfig
  returnsSession : Bool

/-- `transceiver.cpp:61-73`. -/
def TransportConfig.isMultiPeer : TransportConfig → Bool
  | .udp remoteAddress _ => remoteAddress = ""
  | .tcpServer => true
  | .tcpClient => false
  | .serial => false

/-- `transceiver.cpp:43-59`, a new object. A UDP transport with a multicast group has one peer, the
group (`udp.cpp:79-94`). -/
def makeTransport (object : Nat) : TransportConfig → Transport
  | .udp remoteAddress multicastGroup =>
    let singlePeer := multicastGroup ≠ "" ∨ remoteAddress ≠ ""
    { object, multiPeer := !decide singlePeer, streamOriented := false }
  | .tcpServer => { object, multiPeer := true, streamOriented := true }
  | .tcpClient => { object, multiPeer := false, streamOriented := true }
  | .serial => { object, multiPeer := false, streamOriented := true }

namespace Registry

variable {s : Registry} {cfg : PeerConfig} {done cfgs : List PeerConfig}

/-- The body of the loop in `materialize_config_peers`. -/
def materializePeer (cfg : PeerConfig) (object : Nat) (s : Registry) : Except Error Nat × Registry :=
  let transport := makeTransport object cfg.transport
  if cfg.transport.isMultiPeer then s.addFactory cfg.name true (some transport)
  else if !cfg.returnsSession then
    (.error ⟨.invalidArgument, s!"Session factory returned null for peer '{cfg.name}'"⟩, s)
  else s.addPeer cfg.name true (some transport)

/-- `transceiver.cpp:75-103`. -/
def materializeConfigPeers : List PeerConfig → Nat → Registry → Except Error Unit × Registry
  | [], _, s => (.ok (), s)
  | cfg :: cfgs, object, s =>
    match s.materializePeer cfg object with
    | (.ok _, s) => materializeConfigPeers cfgs (object + 1) s
    | (.error e, s) => (.error e, s)

/-- The registry has the configured peers and no others: the static ones and the factory entries in
the order of the list, and all their names. -/
structure Registered (done : List PeerConfig) (s : Registry) : Prop where
  idle : s.running = false
  peers : s.peers.map (·.name) = (done.filter fun c => !c.transport.isMultiPeer).map (·.name)
  entries : s.entries.map (·.name) = (done.filter fun c => c.transport.isMultiPeer).map (·.name)
  names (name : String) : (s.names.lookup name).isSome ↔ name ∈ done.map (·.name)

/-- The transport is what its configuration was taken for. -/
def PeerConfig.Agrees (cfg : PeerConfig) : Prop :=
  ∀ group, group ≠ "" → cfg.transport ≠ .udp "" group

theorem multiPeer_makeTransport (object : Nat) (h : PeerConfig.Agrees cfg) :
    (makeTransport object cfg.transport).multiPeer = cfg.transport.isMultiPeer := by
  unfold PeerConfig.Agrees at h
  cases htransport : cfg.transport with
  | udp remote group =>
    by_cases hremote : remote = ""
    · have hgroup : group = "" := by_contra fun hne => h group hne (by rw [htransport, hremote])
      simp [makeTransport, TransportConfig.isMultiPeer, hremote, hgroup]
    · simp [makeTransport, TransportConfig.isMultiPeer, hremote]
  | tcpClient | tcpServer | serial => rfl

theorem Registered.nextPeerId (h : Registered done s) : Registered done s.nextPeerId.2 := by
  obtain ⟨n, hn⟩ := takeId_snd 256 s
  rw [Registry.nextPeerId, hn]
  exact ⟨h.idle, h.peers, h.entries, h.names⟩

theorem Registered.track (transport : Transport) (h : Registered done s) :
    Registered done (s.track transport) := by
  unfold Registry.track
  split
  · exact h
  · exact ⟨h.idle, h.peers, h.entries, h.names⟩

theorem Registered.lookup_insert {id : Nat} (h : Registered done s) (name : String) :
    ((s.names.insert cfg.name id).lookup name).isSome ↔ name ∈ (done ++ [cfg]).map (·.name) := by
  by_cases hname : name = cfg.name
  · subst hname
    simp
  · rw [AList.lookup_insert_ne hname, h.names]
    simp [hname]

theorem Registered.materializePeer (object : Nat) (h : Registered done s)
    (hnew : cfg.name ∉ done.map (·.name)) (hsession : cfg.returnsSession = true)
    (hagrees : PeerConfig.Agrees cfg) :
    ∃ id s', s.materializePeer cfg object = (.ok id, s') ∧ Registered (done ++ [cfg]) s' := by
  have hmulti := multiPeer_makeTransport object hagrees
  have hnext := h.nextPeerId
  have hfree : (s.nextPeerId.2.names.lookup cfg.name).isSome = false :=
    Bool.eq_false_iff.mpr (mt (hnext.names cfg.name).mp hnew)
  unfold Registry.materializePeer addFactory addPeer
  by_cases hkind : cfg.transport.isMultiPeer
  · simp only [hkind, h.idle, hmulti, hfree, Bool.false_eq_true, if_false, if_true, Bool.not_true]
    refine ⟨_, _, rfl, Registered.track _ ⟨hnext.idle, ?_, ?_, hnext.lookup_insert⟩⟩
    · simpa [insertEntry, hkind] using hnext.peers
    · simpa [insertEntry, hkind] using hnext.entries
  rw [Bool.not_eq_true] at hkind
  simp only [hkind, h.idle, hmulti, hfree, hsession, Bool.false_eq_true, if_false, Bool.not_true]
  refine ⟨_, _, rfl, Registered.track _ ⟨hnext.idle, ?_, ?_, hnext.lookup_insert⟩⟩
  · simpa [insertPeer, hkind] using hnext.peers
  · simpa [insertPeer, hkind] using hnext.entries

theorem materializePeer_error (object : Nat) (hidle : s.running = false)
    (hagrees : ¬PeerConfig.Agrees cfg) : ∃ e s', s.materializePeer cfg object = (.error e, s') := by
  obtain ⟨group, hgroup, htransport⟩ : ∃ group, group ≠ "" ∧ cfg.transport = .udp "" group := by
    simpa [PeerConfig.Agrees] using hagrees
  -- taken for a receiver, the group reaches the overload that wants a multi-peer transport
  simp [Registry.materializePeer, addFactory, htransport, hidle, hgroup,
    TransportConfig.isMultiPeer, makeTransport]

/-- What is left of the list is registered after what is there already. -/
theorem Registered.materialize (object : Nat) (h : Registered done s)
    (hnames : ((done ++ cfgs).map (·.name)).Nodup)
    (hsessions : ∀ c ∈ cfgs, c.returnsSession = true) :
    ((materializeConfigPeers cfgs object s).1 = .ok ()
        ∧ Registered (done ++ cfgs) (materializeConfigPeers cfgs object s).2)
      ↔ ∀ c ∈ cfgs, PeerConfig.Agrees c := by
  induction cfgs generalizing done s object with
  | nil => simpa [materializeConfigPeers] using h
  | cons cfg cfgs ih =>
    rw [materializeConfigPeers, forall_mem_cons]
    by_cases hagrees : PeerConfig.Agrees cfg
    · have hnew : cfg.name ∉ done.map (·.name) := by
        rw [map_append, map_cons, nodup_append] at hnames
        exact fun hmem => hnames.2.2 _ hmem _ mem_cons_self rfl
      obtain ⟨id, s', hstep, hs'⟩ :=
        h.materializePeer object hnew (hsessions cfg mem_cons_self) hagrees
      have hrest := ih (object + 1) hs' (by simpa using hnames)
        fun c hc => hsessions c (mem_cons_of_mem _ hc)
      rw [hstep, and_iff_right hagrees, ← hrest, append_assoc, singleton_append]
    · obtain ⟨e, s', hstep⟩ := materializePeer_error object h.idle hagrees
      rw [hstep]
      simp [hagrees]

/-- The configured peers are all registered exactly if no UDP transport with a multicast group
lacks a remote address. -/
theorem configured_registered_iff (cfgs : List PeerConfig) (hnames : (cfgs.map (·.name)).Nodup)
    (hsessions : ∀ c ∈ cfgs, c.returnsSession = true) :
    ((materializeConfigPeers cfgs 0 {}).1 = .ok ()
        ∧ Registered cfgs (materializeConfigPeers cfgs 0 {}).2)
      ↔ ∀ c ∈ cfgs, PeerConfig.Agrees c := by
  have hempty : Registered [] {} := ⟨rfl, rfl, rfl, by simp⟩
  exact hempty.materialize 0 hnames hsessions

theorem configured_registered_server : Registered [⟨"server", .tcpServer, true⟩]
      (materializeConfigPeers [⟨"server", .tcpServer, true⟩] 0 {}).2 :=
  ((configured_registered_iff [⟨"server", .tcpServer, true⟩] (by simp) (by simp)).mpr
    (by simp [PeerConfig.Agrees])).2

/-- A multicast group without a remote address is refused. -/
theorem configured_group_refused :
    (materializeConfigPeers [⟨"group", .udp "" "239.1.1.1", true⟩] 0 {}).1
      = .error ⟨.invalidArgument, "Session factory overload requires a multi-peer transport"⟩ :=
  rfl

end Registry

end Conduit.Transceiver

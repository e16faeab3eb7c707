import Conduit.Transceiver.MultiPeer
import Mathlib.Algebra.Order.BigOperators.Group.List
import Mathlib.Algebra.Order.Group.Nat

/-!
# What the state callbacks are told

The transports and the transceiver both report the end of a connection, and the UDP transport
reports the start of one that the transceiver has reported already. What a callback has heard of a
peer, and what is left to be told, is what these reports add up to along the life of the
connections.
-/

namespace Conduit.Transceiver

open Sync HandlerAction Connections Registry List

/-! ## The sections of the handlers -/

namespace Registry

variable {s : Registry} (peer : Nat) (state : ConnectionState)

@[simp] theorem callbacks_setState : (s.setState peer state).callbacks = s.callbacks := by
  unfold setState updatePeer
  split <;> rfl

@[simp] theorem told_setState : (s.setState peer state).told = s.told := by
  unfold setState updatePeer
  split <;> rfl

@[simp] theorem findPeer_setState (q : Nat) :
    (s.setState peer state).findPeer q = s.findPeer q := by
  unfold setState updatePeer
  split <;> rfl

theorem dropPeer_eq : s.dropPeer peer = s.setState peer .disconnected ∨
      s.dropPeer peer = (s.setState peer .disconnected).removePeer peer := by
  unfold dropPeer
  dsimp only
  split
  · exact .inl rfl
  split
  · exact .inr rfl
  · exact .inl rfl

@[simp] theorem callbacks_dropPeer : (s.dropPeer peer).callbacks = s.callbacks := by
  rcases dropPeer_eq (s := s) peer with h | h <;> rw [h]
  · exact callbacks_setState ..
  · exact callbacks_setState ..

@[simp] theorem told_dropPeer : (s.dropPeer peer).told = s.told := by
  rcases dropPeer_eq (s := s) peer with h | h <;> rw [h]
  · exact told_setState ..
  · exact told_setState ..

theorem findPeer_dropPeer_of_ne {peer q : Nat} (hne : q ≠ peer) :
    (s.dropPeer peer).findPeer q = s.findPeer q := by
  rcases dropPeer_eq (s := s) peer with h | h <;> rw [h]
  · exact findPeer_setState ..
  have herase : ((s.setState peer .disconnected).removePeer peer).findPeer q
      = (s.setState peer .disconnected).findPeer q := AList.lookup_erase_ne hne
  rw [herase, findPeer_setState]

theorem takeId_snd (attempts : Nat) (s : Registry) :
    ∃ k, (takeId attempts s).2 = { s with idCounter := k } := by
  induction attempts generalizing s with
  | zero => exact ⟨_, rfl⟩
  | succ attempts ih =>
    rw [takeId]
    split
    · obtain ⟨k, hk⟩ := ih { s with idCounter := s.idCounter + 1 }
      exact ⟨k, hk⟩
    split
    · exact ⟨_, rfl⟩
    obtain ⟨k, hk⟩ := ih { s with idCounter := s.idCounter + 1 }
    exact ⟨k, hk⟩

/-- What a connection leaves alone, and that its peer can be found afterwards. -/
structure Connects (s : Registry) (peer : Option Nat) (r : Registry) : Prop where
  callbacks : r.callbacks = s.callbacks
  told : r.told = s.told
  found : ∀ q, s.findPeer q ≠ none → r.findPeer q ≠ none
  new : ∀ q, peer = some q → r.findPeer q ≠ none

theorem connects_connectPeer (transport : Transport) (remoteEndpoint : String) (hasSession : Bool) :
    Connects s (s.connectPeer transport remoteEndpoint hasSession).1
      (s.connectPeer transport remoteEndpoint hasSession).2 := by
  obtain ⟨k, hk⟩ := takeId_snd 256 s
  unfold connectPeer nextPeerId
  split
  · exact ⟨rfl, rfl, fun _ h => h, by simp⟩
  dsimp only
  rw [hk]
  split
  · exact ⟨rfl, rfl, fun _ h => h, by simp⟩
  refine ⟨rfl, rfl, ?_, ?_⟩
  · intro q hq
    rcases eq_or_ne q (takeId 256 s).1 with rfl | hne
    · simp [findPeer, insertPeer]
    · simpa [findPeer, insertPeer, AList.lookup_insert_ne hne] using hq
  · rintro q ⟨⟩
    simp [findPeer, insertPeer]

theorem add_callbacks (s : Registry) (call : AddCall) :
    (s.add call).callbacks = s.callbacks ∧ (s.add call).told = s.told := by
  obtain ⟨k, hk⟩ := takeId_snd 256 s
  have htrack : ∀ (r : Registry) (transport : Transport),
      (r.track transport).callbacks = r.callbacks ∧ (r.track transport).told = r.told := by
    intro r transport
    unfold track
    split <;> exact ⟨rfl, rfl⟩
  cases call with
  | session name hasSession transport =>
    unfold add addPeer nextPeerId
    repeat' split
    all_goals simp_all [insertPeer]
  | factory name hasFactory transport =>
    unfold add addFactory nextPeerId
    repeat' split
    all_goals simp_all [insertEntry]

theorem started_callbacks (callbacks : List Nat) (calls : List AddCall) :
    (started callbacks calls).callbacks = callbacks ∧ (started callbacks calls).told = [] := by
  have hadd : ∀ (calls : List AddCall) (s : Registry),
      (calls.foldl add s).callbacks = s.callbacks ∧ (calls.foldl add s).told = s.told := by
    intro calls
    induction calls with
    | nil => exact fun _ => ⟨rfl, rfl⟩
    | cons call calls ih =>
      intro s
      obtain ⟨hcallbacks, htold⟩ := s.add_callbacks call
      obtain ⟨hcallbacks', htold'⟩ := ih (s.add call)
      exact ⟨hcallbacks'.trans hcallbacks, htold'.trans htold⟩
  exact hadd calls { callbacks }

end Registry

/-! ## Reports -/

/-- What a callback hears of a peer. -/
def heard (callback peer : Nat) (notices : List Notice) : List ConnectionState :=
  (notices.filter fun n => n.callback = callback ∧ n.peer = peer).map (·.state)

theorem heard_append (callback peer : Nat) (ns ns' : List Notice) :
    heard callback peer (ns ++ ns') = heard callback peer ns ++ heard callback peer ns' := by
  simp only [heard, filter_append, map_append]

def HandlerAction.notice? : HandlerAction → Option Notice
  | .tell notice => some notice
  | _ => none

/-- What is left to be told of a peer. -/
def HandlerAction.report (callback peer : Nat) (actions : List HandlerAction) : List ConnectionState :=
  heard callback peer (actions.filterMap notice?)

namespace HandlerAction

variable {callbacks : List Nat} {callback : Nat}

theorem report_append (callback peer : Nat) (as as' : List HandlerAction) :
    report callback peer (as ++ as') = report callback peer as ++ report callback peer as' := by
  rw [report, filterMap_append, heard_append, report, report]

section

variable (hnodup : callbacks.Nodup) (hcallback : callback ∈ callbacks) (peer q : Nat)

include hnodup hcallback

theorem report_tells (state : ConnectionState) :
    report callback peer (tells callbacks q state) = if q = peer then [state] else [] := by
  have hcons : ∀ (c : Nat) (cs : List Nat), report callback peer (tells (c :: cs) q state)
      = heard callback peer [⟨c, q, state⟩] ++ report callback peer (tells cs q state) := by
    intro c cs
    rw [report, report, ← heard_append]
    rfl
  have hcount : ∀ cs : List Nat, report callback peer (tells cs q state)
      = if q = peer then replicate (cs.count callback) state else [] := by
    intro cs
    induction cs with
    | nil => simp [report, tells, heard]
    | cons c cs ih =>
      rw [hcons, ih]
      by_cases hc : c = callback <;> by_cases hq : q = peer <;>
        simp [heard, hc, hq, replicate_succ]
  rw [hcount, count_eq_one_of_mem hnodup hcallback]
  rfl

theorem report_stateChanged (state : ConnectionState) :
    report callback peer (stateChanged callbacks q state) = if q = peer then [state] else [] :=
  report_tells hnodup hcallback peer q state

theorem report_peerDisconnected : report callback peer (peerDisconnected callbacks q)
      = if q = peer then [.disconnected] else [] :=
  report_tells hnodup hcallback peer q .disconnected

theorem report_removed : report callback peer (removed callbacks q)
      = if q = peer then [.disconnected, .disconnected] else [] := by
  rw [removed, report_append, report_stateChanged hnodup hcallback,
    report_peerDisconnected hnodup hcallback]
  split <;> rfl

end

/-- A performed action moves its notice from what is left to what has been told. -/
theorem report_perform (callback peer : Nat) (a : HandlerAction) (rest : List HandlerAction)
    (r : Registry) : heard callback peer (a.perform r).told ++ report callback peer rest
      = heard callback peer r.told ++ report callback peer (a :: rest) := by
  cases a with
  | setState q state => rw [perform, told_setState]; rfl
  | drop q => rw [perform, told_dropPeer]; rfl
  | tell notice =>
    rw [perform, heard_append, append_assoc, report, ← heard_append]
    rfl

@[simp] theorem callbacks_perform (a : HandlerAction) (r : Registry) :
    (a.perform r).callbacks = r.callbacks := by
  cases a <;> simp [perform]

end HandlerAction

/-! ## The life of a peer -/

namespace Happening

/-- One report for each start and each end. -/
def expected : Happening → List ConnectionState
  | .announced _ => [.connected]
  | .entered _ => []
  | .rejected _ | .removed _ => [.disconnected]

end Happening

def happenings (peer : Nat) (log : List Happening) : List Happening := log.filter (·.peer = peer)

theorem happenings_append (peer : Nat) (log log' : List Happening) :
    happenings peer (log ++ log') = happenings peer log ++ happenings peer log' :=
  filter_append ..

theorem mem_happenings {peer : Nat} {log : List Happening} {h : Happening} :
    h ∈ happenings peer log ↔ h ∈ log ∧ h.peer = peer := by
  simp [happenings]

/-- The reports that the life of a peer calls for. -/
def expectedReports (peer : Nat) (log : List Happening) : List ConnectionState :=
  (happenings peer log).flatMap Happening.expected

namespace Driver

variable {τ ε α : Type} (D : Driver τ ε α)

/-- The reports that the handlers make. -/
def reports : Happening → List ConnectionState
  | .announced _ => [.connected]
  | .entered _ => if D.confirms then [.connected] else []
  | .rejected _ => [.disconnected]
  | .removed _ => [.disconnected, .disconnected]

def allReports (peer : Nat) (log : List Happening) : List ConnectionState :=
  (happenings peer log).flatMap D.reports

theorem allReports_append (peer : Nat) (log log' : List Happening) :
    D.allReports peer (log ++ log') = D.allReports peer log ++ D.allReports peer log' := by
  rw [allReports, happenings_append, flatMap_append, allReports, allReports]

theorem allReports_cons (peer : Nat) (h : Happening) (log : List Happening) :
    D.allReports peer (h :: log)
      = (if h.peer = peer then D.reports h else []) ++ D.allReports peer log := by
  unfold allReports happenings
  by_cases heq : h.peer = peer <;> simp [heq]

theorem allReports_singleton (peer : Nat) (h : Happening) :
    D.allReports peer [h] = if h.peer = peer then D.reports h else [] := by
  rw [allReports_cons]
  exact append_nil _

theorem length_expected_le (h : Happening) : h.expected.length ≤ (D.reports h).length := by
  cases h <;> simp [Happening.expected, reports]

/-- The life of a peer that is reported as expected: its transport never removes it, one that
confirms never enters it either, and its id is not given out again before the connection has
ended. -/
structure Undisturbed (peer : Nat) (log : List Happening) : Prop where
  kept : .removed peer ∉ log
  unconfirmed : D.confirms = true → .entered peer ∉ log
  separate : (expectedReports peer log).IsChain (· ≠ ·)

theorem allReports_eq_iff {peer : Nat} {log : List Happening} :
    D.allReports peer log = expectedReports peer log ↔
      .removed peer ∉ log ∧ (D.confirms = true → .entered peer ∉ log) := by
  -- a report too many makes the whole longer
  have hlonger : ∀ h ∈ log, h.peer = peer → h.expected.length < (D.reports h).length →
      D.allReports peer log ≠ expectedReports peer log := by
    intro h hmem hpeer hlt heq
    have hlengths := congrArg length heq
    rw [allReports, expectedReports, length_flatMap, length_flatMap] at hlengths
    have hsum := sum_lt_sum (l := happenings peer log) (fun h => h.expected.length)
      (fun h => (D.reports h).length) (fun h _ => D.length_expected_le h)
      ⟨h, mem_happenings.mpr ⟨hmem, hpeer⟩, hlt⟩
    omega
  constructor
  · intro heq
    refine ⟨fun hmem => hlonger _ hmem rfl (by simp [Happening.expected, reports]) heq,
      fun hconfirms hmem => hlonger _ hmem rfl ?_ heq⟩
    simp [Happening.expected, reports, hconfirms]
  rintro ⟨hkept, hunconfirmed⟩
  refine flatMap_congr fun h hlog => ?_
  obtain ⟨hmem, hpeer⟩ := mem_happenings.mp hlog
  cases h with
  | announced q => rfl
  | rejected q => rfl
  | removed q =>
    obtain rfl : q = peer := hpeer
    exact absurd hmem hkept
  | entered q =>
    obtain rfl : q = peer := hpeer
    have hconfirms : ¬D.confirms = true := fun h => hunconfirmed h hmem
    simp [reports, Happening.expected, hconfirms]

/-! ## Runs -/

variable {transport : Transport} {callbacks : List Nat} {callback : Nat} {s : Connections τ α}
  {calls : List AddCall} {t : τ} {senders : Nat} {labels : List ConnectionLabel}

/-- What has been told and what is left to be told follow the log. -/
structure Reported (callbacks : List Nat) (callback peer : Nat) (s : Connections τ α) : Prop where
  callbacks : s.registry.callbacks = callbacks
  follows : heard callback peer s.registry.told ++ report callback peer s.pending
    = D.allReports peer s.log

theorem report_flatMap_removed (hnodup : callbacks.Nodup) (hcallback : callback ∈ callbacks)
    (peer : Nat) (peers : List Nat) : report callback peer (peers.flatMap (removed callbacks))
      = D.allReports peer (peers.map .removed) := by
  induction peers with
  | nil => rfl
  | cons q peers ih =>
    rw [flatMap_cons, report_append, ih, report_removed hnodup hcallback, map_cons, allReports_cons]
    rfl

theorem Reported.step (hnodup : callbacks.Nodup) (hcallback : callback ∈ callbacks) {peer : Nat}
    {s' : Connections τ α} {label : ConnectionLabel} (h : D.Reported callbacks callback peer s)
    (hstep : D.Step transport s label s') : D.Reported callbacks callback peer s' := by
  obtain ⟨hcallbacks, hreports⟩ := h
  -- the I/O thread has nothing left to tell when a connection moves on
  have hlog : ∀ {h : List Happening} {actions : List HandlerAction}, s.pending = [] →
      report callback peer actions = D.allReports peer h →
      heard callback peer s.registry.told ++ report callback peer actions
        = D.allReports peer (s.log ++ h) := by
    intro h actions hpending hactions
    have htold : heard callback peer s.registry.told = D.allReports peer s.log := by
      rw [← hreports, hpending]
      exact (append_nil _).symm
    rw [allReports_append, htold, hactions]
  cases hstep with
  | quiet => exact ⟨hcallbacks, hreports⟩
  | refuse _ remoteEndpoint hasSession _ r _ _ hconnect =>
    have hconnects := s.registry.connects_connectPeer transport remoteEndpoint hasSession
    rw [hconnect] at hconnects
    exact ⟨hconnects.callbacks.trans hcallbacks, by rw [hconnects.told]; exact hreports⟩
  | announce _ remoteEndpoint hasSession _ q r hidle _ hconnect =>
    have hconnects := s.registry.connects_connectPeer transport remoteEndpoint hasSession
    rw [hconnect] at hconnects
    refine ⟨hconnects.callbacks.trans hcallbacks, ?_⟩
    rw [Connections.announce, hconnects.told, hcallbacks]
    refine hlog hidle.1 ?_
    rw [report_stateChanged hnodup hcallback, allReports_singleton]
    rfl
  | act a rest hpending =>
    refine ⟨(a.callbacks_perform _).trans hcallbacks, ?_⟩
    rw [Connections.act, report_perform, ← hpending]
    exact hreports
  | enter q _ t hpending =>
    refine ⟨hcallbacks, ?_⟩
    rw [Connections.enter, hcallbacks]
    refine hlog hpending ?_
    rw [allReports_singleton, reports]
    by_cases hconfirms : D.confirms = true
    · rw [if_pos hconfirms, if_pos hconfirms, report_stateChanged hnodup hcallback]
      rfl
    · rw [if_neg hconfirms, if_neg hconfirms, ite_self]
      rfl
  | reject q _ hpending =>
    refine ⟨hcallbacks, ?_⟩
    rw [Connections.reject, hcallbacks]
    refine hlog hpending ?_
    rw [report_peerDisconnected hnodup hcallback, allReports_singleton]
    rfl
  | remove _ t peers hidle =>
    refine ⟨hcallbacks, ?_⟩
    rw [Connections.remove, hcallbacks]
    exact hlog hidle.1 (D.report_flatMap_removed hnodup hcallback peer peers)
  | start | unregistered | encode | fail | unknown | send => exact ⟨hcallbacks, hreports⟩

theorem reported_start (callbacks : List Nat) (callback peer : Nat) (t : τ)
    (calls : List AddCall) (senders : Nat) :
    D.Reported callbacks callback peer (.start t callbacks calls senders) := by
  obtain ⟨hcallbacks, htold⟩ := started_callbacks callbacks calls
  refine ⟨hcallbacks, ?_⟩
  rw [start, htold]
  rfl

variable (hnodup : callbacks.Nodup)
  (hrun : Trace (D.Step transport) (.start t callbacks calls senders) labels s)

include hnodup hrun

theorem reported (hcallback : callback ∈ callbacks) (peer : Nat) :
    D.Reported callbacks callback peer s :=
  hrun.invariant (fun _ s => D.Reported callbacks callback peer s)
    (D.reported_start callbacks callback peer t calls senders)
    fun _ _ _ _ h hstep => h.step D hnodup hcallback hstep

/-- A callback has heard once of each start and each end of a connection, and never the same twice
in a row. -/
def NotifiedOnce (callback peer : Nat) (s : Connections τ α) : Prop :=
  heard callback peer s.registry.told = expectedReports peer s.log ∧
    (heard callback peer s.registry.told).IsChain (· ≠ ·)

theorem heard_eq (hidle : s.Idle) (hcallback : callback ∈ callbacks) (peer : Nat) :
    heard callback peer s.registry.told = D.allReports peer s.log := by
  rw [← (D.reported hnodup hrun hcallback peer).follows, hidle.1]
  exact (append_nil _).symm

theorem notifiedOnce_iff_undisturbed (hidle : s.Idle)
    (hcallback : callback ∈ callbacks) (peer : Nat) :
    NotifiedOnce callback peer s ↔ D.Undisturbed peer s.log := by
  have hheard := D.heard_eq hnodup hrun hidle hcallback peer
  constructor
  · rintro ⟨hexpected, hchain⟩
    obtain ⟨hkept, hunconfirmed⟩ := D.allReports_eq_iff.mp (hheard.symm.trans hexpected)
    exact ⟨hkept, hunconfirmed, hexpected ▸ hchain⟩
  · rintro ⟨hkept, hunconfirmed, hseparate⟩
    have hexpected := hheard.trans (D.allReports_eq_iff.mpr ⟨hkept, hunconfirmed⟩)
    exact ⟨hexpected, hexpected ▸ hseparate⟩

end Driver

/-- The I/O thread has come to the end of the handlers that it was in. -/
structure Connections.Settles {τ α : Type} (s s' : Connections τ α) : Prop where
  pending : s'.pending = []
  entering : s'.entering = s.entering
  transport : s'.transport = s.transport
  log : s'.log = s.log
  senders : s'.senders = s.senders
  announced : ∀ p, (p ∈ s.announced ∨ ∃ a ∈ s.pending, p ∈ a.announced) → p ∈ s'.announced

theorem Driver.exists_settled {τ ε α : Type} (D : Driver τ ε α) {transport : Transport}
    {start : Connections τ α} {labels : List ConnectionLabel} {s : Connections τ α}
    (hrun : Trace (D.Step transport) start labels s) :
    ∃ labels' s', Trace (D.Step transport) start labels' s' ∧ s.Settles s' := by
  generalize hpending : s.pending = actions
  induction actions generalizing labels s with
  | nil => exact ⟨labels, s, hrun, hpending, rfl, rfl, rfl, rfl, by simp [hpending]⟩
  | cons a rest ih =>
    have hact := Trace.snoc labels .io s _ hrun (Driver.Step.act s a rest hpending)
    obtain ⟨labels', s', hrun', hsettles⟩ := ih hact rfl
    refine ⟨labels', s', hrun', hsettles.pending, hsettles.entering, hsettles.transport,
      hsettles.log, hsettles.senders, fun p hp => hsettles.announced p ?_⟩
    rw [hpending] at hp
    simp only [mem_cons, exists_eq_or_imp] at hp
    simp only [act, mem_append]
    tauto

/-! ## The two transports -/

/-- The callbacks hear once of each start and each end of a connection as long as the TCP server
removes no client, and as long as the UDP transport enters and removes no peer. -/
theorem notifiedOnce_iff (transport : Transport) {callbacks : List Nat} (hnodup : callbacks.Nodup)
    (calls : List AddCall) (senders : Nat) {callback : Nat}
    (hcallback : callback ∈ callbacks) (peer : Nat) :
    (∀ (maxClients : Nat) (labels : List ConnectionLabel) (s : Connections _ _),
      Trace ((tcpServer maxClients).Step transport) (.start ∅ callbacks calls senders) labels s →
      s.Idle → (Driver.NotifiedOnce callback peer s ↔
        .removed peer ∉ s.log ∧ (expectedReports peer s.log).IsChain (· ≠ ·))) ∧
    (∀ (config : UdpConfig) (labels : List ConnectionLabel) (s : Connections _ _),
      Trace ((udp config).Step transport) (.start {} callbacks calls senders) labels s →
      s.Idle → (Driver.NotifiedOnce callback peer s ↔
        .removed peer ∉ s.log ∧ .entered peer ∉ s.log ∧
          (expectedReports peer s.log).IsChain (· ≠ ·))) := by
  constructor
  · intro maxClients labels s hrun hidle
    rw [(tcpServer maxClients).notifiedOnce_iff_undisturbed hnodup hrun hidle hcallback]
    exact ⟨fun h => ⟨h.kept, h.separate⟩, fun h => ⟨h.1, fun hconfirms => (nomatch hconfirms), h.2⟩⟩
  · intro config labels s hrun hidle
    rw [(udp config).notifiedOnce_iff_undisturbed hnodup hrun hidle hcallback]
    exact ⟨fun h => ⟨h.kept, h.unconfirmed rfl, h.separate⟩, fun h => ⟨h.1, fun _ => h.2.1, h.2.2⟩⟩

/-- A server that is the only transport. -/
def soleServer : Transport := { object := 0, multiPeer := true, streamOriented := true }

def soleServerCalls : List AddCall := [.factory "server" true (some soleServer)]

theorem exists_announced {τ ε α : Type} (D : Driver τ ε α) {t : τ} {e : ε} {a : α}
    {remoteEndpoint : String} (hevent : D.event e t = .announce remoteEndpoint true a) :
    ∃ labels s, Trace (D.Step soleServer) (.start t [0] soleServerCalls 1) labels s ∧
      s.pending = [] ∧ s.entering = some (2, a) ∧ s.transport = t ∧ s.log = [.announced 2] ∧
      s.senders = [.idle] ∧ 2 ∈ s.announced := by
  have hpeer : ((started [0] soleServerCalls).connectPeer soleServer remoteEndpoint true).1
      = some 2 := rfl
  have hstep : D.Step soleServer (.start t [0] soleServerCalls 1) .io _ :=
    .announce _ e remoteEndpoint true a 2 _ ⟨rfl, rfl⟩ hevent (Prod.ext hpeer rfl)
  obtain ⟨labels, s, hrun, hsettles⟩ := D.exists_settled (.snoc [] .io _ _ .nil hstep)
  refine ⟨labels, s, hrun, hsettles.pending, hsettles.entering, hsettles.transport, hsettles.log,
    hsettles.senders, hsettles.announced 2 (.inr ⟨.tell ⟨0, 2, .connected⟩, ?_, ?_⟩)⟩
  · exact mem_cons_of_mem _ (mem_singleton_self _)
  · exact mem_singleton_self _

def loopback : String := "127.0.0.1:4000"

theorem exists_client :
    ∃ labels s, Trace ((tcpServer 1).Step soleServer) (.start ∅ [0] soleServerCalls 1) labels s ∧
      s.Idle ∧ s.transport = AList.insert 2 7 ∅ ∧ s.log = [.announced 2, .entered 2] ∧
      s.senders = [.idle] ∧ 2 ∈ s.announced := by
  obtain ⟨labels, s, hrun, hpending, hentering, htransport, hlog, hsenders, hannounced⟩ :=
    exists_announced (tcpServer 1) (t := ∅) (e := .accept loopback 7 true true) rfl
  refine ⟨_, _, .snoc labels .io s _ hrun (.enter s 2 7 _ hpending hentering rfl), ⟨rfl, rfl⟩, ?_, ?_,
    hsenders, hannounced⟩
  · rw [enter, htransport]
  rw [enter, hlog]
  rfl

theorem notifiedOnce_iff_client :
    ∃ labels s, Trace ((tcpServer 1).Step soleServer) (.start ∅ [0] soleServerCalls 1) labels s ∧
      s.log = [.announced 2, .entered 2] ∧ Driver.NotifiedOnce 0 2 s := by
  obtain ⟨labels, s, hrun, hidle, _, hlog, -, -⟩ := exists_client
  refine ⟨labels, s, hrun, hlog, ?_⟩
  refine ((notifiedOnce_iff soleServer (nodup_singleton 0) soleServerCalls 1
    (mem_singleton_self 0) 2).1 1 labels s hrun hidle).mpr ?_
  rw [hlog]
  decide

/-- A client that has connected and disconnected: the callback hears twice of the end. A UDP peer
that sends its first datagram: the callback hears twice of the start. -/
theorem notifiedOnce_fails :
    (∃ labels s, Trace ((tcpServer 1).Step soleServer) (.start ∅ [0] soleServerCalls 1) labels s ∧
      s.Idle ∧ s.log = [.announced 2, .entered 2, .removed 2] ∧
      heard 0 2 s.registry.told = [.connected, .disconnected, .disconnected]) ∧
    (∃ labels s, Trace ((udp ⟨1, 0⟩).Step soleServer) (.start {} [0] soleServerCalls 1) labels s ∧
      s.Idle ∧ s.log = [.announced 2, .entered 2] ∧
      heard 0 2 s.registry.told = [.connected, .connected]) := by
  constructor
  · obtain ⟨labels, s, hrun, hidle, htransport, hlog, -, -⟩ := exists_client
    obtain ⟨labels, s', hrun', hsettles⟩ := Driver.exists_settled _
      (.snoc labels .io s _ hrun (.remove s (.closed 2) ∅ [2] hidle (by rw [htransport]; rfl)))
    have hidle' : s'.Idle := ⟨hsettles.pending, hsettles.entering.trans hidle.2⟩
    have hlog'' : s'.log = [.announced 2, .entered 2, .removed 2] := by
      rw [hsettles.log, remove, hlog]
      rfl
    refine ⟨labels, s', hrun', hidle', hlog'', ?_⟩
    rw [Driver.heard_eq _ (nodup_singleton 0) hrun' hidle' (mem_singleton_self 0), hlog'']
    rfl
  obtain ⟨labels, s, hrun, hpending, hentering, htransport, hlog, -, -⟩ :=
    exists_announced (udp ⟨1, 0⟩) (t := {}) (e := .datagram ⟨2130706433, 4000⟩ 0 true) rfl
  obtain ⟨labels, s', hrun', hsettles⟩ := Driver.exists_settled _
    (.snoc labels .io s _ hrun (.enter s 2 _ _ hpending hentering (by rw [htransport]; rfl)))
  have hidle' : s'.Idle := ⟨hsettles.pending, hsettles.entering⟩
  have hlog'' : s'.log = [.announced 2, .entered 2] := by
    rw [hsettles.log, enter, hlog]
    rfl
  refine ⟨labels, s', hrun', hidle', hlog'', ?_⟩
  rw [Driver.heard_eq _ (nodup_singleton 0) hrun' hidle' (mem_singleton_self 0), hlog'']
  rfl

end Conduit.Transceiver

import Conduit.Data.Runs
import Conduit.Transceiver.Registry

/-!
# Consistency of the peer registry

A run of the registry starts with calls of `add_peer` and goes on with connections and
disconnections. The invariant says where every id, every context and every name comes from. It is
kept by every event apart from a connection whose generated name belongs to a static peer.
-/

namespace Conduit.Transceiver

open List

/-! ## Generated names -/

theorem append_cons_inj {α : Type} {x : α} {before before' after after' : List α}
    (hafter : x ∉ after) (hafter' : x ∉ after')
    (h : before ++ x :: after = before' ++ x :: after') : before = before' ∧ after = after' := by
  rcases append_eq_append_iff.mp h with ⟨rest, hbefore, hrest⟩ | ⟨rest, hbefore, hrest⟩
  all_goals
    cases rest with
    | nil =>
      rw [append_nil] at hbefore
      rw [nil_append, cons.injEq] at hrest
      exact ⟨by rw [hbefore], by rw [hrest.2]⟩
    | cons y rest => simp_all

theorem child_inj {name name' : String} {k k' : Nat}
    (h : name ++ "/" ++ toString k = name' ++ "/" ++ toString k') : name = name' ∧ k = k' := by
  have hdigits : ∀ k : Nat, '/' ∉ Nat.toDigits 10 k := by
    intro k hmem
    have hdigit := Nat.isDigit_of_mem_toDigits (by decide) (by decide) hmem
    revert hdigit
    decide
  have hlists := congrArg String.toList h
  simp only [String.toList_append, Nat.toString_eq_repr, Nat.toList_repr, append_assoc] at hlists
  obtain ⟨hname, hnumber⟩ := append_cons_inj (hdigits k) (hdigits k') hlists
  refine ⟨String.toList_inj.mp hname, ?_⟩
  rw [← Nat.ofDigitChars_ten_toDigits (n := k), hnumber, Nat.ofDigitChars_ten_toDigits]

namespace Registry

/-! ## What a write to a context leaves alone -/

variable (peer : Nat) (state : ConnectionState)

/-- The fields of a context that never change. -/
structure PeerKey where
  object : Nat
  id : Nat
  name : String
  transport : Transport

def PeerContext.key (c : PeerContext) : PeerKey := ⟨c.object, c.id, c.name, c.transport⟩

def live (s : Registry) : List PeerKey := s.peers.map PeerContext.key

variable {s : Registry} {f : PeerContext → PeerContext}

theorem live_updateObject (hf : ∀ c, (f c).key = c.key) (object : Nat) :
    (s.updateObject object f).live = s.live := by
  unfold live updateObject
  rw [map_map]
  refine map_congr_left fun c _ => ?_
  rw [Function.comp_apply]
  split
  · exact hf c
  · rfl

/-- All that the invariant speaks of. -/
structure Same (s s' : Registry) : Prop where
  idCounter : s'.idCounter = s.idCounter
  nextObject : s'.nextObject = s.nextObject
  live : s'.live = s.live
  peerMap : s'.peerMap = s.peerMap
  entries : s'.entries = s.entries
  names : s'.names = s.names

theorem Same.trans {s s' s'' : Registry} (h : Same s s') (h' : Same s' s'') : Same s s'' :=
  ⟨h'.idCounter.trans h.idCounter, h'.nextObject.trans h.nextObject, h'.live.trans h.live,
    h'.peerMap.trans h.peerMap, h'.entries.trans h.entries, h'.names.trans h.names⟩

theorem same_updateObject (hf : ∀ c, (f c).key = c.key) (object : Nat) :
    Same s (s.updateObject object f) :=
  ⟨rfl, rfl, live_updateObject hf object, rfl, rfl, rfl⟩

theorem same_updatePeer (hf : ∀ c, (f c).key = c.key) (peer : Nat) :
    Same s (s.updatePeer peer f) := by
  unfold updatePeer
  split
  · exact ⟨rfl, rfl, rfl, rfl, rfl, rfl⟩
  · exact same_updateObject hf _

theorem same_notify : Same s (s.notify peer state) := ⟨rfl, rfl, rfl, rfl, rfl, rfl⟩

theorem same_setState : Same s (s.setState peer state) := by
  refine same_updatePeer ?_ peer
  exact fun _ => rfl

theorem same_handleStateChanged : Same s (s.handleStateChanged peer state) :=
  (same_setState peer state).trans (same_notify peer state)

theorem same_track (transport : Transport) : Same s (s.track transport) := by
  unfold track
  split <;> exact ⟨rfl, rfl, rfl, rfl, rfl, rfl⟩

theorem same_reconnect (transport : Transport) (remoteEndpoint : String) :
    Same s (s.reconnect transport remoteEndpoint).2 := by
  unfold reconnect
  split
  · exact ⟨rfl, rfl, rfl, rfl, rfl, rfl⟩
  refine same_updateObject ?_ _
  exact fun _ => rfl

/-! ## The invariant -/

/-- Ids were issued by the counter, the two maps agree with the contexts, and a dynamic peer has a
name that its entry has used up. -/
structure Inv (s : Registry) : Prop where
  counter : 0 < s.idCounter
  ids : (s.live.map (·.id)).Nodup
  issued : ∀ c ∈ s.live, c.id < s.idCounter
  objects : (s.live.map (·.object)).Nodup
  allocated : ∀ c ∈ s.live, c.object < s.nextObject
  mapped : ∀ id object, s.peerMap.lookup id = some object
    ↔ ∃ c ∈ s.live, c.id = id ∧ c.object = object
  named : ∀ c ∈ s.live, s.names.lookup c.name = some c.id
  values : ∀ name id, s.names.lookup name = some id → id < s.idCounter
  one_name : ∀ name name' id, s.names.lookup name = some id → s.names.lookup name' = some id →
    name = name'
  multi : ∀ e ∈ s.entries, e.transport.multiPeer = true
  entryNames : (s.entries.map (·.name)).Nodup
  children : ∀ e ∈ s.entries, e.nextChild ≤ s.idCounter
  origin : ∀ c ∈ s.live, c.transport.multiPeer = false
    ∨ ∃ e ∈ s.entries, ∃ k < e.nextChild, c.name = e.name ++ "/" ++ toString k

namespace Inv

theorem of_same {s' : Registry} (h : Inv s) (hsame : Same s s') : Inv s' := by
  obtain ⟨hcounter, hobject, hlive, hmap, hentries, hnames⟩ := hsame
  constructor
  all_goals simp only [hcounter, hobject, hlive, hmap, hentries, hnames]
  · exact h.counter
  · exact h.ids
  · exact h.issued
  · exact h.objects
  · exact h.allocated
  · exact h.mapped
  · exact h.named
  · exact h.values
  · exact h.one_name
  · exact h.multi
  · exact h.entryNames
  · exact h.children
  · exact h.origin

theorem nextPeerId_eq (h : Inv s) (hbound : s.idCounter < 2 ^ 32) :
    s.nextPeerId = (s.idCounter, { s with idCounter := s.idCounter + 1 }) := by
  have hfree : s.findPeer s.idCounter = none := by
    rw [Option.eq_none_iff_forall_ne_some]
    intro object hobject
    obtain ⟨c, hc, hid, -⟩ := (h.mapped _ _).mp hobject
    exact absurd (h.issued c hc) (by omega)
  have hpos := h.counter
  rw [nextPeerId, takeId]
  rw [Nat.mod_eq_of_lt hbound, if_neg (by omega), if_pos]
  show (s.findPeer s.idCounter).isNone = true
  rw [hfree]
  rfl

theorem count (h : Inv s) : Inv { s with idCounter := s.idCounter + 1 } :=
  { h with
    counter := Nat.succ_pos _
    issued := fun c hc => Nat.lt_succ_of_lt (h.issued c hc)
    values := fun name id hid => Nat.lt_succ_of_lt (h.values name id hid)
    children := fun e he => Nat.le_succ_of_le (h.children e he) }

theorem fresh (h : Inv s) :
    (∀ c ∈ s.live, c.id ≠ s.idCounter) ∧ ∀ name, s.names.lookup name ≠ some s.idCounter :=
  ⟨fun c hc hid => absurd (h.issued c hc) (by omega),
    fun name hname => absurd (h.values name _ hname) (by omega)⟩

end Inv

variable {name : String} {id : Nat} {transport : Transport} {es : List MultiPeerEntry}
  {e : MultiPeerEntry}

theorem live_insertPeer (id : Nat) (name remoteEndpoint : String) (transport : Transport)
    (state : ConnectionState) : (s.insertPeer id name remoteEndpoint transport state).live
      = s.live ++ [⟨s.nextObject, id, name, transport⟩] := by
  rw [live, insertPeer, map_append]
  rfl

theorem nodup_map_concat {α β : Type} {g : α → β} {l : List α} {x : α} (h : (l.map g).Nodup)
    (hx : ∀ y ∈ l, g y ≠ g x) : ((l ++ [x]).map g).Nodup := by
  rw [map_append, nodup_append]
  refine ⟨h, nodup_singleton _, ?_⟩
  simpa using hx

variable {names : AList fun _ : String => Nat}

theorem values_insert {bound : Nat} (hid : id < bound)
    (hold : ∀ n i, names.lookup n = some i → i < bound) :
    ∀ n i, (names.insert name id).lookup n = some i → i < bound := by
  intro n i hn
  by_cases hname : n = name
  · rw [hname, AList.lookup_insert] at hn
    cases hn
    exact hid
  · exact hold n i ((AList.lookup_insert_ne hname).symm.trans hn)

theorem one_name_insert
    (hold : ∀ n n' i, names.lookup n = some i → names.lookup n' = some i → n = n')
    (hid : ∀ n, names.lookup n ≠ some id) : ∀ n n' i, (names.insert name id).lookup n = some i →
      (names.insert name id).lookup n' = some i → n = n' := by
  intro n n' i hn hn'
  by_cases h : n = name
  · by_cases h' : n' = name
    · rw [h, h']
    rw [h, AList.lookup_insert] at hn
    rw [AList.lookup_insert_ne h', ← hn] at hn'
    exact absurd hn' (hid n')
  · rw [AList.lookup_insert_ne h] at hn
    by_cases h' : n' = name
    · rw [h', AList.lookup_insert, ← hn] at hn'
      exact absurd hn'.symm (hid n)
    · rw [AList.lookup_insert_ne h'] at hn'
      exact hold n n' i hn hn'

theorem Inv.insertPeer (h : Inv s) {remoteEndpoint : String} {state : ConnectionState}
    (hid : id < s.idCounter) (hids : ∀ c ∈ s.live, c.id ≠ id)
    (hvalues : ∀ n, s.names.lookup n ≠ some id) (hnames : ∀ c ∈ s.live, c.name ≠ name)
    (horigin : transport.multiPeer = false
      ∨ ∃ e ∈ s.entries, ∃ k < e.nextChild, name = e.name ++ "/" ++ toString k) :
    Inv (s.insertPeer id name remoteEndpoint transport state) := by
  have hlive := live_insertPeer (s := s) id name remoteEndpoint transport state
  have hmem : ∀ c, c ∈ (s.insertPeer id name remoteEndpoint transport state).live
      ↔ c ∈ s.live ∨ c = ⟨s.nextObject, id, name, transport⟩ := by
    intro c
    rw [hlive, mem_append, mem_singleton]
  constructor
  · exact h.counter
  · rw [hlive]
    exact nodup_map_concat h.ids hids
  · intro c hc
    rcases (hmem c).mp hc with hc | rfl
    · exact h.issued c hc
    · exact hid
  · rw [hlive]
    exact nodup_map_concat h.objects fun c hc => (h.allocated c hc).ne
  · intro c hc
    rcases (hmem c).mp hc with hc | rfl
    · exact Nat.lt_succ_of_lt (h.allocated c hc)
    · exact Nat.lt_succ_self _
  · intro i object
    show (s.peerMap.insert id s.nextObject).lookup i = some object ↔ _
    simp only [hmem, or_and_right, exists_or, exists_eq_left]
    by_cases hi : i = id
    · subst hi
      rw [AList.lookup_insert, Option.some.injEq]
      constructor
      · rintro rfl
        exact .inr ⟨rfl, rfl⟩
      rintro (⟨c, hc, hcid, -⟩ | ⟨-, hobject⟩)
      · exact absurd hcid (hids c hc)
      · exact hobject
    · rw [AList.lookup_insert_ne hi, h.mapped]
      refine (or_iff_left ?_).symm
      rintro ⟨heq, -⟩
      exact hi heq.symm
  · intro c hc
    show (s.names.insert name id).lookup c.name = some c.id
    rcases (hmem c).mp hc with hc | rfl
    · rw [AList.lookup_insert_ne (hnames c hc)]
      exact h.named c hc
    · exact AList.lookup_insert _
  · exact values_insert hid h.values
  · exact one_name_insert h.one_name hvalues
  · exact h.multi
  · exact h.entryNames
  · exact h.children
  · intro c hc
    rcases (hmem c).mp hc with hc | rfl
    · exact h.origin c hc
    · exact horigin

theorem Inv.insertEntry (h : Inv s) (hid : id < s.idCounter)
    (hvalues : ∀ n, s.names.lookup n ≠ some id) (hfree : s.names.lookup name = none)
    (hentries : ∀ e ∈ s.entries, e.name ≠ name) (hmulti : transport.multiPeer = true) :
    Inv (s.insertEntry id name transport) := by
  have hmem : ∀ e, e ∈ (s.insertEntry id name transport).entries
      ↔ e ∈ s.entries ∨ e = { baseId := id, name, transport } := by
    intro e
    rw [Registry.insertEntry, mem_append, mem_singleton]
  refine { h with
    named := ?_, values := values_insert hid h.values
    one_name := one_name_insert h.one_name hvalues, multi := ?_
    entryNames := nodup_map_concat h.entryNames hentries, children := ?_, origin := ?_ }
  · intro c hc
    have hname : c.name ≠ name := by
      rintro rfl
      rw [h.named c hc] at hfree
      cases hfree
    exact (AList.lookup_insert_ne hname).trans (h.named c hc)
  · intro e he
    rcases (hmem e).mp he with he | rfl
    · exact h.multi e he
    · exact hmulti
  · intro e he
    rcases (hmem e).mp he with he | rfl
    · exact h.children e he
    · exact h.counter
  · intro c hc
    refine (h.origin c hc).imp_right ?_
    rintro ⟨e, he, hname⟩
    exact ⟨e, (hmem e).mpr (.inl he), hname⟩

/-! ## Children -/

theorem map_name_countChild (transport : Transport) (es : List MultiPeerEntry) :
    (countChild transport es).map (·.name) = es.map (·.name) := by
  induction es with
  | nil => rfl
  | cons e es ih =>
    rw [countChild]
    split
    · rfl
    · rw [map_cons, ih, map_cons]

theorem exists_of_mem_countChild (h : e ∈ countChild transport es) :
    ∃ e' ∈ es, e.transport = e'.transport ∧ e.nextChild ≤ e'.nextChild + 1 := by
  induction es with
  | nil => cases h
  | cons d es ih =>
    rw [countChild] at h
    split at h
    · rcases mem_cons.mp h with rfl | h
      · exact ⟨d, mem_cons_self .., rfl, le_rfl⟩
      · exact ⟨e, mem_cons_of_mem _ h, rfl, Nat.le_succ _⟩
    rcases mem_cons.mp h with rfl | h
    · exact ⟨e, mem_cons_self .., rfl, Nat.le_succ _⟩
    obtain ⟨e', he', hsame⟩ := ih h
    exact ⟨e', mem_cons_of_mem _ he', hsame⟩

theorem countChild_of_mem (transport : Transport) (he : e ∈ es) :
    ∃ e' ∈ countChild transport es, e'.name = e.name ∧ e.nextChild ≤ e'.nextChild := by
  induction es with
  | nil => cases he
  | cons d es ih =>
    rw [countChild]
    split
    · rcases mem_cons.mp he with rfl | he
      · exact ⟨_, mem_cons_self .., rfl, Nat.le_succ _⟩
      · exact ⟨e, mem_cons_of_mem _ he, rfl, le_rfl⟩
    rcases mem_cons.mp he with rfl | he
    · exact ⟨e, mem_cons_self .., rfl, le_rfl⟩
    obtain ⟨e', he', hsame⟩ := ih he
    exact ⟨e', mem_cons_of_mem _ he', hsame⟩

theorem countChild_of_find (h : es.find? (·.transport = transport) = some e) :
    { e with nextChild := e.nextChild + 1 } ∈ countChild transport es := by
  induction es with
  | nil => cases h
  | cons d es ih =>
    rw [find?_cons] at h
    rw [countChild]
    split at h
    next htransport =>
      cases h
      rw [if_pos (of_decide_eq_true htransport)]
      exact mem_cons_self ..
    next htransport =>
      rw [if_neg (of_decide_eq_false htransport)]
      exact mem_cons_of_mem _ (ih h)

theorem Inv.countChild (h : Inv s) (transport : Transport) :
    Inv { s with idCounter := s.idCounter + 1
                 entries := Registry.countChild transport s.entries } := by
  refine { h.count with multi := ?_, entryNames := ?_, children := ?_, origin := ?_ }
  · intro e he
    obtain ⟨e', he', htransport, -⟩ := exists_of_mem_countChild he
    rw [htransport]
    exact h.multi e' he'
  · rw [map_name_countChild]
    exact h.entryNames
  · intro e he
    obtain ⟨e', he', -, hchild⟩ := exists_of_mem_countChild he
    exact hchild.trans (Nat.succ_le_succ (h.children e' he'))
  intro c hc
  refine (h.origin c hc).imp_right ?_
  rintro ⟨e, he, k, hk, hname⟩
  obtain ⟨e', he', hsame, hle⟩ := countChild_of_mem transport he
  exact ⟨e', he', k, hk.trans_le hle, by rw [hsame, hname]⟩

/-! ## Removal -/

theorem Inv.nameOf_eq (h : Inv s) {c : PeerKey} (hc : c ∈ s.live) :
    s.nameOf c.id = some c.name := by
  have hentry : Sigma.mk c.name c.id ∈ s.names.entries := AList.mem_lookup_iff.mp (h.named c hc)
  obtain ⟨found, hfound⟩ : ∃ found, s.names.entries.find? (·.2 = c.id) = some found := by
    rw [← Option.isSome_iff_exists, find?_isSome]
    exact ⟨_, hentry, by simp⟩
  have hvalue : found.2 = c.id := by simpa using find?_some hfound
  have hlookup : s.names.lookup found.1 = some found.2 :=
    AList.mem_lookup_iff.mpr (mem_of_find?_eq_some hfound)
  rw [hvalue] at hlookup
  rw [nameOf, hfound, Option.map_some, h.one_name found.1 c.name c.id hlookup (h.named c hc)]

theorem live_removePeer (peer : Nat) : (s.removePeer peer).live = s.live.eraseP (·.id = peer) := by
  rw [live, live, eraseP_map]
  rfl

theorem Inv.mem_live_removePeer (h : Inv s) (peer : Nat) (c : PeerKey) :
    c ∈ (s.removePeer peer).live ↔ c ∈ s.live ∧ c.id ≠ peer := by
  rw [live_removePeer]
  have hnodup := h.ids
  generalize s.live = l at hnodup
  induction l with
  | nil => simp
  | cons d l ih =>
    rw [map_cons, nodup_cons] at hnodup
    by_cases hd : d.id = peer
    · have hne : ∀ c ∈ l, c.id ≠ peer := fun c hc hid =>
        hnodup.1 (mem_map.mpr ⟨c, hc, hid.trans hd.symm⟩)
      rw [eraseP_cons_of_pos (by simpa using hd), mem_cons]
      grind
    · have hrest := ih hnodup.2
      rw [eraseP_cons_of_neg (by simpa using hd), mem_cons, mem_cons]
      grind

theorem Inv.removePeer (h : Inv s) {c : PeerKey} (hc : c ∈ s.live) : Inv (s.removePeer c.id) := by
  have hmem := h.mem_live_removePeer c.id
  have hnames : (s.removePeer c.id).names = s.names.erase c.name := by
    rw [Registry.removePeer, h.nameOf_eq hc]
  have hsub : (s.removePeer c.id).live.Sublist s.live := by
    rw [live_removePeer]
    exact eraseP_sublist
  have hlookup : ∀ n i, (s.removePeer c.id).names.lookup n = some i →
      s.names.lookup n = some i := by
    intro n i hn
    rw [hnames] at hn
    by_cases hname : n = c.name
    · rw [hname, AList.lookup_erase] at hn
      cases hn
    · rwa [AList.lookup_erase_ne hname] at hn
  constructor
  · exact h.counter
  · exact (hsub.map _).nodup h.ids
  · exact fun d hd => h.issued d ((hmem d).mp hd).1
  · exact (hsub.map _).nodup h.objects
  · exact fun d hd => h.allocated d ((hmem d).mp hd).1
  · intro id object
    show (s.peerMap.erase c.id).lookup id = some object ↔ _
    simp only [hmem]
    by_cases hid : id = c.id
    · subst hid
      rw [AList.lookup_erase]
      constructor
      · intro hnone
        cases hnone
      · rintro ⟨d, ⟨-, hne⟩, hid, -⟩
        exact absurd hid hne
    · rw [AList.lookup_erase_ne hid, h.mapped]
      constructor
      · rintro ⟨d, hd, rfl, hobject⟩
        exact ⟨d, ⟨hd, hid⟩, rfl, hobject⟩
      · rintro ⟨d, ⟨hd, -⟩, hsame⟩
        exact ⟨d, hd, hsame⟩
  · intro d hd
    obtain ⟨hd, hne⟩ := (hmem d).mp hd
    have hname : d.name ≠ c.name := by
      intro heq
      have hid := (h.named d hd).symm.trans (heq ▸ h.named c hc)
      exact hne (Option.some.inj hid)
    rw [hnames, AList.lookup_erase_ne hname]
    exact h.named d hd
  · exact fun n i hn => h.values n i (hlookup n i hn)
  · exact fun n n' i hn hn' => h.one_name n n' i (hlookup n i hn) (hlookup n' i hn')
  · exact h.multi
  · exact h.entryNames
  · exact h.children
  · exact fun d hd => h.origin d ((hmem d).mp hd).1

/-! ## Steps -/

theorem lt_takeId (attempts : Nat) (s : Registry) :
    s.idCounter < (takeId attempts s).2.idCounter := by
  induction attempts generalizing s with
  | zero => exact Nat.lt_succ_self _
  | succ attempts ih =>
    rw [takeId]
    have hrest := ih { s with idCounter := s.idCounter + 1 }
    split_ifs
    · exact (Nat.lt_succ_self _).trans hrest
    · exact Nat.lt_succ_self _
    · exact (Nat.lt_succ_self _).trans hrest

theorem lt_nextPeerId (s : Registry) : s.idCounter < s.nextPeerId.2.idCounter := lt_takeId 256 s

theorem add_cases (s : Registry) (call : AddCall) : s.add call = s ∨ s.add call = s.nextPeerId.2
      ∨ (∃ name transport, transport.multiPeer = false ∧ s.nextPeerId.2.names.lookup name = none
        ∧ s.add call = (s.nextPeerId.2.insertPeer s.nextPeerId.1 name "" transport
          .disconnected).track transport)
      ∨ ∃ name transport, transport.multiPeer = true ∧ s.nextPeerId.2.names.lookup name = none
        ∧ s.add call = (s.nextPeerId.2.insertEntry s.nextPeerId.1 name transport).track
          transport := by
  cases call with
  | session name hasSession transport =>
    rw [add]
    unfold addPeer
    split_ifs
    · exact .inl rfl
    · exact .inl rfl
    cases transport with
    | none => exact .inl rfl
    | some transport =>
      dsimp only
      split
      · exact .inl rfl
      next hmulti =>
      cases hname : s.nextPeerId.2.names.lookup name with
      | some id => exact .inr (.inl rfl)
      | none => exact .inr (.inr (.inl ⟨name, transport, by simpa using hmulti, hname, rfl⟩))
  | factory name hasFactory transport =>
    rw [add]
    unfold addFactory
    split_ifs
    · exact .inl rfl
    · exact .inl rfl
    cases transport with
    | none => exact .inl rfl
    | some transport =>
      dsimp only
      split
      · exact .inl rfl
      next hmulti =>
      cases hname : s.nextPeerId.2.names.lookup name with
      | some id => exact .inr (.inl rfl)
      | none => exact .inr (.inr (.inr ⟨name, transport, by simpa using hmulti, hname, rfl⟩))

theorem le_add (s : Registry) (call : AddCall) : s.idCounter ≤ (s.add call).idCounter := by
  have hlt := lt_nextPeerId s
  rcases add_cases s call with h | h | ⟨name, transport, -, -, h⟩ | ⟨name, transport, -, -, h⟩
  · rw [h]
  · rw [h]
    exact hlt.le
  · rw [h, (same_track _).idCounter]
    exact hlt.le
  · rw [h, (same_track _).idCounter]
    exact hlt.le

theorem handlePeerConnected_eq {entry : MultiPeerEntry} (hmulti : transport.multiPeer = true)
    (hentry : s.findMultiPeerEntry transport = some entry) (remoteEndpoint : String) :
    (s.handlePeerConnected transport remoteEndpoint true).2
      = handleStateChanged s.nextPeerId.1 .connected (insertPeer { s.nextPeerId.2 with
              entries := countChild transport s.nextPeerId.2.entries }
            s.nextPeerId.1 entry.childName remoteEndpoint transport .connected) := by
  simp [handlePeerConnected, connectPeer, hmulti, hentry]

theorem le_handle (s : Registry) (e : PeerEvent) : s.idCounter ≤ (s.handle e).idCounter := by
  cases e with
  | connected transport remoteEndpoint hasSession =>
    cases hmulti : transport.multiPeer with
    | false =>
      simp only [handle, handlePeerConnected, hmulti, Bool.not_false, if_true]
      exact (same_reconnect transport remoteEndpoint).idCounter.ge
    | true =>
      cases hentry : s.findMultiPeerEntry transport with
      | none => simp [handle, handlePeerConnected, connectPeer, hmulti, hentry]
      | some entry =>
        cases hasSession with
        | false =>
          simp only [handle, handlePeerConnected, connectPeer, hmulti, hentry, Bool.not_true,
            Bool.not_false, Bool.false_eq_true, if_false, if_true]
          exact (lt_nextPeerId s).le
        | true =>
          rw [handle, handlePeerConnected_eq hmulti hentry, (same_handleStateChanged _ _).idCounter]
          exact (lt_nextPeerId s).le
  | disconnected peer =>
    rw [handle, handlePeerDisconnected, dropPeer]
    have hsame := same_setState (s := s) peer .disconnected
    split
    · exact hsame.idCounter.ge
    split
    · exact hsame.idCounter.ge
    · exact hsame.idCounter.ge

/-- The name that is generated for a connection is that of a static peer. -/
def Clashes (s : Registry) : PeerEvent → Prop
  | .connected transport _ true => transport.multiPeer = true
    ∧ ∃ entry, s.findMultiPeerEntry transport = some entry
      ∧ ∃ c ∈ s.peers, c.transport.multiPeer = false ∧ c.name = entry.childName
  | _ => False

theorem Inv.childName_ne (h : Inv s) (hbound : s.idCounter < 2 ^ 32) {entry : MultiPeerEntry}
    (hentry : s.findMultiPeerEntry transport = some entry)
    (hstatic : ∀ c ∈ s.live, c.transport.multiPeer = false → c.name ≠ entry.childName) :
    entry.childName = entry.name ++ "/" ++ toString entry.nextChild
      ∧ ∀ c ∈ s.live, c.name ≠ entry.childName := by
  have hmem : entry ∈ s.entries := mem_of_find?_eq_some hentry
  have hsmall : entry.nextChild < 2 ^ 32 := (h.children entry hmem).trans_lt hbound
  have hname : entry.childName = entry.name ++ "/" ++ toString entry.nextChild := by
    rw [MultiPeerEntry.childName, Nat.mod_eq_of_lt hsmall]
  refine ⟨hname, fun c hc heq => ?_⟩
  rcases h.origin c hc with hsingle | ⟨e, he, k, hk, hchild⟩
  · exact hstatic c hc hsingle heq
  -- two names of dynamic peers differ in the entry or in the number
  rw [hname, hchild] at heq
  obtain ⟨hsame, rfl⟩ := child_inj heq
  have hentries : e = entry := inj_on_of_nodup_map h.entryNames he hmem hsame
  rw [hentries] at hk
  exact lt_irrefl _ hk

theorem Inv.handlePeerConnected (h : Inv s) {remoteEndpoint : String} {hasSession : Bool}
    (hbound : (s.handle (.connected transport remoteEndpoint hasSession)).idCounter ≤ 2 ^ 32)
    (hclash : ¬s.Clashes (.connected transport remoteEndpoint hasSession)) :
    Inv (s.handle (.connected transport remoteEndpoint hasSession)) := by
  cases hmulti : transport.multiPeer with
  | false =>
    simp only [handle, Registry.handlePeerConnected, hmulti, Bool.not_false, if_true]
    exact h.of_same (same_reconnect transport remoteEndpoint)
  | true =>
    cases hentry : s.findMultiPeerEntry transport with
    | none =>
      simp only [handle, Registry.handlePeerConnected, connectPeer, hmulti, hentry, Bool.not_true,
        Bool.false_eq_true, if_false]
      exact h
    | some entry =>
      cases hasSession with
      | false =>
        simp only [handle, Registry.handlePeerConnected, connectPeer, hmulti, hentry,
          Bool.not_true, Bool.not_false, Bool.false_eq_true, if_false, if_true] at hbound ⊢
        rw [h.nextPeerId_eq ((lt_nextPeerId s).trans_le hbound)]
        exact h.count
      | true =>
        rw [handle, handlePeerConnected_eq hmulti hentry] at hbound ⊢
        have hlt : s.idCounter < 2 ^ 32 := by
          rw [(same_handleStateChanged _ _).idCounter] at hbound
          exact (lt_nextPeerId s).trans_le hbound
        rw [h.nextPeerId_eq hlt]
        refine Inv.of_same ?_ (same_handleStateChanged _ _)
        obtain ⟨hids, hvalues⟩ := h.fresh
        obtain ⟨hname, hnames⟩ := h.childName_ne hlt hentry fun c hc hsingle heq => by
          obtain ⟨ctx, hctx, rfl⟩ := mem_map.mp hc
          exact hclash ⟨hmulti, entry, hentry, ctx, hctx, hsingle, heq⟩
        exact (h.countChild transport).insertPeer (Nat.lt_succ_self _) hids hvalues hnames
          (.inr ⟨_, countChild_of_find hentry, entry.nextChild, Nat.lt_succ_self _, hname⟩)

theorem Inv.handlePeerDisconnected (h : Inv s) (peer : Nat) :
    Inv (s.handlePeerDisconnected peer) := by
  have hupdated : Inv (s.setState peer .disconnected) := h.of_same (same_setState peer _)
  refine Inv.of_same ?_ (same_notify peer .disconnected)
  unfold dropPeer
  dsimp only
  split
  · exact hupdated
  next c hfind =>
    split
    · have hid : c.id = peer := by simpa using find?_some hfind
      have hremoved := hupdated.removePeer
        (mem_map_of_mem (f := PeerContext.key) (mem_of_find?_eq_some hfind))
      rwa [show c.key.id = peer from hid] at hremoved
    · exact hupdated

/-! ## Runs -/

/-- While peers are added, every entry has its name in the map. -/
structure Added (s : Registry) : Prop where
  inv : Inv s
  entries : ∀ e ∈ s.entries, s.names.lookup e.name ≠ none

theorem Added.add (h : Added s) {call : AddCall} (hbound : (s.add call).idCounter ≤ 2 ^ 32) :
    Added (s.add call) := by
  rcases add_cases s call with heq | hcounted
  · rwa [heq]
  have hlt : s.idCounter < 2 ^ 32 := by
    refine (lt_nextPeerId s).trans_le (le_trans (le_of_eq ?_) hbound)
    rcases hcounted with heq | ⟨name, transport, -, -, heq⟩ | ⟨name, transport, -, -, heq⟩
    · rw [heq]
    · rw [heq, (same_track _).idCounter]
      rfl
    · rw [heq, (same_track _).idCounter]
      rfl
  obtain ⟨hids, hvalues⟩ := h.inv.fresh
  rw [h.inv.nextPeerId_eq hlt] at hcounted
  -- a name that is not in the map is that of nobody
  have hfree : ∀ name, s.names.lookup name = none →
      (∀ c ∈ s.live, c.name ≠ name) ∧ ∀ e ∈ s.entries, e.name ≠ name := by
    refine fun name hname => ⟨fun c hc heq => ?_, fun e he heq => ?_⟩
    · rw [← heq, h.inv.named c hc] at hname
      cases hname
    · exact h.entries e he (heq ▸ hname)
  have hkeep : ∀ name id n, s.names.lookup n ≠ none → (s.names.insert name id).lookup n ≠ none := by
    intro name id n hn
    by_cases heq : n = name
    · rw [heq, AList.lookup_insert]
      exact Option.some_ne_none _
    · rwa [AList.lookup_insert_ne heq]
  rcases hcounted with heq | ⟨name, transport, hsingle, hname, heq⟩
    | ⟨name, transport, hmulti, hname, heq⟩
  · rw [heq]
    exact ⟨h.inv.count, h.entries⟩
  · rw [heq]
    have hinv : Inv (insertPeer { s with idCounter := s.idCounter + 1 } s.idCounter name ""
        transport .disconnected) :=
      h.inv.count.insertPeer (Nat.lt_succ_self _) hids hvalues (hfree name hname).1 (.inl hsingle)
    refine ⟨hinv.of_same (same_track transport), ?_⟩
    rw [(same_track transport).entries, (same_track transport).names]
    exact fun e he => hkeep name _ e.name (h.entries e he)
  rw [heq]
  have hinv := h.inv.count.insertEntry (Nat.lt_succ_self _) hvalues hname (hfree name hname).2
    hmulti
  refine ⟨hinv.of_same (same_track transport), ?_⟩
  rw [(same_track transport).entries, (same_track transport).names]
  intro e he
  rcases mem_append.mp he with he | he
  · exact hkeep name _ e.name (h.entries e he)
  rw [mem_singleton] at he
  subst he
  exact fun hnone => Option.some_ne_none _ ((AList.lookup_insert _).symm.trans hnone)

/-- The peers, their ids and their names belong together. -/
structure Consistent (s : Registry) : Prop where
  ids : (s.peers.map (·.id)).Nodup
  names : (s.peers.map (·.name)).Nodup
  objects : (s.peers.map (·.object)).Nodup
  mapped : ∀ id object, s.findPeer id = some object ↔ ∃ c ∈ s.peers, c.id = id ∧ c.object = object
  found : ∀ c ∈ s.peers, s.peer c.name = .ok c.id

theorem Inv.consistent (h : Inv s) : s.Consistent := by
  have hnamed : ∀ c ∈ s.peers, s.names.lookup c.name = some c.id :=
    fun c hc => h.named c.key (mem_map_of_mem hc)
  have hids : (s.peers.map (·.id)).Nodup := by
    have hids := h.ids
    rwa [live, map_map] at hids
  constructor
  · exact hids
  · have hlookup : (s.peers.map (·.name)).map s.names.lookup = (s.peers.map (·.id)).map some := by
      rw [map_map, map_map]
      exact map_congr_left hnamed
    refine Nodup.of_map s.names.lookup ?_
    rw [hlookup]
    exact hids.map fun _ _ => Option.some.inj
  · have hobjects := h.objects
    rwa [live, map_map] at hobjects
  · intro id object
    rw [findPeer, h.mapped]
    constructor
    · rintro ⟨k, hk, hid, hobject⟩
      obtain ⟨c, hc, rfl⟩ := mem_map.mp hk
      exact ⟨c, hc, hid, hobject⟩
    · rintro ⟨c, hc, hid, hobject⟩
      exact ⟨c.key, mem_map_of_mem hc, hid, hobject⟩
  · intro c hc
    rw [peer, hnamed c hc]

theorem Inv.not_consistent (h : Inv s) {e : PeerEvent}
    (hbound : (s.handle e).idCounter ≤ 2 ^ 32) (hclash : s.Clashes e) :
    ¬(s.handle e).Consistent := by
  match e, hbound, hclash with
  | .connected transport remoteEndpoint true, hbound, ⟨hmulti, entry, hentry, c, hc, _, hname⟩ =>
    intro hconsistent
    have hnames : ((s.handle (.connected transport remoteEndpoint true)).live.map (·.name)).Nodup := by
      rw [live, map_map]
      exact hconsistent.names
    rw [handle, handlePeerConnected_eq hmulti hentry] at hnames hbound
    rw [(same_handleStateChanged _ _).idCounter] at hbound
    rw [h.nextPeerId_eq ((lt_nextPeerId s).trans_le hbound), (same_handleStateChanged _ _).live,
      live_insertPeer, map_append, nodup_append] at hnames
    have hold : c.name ∈ s.live.map (·.name) :=
      mem_map_of_mem (mem_map_of_mem (f := PeerContext.key) hc)
    exact hnames.2.2 c.name hold entry.childName (by simp) hname

/-- The registry after the calls of `add_peer` and some events. -/
def run (callbacks : List Nat) (calls : List AddCall) (events : List PeerEvent) : Registry :=
  events.foldl handle (started callbacks calls)

theorem inv_started (callbacks : List Nat) {calls : List AddCall}
    (hbound : (started callbacks calls).idCounter ≤ 2 ^ 32) : Inv (started callbacks calls) := by
  have hempty : Added { callbacks } := by
    refine ⟨?_, fun e he => by cases he⟩
    constructor <;> simp [live]
  have hadded : Added (calls.foldl add { callbacks }) :=
    Data.inv_of_no_clash (fun s => s.idCounter ≤ 2 ^ 32) (fun _ _ => False)
      (fun s call h => (le_add s call).trans h) (fun _ _ h hbound _ => h.add hbound) hempty hbound
      (fun _ _ _ h => h)
  exact hadded.inv.of_same ⟨rfl, rfl, rfl, rfl, rfl, rfl⟩

/-- The registry is consistent all along a run with fewer than `2 ^ 32` ids if and only if no name
that is generated for a connection is that of a static peer. -/
theorem consistent_iff (callbacks : List Nat) (calls : List AddCall) (events : List PeerEvent)
    (hids : (run callbacks calls events).idCounter ≤ 2 ^ 32) :
    (∀ before, before <+: events → (run callbacks calls before).Consistent)
      ↔ ∀ before e, before ++ [e] <+: events → ¬(run callbacks calls before).Clashes e := by
  have hback : ∀ (s : Registry) e, (handle s e).idCounter ≤ 2 ^ 32 → s.idCounter ≤ 2 ^ 32 :=
    fun s e h => (le_handle s e).trans h
  have hstart := Data.bound_of_prefix (fun s : Registry => s.idCounter ≤ 2 ^ 32) hback
    ( nil_prefix (l := events)) hids
  refine Data.forall_prefix_iff (fun s => s.idCounter ≤ 2 ^ 32) Clashes hback ?_ ?_
    (fun s h => h.consistent) (inv_started callbacks hstart) hids
  · intro s e h hbound hclash
    cases e with
    | connected transport remoteEndpoint hasSession => exact h.handlePeerConnected hbound hclash
    | disconnected peer => exact h.handlePeerDisconnected peer
  · exact fun s e h hbound hclash => h.not_consistent hbound hclash

/-! ### A server and a station -/

def server : Transport := { object := 0, multiPeer := true, streamOriented := true }

def station : Transport := { object := 1, multiPeer := false, streamOriented := true }

/-- The server is registered, then a peer with a name of its own. -/
def serverCalls (name : String) : List AddCall :=
  [.factory "server" true (some server), .session name true (some station)]

def clientConnects : PeerEvent := .connected server "10.0.0.1:5000" true

theorem consistent_iff_station :
    (run [] (serverCalls "station") [clientConnects]).idCounter ≤ 2 ^ 32
      ∧ (run [] (serverCalls "station") [clientConnects]).Consistent := by
  have hids : (run [] (serverCalls "station") [clientConnects]).idCounter ≤ 2 ^ 32 := by
    decide +kernel
  refine ⟨hids, (consistent_iff [] (serverCalls "station") [clientConnects] hids).mpr ?_ _
    prefix_rfl⟩
  intro before e h
  obtain ⟨rest, hrest⟩ := h
  obtain ⟨rfl, rfl⟩ : before = [] ∧ e = clientConnects := by
    cases before with
    | nil =>
      simp only [nil_append, singleton_append, cons.injEq] at hrest
      exact ⟨rfl, hrest.1⟩
    | cons d before => simp at hrest
  rintro ⟨-, entry, hentry, c, hc, hsingle, hname⟩
  have hentries : (run [] (serverCalls "station") []).findMultiPeerEntry server
      = some { baseId := 1, name := "server", transport := server } := by decide +kernel
  obtain rfl := Option.some.inj (hentries.symm.trans hentry)
  have hmem := mem_map_of_mem (f := PeerContext.name) hc
  rw [hname] at hmem
  revert hmem
  decide +kernel

/-- The first client of the server gets the name of the other peer, and a lookup of that name gives
the client. -/
theorem consistent_fails : (run [] (serverCalls "server/1") [clientConnects]).idCounter ≤ 2 ^ 32
      ∧ ¬(run [] (serverCalls "server/1") [clientConnects]).Consistent
      ∧ (run [] (serverCalls "server/1") [clientConnects]).peer "server/1" = .ok 3 := by
  refine ⟨by decide +kernel, fun h => ?_, ?_⟩
  · have hnames := h.names
    revert hnames
    decide +kernel
  · have hlookup : (run [] (serverCalls "server/1") [clientConnects]).names.lookup "server/1"
        = some 3 := by decide +kernel
    rw [peer, hlookup]

end Registry

end Conduit.Transceiver

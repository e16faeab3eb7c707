import Conduit.Data.Runs
import Conduit.Transceiver.Pipeline

/-!
# The registry of message handlers

`HandlerRegistry` (`handler.cpp:14-199`). Its hash tables are functions here: they are only
searched, assigned and erased from. A call holds the lock for its whole length, so that a history is
a list of calls. What a callback does with the message at hand is given by whether it throws.
-/

namespace Conduit.Transceiver

open Data

variable {F : Type}

structure ErasedHandler (F : Type) where
  typeId : UInt64
  callback : F

structure MessageHandler (F : Type) where
  handlers : List (ErasedHandler F)
  catchAll : Option F

structure HandlerRegistry (F : Type) where
  perPeerHandlers : Nat × UInt64 → Option (ErasedHandler F) := fun _ => none
  globalHandlers : UInt64 → Option (ErasedHandler F) := fun _ => none
  perPeerCatchAll : Nat → Option F := fun _ => none
  catchAll : Option F := none
  rawCatchAll : Option F := none

/-- The calls that change the registry; with `All` for the overloads without a peer. -/
inductive RegistryCall (F : Type) where
  | registerHandler (peer : Nat) (handler : ErasedHandler F)
  | registerHandlerAll (handler : ErasedHandler F)
  | unregisterHandler (peer : Nat) (typeId : UInt64)
  | unregisterHandlerAll (typeId : UInt64)
  | setCatchAll (peer : Nat) (callback : F)
  | setCatchAllAll (callback : F)
  | installHandler (peer : Nat) (handler : MessageHandler F)
  | installHandlerAll (handler : MessageHandler F)
  | removePeer (peer : Nat)
  | setRawCatchAll (callback : F)

namespace HandlerRegistry

variable (r : HandlerRegistry F)

/-- `handler.cpp:14-85`. -/
def call : RegistryCall F → HandlerRegistry F
  | .registerHandler peer h =>
    { r with perPeerHandlers := Function.update r.perPeerHandlers (peer, h.typeId) (some h) }
  | .registerHandlerAll h =>
    { r with globalHandlers := Function.update r.globalHandlers h.typeId (some h) }
  | .unregisterHandler peer typeId =>
    { r with perPeerHandlers := Function.update r.perPeerHandlers (peer, typeId) none }
  | .unregisterHandlerAll typeId =>
    { r with globalHandlers := Function.update r.globalHandlers typeId none }
  | .setCatchAll peer cb =>
    { r with perPeerCatchAll := Function.update r.perPeerCatchAll peer (some cb) }
  | .setCatchAllAll cb => { r with catchAll := some cb }
  | .installHandler peer m =>
    { r with
      perPeerHandlers :=
        m.handlers.foldl (fun t h => Function.update t (peer, h.typeId) (some h)) r.perPeerHandlers
      perPeerCatchAll :=
        if m.catchAll.isSome then Function.update r.perPeerCatchAll peer m.catchAll
        else r.perPeerCatchAll }
  | .installHandlerAll m =>
    { r with
      globalHandlers :=
        m.handlers.foldl (fun t h => Function.update t h.typeId (some h)) r.globalHandlers
      catchAll := if m.catchAll.isSome then m.catchAll else r.catchAll }
  | .removePeer peer =>
    { r with
      perPeerHandlers := fun key => if key.1 = peer then none else r.perPeerHandlers key
      perPeerCatchAll := Function.update r.perPeerCatchAll peer none }
  | .setRawCatchAll cb => { r with rawCatchAll := some cb }

/-- The search under the lock (`handler.cpp:94-116`). -/
def select (peer : Nat) (typeId : UInt64) : Option F :=
  match r.perPeerHandlers (peer, typeId) with
  | some h => some h.callback
  | none =>
    match r.globalHandlers typeId with
    | some h => some h.callback
    | none =>
      match r.perPeerCatchAll peer with
      | some cb => some cb
      | none => r.catchAll

/-- `handler.cpp:158-199`: the result, and the callbacks that were invoked. -/
def dispatch (throws : F → Bool) (peer : Nat) (typeId : UInt64) : DispatchResult × List F :=
  match r.select peer typeId with
  | some cb => (if throws cb then .error else .handled, [cb])
  | none => (.notFound, [])

/-- The overload with the raw bytes (`handler.cpp:87-156`). -/
def dispatchRaw (throws : F → Bool) (peer : Nat) (typeId : UInt64) : DispatchResult × List F :=
  match r.rawCatchAll with
  | none => r.dispatch throws peer typeId
  | some raw =>
    if throws raw then (.error, [raw])
    else
      match r.select peer typeId with
      | some cb => (if throws cb then .error else .handled, [raw, cb])
      -- without a handler the message counts as handled by the raw callback
      | none => (.handled, [raw])

end HandlerRegistry

/-! ## What a history registers -/

namespace RegistryCall

/-- What assigning to a key writes to a place. -/
def assign {K V : Type} [DecidableEq K] (place key : K) (v : V) : Option V :=
  if key = place then some v else none

/-- What a call registers for a peer and a type, or that it removes what was there. -/
def writesHandler (place : Nat × UInt64) : RegistryCall F → Option (Option (ErasedHandler F))
  | .registerHandler peer h => assign place (peer, h.typeId) (some h)
  | .unregisterHandler peer typeId => assign place (peer, typeId) none
  | .installHandler peer m =>
    m.handlers.reverse.findSome? fun h => assign place (peer, h.typeId) (some h)
  | .removePeer peer => assign place.1 peer none
  | _ => none

def writesHandlerAll (place : UInt64) : RegistryCall F → Option (Option (ErasedHandler F))
  | .registerHandlerAll h => assign place h.typeId (some h)
  | .unregisterHandlerAll typeId => assign place typeId none
  | .installHandlerAll m => m.handlers.reverse.findSome? fun h => assign place h.typeId (some h)
  | _ => none

def writesCatchAll (place : Nat) : RegistryCall F → Option (Option F)
  | .setCatchAll peer cb => assign place peer (some cb)
  | .installHandler peer m => m.catchAll.bind fun cb => assign place peer (some cb)
  | .removePeer peer => assign place peer none
  | _ => none

def writesCatchAllAll : RegistryCall F → Option (Option F)
  | .setCatchAllAll cb => some (some cb)
  | .installHandlerAll m => m.catchAll.map some
  | _ => none

def writesRawCatchAll : RegistryCall F → Option (Option F)
  | .setRawCatchAll cb => some (some cb)
  | _ => none

/-- What the latest call that concerns a place has left there. -/
def latest {V : Type} (writes : RegistryCall F → Option (Option V))
    (history : List (RegistryCall F)) : Option V :=
  (history.reverse.findSome? writes).getD none

/-- The callback for a message, by the calls that were made. -/
def chosen (history : List (RegistryCall F)) (peer : Nat) (typeId : UInt64) : Option F :=
  ((latest (writesHandler (peer, typeId)) history).map (·.callback)).or
    (((latest (writesHandlerAll typeId) history).map (·.callback)).or
      ((latest (writesCatchAll peer) history).or (latest writesCatchAllAll history)))

/-- The callbacks for a message in their order; behind one that throws there is no other. -/
def invoked (history : List (RegistryCall F)) (throws : F → Bool) (raw : Bool) (peer : Nat)
    (typeId : UInt64) : List F :=
  match if raw then latest writesRawCatchAll history else none with
  | some cb => if throws cb then [cb] else cb :: (chosen history peer typeId).toList
  | none => (chosen history peer typeId).toList

end RegistryCall

/-- The result of invoking some callbacks. -/
def resultOf (throws : F → Bool) (callbacks : List F) : DispatchResult :=
  if callbacks.any throws then .error else if callbacks.isEmpty then .notFound else .handled

namespace HandlerRegistry

open RegistryCall

theorem update_eq_assign {K V : Type} [DecidableEq K] (place : K) (table : K → V) (key : K)
    (v : V) : Function.update table key v place = (assign place key v).getD (table place) := by
  simp only [assign, Function.update_apply, eq_comm]
  split <;> rfl

theorem call_perPeerHandlers (place : Nat × UInt64) (r : HandlerRegistry F) (c : RegistryCall F) :
    (r.call c).perPeerHandlers place = (c.writesHandler place).getD (r.perPeerHandlers place) := by
  cases c with
  | registerHandler peer h => exact update_eq_assign ..
  | unregisterHandler peer typeId => exact update_eq_assign ..
  | installHandler peer m =>
    exact foldl_eq_last_write (· place)
      (fun t h => update_eq_assign place t (peer, h.typeId) (some h)) r.perPeerHandlers m.handlers
  | removePeer peer =>
    simp only [call, writesHandler, assign, eq_comm]
    split <;> rfl
  | _ => rfl

theorem call_globalHandlers (place : UInt64) (r : HandlerRegistry F) (c : RegistryCall F) :
    (r.call c).globalHandlers place = (c.writesHandlerAll place).getD (r.globalHandlers place) := by
  cases c with
  | registerHandlerAll h => exact update_eq_assign ..
  | unregisterHandlerAll typeId => exact update_eq_assign ..
  | installHandlerAll m =>
    exact foldl_eq_last_write (· place)
      (fun t h => update_eq_assign place t h.typeId (some h)) r.globalHandlers m.handlers
  | _ => rfl

theorem call_perPeerCatchAll (place : Nat) (r : HandlerRegistry F) (c : RegistryCall F) :
    (r.call c).perPeerCatchAll place = (c.writesCatchAll place).getD (r.perPeerCatchAll place) := by
  cases c with
  | setCatchAll peer cb => exact update_eq_assign ..
  | removePeer peer => exact update_eq_assign ..
  | installHandler peer m =>
    rcases hcatch : m.catchAll with _ | cb
    · simp [call, writesCatchAll, hcatch]
    · simpa [call, writesCatchAll, hcatch] using update_eq_assign ..
  | _ => rfl

theorem call_catchAll (r : HandlerRegistry F) (c : RegistryCall F) :
    (r.call c).catchAll = c.writesCatchAllAll.getD r.catchAll := by
  cases c with
  | installHandlerAll m => rcases hcatch : m.catchAll <;> simp [call, writesCatchAllAll, hcatch]
  | _ => rfl

theorem call_rawCatchAll (r : HandlerRegistry F) (c : RegistryCall F) :
    (r.call c).rawCatchAll = c.writesRawCatchAll.getD r.rawCatchAll := by
  cases c <;> rfl

theorem select_eq_chosen (history : List (RegistryCall F)) (peer : Nat) (typeId : UInt64) :
    (history.foldl call {}).select peer typeId = chosen history peer typeId := by
  have hhandler := foldl_eq_last_write (fun r : HandlerRegistry F => r.perPeerHandlers _)
    (call_perPeerHandlers (peer, typeId)) {} history
  have hall := foldl_eq_last_write (fun r : HandlerRegistry F => r.globalHandlers _)
    (call_globalHandlers typeId) {} history
  have hcatch := foldl_eq_last_write (fun r : HandlerRegistry F => r.perPeerCatchAll _)
    (call_perPeerCatchAll peer) {} history
  have hcatchAll := foldl_eq_last_write HandlerRegistry.catchAll call_catchAll {} history
  dsimp only at hhandler hall hcatch hcatchAll
  unfold select chosen
  rw [hhandler, hall, hcatch, hcatchAll]
  unfold latest
  cases (history.reverse.findSome? (writesHandler (peer, typeId))).getD none <;>
    cases (history.reverse.findSome? (writesHandlerAll typeId)).getD none <;>
    cases (history.reverse.findSome? (writesCatchAll peer)).getD none <;> rfl

theorem dispatch_eq (history : List (RegistryCall F)) (throws : F → Bool) (raw : Bool) (peer : Nat)
    (typeId : UInt64) : (if raw then (history.foldl call {}).dispatchRaw throws peer typeId
      else (history.foldl call {}).dispatch throws peer typeId)
      = (resultOf throws (invoked history throws raw peer typeId),
        invoked history throws raw peer typeId) := by
  have hraw : (history.foldl call {}).rawCatchAll = latest writesRawCatchAll history :=
    foldl_eq_last_write _ call_rawCatchAll {} history
  unfold dispatchRaw dispatch invoked
  rw [hraw, select_eq_chosen]
  generalize latest writesRawCatchAll history = first
  generalize chosen history peer typeId = second
  have hsecond : (match second with
      | some cb => (if throws cb then DispatchResult.error else .handled, [cb])
      | none => (.notFound, [])) = (resultOf throws second.toList, second.toList) := by
    cases second <;> simp [resultOf]
  -- without a raw callback the overloads do the same
  cases raw with
  | false => exact hsecond
  | true =>
    cases first with
    | none => exact hsecond
    | some cb => cases second <;> cases hthrows : throws cb <;> simp [resultOf, hthrows]

/-- After every history a message is given to the callbacks that its calls have left, and the result
is an error if one of them throws, not found if there is none, and handled otherwise. -/
theorem dispatch_invokes (history : List (RegistryCall F)) (throws : F → Bool) (raw : Bool)
    (peer : Nat) (typeId : UInt64) :
    let r := history.foldl call {}
    let out := if raw then r.dispatchRaw throws peer typeId else r.dispatch throws peer typeId
    out.2 = invoked history throws raw peer typeId
      ∧ (out.1 = .error ↔ ∃ cb ∈ out.2, throws cb = true)
      ∧ (out.1 = .notFound ↔ out.2 = [])
      ∧ (out.1 = .handled ↔ out.2 ≠ [] ∧ ∀ cb ∈ out.2, throws cb = false) := by
  intro r out
  have hout : out = _ := dispatch_eq history throws raw peer typeId
  rw [hout]
  generalize invoked history throws raw peer typeId = callbacks
  by_cases hany : callbacks.any throws = true
  · obtain ⟨cb, hmem, hthrows⟩ := List.any_eq_true.mp hany
    simp only [resultOf, hany, if_true]
    refine ⟨trivial, iff_of_true trivial ⟨cb, hmem, hthrows⟩, ?_, ?_⟩
    · exact iff_of_false nofun (List.ne_nil_of_mem hmem)
    · exact iff_of_false nofun fun h => Bool.false_ne_true ((h.2 cb hmem).symm.trans hthrows)
  · have hnone : ∀ cb ∈ callbacks, throws cb = false := by simpa using hany
    cases callbacks with
    | nil => simp [resultOf]
    | cons cb rest => simpa [resultOf, hany] using hnone

/-- The raw callback completes, and the handler behind it throws. -/
theorem dispatch_invokes_fails :
    let r := [RegistryCall.setRawCatchAll false, .registerHandlerAll ⟨1, true⟩].foldl call {}
    r.dispatchRaw id 7 1 = (.error, [false, true]) := by
  decide

end HandlerRegistry

end Conduit.Transceiver

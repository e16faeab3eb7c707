import Conduit.Transceiver.FramerScan
import Conduit.Transceiver.Pipeline

/-!
# A stream is delivered in order

With `DropPolicy::Block` and one worker, the messages of a stream peer go through the callback, the
queue and the worker one behind the other. What the worker has taken, then what is in the queue,
then what the callback has still to push, is at every moment what the frames of the stream decode
to.
-/

namespace Conduit.Transceiver

open Queue Conduit.Stream Sync List

variable {ι S P : Type}

/-! ## Decoding without a state -/

variable {session : ISession S P} {decode : List UInt8 → Except Error (List (DecodedMessage P))}

section Decode

/-- The result of decoding a frame depends on the frame alone. -/
def ISession.Pure (session : ISession S P)
    (decode : List UInt8 → Except Error (List (DecodedMessage P))) : Prop :=
  ∀ s frame, (session.decodeFrame s frame).1 = decode frame

/-- The messages of a frame, none if it does not decode. -/
def messagesOf (decode : List UInt8 → Except Error (List (DecodedMessage P)))
    (frame : List UInt8) : List (DecodedMessage P) :=
  match decode frame with
  | .ok messages => messages
  | .error _ => []

def fails (decode : List UInt8 → Except Error (List (DecodedMessage P)))
    (frame : List UInt8) : Bool :=
  match decode frame with
  | .ok _ => false
  | .error _ => true

theorem decodeFrames_pure (hpure : session.Pure decode) (frames : List (List UInt8)) :
    ∀ s, (decodeFrames session s frames).1 = frames.flatMap (messagesOf decode)
      ∧ (decodeFrames session s frames).2.1 = frames.countP (fails decode) := by
  induction frames with
  | nil => exact fun _ => ⟨rfl, rfl⟩
  | cons frame frames ih =>
    intro s
    have hfirst := hpure s frame
    rcases hdecoded : session.decodeFrame s frame with ⟨error | messages, s'⟩
    · obtain ⟨hmessages, herrors⟩ := ih s'
      simp only [decodeFrames, hdecoded, flatMap_cons, countP_cons, messagesOf, fails,
        ← hfirst, hmessages, herrors, nil_append, if_true, true_and]
    · obtain ⟨hmessages, herrors⟩ := ih s'
      simp only [decodeFrames, hdecoded, flatMap_cons, countP_cons, messagesOf, fails,
        ← hfirst, hmessages, herrors, Bool.false_eq_true, if_false, Nat.add_zero, and_self]

theorem PeerContext.receive_stream {ctx ctx' : PeerContext S} {f : StreamFramer}
    {data : List UInt8} {messages : List (DecodedMessage P)} {errors : Nat}
    (hpure : session.Pure decode) (hframer : ctx.framer = some f) (hvalid : f.Valid)
    (hroom : (f.makeRoom data.length).isSome)
    (hreceive : ctx.receive session data = (messages, errors, ctx')) :
    ∃ f' frames, ctx'.session = ctx.session ∧ ctx'.framer = some f' ∧ f'.Valid
      ∧ f'.maxBufferSize = f.maxBufferSize
      ∧ (frames, f'.unconsumed) = (ctx.session.scanner f.maxBufferSize).scan (f.unconsumed ++ data)
      ∧ messages = frames.flatMap (messagesOf decode) ∧ errors = frames.countP (fails decode) := by
  rcases hpush : f.pushData ctx.session data with ⟨error | frames, f'⟩
  · obtain ⟨g, hg⟩ := Option.isSome_iff_exists.mp hroom
    simp [StreamFramer.pushData, hg] at hpush
  obtain ⟨hvalid', hmax, hscan⟩ := StreamFramer.pushData_ok hvalid hpush
  obtain ⟨hmessages, herrors⟩ := decodeFrames_pure hpure frames ctx.state
  simp only [PeerContext.receive, hframer, hpush, Prod.mk.injEq] at hreceive
  obtain ⟨rfl, rfl, rfl⟩ := hreceive
  exact ⟨f', frames, rfl, rfl, hvalid', hmax, hscan, hmessages, herrors⟩

end Decode

/-! ## What a run says about a peer -/

/-- What an I/O thread has still to push. -/
def IoThread.messages : IoThread ι P → List (InboundMessage ι P)
  | .pushing pending => pending
  | .refused rest => rest

def Worker.message? : Worker ι P → Option (InboundMessage ι P)
  | .handling message => some message
  | _ => none

def Label.dispatched? : Label ι P → Option (InboundMessage ι P)
  | .dispatch _ message _ => some message
  | _ => none

variable [DecidableEq ι]

/-- The chunk that a callback brings for the peer. -/
def Label.chunk? (peer : ι) : Label ι P → Option (List UInt8)
  | .receive _ source data _ => if source = peer then some data else none
  | _ => none

/-- The decode errors of the other peers. -/
def Label.otherErrors (peer : ι) : Label ι P → Nat
  | .receive _ source _ errors => if source = peer then 0 else errors
  | _ => 0

def ofPeer (peer : ι) (messages : List (InboundMessage ι P)) : List (InboundMessage ι P) :=
  messages.filter fun message => decide (message.peer = peer)

/-- The bytes of the peer so far. -/
def stream (peer : ι) (labels : List (Label ι P)) : List UInt8 :=
  (labels.filterMap (Label.chunk? peer)).flatten

/-- The messages handed to dispatch, with those that are being handled. -/
def handed (labels : List (Label ι P)) (workers : List (Worker ι P)) : List (InboundMessage ι P) :=
  labels.filterMap Label.dispatched? ++ workers.filterMap Worker.message?

@[simp] theorem ofPeer_append (peer : ι) (l l' : List (InboundMessage ι P)) :
    ofPeer peer (l ++ l') = ofPeer peer l ++ ofPeer peer l' :=
  filter_append ..

theorem ofPeer_mk (peer : ι) (messages : List (DecodedMessage P)) :
    ofPeer peer (messages.map (InboundMessage.mk peer)) = messages.map (InboundMessage.mk peer) := by
  apply filter_eq_self.mpr
  intro message hmem
  obtain ⟨decoded, -, rfl⟩ := mem_map.mp hmem
  exact decide_eq_true rfl

theorem ofPeer_mk_ne {peer source : ι} (h : source ≠ peer) (messages : List (DecodedMessage P)) :
    ofPeer peer (messages.map (InboundMessage.mk source)) = [] := by
  apply filter_eq_nil_iff.mpr
  intro message hmem
  obtain ⟨decoded, -, rfl⟩ := mem_map.mp hmem
  simpa using h

theorem stream_snoc (peer : ι) (labels : List (Label ι P)) (label : Label ι P) :
    stream peer (labels ++ [label]) = stream peer labels ++ ((label.chunk? peer).getD []) := by
  unfold stream
  cases hchunk : label.chunk? peer with
  | none => simp [hchunk]
  | some data => simp [hchunk]

/-! ## One peer behind the other -/

namespace Pipeline

/-- No callback has a message of the peer to push. -/
def Quiet (peer : ι) (p : Pipeline ι S P) : Prop := ∀ t ∈ p.io, ofPeer peer t.messages = []

/-- The transport of the peer delivers one chunk after the other, none of which overflows the
framer, and the peer stays connected. `Transceiver::stop` stops the transports before it closes
the queue. -/
def Orderly (peer : ι) (p : Pipeline ι S P) : Label ι P → Prop
  | .receive _ source data _ => source = peer → p.queue.closed = false ∧ p.Quiet peer
      ∧ ∀ ctx f, p.peers peer = some ctx → ctx.framer = some f → (f.makeRoom data.length).isSome
  | .close => p.Quiet peer
  | .connect other | .disconnect other | .reset other => other ≠ peer
  | _ => True

section Stream

variable {framing : Session} {max : Nat} {peer : ι}

/-- The frames of the peer's bytes. -/
def frames (framing : Session) (max : Nat) (peer : ι) (labels : List (Label ι P)) :
    List (List UInt8) :=
  ((framing.scanner max).scan (stream peer labels)).1

/-- The framer of the peer stands where a scan of its bytes stands, and the decode errors are those
of its frames and of the other peers. -/
structure Framed (decode : List UInt8 → Except Error (List (DecodedMessage P)))
    (framing : Session) (max : Nat) (peer : ι) (labels : List (Label ι P))
    (p : Pipeline ι S P) : Prop where
  context : ∃ ctx f, p.peers peer = some ctx ∧ ctx.session = framing ∧ ctx.framer = some f
    ∧ f.Valid ∧ f.maxBufferSize = max
    ∧ f.unconsumed = ((framing.scanner max).scan (stream peer labels)).2
  errors : p.stats.decodeErrors = UInt64.ofNat
    ((frames framing max peer labels).countP (fails decode)
      + (labels.map (Label.otherErrors peer)).sum)

theorem Framed.same {labels : List (Label ι P)} {label : Label ι P} {p p' : Pipeline ι S P}
    (h : Framed decode framing max peer labels p) (hchunk : label.chunk? peer = none)
    (hpeer : p'.peers peer = p.peers peer)
    (herrors : p'.stats.decodeErrors = p.stats.decodeErrors + UInt64.ofNat (label.otherErrors peer)) :
    Framed decode framing max peer (labels ++ [label]) p' := by
  have hstream : stream peer (labels ++ [label]) = stream peer labels := by
    rw [stream_snoc, hchunk]
    exact append_nil _
  refine ⟨?_, ?_⟩
  · rw [hpeer, hstream]
    exact h.context
  · rw [herrors, h.errors, frames, frames, hstream, map_append, sum_append,
      map_singleton, sum_singleton, ← UInt64.ofNat_add, Nat.add_assoc]

theorem Framed.receive {labels : List (Label ι P)} {p : Pipeline ι S P} {i : Nat}
    {data : List UInt8} {old ctx : PeerContext S} {messages : List (DecodedMessage P)}
    {errors : Nat} (hpure : session.Pure decode) (h : Framed decode framing max peer labels p)
    (hroom : ∀ ctx f, p.peers peer = some ctx → ctx.framer = some f →
      (f.makeRoom data.length).isSome)
    (hold : p.peers peer = some old) (hreceive : old.receive session data = (messages, errors, ctx))
    (p' : Pipeline ι S P) (hpeer : p'.peers peer = some ctx)
    (herrors : p'.stats.decodeErrors = p.stats.decodeErrors + UInt64.ofNat errors) :
    Framed decode framing max peer (labels ++ [.receive i peer data errors]) p'
      ∧ (frames framing max peer (labels ++ [.receive i peer data errors])).flatMap
          (messagesOf decode)
        = (frames framing max peer labels).flatMap (messagesOf decode) ++ messages := by
  obtain ⟨ctx₀, f, hctx, hsession, hframer, hvalid, hmax, hrest⟩ := h.context
  obtain rfl : ctx₀ = old := Option.some.inj (hctx.symm.trans hold)
  obtain ⟨f', new, hsession', hframer', hvalid', hmax', hscan, rfl, rfl⟩ :=
    PeerContext.receive_stream hpure hframer hvalid (hroom _ f hold hframer) hreceive
  have hchunk : (Label.receive i peer data (new.countP (fails decode)) : Label ι P).chunk? peer
      = some data := if_pos rfl
  have hother : (Label.receive i peer data (new.countP (fails decode)) : Label ι P).otherErrors peer
      = 0 := if_pos rfl
  have hwhole := Scanner.scan_append (framing.scanner_stable max) (stream peer labels) data
  rw [← hrest] at hwhole
  rw [hsession, hmax] at hscan
  rw [← hscan] at hwhole
  refine ⟨⟨⟨ctx, f', hpeer, hsession'.trans hsession, hframer', hvalid', hmax'.trans hmax, ?_⟩, ?_⟩,
    ?_⟩
  · rw [stream_snoc, hchunk, Option.getD_some, hwhole]
  · rw [herrors, h.errors, frames, frames, stream_snoc, hchunk, Option.getD_some, hwhole,
      map_append, sum_append, map_singleton, sum_singleton, countP_append, ← UInt64.ofNat_add]
    congr 1
    dsimp only
    omega
  · rw [frames, frames, stream_snoc, hchunk, Option.getD_some, hwhole, flatMap_append]

end Stream

/-! ## The order of the messages -/

section Order

variable {framing : Session} {max : Nat} {peer : ι} {io : List (IoThread ι P)} {i : Nat}
  {t : IoThread ι P}

/-- What thread `i` has still to push of the peer. -/
def pendingOf (peer : ι) (io : List (IoThread ι P)) (i : Nat) : List (InboundMessage ι P) :=
  ofPeer peer ((io[i]?.map IoThread.messages).getD [])

/-- What the bytes of the peer decode to. -/
def expected (decode : List UInt8 → Except Error (List (DecodedMessage P))) (framing : Session)
    (max : Nat) (peer : ι) (labels : List (Label ι P)) : List (InboundMessage ι P) :=
  ((frames framing max peer labels).flatMap (messagesOf decode)).map (InboundMessage.mk peer)

theorem pendingOf_eq (h : io[i]? = some t) : pendingOf peer io i = ofPeer peer t.messages := by
  rw [pendingOf, h]
  rfl

theorem pendingOf_set (h : io[i]? = some t) (t' : IoThread ι P) (j : Nat) :
    pendingOf peer (io.set i t') j
      = if j = i then ofPeer peer t'.messages else pendingOf peer io j := by
  have hi : i < io.length := (List.getElem?_eq_some_iff.mp h).1
  by_cases hj : j = i
  · subst hj
    rw [if_pos rfl, pendingOf, getElem?_set_self hi]
    rfl
  · rw [if_neg hj, pendingOf, pendingOf, getElem?_set_ne (Ne.symm hj)]

theorem pendingOf_set_same {t' : IoThread ι P} (h : io[i]? = some t)
    (hsame : ofPeer peer t'.messages = ofPeer peer t.messages) :
    pendingOf peer (io.set i t') = pendingOf peer io := by
  funext j
  rw [pendingOf_set h]
  split
  next hj => rw [hj, pendingOf_eq h, hsame]
  next => rfl

theorem Quiet.pendingOf {p : Pipeline ι S P} (h : p.Quiet peer) (i : Nat) :
    pendingOf peer p.io i = [] := by
  unfold Pipeline.pendingOf
  cases ht : p.io[i]? with
  | none => rfl
  | some t => exact h t (mem_of_getElem? ht)

theorem quiet_of_pendingOf {p : Pipeline ι S P} (h : ∀ i, Pipeline.pendingOf peer p.io i = []) :
    p.Quiet peer := by
  intro t ht
  obtain ⟨i, hi⟩ := mem_iff_getElem?.mp ht
  rw [← pendingOf_eq hi]
  exact h i

theorem expected_same {labels : List (Label ι P)} {label : Label ι P}
    (hchunk : label.chunk? peer = none) : expected decode framing max peer (labels ++ [label])
      = expected decode framing max peer labels := by
  have hstream : stream peer (labels ++ [label]) = stream peer labels := by
    rw [stream_snoc, hchunk]
    exact append_nil _
  rw [expected, expected, frames, frames, hstream]

omit [DecidableEq ι] in
theorem handed_same {labels : List (Label ι P)} {label : Label ι P} {workers : List (Worker ι P)}
    (hlabel : label.dispatched? = none) :
    handed (labels ++ [label]) workers = handed labels workers := by
  simp [handed, hlabel]

variable [Inhabited ι] [Inhabited P] {labels : List (Label ι P)} {label : Label ι P}
  {p : Pipeline ι S P}

def OrderlyStep (session : ISession S P) (peer : ι) (p : Pipeline ι S P) (label : Label ι P)
    (p' : Pipeline ι S P) : Prop :=
  p.Orderly peer label ∧ Step session p label p'

/-- One thread has messages of the peer to push, and they come behind those in the queue. -/
def Ordered (peer : ι) (messages : List (InboundMessage ι P)) (labels : List (Label ι P))
    (p : Pipeline ι S P) : Prop :=
  ∃ owner, (∀ j, j ≠ owner → pendingOf peer p.io j = [])
    ∧ messages = ofPeer peer (handed labels p.workers) ++ ofPeer peer p.queue.contents
      ++ pendingOf peer p.io owner

structure InOrder (decode : List UInt8 → Except Error (List (DecodedMessage P)))
    (framing : Session) (max : Nat) (peer : ι) (labels : List (Label ι P))
    (p : Pipeline ι S P) : Prop where
  framed : Framed decode framing max peer labels p
  ring : p.queue.Ring
  policy : p.queue.dropPolicy = .block
  worker : ∃ w, p.workers = [w]
  closed : p.queue.closed = true → p.Quiet peer
  ordered : Ordered peer (expected decode framing max peer labels) labels p

/-- The step leaves the queue, the workers and what is still to be pushed of the peer. -/
theorem InOrder.io_same {p' : Pipeline ι S P} (h : InOrder decode framing max peer labels p)
    (hchunk : label.chunk? peer = none) (hlabel : label.dispatched? = none)
    (hpeer : p'.peers peer = p.peers peer)
    (herrors : p'.stats.decodeErrors = p.stats.decodeErrors + UInt64.ofNat (label.otherErrors peer))
    (hqueue : p'.queue = p.queue) (hworkers : p'.workers = p.workers)
    (hio : pendingOf peer p'.io = pendingOf peer p.io) :
    InOrder decode framing max peer (labels ++ [label]) p' := by
  obtain ⟨owner, hothers, horder⟩ := h.ordered
  refine ⟨h.framed.same hchunk hpeer herrors, hqueue ▸ h.ring, hqueue ▸ h.policy,
    hworkers ▸ h.worker, ?_, owner, ?_, ?_⟩
  · rw [hqueue]
    intro hclosed
    apply quiet_of_pendingOf
    rw [hio]
    exact (h.closed hclosed).pendingOf
  · rw [hio]
    exact hothers
  · rw [hio, hqueue, hworkers, expected_same hchunk, handed_same hlabel]
    exact horder

theorem InOrder.receive {i : Nat} {source : ι} {data : List UInt8} {old ctx : PeerContext S}
    {messages : List (DecodedMessage P)} {errors : Nat} (hpure : session.Pure decode)
    (h : InOrder decode framing max peer labels p)
    (horderly : p.Orderly peer (.receive i source data errors))
    (hio : p.io[i]? = some (.pushing [])) (hold : p.peers source = some old)
    (hreceive : old.receive session data = (messages, errors, ctx)) :
    InOrder decode framing max peer (labels ++ [.receive i source data errors]) { p with
      peers := Function.update p.peers source (some ctx)
      io := p.io.set i (.pushing (messages.map (InboundMessage.mk source)))
      stats := p.stats.received data.length messages.length errors } := by
  obtain ⟨owner, hothers, horder⟩ := h.ordered
  by_cases hsource : source = peer
  · subst hsource
    obtain ⟨hopen, hquiet, hroom⟩ := horderly rfl
    obtain ⟨hframed, hmessages⟩ := h.framed.receive (i := i) hpure hroom hold hreceive { p with
        peers := Function.update p.peers source (some ctx)
        io := p.io.set i (.pushing (messages.map (InboundMessage.mk source)))
        stats := p.stats.received data.length messages.length errors }
      (Function.update_self ..) rfl
    refine ⟨hframed, h.ring, h.policy, h.worker, ?_, i, ?_, ?_⟩
    · intro hclosed
      exact absurd hclosed (by simp [hopen])
    · intro j hj
      rw [pendingOf_set hio, if_neg hj]
      exact hquiet.pendingOf j
    rw [pendingOf_set hio, if_pos rfl, handed_same rfl, expected, hmessages, map_append]
    rw [hquiet.pendingOf owner, append_nil] at horder
    rw [← horder]
    exact congrArg _ (ofPeer_mk _ messages).symm
  have hchunk : (Label.receive i source data errors : Label ι P).chunk? peer = none :=
    if_neg hsource
  have hnone : ofPeer peer (IoThread.messages (.pushing (messages.map (InboundMessage.mk source))))
      = ofPeer peer (IoThread.messages (.pushing [] : IoThread ι P)) :=
    ofPeer_mk_ne hsource messages
  exact h.io_same hchunk rfl (Function.update_of_ne (Ne.symm hsource) _ _)
    (congrArg (p.stats.decodeErrors + UInt64.ofNat ·) (if_neg hsource).symm) rfl rfl
    (pendingOf_set_same hio hnone)

theorem InOrder.push {i : Nat} {message : InboundMessage ι P} {rest : List (InboundMessage ι P)}
    {accepted : Bool} {queue : BoundedQueue (InboundMessage ι P)}
    (h : InOrder decode framing max peer labels p)
    (hio : p.io[i]? = some (.pushing (message :: rest)))
    (hpush : BoundedQueue.monitor.Completes (.push message) p.queue (.pushed accepted) queue) :
    InOrder decode framing max peer (labels ++ [.push i message p.queue accepted]) { p with
      io := p.io.set i (if accepted then .pushing rest else .refused rest), queue } := by
  obtain ⟨owner, hothers, horder⟩ := h.ordered
  have hkeeps := (h.ring.completes hpush).1
  have hsplit : pendingOf peer p.io i = ofPeer peer [message] ++ ofPeer peer rest := by
    rw [pendingOf_eq hio, ← ofPeer_append]
    rfl
  rcases h.ring.push_block h.policy hpush with ⟨rfl, -, hopen, hcontents⟩ | ⟨rfl, hclosed, rfl⟩
  · refine ⟨h.framed.same rfl rfl (UInt64.add_zero _).symm, hkeeps.ring, hkeeps.policy.trans h.policy, h.worker, ?_,
      owner, ?_, ?_⟩
    · intro hclosed
      exact absurd hclosed (by simp [hopen])
    · intro j hj
      rw [pendingOf_set hio]
      split
      next hji =>
        have hnil := hsplit.symm.trans (hji ▸ hothers j hj)
        exact (append_eq_nil_iff.mp hnil).2
      next => exact hothers j hj
    · rw [expected_same rfl, handed_same rfl, hcontents, ofPeer_append, pendingOf_set hio, horder]
      by_cases hown : owner = i
      · rw [hown, hsplit]
        simp [IoThread.messages]
      · have hnil := hsplit.symm.trans (hothers i (Ne.symm hown))
        rw [if_neg hown, (append_eq_nil_iff.mp hnil).1, append_nil]
  · -- a closed queue: the thread has nothing of the peer
    have hquiet := (h.closed hclosed).pendingOf i
    refine h.io_same rfl rfl rfl (UInt64.add_zero _).symm rfl rfl (pendingOf_set_same hio ?_)
    rw [← pendingOf_eq hio, hquiet]
    exact (append_eq_nil_iff.mp (hsplit.symm.trans hquiet)).2

/-- The worker moves: what it has taken and what is in the queue stay the same together. -/
theorem InOrder.worker_step {p' : Pipeline ι S P} (h : InOrder decode framing max peer labels p)
    (hchunk : label.chunk? peer = none) (herrors : label.otherErrors peer = 0)
    (hpeers : p'.peers = p.peers) (hio : p'.io = p.io)
    (hstats : p'.stats.decodeErrors = p.stats.decodeErrors) (hqueue : p.queue.Keeps p'.queue)
    (hclosed : p'.queue.closed = p.queue.closed) (hworker : ∃ w, p'.workers = [w])
    (hmoved : handed (labels ++ [label]) p'.workers ++ p'.queue.contents
      = handed labels p.workers ++ p.queue.contents) :
    InOrder decode framing max peer (labels ++ [label]) p' := by
  refine ⟨h.framed.same hchunk (congrFun hpeers peer) ?_, hqueue.ring, hqueue.policy.trans h.policy,
    hworker, ?_, ?_⟩
  · rw [hstats, herrors]
    exact (UInt64.add_zero _).symm
  · rw [hclosed, Quiet, hio]
    exact h.closed
  obtain ⟨owner, hothers, horder⟩ := h.ordered
  refine ⟨owner, ?_, ?_⟩
  · rw [hio]
    exact hothers
  · rw [hio, expected_same hchunk, ← ofPeer_append, hmoved, ofPeer_append]
    exact horder

omit [DecidableEq ι] [Inhabited ι] [Inhabited P] in
theorem worker_of_getElem? {workers : List (Worker ι P)} {w w' : Worker ι P} {j : Nat}
    (hone : workers = [w]) (h : workers[j]? = some w') : j = 0 ∧ w = w' := by
  subst hone
  cases j with
  | zero => exact ⟨rfl, Option.some.inj h⟩
  | succ j => cases h

theorem InOrder.step {p' : Pipeline ι S P} (hpure : session.Pure decode)
    (h : InOrder decode framing max peer labels p) (hstep : OrderlyStep session peer p label p') :
    InOrder decode framing max peer (labels ++ [label]) p' := by
  obtain ⟨horderly, hstep⟩ := hstep
  obtain ⟨w, hone⟩ := h.worker
  cases hstep with
  | receive i source data old ctx messages errors hio hold hreceive =>
    exact h.receive hpure horderly hio hold hreceive
  | receiveUnknown i source data _ hnone =>
    have hsource : source ≠ peer := by
      rintro rfl
      obtain ⟨ctx, _, hctx, _⟩ := h.framed.context
      rw [hnone] at hctx
      cases hctx
    exact h.io_same (if_neg hsource) rfl rfl
      (congrArg (p.stats.decodeErrors + UInt64.ofNat ·) (if_neg hsource).symm) rfl rfl rfl
  | push i message rest accepted queue hio hpush => exact h.push hio hpush
  | drop i rest hio => exact h.io_same rfl rfl rfl (UInt64.add_zero _).symm rfl rfl (pendingOf_set_same hio rfl)
  | pop j message queue hworker hpop =>
    obtain ⟨rfl, rfl⟩ := worker_of_getElem? hone hworker
    obtain ⟨hcontents, hclosed⟩ := h.ring.pop_some hpop
    refine h.worker_step rfl rfl rfl rfl rfl (h.ring.completes hpop).1 hclosed
      ⟨.handling message, by rw [hone]; rfl⟩ ?_
    rw [hcontents, hone]
    simp [handed, Label.dispatched?, Worker.message?, filterMap_cons]
  | finish j queue hworker hpop =>
    obtain ⟨rfl, rfl⟩ := worker_of_getElem? hone hworker
    obtain ⟨hbefore, hafter, hclosed⟩ := h.ring.pop_none hpop
    refine h.worker_step rfl rfl rfl rfl rfl (h.ring.completes hpop).1 hclosed
      ⟨.finished, by rw [hone]; rfl⟩ ?_
    rw [hbefore, hafter, hone]
    simp [handed, Label.dispatched?, Worker.message?, filterMap_cons]
  | dispatch j message result hworker =>
    obtain ⟨rfl, rfl⟩ := worker_of_getElem? hone hworker
    refine h.worker_step rfl rfl rfl rfl ?_ (.refl h.ring) rfl ⟨.waiting, by rw [hone]; rfl⟩ ?_
    · cases result with
      | handled | notFound | error => rfl
    · rw [hone]
      simp [handed, Label.dispatched?, Worker.message?, filterMap_cons]
  | close queue hclose =>
    have hkeeps := (h.ring.completes hclose).1
    obtain ⟨owner, hothers, horder⟩ := h.ordered
    refine ⟨h.framed.same rfl rfl (UInt64.add_zero _).symm, hkeeps.ring, hkeeps.policy.trans h.policy, h.worker,
      fun _ => horderly, owner, hothers, ?_⟩
    rw [expected_same rfl, handed_same rfl, h.ring.close_contents hclose]
    exact horder
  | connect other ctx _ | disconnect other | reset other ctx _ =>
    exact h.io_same rfl rfl (Function.update_of_ne (Ne.symm horderly) _ _)
      (UInt64.add_zero _).symm rfl rfl rfl

theorem inOrder_start {peers : ι → Option (PeerContext S)} {ctx : PeerContext S}
    (hpeer : peers peer = some ctx) (hframer : ctx.framer = some { maxBufferSize := max })
    (threads capacity : Nat) {workers : Nat} (hworkers : workers ≤ 1) :
    InOrder decode ctx.session max peer []
      (start peers threads capacity .block workers : Pipeline ι S P) := by
  have hscan := Scanner.scan_nil (ctx.session.scanner_stable max)
  have hone : (if workers = 0 then 1 else workers) = 1 := by
    split <;> omega
  have hquiet : (start peers threads capacity .block workers : Pipeline ι S P).Quiet peer := by
    intro t ht
    obtain rfl := eq_of_mem_replicate ht
    rfl
  refine ⟨⟨⟨ctx, _, hpeer, rfl, hframer, Nat.zero_le _, rfl, ?_⟩, ?_⟩,
    BoundedQueue.ring_new capacity .block, rfl, ⟨.waiting, by rw [start, hone]; rfl⟩,
    fun _ => hquiet, 0, fun j _ => hquiet.pendingOf j, ?_⟩
  · exact (congrArg Prod.snd hscan).symm
  · simp [start, frames, stream, hscan]
  have hcontents : (start peers threads capacity .block workers : Pipeline ι S P).queue.contents
      = [] := length_eq_zero_iff.mp (BoundedQueue.length_contents _)
  rw [hquiet.pendingOf, hcontents, start]
  simp [expected, frames, stream, hscan, handed, Worker.message?, ofPeer]

/-- Whatever the chunks and the interleaving: when the callbacks have pushed everything of the peer
and the queue is empty, dispatch was handed what the frames of the stream decode to, in the order of
the stream, and the frames that do not decode were counted. -/
theorem stream_delivered {peers : ι → Option (PeerContext S)} {ctx : PeerContext S}
    (hpure : session.Pure decode) (hpeer : peers peer = some ctx)
    (hframer : ctx.framer = some { maxBufferSize := max }) {threads capacity workers : Nat}
    (hworkers : workers ≤ 1) {labels : List (Label ι P)} {p : Pipeline ι S P}
    (h : Trace (OrderlyStep session peer) (start peers threads capacity .block workers) labels p)
    (hquiet : p.Quiet peer) (hqueue : p.queue.size = 0) :
    (ofPeer peer (handed labels p.workers)).map (fun m => (m.decoded.typeId, m.decoded.payload))
        = ((frames ctx.session max peer labels).flatMap (messagesOf decode)).map
          (fun decoded => (decoded.typeId, decoded.payload))
      ∧ p.stats.decodeErrors = UInt64.ofNat
        ((frames ctx.session max peer labels).countP (fails decode)
          + (labels.map (Label.otherErrors peer)).sum) := by
  have hinv : InOrder decode ctx.session max peer labels p :=
    h.invariant _ (inOrder_start hpeer hframer threads capacity hworkers)
      fun _ _ _ _ hbefore hstep => hbefore.step hpure hstep
  obtain ⟨owner, -, horder⟩ := hinv.ordered
  have hcontents : p.queue.contents = [] :=
    length_eq_zero_iff.mp ((BoundedQueue.length_contents _).trans hqueue)
  have hall : expected decode ctx.session max peer labels = ofPeer peer (handed labels p.workers) := by
    rw [horder, hcontents, hquiet.pendingOf owner]
    simp [ofPeer]
  refine ⟨?_, hinv.framed.errors⟩
  rw [← hall, expected, map_map]
  rfl

end Order

/-! ### Frames of one byte -/

/-- A byte is a message, and zero does not decode. -/
def decodeByte (frame : List UInt8) : Except Error (List (DecodedMessage Unit)) :=
  if frame = [0] then .error ⟨.invalidArgument, "zero"⟩ else .ok [⟨0, (), frame⟩]

def byteSession : ISession Unit Unit where
  decodeFrame s frame := (decodeByte frame, s)
  reset s := s

def byteContext : PeerContext Unit := ⟨⟨[], 1, fun _ => 1⟩, (), some { maxBufferSize := 8 }⟩

def bytePeers (_ : Unit) : Option (PeerContext Unit) := some byteContext

/-- The bytes 1, 0 and 2 in two chunks: two messages and one error. -/
theorem stream_delivered_bytes : ∃ labels p, Trace (OrderlyStep byteSession ())
        (start bytePeers 1 1 .block 1) labels p
      ∧ stream () labels = [1, 0, 2]
      ∧ (ofPeer () (handed labels p.workers)).map (fun m => (m.decoded.typeId, m.decoded.payload))
        = [(0, ()), (0, ())]
      ∧ p.stats.decodeErrors = 1 := by
  have hstart : Trace (OrderlyStep byteSession ()) (start bytePeers 1 1 .block 1) [] _ := .nil
  have hquiet : ∀ q : Pipeline Unit Unit Unit, q.io = [.pushing []] → q.Quiet () := by
    intro q hio t ht
    rw [hio, mem_singleton] at ht
    subst ht
    rfl
  have hroom : ∀ data : List UInt8, data.length ≤ 8 → ∀ (q : Pipeline Unit Unit Unit),
      q.queue.closed = false → q.io = [.pushing []] →
      q.peers () = some byteContext →
      ∀ i errors, q.Orderly () (.receive i () data errors) := by
    intro data hlen q hopen hio hctx i errors _
    refine ⟨hopen, hquiet q hio, ?_⟩
    intro ctx f hpeer hf
    obtain rfl := Option.some.inj (hctx.symm.trans hpeer)
    cases hf
    simp [StreamFramer.makeRoom, Nat.not_lt.mpr hlen]
  have hrun := hstart.snoc _ _ _ _
      ⟨hroom [1, 0] (by decide) _ rfl rfl rfl 0 1, .receive _ 0 () [1, 0] _ _ _ _ rfl rfl rfl⟩
    |>.snoc _ _ _ _
      ⟨by exact trivial, .push _ 0 ⟨(), 0, (), [1]⟩ [] true _ rfl ⟨.idle, _, .enter _⟩⟩
    |>.snoc _ _ _ _ ⟨by exact trivial, .pop _ 0 ⟨(), 0, (), [1]⟩ _ rfl ⟨.idle, _, .enter _⟩⟩
    |>.snoc _ _ _ _
      ⟨hroom [2] (by decide) _ rfl rfl rfl 0 0, .receive _ 0 () [2] _ _ _ _ rfl rfl rfl⟩
    |>.snoc _ _ _ _
      ⟨by exact trivial, .push _ 0 ⟨(), 0, (), [2]⟩ [] true _ rfl ⟨.idle, _, .enter _⟩⟩
    |>.snoc _ _ _ _ ⟨by exact trivial, .dispatch _ 0 ⟨(), 0, (), [1]⟩ .handled rfl⟩
    |>.snoc _ _ _ _ ⟨by exact trivial, .pop _ 0 ⟨(), 0, (), [2]⟩ _ rfl ⟨.idle, _, .enter _⟩⟩
  have hpure : byteSession.Pure decodeByte := fun _ _ => rfl
  have hpeer : bytePeers () = some byteContext := rfl
  have hframer : byteContext.framer = some { maxBufferSize := 8 } := rfl
  have hdelivered := stream_delivered hpure hpeer hframer (Nat.le_refl 1) hrun (hquiet _ rfl) rfl
  exact ⟨_, _, hrun, rfl, hdelivered.1.trans (by decide), hdelivered.2.trans (by decide)⟩

end Pipeline

end Conduit.Transceiver

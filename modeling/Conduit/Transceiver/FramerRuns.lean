import Conduit.Transceiver.FramerScan

/-!
# Runs of the stream framer

The length extraction of a session may depend on what it was asked before, so the session has a
state here. Every turn of the loop asks at most once and then behaves as with a session without
state. Whatever the answers are, a turn that goes on moves the read position forward inside the
buffer. This bounds the number of turns, and it is why bytes are delivered or discarded in order.
-/

namespace Conduit.Transceiver

open Conduit.Stream StreamFramer List Option

/-- A session whose length extraction reads and changes a state. -/
structure StatefulSession (σ : Type) where
  syncPattern : List UInt8
  minFrameHeaderSize : Nat
  extractFrameLength : σ → List UInt8 → Nat × σ

namespace StreamFramer

variable {f : StreamFramer}

/-- `stream_framer.cpp:18-32`: the framer with the new bytes, if there is room for them. -/
def append (data : List UInt8) (f : StreamFramer) : Option StreamFramer :=
  (f.makeRoom data.length).map fun g => { g with buffer := g.buffer ++ data }

/-- `stream_framer.cpp:137-142`: the end of `push_data`. -/
def settle (frames : List (List UInt8)) (f : StreamFramer) : StreamFramer :=
  if f.offset > 0 ∧ (f.offset > f.buffer.length / 2 ∨ frames ≠ []) then f.compact else f

theorem turn_cases (session : Session) (h : f.Valid) :
    (∃ d ≤ f.unconsumed.length, f.turn session = .stop (f.offset + d))
      ∨ ∃ d n, 0 < n ∧ d + n ≤ f.unconsumed.length ∧ (f.turn session = .again (f.offset + (d + n))
          ∨ f.turn session = .frame ((f.unconsumed.drop d).take n) (f.offset + (d + n))) := by
  have hstable := session.scanner_stable f.maxBufferSize
  rw [turn_eq session h]
  rcases hnext : (session.scanner f.maxBufferSize).next f.unconsumed with ⟨d, action⟩
  cases action with
  | wait => exact .inl ⟨d, hstable.wait_le _ _ hnext, rfl⟩
  | skip n =>
    obtain ⟨hn, hle⟩ := hstable.skip_le _ _ _ hnext
    exact .inr ⟨d, n, hn, hle, .inl (by rw [turnOf, Nat.add_assoc])⟩
  | emit n =>
    obtain ⟨hn, hle⟩ := hstable.emit_le _ _ _ hnext
    exact .inr ⟨d, n, hn, hle, .inr (by rw [turnOf, Nat.add_assoc])⟩

theorem turn_of_not_valid (session : Session) (h : ¬ f.Valid) :
    f.turn session = .stop f.offset := by
  have hpos := session.minHeader_pos
  have hnone : f.bufferedBytes = 0 := if_neg h
  have hnil : f.unconsumed = [] := drop_eq_nil_of_le (Nat.le_of_not_le h)
  by_cases hempty : session.syncPattern = []
  · simp only [turn, findSync, if_pos hempty, headerTurn]
    exact if_pos (by rw [hnone]; exact hpos)
  rcases hsearch : search session.syncPattern [] with _ | i
  · simp [turn, findSync, if_neg hempty, hnil, hsearch, hnone]
  rcases search_le hsearch with hle | hsync
  · have hlength := length_pos_iff.mpr hempty
    rw [length_nil] at hle
    omega
  · exact absurd hsync hempty

theorem makeRoom_eq_none_iff (size : Nat) (h : f.Valid) :
    f.makeRoom size = none ↔ f.maxBufferSize < f.unconsumed.length + size := by
  have hin : f.offset ≤ f.buffer.length := h
  have hlength : f.unconsumed.length = f.buffer.length - f.offset := length_drop ..
  unfold makeRoom
  by_cases hoff : f.offset > 0
  · have hcompact : f.compact.buffer.length = f.unconsumed.length := rfl
    have hmax : f.compact.maxBufferSize = f.maxBufferSize := rfl
    simp only [if_pos hoff, hcompact, hmax]
    split
    · split <;> simp <;> omega
    simp
    omega
  · simp only [if_neg hoff]
    split <;> simp <;> omega

theorem makeRoom_le {g : StreamFramer} {size : Nat} (h : f.makeRoom size = some g) :
    g.buffer.length + size ≤ g.maxBufferSize := by
  unfold makeRoom at h
  by_cases hfits : f.buffer.length + size > f.maxBufferSize
  · simp only [if_pos hfits] at h
    generalize (if f.offset > 0 then f.compact else f) = room at h
    by_cases hroom : room.buffer.length + size > room.maxBufferSize
    · simp [if_pos hroom] at h
    rw [if_neg hroom] at h
    cases h
    exact Nat.le_of_not_lt hroom
  · rw [if_neg hfits] at h
    cases h
    exact Nat.le_of_not_lt hfits

theorem append_some {g : StreamFramer} {data : List UInt8} (h : f.Valid)
    (happend : f.append data = some g) :
    g.Valid ∧ g.unconsumed = f.unconsumed ++ data ∧ g.maxBufferSize = f.maxBufferSize
      ∧ g.buffer.length ≤ f.maxBufferSize := by
  obtain ⟨room, hroom, rfl⟩ := map_eq_some_iff.mp happend
  obtain ⟨hvalid, hsame, hmax⟩ := makeRoom_some h hroom
  have hin : room.offset ≤ room.buffer.length := hvalid
  have hle := makeRoom_le hroom
  refine ⟨?_, ?_, hmax, ?_⟩
  · show room.offset ≤ (room.buffer ++ data).length
    rw [length_append]
    omega
  · rw [← hsame, unconsumed, unconsumed, drop_append_of_le_length hin]
  · rw [← hmax, length_append]
    exact hle

end StreamFramer

namespace StatefulSession

variable {σ : Type} (session : StatefulSession σ)

/-- The session with the answers that it gives in a state. -/
def answering (s : σ) : Session where
  syncPattern := session.syncPattern
  minFrameHeaderSize := session.minFrameHeaderSize
  extractFrameLength header := (session.extractFrameLength s header).1

/-- The state after a turn: the session is asked if the header is there. -/
def afterTurn (s : σ) (f : StreamFramer) : σ :=
  match f.findSync session.syncPattern with
  | (false, _) => s
  | (true, offset) =>
    let f := { f with offset }
    if f.bufferedBytes < (session.answering s).minHeader then s
    else (session.extractFrameLength s (f.unconsumed.take (session.answering s).minHeader)).2

/-- `stream_framer.cpp:49-135`: the loop with its frames, its last read position and the state of
the session, or nothing if it has not ended after `turns` turns. -/
def loop : Nat → σ → StreamFramer → Option (List (List UInt8) × Nat × σ)
  | 0, _, _ => none
  | turns + 1, s, f =>
    match f.turn (session.answering s) with
    | .stop offset => some ([], offset, session.afterTurn s f)
    | .again offset => loop turns (session.afterTurn s f) { f with offset }
    | .frame frame offset =>
      (loop turns (session.afterTurn s f) { f with offset }).map (Prod.map (frame :: ·) id)

/-- `stream_framer.cpp:16-145`, with at most `turns` turns of the loop. -/
def pushData (turns : Nat) (data : List UInt8) (s : σ) (f : StreamFramer) :
    Option (Except Error (List (List UInt8)) × σ × StreamFramer) :=
  match f.append data with
  | none => some (.error ⟨.bufferOverrun, "StreamFramer buffer exceeds max size"⟩, s, f.reset)
  | some f =>
    (session.loop turns s f).map fun (frames, offset, s) =>
      (.ok frames, s, settle frames { f with offset })

variable {session} {f : StreamFramer} {s s' : σ}

/-- The loop ends before its turns are used up. At its end the read position is inside the buffer,
and the bytes before it have been cut into frames and discarded pieces. -/
theorem loop_spec (session : StatefulSession σ) (turns : Nat) : ∀ (s : σ)
    (f : StreamFramer), f.Valid → (f.unconsumed.length < turns → (session.loop turns s f).isSome)
      ∧ ∀ frames offset s', session.loop turns s f = some (frames, offset, s') →
        frames.length ≤ f.unconsumed.length ∧ offset ≤ f.buffer.length
          ∧ Cuts f.unconsumed frames (f.buffer.drop offset) := by
  induction turns with
  | zero => exact fun s f _ => ⟨by omega, fun _ _ _ hloop => by cases hloop⟩
  | succ turns ih =>
    intro s f h
    rcases f.turn_cases (session.answering s) h with ⟨d, hd, hturn⟩ | ⟨d, n, hn, hle, hturn⟩
    · simp only [loop, hturn, some.injEq, Prod.mk.injEq]
      refine ⟨fun _ => rfl, ?_⟩
      rintro frames offset s' ⟨rfl, rfl, -⟩
      refine ⟨Nat.zero_le _, h.at hd, ?_⟩
      rw [← drop_drop]
      have hcut := (Cuts.rest (f.unconsumed.drop d)).discard (f.unconsumed.take d)
      rwa [take_append_drop] at hcut
    obtain ⟨hends, hspec⟩ :=
      ih (session.afterTurn s f) { f with offset := f.offset + (d + n) } (h.at hle)
    rw [f.unconsumed_at, length_drop] at hends
    simp only [f.unconsumed_at, length_drop] at hspec
    rcases hturn with hturn | hturn
    · simp only [loop, hturn]
      refine ⟨fun hturns => hends (by omega), fun frames offset s' hloop => ?_⟩
      obtain ⟨hcount, hoffset, hcuts⟩ := hspec _ _ _ hloop
      refine ⟨by omega, hoffset, ?_⟩
      have hcut := hcuts.discard (f.unconsumed.take (d + n))
      rwa [take_append_drop] at hcut
    simp only [loop, hturn, isSome_map, map_eq_some_iff]
    refine ⟨fun hturns => hends (by omega), ?_⟩
    rintro _ _ _ ⟨⟨frames, offset, s'⟩, hloop, heq⟩
    cases heq
    obtain ⟨hcount, hoffset, hcuts⟩ := hspec _ _ _ hloop
    refine ⟨?_, hoffset, ?_⟩
    · rw [length_cons]
      omega
    -- the bytes before the frame are discarded
    have hcut := (hcuts.frame ((f.unconsumed.drop d).take n)).discard (f.unconsumed.take d)
    rwa [← drop_drop, take_append_drop, take_append_drop] at hcut

/-- The loop has one turn for every unconsumed byte and one more, wherever the read position is. -/
theorem loop_within (session : StatefulSession σ) (s : σ) (f : StreamFramer) :
    ∃ frames offset s', session.loop (f.bufferedBytes + 1) s f = some (frames, offset, s')
      ∧ frames.length ≤ f.bufferedBytes := by
  by_cases h : f.Valid
  · rw [h.bufferedBytes_eq]
    obtain ⟨hends, hspec⟩ := loop_spec session (f.unconsumed.length + 1) s f h
    obtain ⟨⟨frames, offset, s'⟩, hloop⟩ := isSome_iff_exists.mp (hends (Nat.lt_succ_self _))
    exact ⟨frames, offset, s', hloop, (hspec _ _ _ hloop).1⟩
  · refine ⟨[], f.offset, session.afterTurn s f, ?_, Nat.zero_le _⟩
    simp only [loop, turn_of_not_valid _ h]

/-- A chunk that fits is scanned in at most one turn more than there are unconsumed bytes, with at
most one frame for each of them; for another one the loop is not entered. -/
theorem pushData_within (session : StatefulSession σ) (s : σ) (data : List UInt8)
    (f : StreamFramer) :
    (f.append data = none → ∀ turns, ∃ e,
        session.pushData turns data s f = some (.error e, s, f.reset))
      ∧ ∀ g, f.append data = some g → ∃ frames s' f',
        session.pushData (g.bufferedBytes + 1) data s f = some (.ok frames, s', f')
          ∧ frames.length ≤ g.bufferedBytes := by
  constructor
  · intro hnone turns
    simp only [pushData, hnone]
    exact ⟨_, rfl⟩
  · intro g hsome
    obtain ⟨frames, offset, s', hloop, hcount⟩ := loop_within session s g
    exact ⟨frames, s', _, by simp only [pushData, hsome, hloop]; rfl, hcount⟩

/-- A session that counts the headers it sees and takes their number for the length. -/
def countingSession : StatefulSession Nat where
  syncPattern := []
  minFrameHeaderSize := 1
  extractFrameLength n _ := (n, n + 1)

/-- The first answer is zero and costs a byte, the next one is a frame of one byte. -/
theorem pushData_within_counting : append [1, 2] {} = some ⟨[1, 2], 0, 1048576⟩
      ∧ ∃ frames s' f', countingSession.pushData 3 [1, 2] 0 {} = some (.ok frames, s', f')
        ∧ frames.length ≤ 2 :=
  ⟨by decide, (pushData_within countingSession 0 [1, 2] {}).2 ⟨[1, 2], 0, 1048576⟩ (by decide)⟩

/-! ## Histories of calls -/

/-- The framers that pushes and resets lead to, with the bytes that were accepted since the last
reset or overrun and the frames that were delivered since then. A push may find the session in any
state. -/
inductive Reaches (session : StatefulSession σ) (max : Nat) :
    StreamFramer → List UInt8 → List (List UInt8) → Prop where
  | start : Reaches session max { maxBufferSize := max } [] []
  | reset {f stream frames} (h : Reaches session max f stream frames) :
      Reaches session max f.reset [] []
  | accepted {f f' stream frames turns data s s' more} (h : Reaches session max f stream frames)
      (hpush : session.pushData turns data s f = some (.ok more, s', f')) :
      Reaches session max f' (stream ++ data) (frames ++ more)
  | overrun {f f' stream frames turns data s s' e} (h : Reaches session max f stream frames)
      (hpush : session.pushData turns data s f = some (.error e, s', f')) :
      Reaches session max f' [] []

theorem settle_eq (frames : List (List UInt8)) (h : f.Valid) : (settle frames f).Valid
      ∧ (settle frames f).unconsumed = f.unconsumed
      ∧ (settle frames f).buffer.length ≤ f.buffer.length
      ∧ (settle frames f).maxBufferSize = f.maxBufferSize := by
  unfold settle
  split
  · refine ⟨Valid.compact f, rfl, ?_, rfl⟩
    exact (drop_sublist _ _).length_le
  · exact ⟨h, rfl, Nat.le_refl _, rfl⟩

theorem pushData_cases {turns : Nat} {data : List UInt8} {f' : StreamFramer}
    {result : Except Error (List (List UInt8))} (h : f.Valid)
    (hpush : session.pushData turns data s f = some (result, s', f')) :
    (f.maxBufferSize < f.unconsumed.length + data.length ∧ f' = f.reset
        ∧ result = .error ⟨.bufferOverrun, "StreamFramer buffer exceeds max size"⟩)
      ∨ f.unconsumed.length + data.length ≤ f.maxBufferSize ∧ f'.Valid
        ∧ f'.buffer.length ≤ f.maxBufferSize ∧ f'.maxBufferSize = f.maxBufferSize
        ∧ ∃ frames, result = .ok frames ∧ Cuts (f.unconsumed ++ data) frames f'.unconsumed := by
  have hroom := makeRoom_eq_none_iff data.length h
  rcases happend : f.append data with _ | g
  · simp only [pushData, happend, some.injEq, Prod.mk.injEq] at hpush
    obtain ⟨rfl, -, rfl⟩ := hpush
    exact .inl ⟨hroom.mp (map_eq_none_iff.mp happend), rfl, rfl⟩
  have hfits : ¬ f.maxBufferSize < f.unconsumed.length + data.length := by
    rw [← hroom]
    intro hnone
    simp [append, hnone] at happend
  obtain ⟨hvalid, hbytes, hmax, hle⟩ := append_some h happend
  simp only [pushData, happend, map_eq_some_iff, Prod.mk.injEq] at hpush
  obtain ⟨⟨frames, offset, t⟩, hloop, rfl, -, rfl⟩ := hpush
  obtain ⟨-, hoffset, hcuts⟩ := (loop_spec session turns s g hvalid).2 _ _ _ hloop
  obtain ⟨hvalid', hrest, hlength, hmax'⟩ := settle_eq (f := { g with offset }) frames hoffset
  rw [hbytes] at hcuts
  refine .inr ⟨by omega, hvalid', Nat.le_trans hlength hle, hmax'.trans hmax, frames, rfl, ?_⟩
  rw [hrest]
  exact hcuts

theorem Reaches.inv {max : Nat} {stream : List UInt8} {frames : List (List UInt8)}
    (h : Reaches session max f stream frames) :
    f.Valid ∧ f.buffer.length ≤ max ∧ f.maxBufferSize = max ∧ Cuts stream frames f.unconsumed := by
  induction h with
  | start => exact ⟨Nat.zero_le _, Nat.zero_le _, rfl, .rest []⟩
  | reset h ih => exact ⟨Nat.zero_le _, Nat.zero_le _, ih.2.2.1, .rest []⟩
  | accepted h hpush ih =>
    obtain ⟨hvalid, -, rfl, hcuts⟩ := ih
    rcases pushData_cases hvalid hpush with ⟨-, -, hresult⟩ | ⟨-, hv, hle, hmax, new, hresult, hcut⟩
    · cases hresult
    cases hresult
    exact ⟨hv, hle, hmax, hcuts.append hcut⟩
  | overrun h hpush ih =>
    obtain ⟨hvalid, -, rfl, -⟩ := ih
    rcases pushData_cases hvalid hpush with ⟨-, rfl, -⟩ | ⟨-, -, -, -, new, hresult, -⟩
    · exact ⟨Nat.zero_le _, Nat.zero_le _, rfl, .rest []⟩
    · cases hresult

/-- After every history the read position is inside a buffer that is not larger than allowed, and
the accepted bytes are discarded pieces and the delivered frames in order, followed by the
unconsumed bytes. A push reports an overrun, and keeps nothing, exactly if the unconsumed bytes and
the new ones are too many. -/
theorem framer_conserves (session : StatefulSession σ) (max : Nat) (f : StreamFramer)
    (stream : List UInt8) (frames : List (List UInt8)) (h : Reaches session max f stream frames) :
    f.offset ≤ f.buffer.length ∧ f.buffer.length ≤ max ∧ Cuts stream frames f.unconsumed
      ∧ ∀ turns data s result s' f', session.pushData turns data s f = some (result, s', f') →
        ((∃ e, result = .error e ∧ e.code = .bufferOverrun)
            ↔ max < f.unconsumed.length + data.length)
          ∧ (max < f.unconsumed.length + data.length → f'.buffer = []) := by
  obtain ⟨hvalid, hle, rfl, hcuts⟩ := h.inv
  refine ⟨hvalid, hle, hcuts, ?_⟩
  intro turns data s result s' f' hpush
  rcases pushData_cases hvalid hpush with ⟨hover, rfl, rfl⟩ | ⟨hfits, -, -, -, new, rfl, -⟩
  · exact ⟨⟨fun _ => hover, fun _ => ⟨_, rfl, rfl⟩⟩, fun _ => rfl⟩
  refine ⟨⟨?_, fun hover => absurd hfits (by omega)⟩, fun hover => absurd hfits (by omega)⟩
  rintro ⟨e, he, -⟩
  cases he

/-- A chunk is cut after the byte that the first answer costs, and the next chunk is too long. -/
theorem framer_conserves_counting : Reaches countingSession 3 ⟨[3], 0, 3⟩ [1, 2, 3] [[2]]
      ∧ Cuts [1, 2, 3] [[2]] (unconsumed ⟨[3], 0, 3⟩) := by
  have hreach : Reaches countingSession 3 ⟨[3], 0, 3⟩ [1, 2, 3] [[2]] :=
    Reaches.start.accepted (show countingSession.pushData 4 [1, 2, 3] 0 { maxBufferSize := 3 }
      = some (.ok [[2]], 3, ⟨[3], 0, 3⟩) by decide)
  exact ⟨hreach, (framer_conserves countingSession 3 _ _ _ hreach).2.2.1⟩

end StatefulSession

end Conduit.Transceiver

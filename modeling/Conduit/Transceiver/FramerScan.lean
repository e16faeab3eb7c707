import Conduit.Transceiver.StreamFramer

/-!
# The stream framer as a scanner

The loop of `push_data` decides by the unconsumed bytes alone. `Session.scanner` is that decision
as a scanner; it is stable, and `push_data` refines its scan: the frames it returns and the bytes
it leaves unconsumed are those of one scan, whatever the buffer, the offset and the history of
compactions are.
-/

namespace Conduit.Transceiver

open Conduit.Stream Scanner List

namespace Session

variable {session : Session} {max : Nat} {bytes : List UInt8}

/-- The number of bytes skipped after a corrupt length. -/
def skipLength (session : Session) : Nat :=
  if session.syncPattern = [] then 1 else session.syncPattern.length

/-- The decision at the start of a header. -/
def decideHeader (session : Session) (max : Nat) (bytes : List UInt8) : Action :=
  if bytes.length < session.minHeader then .wait
  else
    let length := session.extractFrameLength (bytes.take session.minHeader)
    if length < session.minHeader ∨ length > max then .skip session.skipLength
    else if bytes.length < length then .wait
    else .emit length

/-- The decision on the unconsumed bytes: drop what comes before the sync pattern, then look at the
header. -/
def scanner (session : Session) (max : Nat) : Scanner UInt8 where
  next bytes :=
    if session.syncPattern = [] then (0, session.decideHeader max bytes)
    else
      match search session.syncPattern bytes with
      | none => (bytes.length - (session.syncPattern.length - 1), .wait)
      | some i => (i, session.decideHeader max (bytes.drop i))

theorem minHeader_pos (session : Session) : 0 < session.minHeader := by
  unfold minHeader
  split <;> omega

theorem skipLength_pos (session : Session) : 0 < session.skipLength := by
  unfold skipLength
  split
  next => omega
  next hne => exact length_pos_iff.mpr hne

theorem decideHeader_skip {n : Nat} (h : session.decideHeader max bytes = .skip n) :
    session.minHeader ≤ bytes.length ∧ n = session.skipLength
      ∧ (session.extractFrameLength (bytes.take session.minHeader) < session.minHeader
        ∨ session.extractFrameLength (bytes.take session.minHeader) > max) := by
  simp only [decideHeader] at h
  split at h
  next => cases h
  next hlen =>
    split at h
    next hcorrupt =>
      cases h
      exact ⟨by omega, rfl, hcorrupt⟩
    next => split at h <;> cases h

theorem decideHeader_emit {n : Nat} (h : session.decideHeader max bytes = .emit n) :
    n = session.extractFrameLength (bytes.take session.minHeader) ∧ session.minHeader ≤ n
      ∧ n ≤ max ∧ n ≤ bytes.length := by
  simp only [decideHeader] at h
  split at h
  next => cases h
  next hlen =>
    split at h
    next => cases h
    next hsane =>
      split at h
      next => cases h
      next hall =>
        cases h
        omega

theorem take_minHeader_append (later : List UInt8) (h : session.minHeader ≤ bytes.length) :
    (bytes ++ later).take session.minHeader = bytes.take session.minHeader :=
  take_append_of_le_length h

theorem decideHeader_append (later : List UInt8) (h : session.decideHeader max bytes ≠ .wait) :
    session.decideHeader max (bytes ++ later) = session.decideHeader max bytes := by
  rcases haction : session.decideHeader max bytes with _ | n | n
  · exact absurd haction h
  · obtain ⟨hlen, rfl, hcorrupt⟩ := decideHeader_skip haction
    simp only [decideHeader, take_minHeader_append later hlen]
    rw [if_neg (by rw [length_append]; omega), if_pos hcorrupt]
  obtain ⟨rfl, hmin, hmax, hall⟩ := decideHeader_emit haction
  simp only [decideHeader, take_minHeader_append later (Nat.le_trans hmin hall)]
  rw [if_neg (by rw [length_append]; omega), if_neg (by omega),
    if_neg (by rw [length_append]; omega)]

theorem skipLength_le (hsync : session.syncPattern <+: bytes)
    (hlen : session.minHeader ≤ bytes.length) : session.skipLength ≤ bytes.length := by
  have hpos := session.minHeader_pos
  have := hsync.length_le
  unfold skipLength
  split <;> omega

theorem next_cases (session : Session) (max : Nat) (bytes : List UInt8) :
    (session.syncPattern ≠ [] ∧ search session.syncPattern bytes = none
        ∧ (session.scanner max).next bytes
          = (bytes.length - (session.syncPattern.length - 1), .wait))
      ∨ ∃ i, session.syncPattern <+: bytes.drop i ∧ i ≤ bytes.length
        ∧ (∀ later, (session.scanner max).next (bytes ++ later)
            = (i, session.decideHeader max (bytes.drop i ++ later))) := by
  by_cases hempty : session.syncPattern = []
  · refine .inr ⟨0, by simp [hempty], Nat.zero_le _, fun later => ?_⟩
    simp only [scanner, if_pos hempty, drop_zero]
  rcases hsearch : search session.syncPattern bytes with _ | i
  · refine .inl ⟨hempty, rfl, ?_⟩
    simp only [scanner, if_neg hempty, hsearch]
  have hle : i ≤ bytes.length := by
    rcases search_le hsearch with h | h
    · omega
    · exact absurd h hempty
  refine .inr ⟨i, starts_of_search hsearch, hle, fun later => ?_⟩
  simp only [scanner, if_neg hempty, search_append_of_some later hsearch,
    drop_append_of_le_length hle]

theorem next_of_starts (max : Nat) (h : session.syncPattern <+: bytes) :
    (session.scanner max).next bytes = (0, session.decideHeader max bytes) := by
  by_cases hempty : session.syncPattern = []
  · simp only [scanner, if_pos hempty]
  · simp only [scanner, if_neg hempty, search_of_starts h, drop_zero]

theorem next_of_ne_wait {d : Nat} {action : Action}
    (h : (session.scanner max).next bytes = (d, action)) (hgo : action ≠ .wait) :
    session.syncPattern <+: bytes.drop d ∧ d ≤ bytes.length
      ∧ session.decideHeader max (bytes.drop d) = action
      ∧ ∀ later, (session.scanner max).next (bytes ++ later) = (d, action) := by
  rcases session.next_cases max bytes with ⟨_, _, hnext⟩ | ⟨i, hstarts, hle, hnext⟩
  · rw [hnext] at h
    exact absurd (Prod.mk.inj h).2.symm hgo
  have hnow := hnext []
  rw [append_nil, append_nil, h] at hnow
  obtain ⟨rfl, rfl⟩ := Prod.mk.inj hnow
  refine ⟨hstarts, hle, rfl, fun later => ?_⟩
  rw [hnext later, decideHeader_append later hgo]

theorem scanner_stable (session : Session) (max : Nat) : (session.scanner max).Stable where
  skip_le := by
    intro bytes d n h
    obtain ⟨hstarts, hle, hskip, _⟩ := next_of_ne_wait h (by simp)
    obtain ⟨hlen, rfl, _⟩ := decideHeader_skip hskip
    have hskipLe := skipLength_le hstarts hlen
    rw [length_drop] at hskipLe
    exact ⟨session.skipLength_pos, by omega⟩
  emit_le := by
    intro bytes d n h
    obtain ⟨_, hle, hemit, _⟩ := next_of_ne_wait h (by simp)
    obtain ⟨_, hmin, _, hall⟩ := decideHeader_emit hemit
    have hpos := session.minHeader_pos
    rw [length_drop] at hall
    exact ⟨by omega, by omega⟩
  wait_le := by
    intro bytes d h
    rcases session.next_cases max bytes with ⟨_, _, hnext⟩ | ⟨i, _, hle, hnext⟩
    · rw [hnext] at h
      obtain ⟨rfl, _⟩ := Prod.mk.inj h
      exact Nat.sub_le _ _
    have hnow := hnext []
    rw [append_nil, h] at hnow
    obtain ⟨rfl, _⟩ := Prod.mk.inj hnow
    exact hle
  skip_append := fun _ later _ _ h => (next_of_ne_wait h (by simp)).2.2.2 later
  emit_append := fun _ later _ _ h => (next_of_ne_wait h (by simp)).2.2.2 later
  wait_append := by
    intro bytes later d h
    rcases session.next_cases max bytes with ⟨hne, hnone, hnext⟩ | ⟨i, hstarts, hle, hnext⟩
    · -- no sync pattern yet: what was dropped cannot belong to one
      rw [hnext] at h
      obtain ⟨rfl, _⟩ := Prod.mk.inj h
      have hsearch := search_append_of_none later hne hnone
      simp only [scanner, if_neg hne]
      rcases hrest : search session.syncPattern
          (bytes.drop (bytes.length - (session.syncPattern.length - 1)) ++ later) with _ | j
      · rw [hrest, Option.map_none] at hsearch
        simp only [hsearch, length_append, length_drop]
        congr 1
        omega
      · rw [hrest, Option.map_some] at hsearch
        simp only [hsearch]
        rw [← drop_drop, drop_append_of_le_length (Nat.sub_le _ _)]
    · have hnow := hnext []
      rw [append_nil, h] at hnow
      obtain ⟨rfl, _⟩ := Prod.mk.inj hnow
      rw [hnext later, next_of_starts max (hstarts.trans (prefix_append _ _))]
      rfl

end Session

namespace StreamFramer

variable {f : StreamFramer} {session : Session}

/-- The read position is inside the buffer. -/
def Valid (f : StreamFramer) : Prop := f.offset ≤ f.buffer.length

theorem Valid.bufferedBytes_eq (h : f.Valid) : f.bufferedBytes = f.unconsumed.length := by
  have hin : f.offset ≤ f.buffer.length := h
  rw [bufferedBytes, if_pos hin, unconsumed, length_drop]

theorem unconsumed_at (f : StreamFramer) (d : Nat) :
    unconsumed { f with offset := f.offset + d } = f.unconsumed.drop d := by
  simp only [unconsumed, drop_drop]

theorem Valid.at {d : Nat} (h : f.Valid) (hd : d ≤ f.unconsumed.length) :
    Valid { f with offset := f.offset + d } := by
  have hin : f.offset ≤ f.buffer.length := h
  rw [unconsumed, length_drop] at hd
  show f.offset + d ≤ f.buffer.length
  omega

/-- The turn at an offset, as the action of the scanner there says. -/
def turnOf (f : StreamFramer) (d : Nat) : Action → Turn
  | .wait => .stop (f.offset + d)
  | .skip n => .again (f.offset + d + n)
  | .emit n => .frame ((f.unconsumed.drop d).take n) (f.offset + d + n)

theorem skipCorrupt_eq (h : f.Valid) (hstarts : session.syncPattern <+: f.unconsumed)
    (hlen : session.minHeader ≤ f.unconsumed.length) :
    f.skipCorrupt session.syncPattern = .again (f.offset + session.skipLength) := by
  have hle := Session.skipLength_le hstarts hlen
  have hpos := session.minHeader_pos
  unfold skipCorrupt Session.skipLength at *
  rw [h.bufferedBytes_eq]
  by_cases hempty : session.syncPattern = []
  · simp only [hempty, ne_eq, not_true_eq_false, if_false, if_true]
    rw [if_pos (by omega)]
  · simp only [hempty, ne_eq, not_false_eq_true, if_true, if_false] at hle ⊢
    rw [if_pos hle]

theorem headerTurn_eq (h : f.Valid) (hstarts : session.syncPattern <+: f.unconsumed) :
    headerTurn session f = f.turnOf 0 (session.decideHeader f.maxBufferSize f.unconsumed) := by
  have hpos := session.minHeader_pos
  simp only [headerTurn, h.bufferedBytes_eq, Session.decideHeader]
  by_cases hshort : f.unconsumed.length < session.minHeader
  · rw [if_pos hshort, if_pos hshort]
    rfl
  rw [if_neg hshort, if_neg hshort, skipCorrupt_eq h hstarts (by omega)]
  generalize session.extractFrameLength (f.unconsumed.take session.minHeader) = length
  by_cases hcorrupt : length < session.minHeader ∨ length > f.maxBufferSize
  · split
    · rfl
    split
    · rfl
    rw [if_pos (by omega)]
    rfl
  · rw [if_neg hcorrupt, if_neg (by omega), if_neg (by omega), if_neg (by omega)]
    by_cases hpart : f.unconsumed.length < length
    · rw [if_pos hpart, if_pos hpart]
      rfl
    · rw [if_neg hpart, if_neg hpart]
      rfl

theorem turnOf_at (f : StreamFramer) (d : Nat) (action : Action) :
    turnOf { f with offset := f.offset + d } 0 action = f.turnOf d action := by
  cases action with
  | wait => rfl
  | skip n => rfl
  | emit n => simp only [turnOf, Nat.add_zero, unconsumed_at, drop_zero]

theorem turn_eq (session : Session) (h : f.Valid) :
    f.turn session = f.turnOf ((session.scanner f.maxBufferSize).next f.unconsumed).1
      ((session.scanner f.maxBufferSize).next f.unconsumed).2 := by
  by_cases hempty : session.syncPattern = []
  · simp only [turn, findSync, Session.scanner, if_pos hempty]
    exact headerTurn_eq h (by simp [hempty])
  rcases hsearch : search session.syncPattern f.unconsumed with _ | i
  · have hlen : f.unconsumed.length = f.buffer.length - f.offset := length_drop ..
    simp only [turn, findSync, if_neg hempty, hsearch, Session.scanner, turnOf, h.bufferedBytes_eq]
    congr 1
    split <;> omega
  have hle : i ≤ f.unconsumed.length := by
    rcases search_le hsearch with hle | hnil
    · omega
    · exact absurd hnil hempty
  simp only [turn, findSync, if_neg hempty, hsearch, Session.scanner]
  rw [headerTurn_eq (h.at hle) (by rw [unconsumed_at]; exact starts_of_search hsearch),
    turnOf_at, unconsumed_at]

theorem loop_eq (session : Session) (fuel : Nat) : ∀ f : StreamFramer, f.Valid →
      (f.loop session fuel).1 = ((session.scanner f.maxBufferSize).scanFuel fuel f.unconsumed).1
      ∧ (f.loop session fuel).2 ≤ f.buffer.length ∧ f.buffer.drop (f.loop session fuel).2
          = ((session.scanner f.maxBufferSize).scanFuel fuel f.unconsumed).2 := by
  induction fuel with
  | zero => exact fun f h => ⟨rfl, h, rfl⟩
  | succ fuel ih =>
    intro f h
    have hstable := session.scanner_stable f.maxBufferSize
    have hturn := turn_eq session h
    rcases hnext : (session.scanner f.maxBufferSize).next f.unconsumed with ⟨d, action⟩
    cases action with
    | wait =>
      have hvalid := h.at (hstable.wait_le _ _ hnext)
      simp only [loop, hturn, turnOf, scanFuel, hnext]
      exact ⟨trivial, hvalid, by rw [unconsumed, drop_drop]⟩
    | skip n =>
      have hvalid := h.at (hstable.skip_le _ _ _ hnext).2
      simp only [loop, hturn, turnOf, scanFuel, hnext, Nat.add_assoc]
      have hrec := ih _ hvalid
      rwa [unconsumed_at] at hrec
    | emit n =>
      have hvalid := h.at (hstable.emit_le _ _ _ hnext).2
      simp only [loop, hturn, turnOf, scanFuel, hnext, Nat.add_assoc]
      obtain ⟨hframes, hle, hrest⟩ := ih _ hvalid
      rw [unconsumed_at] at hframes hrest
      exact ⟨by rw [hframes], hle, hrest⟩

theorem Valid.compact (f : StreamFramer) : f.compact.Valid := Nat.zero_le _

theorem unconsumed_compact (f : StreamFramer) : f.compact.unconsumed = f.unconsumed := rfl

theorem makeRoom_some {f' : StreamFramer} {size : Nat} (h : f.Valid)
    (hroom : f.makeRoom size = some f') :
    f'.Valid ∧ f'.unconsumed = f.unconsumed ∧ f'.maxBufferSize = f.maxBufferSize := by
  have hkeep : f' = f ∨ f' = f.compact := by
    unfold makeRoom at hroom
    by_cases hoff : f.offset > 0
    · simp only [hoff, if_true] at hroom
      split at hroom
      · split at hroom
        · cases hroom
        · exact .inr (Option.some.inj hroom).symm
      · exact .inl (Option.some.inj hroom).symm
    · simp only [hoff, if_false] at hroom
      split at hroom
      · cases hroom
      · exact .inl (Option.some.inj hroom).symm
  rcases hkeep with rfl | rfl
  · exact ⟨h, rfl, rfl⟩
  · exact ⟨Valid.compact f, unconsumed_compact f, rfl⟩

theorem extractFrames_eq (session : Session) (h : f.Valid) : (f.extractFrames session).2.Valid
      ∧ (f.extractFrames session).2.maxBufferSize = f.maxBufferSize
      ∧ ((f.extractFrames session).1, (f.extractFrames session).2.unconsumed)
        = (session.scanner f.maxBufferSize).scan f.unconsumed := by
  obtain ⟨hframes, hle, hrest⟩ := loop_eq session (f.buffer.length + 1) f h
  have hfuel : (session.scanner f.maxBufferSize).scanFuel (f.buffer.length + 1) f.unconsumed
      = (session.scanner f.maxBufferSize).scan f.unconsumed := by
    apply scanFuel_eq (session.scanner_stable _)
    · rw [unconsumed, length_drop]
      omega
    · omega
  rw [hfuel] at hframes hrest
  simp only [extractFrames]
  split
  · exact ⟨Valid.compact _, rfl, Prod.ext hframes hrest⟩
  · exact ⟨hle, rfl, Prod.ext hframes hrest⟩

/-- One push without overflow is one scan of the unconsumed bytes and the new ones. -/
theorem pushData_ok {data : List UInt8} {f' : StreamFramer} {frames : List (List UInt8)}
    (h : f.Valid) (hpush : f.pushData session data = (.ok frames, f')) :
    f'.Valid ∧ f'.maxBufferSize = f.maxBufferSize ∧ (frames, f'.unconsumed)
        = (session.scanner f.maxBufferSize).scan (f.unconsumed ++ data) := by
  rcases hroom : f.makeRoom data.length with _ | g
  · simp [pushData, hroom] at hpush
  obtain ⟨hg, hsame, hmax⟩ := makeRoom_some h hroom
  have hin : g.offset ≤ g.buffer.length := hg
  have hvalid : Valid { g with buffer := g.buffer ++ data } := by
    show g.offset ≤ (g.buffer ++ data).length
    rw [length_append]
    omega
  have hbytes : unconsumed { g with buffer := g.buffer ++ data } = f.unconsumed ++ data := by
    rw [← hsame, unconsumed, unconsumed, drop_append_of_le_length hin]
  simp only [pushData, hroom] at hpush
  obtain ⟨hok, rfl⟩ := Prod.mk.inj hpush
  cases hok
  obtain ⟨hvalid', hmax', hscan⟩ := extractFrames_eq session hvalid
  rw [hbytes] at hscan
  rw [← hmax]
  exact ⟨hvalid', hmax', hscan⟩

/-! ## A stream in chunks -/

/-- Consecutive pushes: all frames in order, or the first error. -/
def pushAll (session : Session) : List (List UInt8) → StreamFramer →
    Except Error (List (List UInt8)) × StreamFramer
  | [], f => (.ok [], f)
  | data :: chunks, f =>
    match f.pushData session data with
    | (.error e, f') => (.error e, f')
    | (.ok frames, f') =>
      match pushAll session chunks f' with
      | (.error e, f'') => (.error e, f'')
      | (.ok more, f'') => (.ok (frames ++ more), f'')

theorem pushAll_ok (chunks : List (List UInt8)) :
    ∀ {f f' : StreamFramer} {frames : List (List UInt8)}, f.Valid →
      f.pushAll session chunks = (.ok frames, f') →
      (frames, f'.unconsumed) = (session.scanner f.maxBufferSize).feed f.unconsumed chunks := by
  induction chunks with
  | nil =>
    intro f f' frames _ hpush
    obtain ⟨hok, rfl⟩ := Prod.mk.inj hpush
    cases hok
    rfl
  | cons data chunks ih =>
    intro f f' frames h hpush
    rcases hfirst : f.pushData session data with ⟨_ | first, g⟩
    · simp [pushAll, hfirst] at hpush
    rcases hmore : g.pushAll session chunks with ⟨_ | more, g'⟩
    · simp [pushAll, hfirst, hmore] at hpush
    simp only [pushAll, hfirst, hmore] at hpush
    obtain ⟨hok, rfl⟩ := Prod.mk.inj hpush
    cases hok
    obtain ⟨hg, hmax, hscan⟩ := pushData_ok h hfirst
    have hfeed := ih hg hmore
    rw [hmax] at hfeed
    simp only [feed, ← hscan, ← hfeed]

theorem pushAll_fresh {max : Nat} {chunks frames : List (List UInt8)}
    (hpush : pushAll session chunks { maxBufferSize := max } = (.ok frames, f)) :
    (frames, f.unconsumed) = (session.scanner max).scan chunks.flatten := by
  have hstable := session.scanner_stable max
  rw [pushAll_ok chunks (Nat.zero_le _) hpush]
  exact feed_eq_scan hstable chunks [] (scan_nil hstable)

/-- Two ways of cutting a stream into chunks yield the same frames and leave the same bytes
unconsumed. -/
theorem pushAll_chunks (session : Session) (max : Nat)
    (chunks chunks' frames frames' : List (List UInt8)) (f f' : StreamFramer)
    (hstream : chunks.flatten = chunks'.flatten)
    (hpush : pushAll session chunks { maxBufferSize := max } = (.ok frames, f))
    (hpush' : pushAll session chunks' { maxBufferSize := max } = (.ok frames', f')) :
    frames = frames' ∧ f.unconsumed = f'.unconsumed := by
  have h := pushAll_fresh hpush
  rw [hstream, ← pushAll_fresh hpush'] at h
  exact Prod.mk.inj h

/-- A session whose frames start with `AA` and carry their length in the second byte. -/
def lengthByteSession : Session where
  syncPattern := [0xAA]
  minFrameHeaderSize := 2
  extractFrameLength header := (header.getD 1 0).toNat

/-- A stream cut inside the garbage, inside the header, and with an empty chunk. -/
theorem pushAll_chunks_cuts :
    pushAll lengthByteSession [[1, 0xAA], [3, 7, 0xAA]] { maxBufferSize := 16 }
        = (.ok [[0xAA, 3, 7]], ⟨[0xAA], 0, 16⟩)
      ∧ pushAll lengthByteSession [[1], [], [0xAA, 3, 7], [0xAA]] { maxBufferSize := 16 }
        = (.ok [[0xAA, 3, 7]], ⟨[0xAA], 0, 16⟩)
      ∧ ([[0xAA, 3, 7]] : List (List UInt8)) = [[0xAA, 3, 7]]
      ∧ unconsumed ⟨[0xAA], 0, 16⟩ = unconsumed ⟨[0xAA], 0, 16⟩ :=
  ⟨by decide, by decide,
    pushAll_chunks lengthByteSession 16 [[1, 0xAA], [3, 7, 0xAA]] [[1], [], [0xAA, 3, 7], [0xAA]]
      [[0xAA, 3, 7]] [[0xAA, 3, 7]] ⟨[0xAA], 0, 16⟩ ⟨[0xAA], 0, 16⟩ (by decide) (by decide)
      (by decide)⟩

end StreamFramer

/-! ## Delivery of well-formed frames

A stream of well-formed frames, after any garbage that does not contain the sync pattern, is
delivered frame by frame, however it is cut into chunks. -/

namespace Session

variable {session : Session} {max : Nat}

/-- A frame the session recognises: it starts with the sync pattern, has a whole header, fits the
buffer, and its header carries its length. -/
structure IsFrame (session : Session) (max : Nat) (frame : List UInt8) : Prop where
  starts : session.syncPattern <+: frame
  header_le : session.minFrameHeaderSize ≤ frame.length
  length_le : frame.length ≤ max
  extract_eq : session.extractFrameLength (frame.take session.minFrameHeaderSize) = frame.length

theorem decideHeader_frame {frame : List UInt8} (hmin : 1 ≤ session.minFrameHeaderSize)
    (h : session.IsFrame max frame) (later : List UInt8) :
    session.decideHeader max (frame ++ later) = .emit frame.length := by
  have hheader : session.minHeader = session.minFrameHeaderSize := by
    rw [minHeader, if_neg (by omega)]
  have hle := h.header_le
  have hmax := h.length_le
  simp only [decideHeader, hheader, take_append_of_le_length hle, h.extract_eq, length_append]
  rw [if_neg (by omega), if_neg (by omega), if_neg (by omega)]

theorem scan_frames (hmin : 1 ≤ session.minFrameHeaderSize) (frames : List (List UInt8))
    (h : ∀ frame ∈ frames, session.IsFrame max frame) :
    (session.scanner max).scan frames.flatten = (frames, []) := by
  have hstable := session.scanner_stable max
  induction frames with
  | nil => exact Scanner.scan_nil hstable
  | cons frame frames ih =>
    have hframe := h frame mem_cons_self
    have hnext : (session.scanner max).next (frame ++ frames.flatten)
        = (0, .emit frame.length) := by
      rw [next_of_starts max (hframe.starts.trans (prefix_append _ _)),
        decideHeader_frame hmin hframe]
    rw [flatten_cons, Scanner.scan_of_emit hstable hnext, Nat.zero_add, drop_left,
      ih fun other hother => h other (mem_cons_of_mem _ hother)]
    simp

theorem scan_garbage_frames (hmin : 1 ≤ session.minFrameHeaderSize) {garbage : List UInt8}
    {frames : List (List UInt8)} (h : ∀ frame ∈ frames, session.IsFrame max frame)
    (hne : session.syncPattern ≠ [])
    (hfirst : search session.syncPattern (garbage ++ frames.flatten) = some garbage.length) :
    (session.scanner max).scan (garbage ++ frames.flatten) = (frames, []) := by
  have hstable := session.scanner_stable max
  cases frames with
  | nil =>
    have hstarts := starts_of_search hfirst
    rw [flatten_nil, append_nil, drop_length, prefix_nil] at hstarts
    exact absurd hstarts hne
  | cons frame frames =>
    have hframe := h frame mem_cons_self
    have hnext : (session.scanner max).next (garbage ++ (frame :: frames).flatten)
        = (garbage.length, .emit frame.length) := by
      simp only [scanner, if_neg hne, hfirst, drop_left]
      rw [flatten_cons, decideHeader_frame hmin hframe]
    rw [Scanner.scan_of_emit hstable hnext, ← drop_drop, drop_left, flatten_cons,
      drop_left, scan_frames hmin frames fun other hother => h other (mem_cons_of_mem _ hother)]
    simp

end Session

namespace StreamFramer

/-- However the stream is cut into chunks, exactly the frames are delivered and nothing is left
over. -/
theorem pushAll_frames (session : Session) (max : Nat) (garbage : List UInt8)
    (frames chunks delivered : List (List UInt8)) (f : StreamFramer)
    (hmin : 1 ≤ session.minFrameHeaderSize)
    (hframes : ∀ frame ∈ frames, session.IsFrame max frame)
    (hstart : (session.syncPattern ≠ []
        ∧ search session.syncPattern (garbage ++ frames.flatten) = some garbage.length)
      ∨ (session.syncPattern = [] ∧ garbage = []))
    (hstream : chunks.flatten = garbage ++ frames.flatten)
    (hpush : pushAll session chunks { maxBufferSize := max } = (.ok delivered, f)) :
    delivered = frames ∧ f.unconsumed = [] := by
  have hscan := pushAll_fresh hpush
  rw [hstream] at hscan
  rcases hstart with ⟨hne, hfirst⟩ | ⟨_, rfl⟩
  · rw [Session.scan_garbage_frames hmin hframes hne hfirst] at hscan
    exact Prod.mk.inj hscan
  · rw [nil_append, Session.scan_frames hmin frames hframes] at hscan
    exact Prod.mk.inj hscan

/-- Two frames after a byte of garbage, in three chunks. -/
theorem pushAll_frames_two :
    pushAll lengthByteSession [[1, 0xAA], [3, 7, 0xAA], [2]] { maxBufferSize := 16 }
        = (.ok [[0xAA, 3, 7], [0xAA, 2]], ⟨[], 0, 16⟩)
      ∧ ([[0xAA, 3, 7], [0xAA, 2]] : List (List UInt8)) = [[0xAA, 3, 7], [0xAA, 2]]
      ∧ unconsumed ⟨[], 0, 16⟩ = [] := by
  refine ⟨by decide, pushAll_frames lengthByteSession 16 [1] [[0xAA, 3, 7], [0xAA, 2]]
    [[1, 0xAA], [3, 7, 0xAA], [2]] [[0xAA, 3, 7], [0xAA, 2]] ⟨[], 0, 16⟩ (by decide) ?_ (by decide)
    (by decide) (by decide)⟩
  intro frame hframe
  simp only [mem_cons, not_mem_nil, or_false] at hframe
  rcases hframe with rfl | rfl <;> exact ⟨by decide, by decide, by decide, by decide⟩

/-- A session that reports a header size of zero and the length of a frame for an empty header. -/
def emptyHeaderSession : Session where
  syncPattern := [0xAA]
  minFrameHeaderSize := 0
  extractFrameLength header := if header = [] then 3 else 0

/-- A header size of zero is taken as one, so the session is asked about another header than the
one it describes. -/
theorem pushAll_frames_fails : Session.IsFrame emptyHeaderSession 16 [0xAA, 3, 7]
      ∧ search emptyHeaderSession.syncPattern [0xAA, 3, 7] = some 0
      ∧ (pushAll emptyHeaderSession [[0xAA, 3, 7]] { maxBufferSize := 16 }).1 = .ok [] := by
  refine ⟨⟨by decide, by decide, by decide, by decide⟩, by decide, by decide⟩

end StreamFramer

end Conduit.Transceiver

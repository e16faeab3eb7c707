import Mathlib.Data.List.Basic

/-!
# Incremental scanners

A scanner looks at the items that have arrived and not been consumed. It drops some of them and
then waits for more, skips some, or emits the next ones as a frame. `Scanner.scan` repeats this
until the scanner waits. When the decisions of a scanner do not depend on what arrives later
(`Scanner.Stable`), a stream may be scanned in pieces: what the pieces yield depends only on their
concatenation.
-/

namespace Conduit.Stream

open List

/-- What a scanner does after dropping some items. -/
inductive Action where
  | wait
  | skip (n : Nat)
  | emit (n : Nat)

/-- The next decision: how many items to drop, and what to do then. -/
structure Scanner (α : Type) where
  next : List α → Nat × Action

/-- The stream is made of discarded pieces and frames, in this order, and of the items that are left
over. -/
inductive Cuts {α : Type} : List α → List (List α) → List α → Prop where
  | rest (items : List α) : Cuts items [] items
  | discard (piece : List α) {stream rest : List α} {frames : List (List α)}
      (h : Cuts stream frames rest) : Cuts (piece ++ stream) frames rest
  | frame (frame : List α) {stream rest : List α} {frames : List (List α)}
      (h : Cuts stream frames rest) : Cuts (frame ++ stream) (frame :: frames) rest

theorem Cuts.append {α : Type} {stream rest more rest' : List α} {frames frames' : List (List α)}
    (h : Cuts stream frames rest) (h' : Cuts (rest ++ more) frames' rest') :
    Cuts (stream ++ more) (frames ++ frames') rest' := by
  induction h with
  | rest items => exact h'
  | discard piece _ ih =>
    rw [append_assoc]
    exact (ih h').discard piece
  | frame frame _ ih =>
    rw [append_assoc]
    exact (ih h').frame frame

namespace Scanner

variable {α : Type} (s : Scanner α)

/-- Decisions until the scanner waits, at most `fuel` of them: the emitted frames and the items
left over. -/
def scanFuel : Nat → List α → List (List α) × List α
  | 0, items => ([], items)
  | fuel + 1, items =>
    match s.next items with
    | (d, .wait) => ([], items.drop d)
    | (d, .skip n) => scanFuel fuel (items.drop (d + n))
    | (d, .emit n) =>
      let (frames, rest) := scanFuel fuel (items.drop (d + n))
      ((items.drop d).take n :: frames, rest)

/-- Decisions until the scanner waits. -/
def scan (items : List α) : List (List α) × List α := s.scanFuel (items.length + 1) items

/-- The scanner makes progress, and its decisions stand whatever arrives later. -/
structure Stable : Prop where
  skip_le : ∀ items d n, s.next items = (d, .skip n) → 0 < n ∧ d + n ≤ items.length
  emit_le : ∀ items d n, s.next items = (d, .emit n) → 0 < n ∧ d + n ≤ items.length
  wait_le : ∀ items d, s.next items = (d, .wait) → d ≤ items.length
  skip_append : ∀ items later d n, s.next items = (d, .skip n) →
    s.next (items ++ later) = (d, .skip n)
  emit_append : ∀ items later d n, s.next items = (d, .emit n) →
    s.next (items ++ later) = (d, .emit n)
  wait_append : ∀ items later d, s.next items = (d, .wait) → s.next (items ++ later)
      = (d + (s.next (items.drop d ++ later)).1, (s.next (items.drop d ++ later)).2)

/-- A stream in pieces: every piece is scanned after what the earlier ones left over. -/
def feed : List α → List (List α) → List (List α) × List α
  | rest, [] => ([], rest)
  | rest, piece :: pieces =>
    let (frames, rest') := s.scan (rest ++ piece)
    let (more, rest'') := feed rest' pieces
    (frames ++ more, rest'')

variable {s} {items : List α} {d : Nat}

theorem scanFuel_eq (hs : s.Stable) (fuel : Nat) :
    ∀ (fuel' : Nat) (items : List α), items.length < fuel → items.length < fuel' →
      s.scanFuel fuel items = s.scanFuel fuel' items := by
  induction fuel with
  | zero => intro _ _ h _; omega
  | succ fuel ih =>
    intro fuel' items hfuel hfuel'
    obtain ⟨fuel', rfl⟩ : ∃ k, fuel' = k + 1 := ⟨fuel' - 1, by omega⟩
    rcases hnext : s.next items with ⟨d, action⟩
    cases action with
    | wait => simp only [scanFuel, hnext]
    | skip n =>
      obtain ⟨hn, hle⟩ := hs.skip_le items d n hnext
      simp only [scanFuel, hnext]
      apply ih <;> (rw [length_drop]; omega)
    | emit n =>
      obtain ⟨hn, hle⟩ := hs.emit_le items d n hnext
      simp only [scanFuel, hnext]
      rw [ih fuel' (items.drop (d + n))] <;> (rw [length_drop]; omega)

theorem scanFuel_drop (hs : s.Stable) {k : Nat} (hk : 0 < k) (hle : k ≤ items.length) :
    s.scanFuel items.length (items.drop k) = s.scan (items.drop k) := by
  apply scanFuel_eq hs <;> (rw [length_drop]; omega)

theorem scan_of_wait (h : s.next items = (d, .wait)) : s.scan items = ([], items.drop d) := by
  simp only [scan, scanFuel, h]

variable (hs : s.Stable)

include hs

theorem scan_of_skip {n : Nat} (h : s.next items = (d, .skip n)) :
    s.scan items = s.scan (items.drop (d + n)) := by
  obtain ⟨hn, hle⟩ := hs.skip_le items d n h
  rw [← scanFuel_drop hs (by omega) hle]
  simp only [scan, scanFuel, h]

theorem scan_of_emit {n : Nat} (h : s.next items = (d, .emit n)) :
    s.scan items = ((items.drop d).take n :: (s.scan (items.drop (d + n))).1,
      (s.scan (items.drop (d + n))).2) := by
  obtain ⟨hn, hle⟩ := hs.emit_le items d n h
  rw [← scanFuel_drop hs (by omega) hle]
  simp only [scan, scanFuel, h]

theorem scan_of_wait_append {later : List α} (h : s.next items = (d, .wait)) :
    s.scan (items ++ later) = s.scan (items.drop d ++ later) := by
  have hle := hs.wait_le items d h
  have hnext := hs.wait_append items later d h
  have hdrop : ∀ k, (items ++ later).drop (d + k) = (items.drop d ++ later).drop k := by
    intro k
    rw [← drop_drop, drop_append_of_le_length hle]
  rcases hrest : s.next (items.drop d ++ later) with ⟨d', action⟩
  rw [hrest] at hnext
  cases action with
  | wait => rw [scan_of_wait hnext, scan_of_wait hrest, hdrop]
  | skip n => rw [scan_of_skip hs hnext, scan_of_skip hs hrest, Nat.add_assoc, hdrop]
  | emit n => rw [scan_of_emit hs hnext, scan_of_emit hs hrest, Nat.add_assoc, hdrop, hdrop]

/-- Scanning a stream is scanning a beginning of it and then what was left over with the rest. -/
theorem scan_append (items later : List α) : s.scan (items ++ later)
      = ((s.scan items).1 ++ (s.scan ((s.scan items).2 ++ later)).1,
        (s.scan ((s.scan items).2 ++ later)).2) := by
  -- by induction on the number of items, following the decisions on the beginning
  induction hlen : items.length using Nat.strongRecOn generalizing items with
  | _ len ih =>
    subst hlen
    rcases hnext : s.next items with ⟨d, action⟩
    cases action with
    | wait =>
      rw [scan_of_wait hnext, scan_of_wait_append hs hnext]
      rfl
    | skip n =>
      obtain ⟨hn, hle⟩ := hs.skip_le items d n hnext
      rw [scan_of_skip hs hnext, scan_of_skip hs (hs.skip_append items later d n hnext),
        drop_append_of_le_length hle]
      exact ih _ (by rw [length_drop]; omega) _ rfl
    | emit n =>
      obtain ⟨hn, hle⟩ := hs.emit_le items d n hnext
      rw [scan_of_emit hs hnext, scan_of_emit hs (hs.emit_append items later d n hnext),
        drop_append_of_le_length hle, drop_append_of_le_length (by omega : d ≤ _),
        take_append_of_le_length (by rw [length_drop]; omega),
        ih _ (by rw [length_drop]; omega) (items.drop (d + n)) rfl]
      rfl

theorem scan_nil : s.scan [] = ([], []) := by
  rcases hnext : s.next [] with ⟨d, action⟩
  cases action with
  | wait => rw [scan_of_wait hnext, drop_nil]
  | skip n =>
    have := hs.skip_le [] d n hnext
    simp only [length_nil] at this
    omega
  | emit n =>
    have := hs.emit_le [] d n hnext
    simp only [length_nil] at this
    omega

theorem scan_rest (items : List α) : s.scan (s.scan items).2 = ([], (s.scan items).2) := by
  have h := scan_append hs items []
  rw [append_nil, append_nil, Prod.ext_iff] at h
  obtain ⟨hframes, hrest⟩ := h
  have hnil : (s.scan (s.scan items).2).1 = [] := by
    have := congrArg length hframes
    rw [length_append] at this
    exact eq_nil_of_length_eq_zero (by simpa using this)
  exact Prod.ext hnil hrest.symm

/-- What a stream in pieces yields depends only on its concatenation. -/
theorem feed_eq_scan (pieces : List (List α)) :
    ∀ rest, s.scan rest = ([], rest) → s.feed rest pieces = s.scan (rest ++ pieces.flatten) := by
  induction pieces with
  | nil =>
    intro rest hrest
    rw [feed, flatten_nil, append_nil, hrest]
  | cons piece pieces ih =>
    intro rest _
    rw [flatten_cons, ← append_assoc, scan_append hs (rest ++ piece)]
    simp only [feed, ih _ (scan_rest hs (rest ++ piece))]

end Scanner

end Conduit.Stream

import Conduit.Transceiver.Send

/-!
# The order of stamped frames

A frame gets its number in the first critical section of a send and reaches the transport in the
second. As long as nobody encodes and nobody resets the session between the two, the frames reach
the transport in the order of their numbers. As soon as somebody does, they need not.
-/

namespace Conduit.Transceiver

open Sync List

variable {Q M : Type} {session : SendSession Q M} {bits : Nat}

/-! ## The numbers -/

variable {frame : OutboundFrame}

theorem storageBits_ge {bits m : Nat} (h : bits ≤ 64) (hm : bits ≤ m) : bits ≤ storageBits m := by
  unfold storageBits
  by_cases h8 : m ≤ 8
  · rw [if_pos h8]
    omega
  by_cases h16 : m ≤ 16
  · rw [if_neg h8, if_pos h16]
    omega
  by_cases h32 : m ≤ 32
  · rw [if_neg h8, if_neg h16, if_pos h32]
    omega
  · rw [if_neg h8, if_neg h16, if_neg h32]
    exact h

theorem SendSession.Stamps.le_counterBits (h : session.Stamps bits) (hbits : bits ≤ 64)
    {leaf : LeafTypeInfo} (hleaf : leaf ∈ session.leafTypes) :
    bits ≤ counterBits session.leafTypes := by
  apply storageBits_ge hbits
  rw [foldl_max]
  refine Nat.le_trans (le_max?_getD_of_mem ?_) (Nat.le_max_right ..)
  rw [mem_flatMap]
  exact ⟨leaf, hleaf, by rw [h leaf hleaf]; exact mem_singleton_self bits⟩

theorem stamp_one {width n : Nat} (hbits : bits ≤ 64) (hwidth : bits ≤ width) :
    stamp width [bits] (n % 2 ^ width) = ([n % 2 ^ bits], (n + 1) % 2 ^ width) := by
  have hmask : fieldMask bits = 2 ^ bits - 1 := by
    unfold fieldMask
    split
    next hge => rw [Nat.le_antisymm hbits hge]
    next => rfl
  have hsmall : n % 2 ^ bits < 2 ^ storageBits bits :=
    (Nat.mod_lt _ (Nat.two_pow_pos bits)).trans_le
      (Nat.pow_le_pow_right (by decide) (storageBits_ge hbits (Nat.le_refl bits)))
  simp only [stamp, hmask, Nat.and_two_pow_sub_one_eq_mod,
    Nat.mod_mod_of_dvd n (Nat.pow_dvd_pow 2 hwidth), Nat.mod_eq_of_lt hsmall, Nat.mod_add_mod]

theorem SendSession.Stamps.encodeWrap (h : session.Stamps bits) (hbits : bits ≤ 64) {n : Nat}
    {typeId : UInt64} {payload : Q} {counter : Nat}
    (hencode : session.encodeWrap typeId payload (n % 2 ^ counterBits session.leafTypes)
      = (.ok frame, counter)) :
    frame.stamps = [n % 2 ^ bits] ∧ counter = (n + 1) % 2 ^ counterBits session.leafTypes
      ∧ ∀ m, m % 2 ^ bits = n % 2 ^ bits →
        session.encodeWrap typeId payload (m % 2 ^ counterBits session.leafTypes)
          = (.ok frame, (m + 1) % 2 ^ counterBits session.leafTypes) := by
  unfold SendSession.encodeWrap at hencode ⊢
  rcases hfind : session.leafTypes.find? (·.typeId = typeId) with _ | leaf
  · simp [hfind] at hencode
  have hmem := mem_of_find?_eq_some hfind
  have hwidth := h.le_counterBits hbits hmem
  rcases hcast : session.cast typeId payload with e | message
  · simp [hfind, hcast] at hencode
  simp only [hfind, hcast, h leaf hmem, stamp_one hbits hwidth] at hencode ⊢
  rcases hbytes : session.encodeBytes typeId message [n % 2 ^ bits] with e | bytes
  · simp [hbytes] at hencode
  simp only [hbytes, Prod.mk.injEq, Except.ok.injEq] at hencode
  obtain ⟨rfl, rfl⟩ := hencode
  refine ⟨rfl, rfl, ?_⟩
  intro m hm
  simp only [hm, hbytes]

/-! ## Runs -/

/-- A send that reaches its end. -/
def SendLabel.succeeds : SendLabel Q → Bool
  | .refuse _ | .lose _ => false
  | _ => true

/-- The frames handed to the transport since the last reset. -/
def handedOver (labels : List (SendLabel Q)) : List OutboundFrame :=
  labels.foldl (fun frames label =>
    match label with
    | .send _ frame => frames ++ [frame]
    | .reset => []
    | _ => frames) []

/-- The frame at place `n` carries the number `n`. -/
def Numbered (bits : Nat) (frames : List OutboundFrame) : Prop :=
  ∀ n frame, frames[n]? = some frame → frame.stamps = [n % 2 ^ bits]

theorem handedOver_send (labels : List (SendLabel Q)) (i : Nat) (frame : OutboundFrame) :
    handedOver (labels ++ [.send i frame]) = handedOver labels ++ [frame] := by
  simp [handedOver]

theorem handedOver_reset (labels : List (SendLabel Q)) : handedOver (labels ++ [.reset]) = [] := by
  simp [handedOver]

theorem handedOver_encode (labels : List (SendLabel Q)) (i : Nat) (typeId : UInt64) (payload : Q) :
    handedOver (labels ++ [.encode i typeId payload]) = handedOver labels := by
  simp [handedOver]

theorem Numbered.snoc {frames : List OutboundFrame} (h : Numbered bits frames)
    (hframe : frame.stamps = [frames.length % 2 ^ bits]) : Numbered bits (frames ++ [frame]) := by
  intro n f hf
  rcases Nat.lt_trichotomy n frames.length with hlt | heq | hgt
  · rw [getElem?_append_left hlt] at hf
    exact h n f hf
  · subst heq
    rw [getElem?_concat_length] at hf
    rw [← Option.some.inj hf]
    exact hframe
  · rw [getElem?_eq_none (by simp; omega)] at hf
    cases hf

theorem not_numbered_snoc {frames : List OutboundFrame} {m : Nat}
    (hframe : frame.stamps = [m % 2 ^ bits]) (hne : m % 2 ^ bits ≠ frames.length % 2 ^ bits) :
    ¬Numbered bits (frames ++ [frame]) := by
  intro h
  have hlast := h frames.length frame getElem?_concat_length
  rw [hframe] at hlast
  exact hne (head_eq_of_cons_eq hlast)

theorem succ_mod_ne (hpos : 0 < bits) (n : Nat) : (n + 1) % 2 ^ bits ≠ n % 2 ^ bits := by
  intro h
  have htwo : 2 ∣ 2 ^ bits := dvd_pow_self 2 (by omega)
  have hpar := congrArg (· % 2) h
  simp only [Nat.mod_mod_of_dvd _ htwo] at hpar
  omega

namespace Sender

variable {s : Sender} {i : Nat} {labels : List (SendLabel Q)}

/-- No thread is between its two critical sections. -/
def Settled (s : Sender) : Prop := ∀ t ∈ s.threads, t = .idle

instance : DecidablePred Settled := fun s => inferInstanceAs (Decidable (∀ t ∈ s.threads, t = .idle))

/-- Nobody encodes or resets between the two critical sections of a send. -/
def Exclusive (s : Sender) : SendLabel Q → Prop
  | .encode .. | .reset => s.Settled
  | _ => True

def ExclusiveStep (session : SendSession Q M) (s : Sender) (label : SendLabel Q) (s' : Sender) :
    Prop :=
  s.Exclusive label ∧ Step session s label s'

/-- One thread has a frame, which is the next one to be handed over. -/
structure Holds (session : SendSession Q M) (bits n : Nat) (s : Sender) (i : Nat)
    (frame : OutboundFrame) : Prop where
  thread : s.threads[i]? = some (.encoded frame)
  others : ∀ j t, j ≠ i → s.threads[j]? = some t → t = .idle
  stamps : frame.stamps = [n % 2 ^ bits]
  counter : s.counter = (n + 1) % 2 ^ counterBits session.leafTypes
  source : ∃ typeId payload, session.receiveOnly typeId = false ∧ ∀ m, m % 2 ^ bits = n % 2 ^ bits →
      session.encodeWrap typeId payload (m % 2 ^ counterBits session.leafTypes)
        = (.ok frame, (m + 1) % 2 ^ counterBits session.leafTypes)

/-- What holds between the steps of an exclusive run. -/
structure Tidy (session : SendSession Q M) (bits : Nat) (labels : List (SendLabel Q))
    (s : Sender) : Prop where
  numbered : Numbered bits (handedOver labels)
  place : (s.Settled ∧ s.counter = (handedOver labels).length % 2 ^ counterBits session.leafTypes)
    ∨ ∃ i frame, Holds session bits (handedOver labels).length s i frame

theorem settled_set_idle (hothers : ∀ j t, j ≠ i → s.threads[j]? = some t → t = .idle) :
    Settled { s with threads := s.threads.set i .idle } := by
  intro t ht
  obtain ⟨j, hj⟩ := mem_iff_getElem?.mp ht
  by_cases hji : j = i
  · subst hji
    rw [getElem?_set_self'] at hj
    cases hold : s.threads[j]? with
    | none => simp [hold] at hj
    | some u => simpa [hold] using hj.symm
  · rw [getElem?_set_ne (Ne.symm hji)] at hj
    exact hothers j t hji hj

theorem Settled.encode (hstamps : session.Stamps bits) (hbits : bits ≤ 64) {n : Nat}
    {typeId : UInt64} {payload : Q} {frame : OutboundFrame} {counter : Nat} (h : s.Settled)
    (hcounter : s.counter = n % 2 ^ counterBits session.leafTypes) (hi : s.threads[i]? = some .idle)
    (hsend : session.receiveOnly typeId = false)
    (hencode : session.encodeWrap typeId payload s.counter = (.ok frame, counter)) :
    Holds session bits n ⟨counter, s.threads.set i (.encoded frame)⟩ i frame := by
  rw [hcounter] at hencode
  obtain ⟨hframe, hnext, hagain⟩ := hstamps.encodeWrap hbits hencode
  refine ⟨?_, ?_, hframe, hnext, typeId, payload, hsend, hagain⟩
  · exact getElem?_set_self (List.getElem?_eq_some_iff.mp hi).1
  intro j t hj ht
  rw [getElem?_set_ne (Ne.symm hj)] at ht
  exact h t (mem_of_getElem? ht)

theorem Tidy.step (hstamps : session.Stamps bits) (hbits : bits ≤ 64) {label : SendLabel Q}
    {s' : Sender} (h : Tidy session bits labels s) (hok : label.succeeds = true)
    (hstep : ExclusiveStep session s label s') : Tidy session bits (labels ++ [label]) s' := by
  obtain ⟨hexclusive, hstep⟩ := hstep
  cases hstep with
  | encode i typeId payload frame counter hi hsend hencode =>
    have hsettled : s.Settled := hexclusive
    rcases h.place with ⟨-, hcounter⟩ | ⟨k, f, hholds⟩
    · refine ⟨?_, .inr ⟨i, frame, ?_⟩⟩
      · rw [handedOver_encode]
        exact h.numbered
      · rw [handedOver_encode]
        exact hsettled.encode hstamps hbits hcounter hi hsend hencode
    · cases hsettled _ (mem_of_getElem? hholds.thread)
  | receiveOnly i typeId _ _ => cases hok
  | encodeFails i typeId payload e counter _ _ _ => cases hok
  | send i frame hi =>
    rcases h.place with ⟨hsettled, -⟩ | ⟨k, f, hholds⟩
    · cases hsettled _ (mem_of_getElem? hi)
    obtain rfl : i = k := by
      by_contra hne
      cases hholds.others i _ hne hi
    obtain rfl : frame = f := by
      have hsame := hi.symm.trans hholds.thread
      cases hsame
      rfl
    refine ⟨?_, .inl ⟨settled_set_idle hholds.others, ?_⟩⟩
    · rw [handedOver_send]
      exact h.numbered.snoc hholds.stamps
    · rw [handedOver_send, length_append]
      exact hholds.counter
  | lose i frame _ => cases hok
  | reset =>
    refine ⟨?_, .inl ⟨hexclusive, ?_⟩⟩
    · rw [handedOver_reset]
      intro n frame hframe
      cases hframe
    · rw [handedOver_reset]
      rfl

theorem tidy_start (session : SendSession Q M) (bits threads : Nat) :
    Tidy session bits [] (start threads) := by
  refine ⟨?_, .inl ⟨?_, (Nat.zero_mod _).symm⟩⟩
  · intro n frame hframe
    cases hframe
  · intro t ht
    exact eq_of_mem_replicate ht

theorem tidy_of_trace (hstamps : session.Stamps bits) (hbits : bits ≤ 64) {threads : Nat}
    (h : Trace (ExclusiveStep session) (start threads) labels s)
    (hok : ∀ label ∈ labels, label.succeeds = true) : Tidy session bits labels s := by
  refine h.invariant (fun labels s => (∀ label ∈ labels, label.succeeds = true) →
    Tidy session bits labels s) (fun _ => tidy_start session bits threads) ?_ hok
  intro labels label s s' ih hstep hall
  have hbefore := ih fun l hl => hall l (mem_append_left _ hl)
  exact hbefore.step hstamps hbits (hall label (by simp)) hstep

/-! ## What goes wrong otherwise -/

/-- Somebody encodes while a frame is on its way, and is the first to reach the transport. -/
theorem Holds.overtaken (hstamps : session.Stamps bits) (hpos : 0 < bits) (hbits : bits ≤ 64)
    {k : Nat} {f frame : OutboundFrame} {typeId : UInt64} {payload : Q} {counter : Nat}
    (h : Holds session bits (handedOver labels).length s k f) (hi : s.threads[i]? = some .idle)
    (hencode : session.encodeWrap typeId payload s.counter = (.ok frame, counter)) :
    ∃ more s', Trace (Step session) ⟨counter, s.threads.set i (.encoded frame)⟩ more s'
      ∧ (∀ label ∈ more, label.succeeds = true)
      ∧ ¬Numbered bits (handedOver (labels ++ [.encode i typeId payload] ++ more)) := by
  rw [h.counter] at hencode
  obtain ⟨hframe, -, -⟩ := hstamps.encodeWrap hbits hencode
  have hown : (s.threads.set i (.encoded frame))[i]? = some (.encoded frame) :=
    getElem?_set_self (List.getElem?_eq_some_iff.mp hi).1
  refine ⟨[.send i frame], _, Trace.nil.snoc [] _ _ _ (.send _ i frame hown), ?_, ?_⟩
  · intro label hlabel
    obtain rfl := mem_singleton.mp hlabel
    rfl
  · rw [handedOver_send, handedOver_encode]
    exact not_numbered_snoc hframe (succ_mod_ne hpos _)

theorem Holds.stale (hpos : 0 < bits) {k : Nat} {f : OutboundFrame}
    (h : Holds session bits (handedOver labels).length s k f) :
    ∃ more s', Trace (Step session) { s with counter := 0 } more s'
      ∧ (∀ label ∈ more, label.succeeds = true)
      ∧ ¬Numbered bits (handedOver (labels ++ [.reset] ++ more)) := by
  have hk : k < s.threads.length := (List.getElem?_eq_some_iff.mp h.thread).1
  have hfirst : Trace (Step session) { s with counter := 0 } [.send k f] _ :=
    Trace.nil.snoc [] _ _ _ (.send _ k f h.thread)
  by_cases hzero : (handedOver labels).length % 2 ^ bits = 0
  · -- the number fits by chance, and the first frame with a new number repeats it
    obtain ⟨typeId, payload, hsend, hagain⟩ := h.source
    have hencode := hagain 0 (by rw [hzero, Nat.zero_mod])
    have hidle : (s.threads.set k .idle)[k]? = some .idle := getElem?_set_self hk
    have hown : ((s.threads.set k .idle).set k (.encoded f))[k]? = some (.encoded f) :=
      getElem?_set_self (by rwa [length_set])
    have hsecond := hfirst.snoc _ _ _ _ (.encode _ k typeId payload f _ hidle hsend hencode)
    have hthird := hsecond.snoc _ _ _ _ (.send _ k f hown)
    refine ⟨_, _, hthird, ?_, ?_⟩
    · intro label hlabel
      simp only [cons_append, nil_append, mem_cons, not_mem_nil, or_false] at hlabel
      rcases hlabel with rfl | rfl | rfl
      · rfl
      · rfl
      · rfl
    · rw [← append_assoc, ← append_assoc, handedOver_send, handedOver_encode,
        handedOver_send, handedOver_reset]
      apply not_numbered_snoc h.stamps
      rw [hzero]
      have hone := succ_mod_ne hpos 0
      exact hone.symm
  · refine ⟨_, _, hfirst, ?_, ?_⟩
    · intro label hlabel
      obtain rfl := mem_singleton.mp hlabel
      rfl
    · rw [handedOver_send, handedOver_reset]
      apply not_numbered_snoc h.stamps
      exact hzero

/-- In a run in which nobody encodes or resets between the two critical sections of a send, the
frames reach the transport in the order of their numbers. The first step that does so leads to a
state from which they can reach it in another order. -/
theorem frames_numbered (hstamps : session.Stamps bits) (hpos : 0 < bits) (hbits : bits ≤ 64)
    {threads : Nat} {labels : List (SendLabel Q)} {s : Sender}
    (h : Trace (ExclusiveStep session) (start threads) labels s)
    (hok : ∀ label ∈ labels, label.succeeds = true) :
    Numbered bits (handedOver labels)
      ∧ ∀ label s', Step session s label s' → label.succeeds = true → ¬s.Exclusive label →
        ∃ more s'', Trace (Step session) s' more s'' ∧ (∀ l ∈ more, l.succeeds = true)
          ∧ ¬Numbered bits (handedOver (labels ++ [label] ++ more)) := by
  have htidy := tidy_of_trace hstamps hbits h hok
  refine ⟨htidy.numbered, ?_⟩
  intro label s' hstep hsucceeds hnot
  rcases htidy.place with ⟨hsettled, -⟩ | ⟨k, f, hholds⟩
  · exfalso
    cases label with
    | encode | reset => exact hnot hsettled
    | refuse | send | lose => exact hnot trivial
  cases hstep with
  | encode i typeId payload frame counter hi _ hencode =>
    exact hholds.overtaken hstamps hpos hbits hi hencode
  | receiveOnly | encodeFails | lose => cases hsucceeds
  | send => exact absurd trivial hnot
  | reset => exact hholds.stale hpos

/-! ### Two senders -/

/-- One message type with an increment field of one byte. -/
def oneByte : SendSession Unit Unit where
  leafTypes := [⟨1, [8]⟩]
  receiveOnly _ := false
  cast _ _ := .ok ()
  encodeBytes _ _ stamps := .ok (stamps.map UInt8.ofNat)

theorem frames_numbered_twice : ∃ labels s, Trace (ExclusiveStep oneByte) (start 2) labels s
      ∧ handedOver labels = [⟨[0], [0]⟩, ⟨[1], [1]⟩] ∧ Numbered 8 (handedOver labels) := by
  have hstart : Trace (ExclusiveStep oneByte) (start 2) [] (start 2) := .nil
  have hrun := hstart.snoc _ _ _ ⟨1, [.encoded ⟨[0], [0]⟩, .idle]⟩
      ⟨by show Settled _; decide, .encode _ 0 1 () _ _ rfl rfl rfl⟩
    |>.snoc _ _ _ ⟨1, [.idle, .idle]⟩ ⟨by exact trivial, .send _ 0 ⟨[0], [0]⟩ rfl⟩
    |>.snoc _ _ _ ⟨2, [.idle, .encoded ⟨[1], [1]⟩]⟩
      ⟨by show Settled _; decide, .encode _ 1 1 () _ _ rfl rfl rfl⟩
    |>.snoc _ _ _ ⟨2, [.idle, .idle]⟩ ⟨by exact trivial, .send _ 1 ⟨[1], [1]⟩ rfl⟩
  have hstamps : oneByte.Stamps 8 := by
    intro leaf hleaf
    obtain rfl := mem_singleton.mp hleaf
    rfl
  exact ⟨_, _, hrun, rfl,
    (frames_numbered hstamps (by decide) (by decide) hrun (by simp [SendLabel.succeeds])).1⟩

/-- The second sender overtakes the first between its two critical sections. -/
theorem frames_overtaken : ∃ labels s, Trace (Step oneByte) (start 2) labels s
      ∧ (∀ label ∈ labels, label.succeeds = true)
      ∧ handedOver labels = [⟨[1], [1]⟩, ⟨[0], [0]⟩] ∧ ¬Numbered 8 (handedOver labels) := by
  have hstart : Trace (Step oneByte) (start 2) [] (start 2) := .nil
  have hrun := hstart.snoc _ _ _ ⟨1, [.encoded ⟨[0], [0]⟩, .idle]⟩
      (.encode _ 0 1 () _ _ rfl rfl rfl)
    |>.snoc _ _ _ ⟨2, [.encoded ⟨[0], [0]⟩, .encoded ⟨[1], [1]⟩]⟩ (.encode _ 1 1 () _ _ rfl rfl rfl)
    |>.snoc _ _ _ ⟨2, [.encoded ⟨[0], [0]⟩, .idle]⟩ (.send _ 1 ⟨[1], [1]⟩ rfl)
    |>.snoc _ _ _ ⟨2, [.idle, .idle]⟩ (.send _ 0 ⟨[0], [0]⟩ rfl)
  refine ⟨_, _, hrun, by simp [SendLabel.succeeds], rfl, ?_⟩
  intro h
  have hfirst := h 0 ⟨[1], [1]⟩ rfl
  exact absurd hfirst (by decide)

end Sender

end Conduit.Transceiver

import Conduit.Ports.CppReads
import Conduit.Ports.JavaReads

/-!
# The readers of the three backends

The Python reader answers every call from the bits at its position. The C++ reader rejects some
calls that it answers and moves to a byte boundary before a word, and positions in Java are of type
`int`. The readers agree on calls that stay clear of these differences, and the first call that does
not sets them apart, at the latest at the call after it.
-/

namespace Conduit.Ports

open Bits Io JavaReader

namespace ReaderCall

/-- All three readers give what is expected of the call. -/
def Agreed (data : List UInt8) (p : Nat) (c : ReaderCall) : Prop :=
  c.Accepted data p ∧ c.InRange data p

/-- The readers agree on every call of a sequence, up to the first error. -/
def AllAgreed (data : List UInt8) : Nat → List ReaderCall → Prop
  | _, [] => True
  | p, c :: calls =>
    c.Agreed data p ∧ ∀ v q, c.expected data p = some (v, q) → AllAgreed data q calls

theorem expected_le {data : List UInt8} {p q : Nat} {c : ReaderCall} {v : Value}
    (hp : p ≤ 8 * data.length) (h : c.expected data p = some (v, q)) : q ≤ 8 * data.length := by
  have hbits : ∀ {n : Nat} {f : Nat → Value}, onBits data p n f = some (v, q) →
      q ≤ 8 * data.length := by
    intro n f hsome
    unfold onBits at hsome
    split at hsome
    next hroom =>
      cases hsome
      exact hroom
    next => cases hsome
  cases c with
  | alignTo k =>
    simp only [expected, Option.some.injEq, Prod.mk.injEq] at h
    rw [← h.2]
    split <;> omega
  | _ =>
    rw [expected] at h
    exact hbits h

section
variable {σ : Type} {step : ReaderCall → PortM σ Value} {state : Nat → σ} {data : List UInt8}
  {p : Nat} {c : ReaderCall}

theorem outcomes_none {calls : List ReaderCall} {r : σ} (h : step c r = none) :
    outcomes step (c :: calls) r = [none] := by
  rw [outcomes, h]

theorem outcomes_some {calls : List ReaderCall} {r r' : σ} {v : Value}
    (h : step c r = some (v, r')) :
    outcomes step (c :: calls) r = some v :: outcomes step calls r' := by
  rw [outcomes, h]

theorem outcomes_expected (calls : List ReaderCall)
    (h : step c (state p) = (c.expected data p).map (Prod.map id state)) :
    outcomes step (c :: calls) (state p) = match c.expected data p with
        | none => [none]
        | some (v, q) => some v :: outcomes step calls (state q) := by
  rcases hexpected : c.expected data p with _ | ⟨v, q⟩
  · rw [hexpected] at h
    exact outcomes_none h
  · rw [hexpected] at h
    exact outcomes_some h

end

/-- The three readers give the same outcomes from bit `p` on. -/
def SameFrom (data : List UInt8) (p : Nat) (calls : List ReaderCall) : Prop :=
  outcomes python calls ⟨data, p⟩ = outcomes cpp calls (cppAt data p) ∧
    outcomes java calls (javaAt data p) = outcomes cpp calls (cppAt data p)

section
variable {data : List UInt8} (hdata : data.length < 2 ^ 28) {p : Nat} {c : ReaderCall}

include hdata in
theorem sameFrom_cons {calls : List ReaderCall} (hp : p ≤ 8 * data.length) (h : c.Agreed data p) :
    SameFrom data p (c :: calls) ↔
      ∀ v q, c.expected data p = some (v, q) → SameFrom data q calls := by
  have hpython := outcomes_expected calls (c.python_eq hp)
  have hcpp := outcomes_expected calls (cpp_eq (by omega) hp h.1)
  have hjava := outcomes_expected calls (java_eq hdata hp h.2)
  rcases hexpected : c.expected data p with _ | ⟨v, q⟩
  · simp only [hexpected] at hpython hcpp hjava
    simp only [SameFrom, hpython, hcpp, hjava, reduceCtorEq, false_implies, implies_true, and_self]
  simp only [hexpected] at hpython hcpp hjava
  simp only [SameFrom, hpython, hcpp, hjava, List.cons.injEq, true_and]
  constructor
  · rintro hrest v' q' heq
    cases heq
    exact hrest
  · intro hrest
    exact hrest v q rfl

include hdata in
theorem run_same (calls : List ReaderCall) : ∀ p ≤ 8 * data.length, AllAgreed data p calls →
    SameFrom data p calls := by
  induction calls with
  | nil => exact fun _ _ _ => ⟨rfl, rfl⟩
  | cons c calls ih =>
    intro p hp h
    rw [sameFrom_cons hdata hp h.1]
    intro v q hexpected
    exact ih q (expected_le hp hexpected) (h.2 v q hexpected)

include hdata in
theorem not_same_of_apart (hp : p ≤ 8 * data.length) (h : c.Apart data p) :
    ∃ last : List ReaderCall, last.length ≤ 1 ∧ ¬ SameFrom data p (c :: last) := by
  obtain ⟨v, q, hexpected, hnone | ⟨v', q', hsome, hlt, hle⟩⟩ := h
  · refine ⟨[], by decide, ?_⟩
    rintro ⟨hsame, -⟩
    rw [outcomes_expected _ (c.python_eq hp), hexpected, outcomes_none hnone] at hsame
    cases hsame
  have hn : 8 * data.length + 1 - q' < 2 ^ 31 := by omega
  refine ⟨[.skipBits ⟨8 * data.length + 1 - q', hn⟩], Nat.le_refl 1, ?_⟩
  rintro ⟨hsame, -⟩
  have hpython := outcomes_expected [] (python_eq (.skipBits ⟨_, hn⟩) (expected_le hp hexpected))
  have hcpp : cpp (.skipBits ⟨_, hn⟩) (cppAt data q') = none := by
    apply bind_none
    rw [cpp_skipBits (by omega) hle]
    exact if_neg (by show ¬ q' + (8 * data.length + 1 - q') ≤ _; omega)
  rw [expected, onBits_some (by show q + (8 * data.length + 1 - q') ≤ _; omega)] at hpython
  rw [outcomes_expected _ (c.python_eq hp), hexpected, outcomes_some hsome, outcomes_none hcpp]
    at hsame
  simp only [hpython, List.cons.injEq, reduceCtorEq, false_and, and_false] at hsame

theorem inRange_of_accepted (h : c.Accepted data p) :
    c.InRange data p ∨ (∃ n, c = .skipBits n) ∨ ∃ k, c = .alignTo k := by
  cases c with
  | readBits n => exact .inl h
  | readSignedBits n => exact .inl h
  | readU8 => exact .inl trivial
  | readU16 | readU32 | readU64 => exact .inl trivial
  | readBcd bits =>
    refine .inl ?_
    rcases h with hzero | hshort | hvalid
    · exact .inl (by omega)
    · exact .inr hshort
    · exact .inl hvalid.2.1
  | readBcdSigned bits =>
    refine .inl ?_
    rcases h with hshort | hvalid
    · exact .inr hshort
    · exact .inl hvalid.2.1
  | readSignMagnitude bits =>
    refine .inl ?_
    rcases h with hshort | hvalid
    · exact .inr hshort
    · exact .inl hvalid.2
  | skipBits n => exact .inr (.inl ⟨n, rfl⟩)
  | alignTo k => exact .inr (.inr ⟨k, rfl⟩)

include hdata in
theorem not_same_of_skip {n : Count} (hp : p ≤ 8 * data.length) (h : ¬ p + n.val < 2 ^ 31) :
    ¬ SameFrom data p [.skipBits n] := by
  have hn := n.isLt
  rintro ⟨-, hsame⟩
  have hwrap : wrap32 ((p : Int) + n.val) = (p : Int) + n.val - 2 ^ 32 :=
    wrap32_of_ge (by omega) (by omega)
  have hjava : JavaReader.skipBits n (javaAt data p)
      = some ((), ⟨data, (p : Int) + n.val - 2 ^ 32, 8 * data.length⟩) := by
    simp only [JavaReader.skipBits, javaAt, hwrap]
    exact if_neg (by omega)
  have hcpp : cpp (.skipBits n) (cppAt data p) = none := by
    apply bind_none
    rw [cpp_skipBits (by omega) hp]
    exact if_neg (by omega)
  have hcall : java (.skipBits n) (javaAt data p) = some (.done, _) := bind_some hjava
  rw [outcomes_none hcpp, outcomes_some hcall] at hsame
  cases hsame

include hdata in
theorem not_same_of_align {k : Count} (hp : p ≤ 8 * data.length)
    (h : ¬ (alignTo k).InRange data p) :
    ¬ SameFrom data p [.alignTo k, .skipBits ⟨1, by decide⟩] := by
  have hk := k.isLt
  have hrange : ¬ (k.val = 0 ∨ boundaryAfter k p < 2 ^ 31 ∨
    8 * data.length ≤ wrap32 (boundaryAfter k p : Nat)) := h
  rw [not_or, not_or] at hrange
  obtain ⟨hzero, hlarge, hinside⟩ := hrange
  rintro ⟨-, hsame⟩
  have hlow : -2 ^ 31 ≤ wrap32 (boundaryAfter k p : Nat) := by
    rw [wrap32, Int.bmod_def]
    split <;> omega
  have hstep : JavaReader.alignTo k (javaAt data p)
      = some ((), ⟨data, wrap32 (boundaryAfter k p : Nat), 8 * data.length⟩) := by
    rw [JavaReader.alignTo_eq hdata hzero hp, min_eq_left (by omega)]
  have hskip : JavaReader.skipBits 1 ⟨data, wrap32 (boundaryAfter k p : Nat), 8 * data.length⟩
      = some ((), ⟨data, wrap32 (boundaryAfter k p : Nat) + 1, 8 * data.length⟩) := by
    have hnext : wrap32 (wrap32 (boundaryAfter k p : Nat) + (1 : Nat))
        = wrap32 (boundaryAfter k p : Nat) + 1 := wrap32_of_lt (by omega) (by omega)
    simp only [JavaReader.skipBits, hnext]
    exact if_neg (by omega)
  have hcpp : cpp (.alignTo k) (cppAt data p) = some (.done, cppAt data (8 * data.length)) := by
    show some (Value.done, (cppAt data p).alignTo k) = _
    rw [cpp_alignTo (by omega) hp hk, if_neg hzero, min_eq_right (by omega)]
  have hend : cpp (.skipBits ⟨1, by decide⟩) (cppAt data (8 * data.length)) = none := by
    apply bind_none
    rw [cpp_skipBits (by omega) le_rfl]
    exact if_neg (by show ¬ 8 * data.length + 1 ≤ _; omega)
  have hcall : java (.alignTo k) (javaAt data p) = some (.done, _) := bind_some hstep
  have hnext : java (.skipBits ⟨1, by decide⟩)
      ⟨data, wrap32 (boundaryAfter k p : Nat), 8 * data.length⟩ = some (.done, _) := bind_some hskip
  rw [outcomes_some hcpp, outcomes_none hend, outcomes_some hcall, outcomes_some hnext] at hsame
  cases hsame

include hdata in
theorem run_differs (calls : List ReaderCall) : ∀ p ≤ 8 * data.length, ¬ AllAgreed data p calls →
    ∃ before, before <+: calls ∧ ∃ last : List ReaderCall, last.length ≤ 1 ∧
      ¬ SameFrom data p (before ++ last) := by
  induction calls with
  | nil => exact fun _ _ h => absurd trivial h
  | cons c calls ih =>
    intro p hp h
    have hfirst : [c] <+: c :: calls := List.cons_prefix_cons.mpr ⟨rfl, List.nil_prefix⟩
    by_cases haccepted : c.Accepted data p
    · by_cases hrange : c.InRange data p
      · -- the first call is agreed on, so a later one is not
        have hlater : ∃ v q, c.expected data p = some (v, q) ∧ ¬ AllAgreed data q calls := by
          by_contra hall
          push Not at hall
          exact h ⟨⟨haccepted, hrange⟩, hall⟩
        obtain ⟨v, q, hexpected, hrest⟩ := hlater
        obtain ⟨before, hbefore, last, hlast, hdiffers⟩ := ih q (expected_le hp hexpected) hrest
        refine ⟨c :: before, List.cons_prefix_cons.mpr ⟨rfl, hbefore⟩, last, hlast, ?_⟩
        intro hsame
        rw [List.cons_append, sameFrom_cons hdata hp ⟨haccepted, hrange⟩] at hsame
        exact hdiffers (hsame v q hexpected)
      · rcases inRange_of_accepted haccepted with hin | ⟨n, rfl⟩ | ⟨k, rfl⟩
        · exact absurd hin hrange
        · exact ⟨_, hfirst, [], by decide, not_same_of_skip hdata hp hrange⟩
        · exact ⟨_, hfirst, [_], Nat.le_refl 1, not_same_of_align hdata hp hrange⟩
    · obtain ⟨last, hlast, hdiffers⟩ :=
        not_same_of_apart hdata hp (apart_of_not_accepted (by omega) hp haccepted)
      exact ⟨_, hfirst, last, hlast, hdiffers⟩

end

theorem java_differs_of_long {data : List UInt8} (hlong : 2 ^ 28 ≤ data.length)
    (hdata : data.length < 2 ^ 31) :
    ∃ c : ReaderCall, javaOutcomes data [c] ≠ cppOutcomes data [c] := by
  obtain ⟨len, hlen⟩ : ∃ len, len = wrap32 (8 * data.length) := ⟨_, rfl⟩
  have hstart : start data = ⟨data, 0, len⟩ := by rw [start, hlen]
  have hrange : len ≤ 8 * data.length - 2 ^ 32 ∧ len < 2 ^ 31 ∧ len % 8 = 0 := by
    rw [hlen, wrap32, Int.bmod_def]
    split <;> omega
  by_cases hneg : len < 0
  · refine ⟨.readBits ⟨0, by decide⟩, ?_⟩
    have hjava : JavaReader.readBits 0 ⟨data, 0, len⟩ = none :=
      if_pos (by show wrap32 (0 + (0 : Nat)) > len; rw [wrap32_of_lt (by decide) (by decide)]; omega)
    rw [javaOutcomes, hstart, outcomes_none (bind_none hjava)]
    intro heq
    cases heq
  have hn : (len + 1).toNat < 2 ^ 31 := by omega
  refine ⟨.skipBits ⟨(len + 1).toNat, hn⟩, ?_⟩
  have hjava : JavaReader.skipBits (len + 1).toNat ⟨data, 0, len⟩ = none := by
    have hwrap : wrap32 (0 + ((len + 1).toNat : Int)) = len + 1 := by
      rw [wrap32_of_lt (by omega) (by omega)]
      omega
    simp only [JavaReader.skipBits, hwrap]
    exact if_pos (by omega)
  have hcpp : ofReadM (BitReader.skipBits (len + 1).toNat) (cppAt data 0)
      = some ((), cppAt data (0 + (len + 1).toNat)) := by
    rw [cpp_skipBits (by omega) (by omega), if_pos (by omega)]
  have hcall : cpp (.skipBits ⟨(len + 1).toNat, hn⟩) { data } = some (.done, _) := bind_some hcpp
  have hthrows : java (.skipBits ⟨(len + 1).toNat, hn⟩) ⟨data, 0, len⟩ = none := bind_none hjava
  rw [javaOutcomes, cppOutcomes, hstart, outcomes_none hthrows, outcomes_some hcall]
  intro heq
  cases heq

/-- The three readers give the same outcomes for every sequence of agreed calls on a buffer of less
than `2 ^ 28` bytes. For any other sequence, the calls up to some point, followed by at most one
more call, give different outcomes. Buffers are Java arrays, of less than `2 ^ 31` bytes. -/
theorem readers_agree (data : List UInt8) (hdata : data.length < 2 ^ 31) (calls : List ReaderCall) :
    (data.length < 2 ^ 28 ∧ AllAgreed data 0 calls →
      pythonOutcomes data calls = cppOutcomes data calls ∧
        javaOutcomes data calls = cppOutcomes data calls) ∧
    (¬ (data.length < 2 ^ 28 ∧ AllAgreed data 0 calls) →
      ∃ before, before <+: calls ∧ ∃ last : List ReaderCall, last.length ≤ 1 ∧
        ¬ (pythonOutcomes data (before ++ last) = cppOutcomes data (before ++ last) ∧
          javaOutcomes data (before ++ last) = cppOutcomes data (before ++ last))) := by
  have hsame : data.length < 2 ^ 28 → ∀ calls, SameFrom data 0 calls ↔
      pythonOutcomes data calls = cppOutcomes data calls ∧
        javaOutcomes data calls = cppOutcomes data calls := by
    intro hsmall calls
    rw [javaOutcomes, start_eq hsmall]
    rfl
  constructor
  · rintro ⟨hsmall, hagreed⟩
    exact (hsame hsmall calls).mp (run_same hsmall calls 0 (Nat.zero_le _) hagreed)
  intro hnot
  by_cases hsmall : data.length < 2 ^ 28
  · obtain ⟨before, hbefore, last, hlast, hdiffers⟩ :=
      run_differs hsmall calls 0 (Nat.zero_le _) fun hagreed => hnot ⟨hsmall, hagreed⟩
    exact ⟨before, hbefore, last, hlast, fun h => hdiffers ((hsame hsmall _).mpr h)⟩
  · obtain ⟨c, hdiffers⟩ := java_differs_of_long (by omega) hdata
    exact ⟨[], List.nil_prefix, [c], Nat.le_refl 1, fun h => hdiffers h.2⟩

/-- Some bits, a signed number, an alignment, a word and a decimal number. -/
def agreedCalls : List ReaderCall :=
  [.readBits ⟨3, by decide⟩, .readSignedBits ⟨5, by decide⟩, .alignTo ⟨2, by decide⟩,
    .readU16 .little, .readBcd ⟨8, by decide⟩]

theorem AllAgreed.cons {data : List UInt8} {p q : Nat} {c : ReaderCall} {calls : List ReaderCall}
    {v : Value} (h : c.Agreed data p) (hexpected : c.expected data p = some (v, q))
    (hrest : AllAgreed data q calls) : AllAgreed data p (c :: calls) := by
  refine ⟨h, fun v' q' heq => ?_⟩
  cases hexpected.symm.trans heq
  exact hrest

theorem readers_agree_word : cppOutcomes [0xa5, 0, 0x34, 0x12, 0x42] agreedCalls
      = [some (.uint 5), some (.int 5), some .done, some (.uint 0x1234), some (.uint 42)] ∧
    pythonOutcomes [0xa5, 0, 0x34, 0x12, 0x42] agreedCalls
      = cppOutcomes [0xa5, 0, 0x34, 0x12, 0x42] agreedCalls ∧
    javaOutcomes [0xa5, 0, 0x34, 0x12, 0x42] agreedCalls
      = cppOutcomes [0xa5, 0, 0x34, 0x12, 0x42] agreedCalls := by
  have hagreed : AllAgreed [0xa5, 0, 0x34, 0x12, 0x42] 0 agreedCalls :=
    .cons (q := 3) ⟨.inl (by decide), .inl (by decide)⟩ rfl <|
    .cons (q := 8) ⟨.inl (by decide), .inl (by decide)⟩ rfl <|
    .cons (q := 16) ⟨trivial, .inr (.inl (by decide))⟩ rfl <|
    .cons (q := 32) ⟨.inl rfl, trivial⟩ rfl <|
    .cons (q := 40) ⟨.inr (.inr (by decide)), .inl (by decide)⟩ rfl trivial
  exact ⟨by decide +kernel,
    (readers_agree [0xa5, 0, 0x34, 0x12, 0x42] (by decide) agreedCalls).1 ⟨by decide, hagreed⟩⟩

/-- After one bit the C++ reader takes a byte from the next byte boundary on and the others take the
next eight bits; the C++ reader rejects the digit ten and the others do not; and a skip past the end
by almost `2 ^ 31` bits succeeds in Java only. -/
theorem readers_differ :
    cppOutcomes [0x80, 0xff] [.readBits ⟨1, by decide⟩, .readU8] = [some (.uint 1), some (.uint 0xff)] ∧
    pythonOutcomes [0x80, 0xff] [.readBits ⟨1, by decide⟩, .readU8] = [some (.uint 1), some (.uint 1)] ∧
    javaOutcomes [0x80, 0xff] [.readBits ⟨1, by decide⟩, .readU8] = [some (.uint 1), some (.uint 1)] ∧
    cppOutcomes [0x1a] [.readBcd ⟨8, by decide⟩] = [none] ∧
    pythonOutcomes [0x1a] [.readBcd ⟨8, by decide⟩] = [some (.uint 20)] ∧
    javaOutcomes [0x1a] [.readBcd ⟨8, by decide⟩] = [some (.uint 20)] ∧
    cppOutcomes [0x80] [.readU8, .skipBits ⟨2 ^ 31 - 1, by decide⟩] = [some (.uint 0x80), none] ∧
    javaOutcomes [0x80] [.readU8, .skipBits ⟨2 ^ 31 - 1, by decide⟩]
      = [some (.uint 0x80), some .done] := by
  decide +kernel

end ReaderCall

end Conduit.Ports

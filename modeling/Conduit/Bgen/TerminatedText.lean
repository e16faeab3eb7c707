import Conduit.Bgen.FixedText

/-!
# Terminated texts

A text that is followed by a terminator is read by a loop with a bounded number of turns. The loop
takes one character in a turn, or a carriage return together with the character after it where the
terminator is CR LF. It finds the terminator if the text leaves it a turn for that, and if the text
does not end in a carriage return that the loop pairs with the first byte of the terminator.
-/

namespace Conduit.Bgen

open Io TextPlace ByteParser Terminator BitWriter List

namespace Terminator

/-! ## The loop as a parser -/

/-- A terminator that is a number is the number of a byte. -/
def IsByte : Terminator → Prop
  | .crlf => True
  | .byte value => 0 ≤ value ∧ value < 256

instance : DecidablePred IsByte := fun term => by
  cases term <;> unfold IsByte <;> infer_instance

/-- The loop of `read` on the bytes ahead. -/
def scan : Terminator → Nat → ByteParser (List UInt8)
  | _, 0 => pure []
  | .crlf, maxLength + 1 => do
    let b ← ByteParser.byte
    if b.toNat = 0x0D then
      let b2 ← ByteParser.byte
      if b2.toNat = 0x0A then return []
      else
        let rest ← scan .crlf maxLength
        return b :: b2 :: rest
    else
      let rest ← scan .crlf maxLength
      return b :: rest
  | .byte value, maxLength + 1 => do
    let b ← ByteParser.byte
    if (b.toNat : Int) = value then return []
    else
      let rest ← scan (.byte value) maxLength
      return b :: rest

theorem parses_read (term : Terminator) (maxLength : Nat) :
    DecodeM.Parses (DecodeM.read (term.read maxLength)) (term.scan maxLength) := by
  have hbyte := DecodeM.parses_read BitReader.refines_readU8
  induction maxLength with
  | zero => cases term <;> exact DecodeM.parses_pure []
  | succ n ih =>
    cases term with
    | crlf =>
      rw [read, DecodeM.read_bind]
      refine hbyte.bind_map fun b => ?_
      rw [DecodeM.read_ite, DecodeM.read_bind]
      refine .ite (hbyte.bind_map fun b2 => ?_) ?_
      · rw [DecodeM.read_ite, DecodeM.read_bind]
        refine .ite (DecodeM.parses_pure []) (ih.bind fun rest => ?_)
        rw [UInt8.ofNat_toNat, UInt8.ofNat_toNat]
        exact DecodeM.parses_pure _
      rw [DecodeM.read_bind]
      refine ih.bind fun rest => ?_
      rw [UInt8.ofNat_toNat]
      exact DecodeM.parses_pure _
    | byte value =>
      rw [read, DecodeM.read_bind]
      refine hbyte.bind_map fun b => ?_
      rw [DecodeM.read_ite, DecodeM.read_bind]
      refine .ite (DecodeM.parses_pure []) (ih.bind fun rest => ?_)
      rw [UInt8.ofNat_toNat]
      exact DecodeM.parses_pure _

/-! ## What the loop finds -/

/-- A character that is part of the text. -/
def consText (b : UInt8) (x : List UInt8 × List UInt8) : List UInt8 × List UInt8 := (b :: x.1, x.2)

section

variable {value : Int} {b b2 : UInt8} (n : Nat) (bs : List UInt8)

theorem scan_zero (term : Terminator) : term.scan 0 bs = some ([], bs) := by
  cases term <;> rfl

theorem scan_nil (term : Terminator) : term.scan (n + 1) [] = none := by
  cases term <;> rfl

theorem scan_byte_self (h : (b.toNat : Int) = value) :
    scan (.byte value) (n + 1) (b :: bs) = some ([], bs) := by
  simp [scan, ByteParser.bind_some (ByteParser.byte_cons b bs), h]

theorem scan_byte_cons (h : (b.toNat : Int) ≠ value) :
    scan (.byte value) (n + 1) (b :: bs) = (scan (.byte value) n bs).map (consText b) := by
  rw [scan, bind_some (byte_cons b bs), if_neg h]
  rcases hscan : scan (.byte value) n bs with _ | x
  · rw [bind_none hscan]
    rfl
  · rw [bind_some hscan]
    rfl

theorem scan_crlf_cons (h : b ≠ 0x0D) :
    scan .crlf (n + 1) (b :: bs) = (scan .crlf n bs).map (consText b) := by
  have hb : ¬b.toNat = 0x0D := fun hb => h (UInt8.toNat_inj.mp hb)
  rw [scan, bind_some (byte_cons b bs), if_neg hb]
  rcases hscan : scan .crlf n bs with _ | x
  · rw [bind_none hscan]
    rfl
  · rw [bind_some hscan]
    rfl

theorem scan_crlf_pair (h : b2 ≠ 0x0A) : scan .crlf (n + 1) (0x0D :: b2 :: bs)
      = (scan .crlf n bs).map fun x => consText 0x0D (consText b2 x) := by
  have hb : ¬b2.toNat = 0x0A := fun hb => h (UInt8.toNat_inj.mp hb)
  rw [scan, bind_some (byte_cons 0x0D (b2 :: bs)), if_pos (by decide),
    bind_some (byte_cons b2 bs), if_neg hb]
  rcases hscan : scan .crlf n bs with _ | x
  · rw [bind_none hscan]
    rfl
  · rw [bind_some hscan]
    rfl

end

/-- The number of turns that the loop takes for a text before CR LF. There is none if the text ends
in a carriage return that the loop looks behind. -/
def crlfTurns : List UInt8 → Option Nat
  | [] => some 0
  | [b] => if b = 0x0D then none else some 1
  | b :: b2 :: s =>
    if b = 0x0D then (crlfTurns s).map (· + 1) else (crlfTurns (b2 :: s)).map (· + 1)

/-- The number of turns that the loop takes for a text before the terminator. -/
def turns : Terminator → List UInt8 → Option Nat
  | .crlf, s => crlfTurns s
  | .byte _, s => some s.length

section

variable {value : Int} (hbyte : IsByte (.byte value)) {s : List UInt8} {n : Nat}
  (hfree : UInt8.ofNat (toUint64 value) ∉ s)

include hbyte

theorem toNat_byte : ((UInt8.ofNat (toUint64 value)).toNat : Int) = value := by
  obtain ⟨hlo, hhi⟩ := hbyte
  rw [UInt8.toNat_ofNat', toUint64]
  omega

theorem ne_of_not_byte {b : UInt8} (h : b ≠ UInt8.ofNat (toUint64 value)) :
    (b.toNat : Int) ≠ value := by
  have hself := toNat_byte hbyte
  intro hb
  apply h
  apply UInt8.toNat_inj.mp
  omega

include hfree

theorem scan_byte_of_lt (rest : List UInt8) (hn : s.length < n) :
    scan (.byte value) n (s ++ UInt8.ofNat (toUint64 value) :: rest) = some (s, rest) := by
  induction s generalizing n with
  | nil =>
    obtain ⟨n, rfl⟩ := Nat.exists_eq_add_of_lt hn
    exact scan_byte_self _ _ (toNat_byte hbyte)
  | cons b s ih =>
    obtain ⟨n, rfl⟩ : ∃ m, n = m + 1 := ⟨n - 1, by simp at hn; omega⟩
    simp only [mem_cons, not_or] at hfree
    have hne := ne_of_not_byte hbyte (Ne.symm hfree.1)
    rw [cons_append, scan_byte_cons _ _ hne, ih hfree.2 (by simpa using hn)]
    rfl

theorem scan_byte_of_ge (tail : List UInt8) (hn : n ≤ s.length) :
    scan (.byte value) n (s ++ tail) = some (s.take n, s.drop n ++ tail) := by
  induction s generalizing n with
  | nil =>
    obtain rfl : n = 0 := by simpa using hn
    rfl
  | cons b s ih =>
    simp only [mem_cons, not_or] at hfree
    have hne := ne_of_not_byte hbyte (Ne.symm hfree.1)
    rcases n with _ | n
    · rfl
    rw [cons_append, scan_byte_cons _ _ hne, ih hfree.2 (by simpa using hn)]
    rfl

end

section

variable {b2 : UInt8} {s : List UInt8}

theorem ne_lf_of_free (hfree : ¬[0x0D, 0x0A] <:+: 0x0D :: b2 :: s) : b2 ≠ 0x0A := by
  rintro rfl
  exact hfree ⟨[], s, rfl⟩

theorem free_of_cons {b : UInt8} (hfree : ¬[0x0D, 0x0A] <:+: b :: s) : ¬[0x0D, 0x0A] <:+: s :=
  fun h => hfree (infix_cons h)

end

theorem scan_crlf_of_lt {s : List UInt8} {k n : Nat} (rest : List UInt8)
    (hfree : ¬[0x0D, 0x0A] <:+: s) (hk : crlfTurns s = some k) (hn : k < n) :
    scan .crlf n (s ++ 0x0D :: 0x0A :: rest) = some (s, rest) := by
  obtain ⟨n, rfl⟩ : ∃ m, n = m + 1 := ⟨n - 1, by omega⟩
  induction s using crlfTurns.induct generalizing k n with
  | case1 => rfl
  | case2 => simp [crlfTurns] at hk
  | case3 b hb =>
    obtain rfl : 1 = k := by simpa [crlfTurns, hb] using hk
    obtain ⟨n, rfl⟩ : ∃ m, n = m + 1 := ⟨n - 1, by omega⟩
    rw [cons_append, scan_crlf_cons _ _ hb]
    rfl
  | case4 b2 s ih =>
    obtain ⟨k', hk', rfl⟩ : ∃ k', crlfTurns s = some k' ∧ k' + 1 = k := by
      simpa [crlfTurns] using hk
    obtain ⟨n, rfl⟩ : ∃ m, n = m + 1 := ⟨n - 1, by omega⟩
    rw [cons_append, cons_append, scan_crlf_pair _ _ (ne_lf_of_free hfree),
      ih (free_of_cons (free_of_cons hfree)) hk' n (by omega)]
    rfl
  | case5 b b2 s hb ih =>
    obtain ⟨k', hk', rfl⟩ : ∃ k', crlfTurns (b2 :: s) = some k' ∧ k' + 1 = k := by
      simpa [crlfTurns, hb] using hk
    obtain ⟨n, rfl⟩ : ∃ m, n = m + 1 := ⟨n - 1, by omega⟩
    rw [cons_append, scan_crlf_cons _ _ hb, ih (free_of_cons hfree) hk' n (by omega)]
    rfl

/-- If the loop takes everything up to the end of the terminator in another way, the text ends in a
carriage return and the loop has read the terminator as characters. -/
theorem scan_crlf_lost {s a : List UInt8} {n : Nat} (hfree : ¬[0x0D, 0x0A] <:+: s)
    (hturns : ¬∃ k, crlfTurns s = some k ∧ k < n)
    (hscan : scan .crlf n (s ++ [0x0D, 0x0A]) = some (a, [])) :
    ∃ s', s = s' ++ [0x0D] ∧ a = s ++ [0x0D, 0x0A] := by
  rcases n with _ | n
  · simp [scan_zero] at hscan
  induction s using crlfTurns.induct generalizing a n with
  | case1 => exact absurd ⟨0, rfl, Nat.succ_pos n⟩ hturns
  | case2 =>
    refine ⟨[], rfl, ?_⟩
    rw [cons_append, nil_append, scan_crlf_pair _ _ (by decide)] at hscan
    rcases n with _ | _ | n
    · simp [scan_zero, consText] at hscan
    · rw [scan_crlf_cons _ _ (by decide), scan_zero] at hscan
      simpa [consText, eq_comm] using hscan
    · rw [scan_crlf_cons _ _ (by decide), scan_nil] at hscan
      simp at hscan
  | case3 b hb =>
    rcases n with _ | n
    · rw [cons_append, scan_crlf_cons _ _ hb, scan_zero] at hscan
      simp [consText] at hscan
    · exact absurd ⟨1, by simp [crlfTurns, hb], by omega⟩ hturns
  | case4 b2 s ih =>
    rw [cons_append, cons_append, scan_crlf_pair _ _ (ne_lf_of_free hfree)] at hscan
    rcases n with _ | n
    · simp [scan_zero, consText] at hscan
    obtain ⟨⟨a', left⟩, hrest, hcons⟩ := Option.map_eq_some_iff.mp hscan
    obtain ⟨rfl, rfl⟩ : 0x0D :: b2 :: a' = a ∧ left = [] := by simpa [consText] using hcons
    have hless : ¬∃ k, crlfTurns s = some k ∧ k < n + 1 := by
      rintro ⟨k, hk, hlt⟩
      exact hturns ⟨k + 1, by simp [crlfTurns, hk], by omega⟩
    obtain ⟨s', rfl, rfl⟩ := ih (free_of_cons (free_of_cons hfree)) n hless hrest
    exact ⟨0x0D :: b2 :: s', rfl, rfl⟩
  | case5 b b2 s hb ih =>
    rw [cons_append, scan_crlf_cons _ _ hb] at hscan
    rcases n with _ | n
    · simp [scan_zero, consText] at hscan
    obtain ⟨⟨a', left⟩, hrest, hcons⟩ := Option.map_eq_some_iff.mp hscan
    obtain ⟨rfl, rfl⟩ : b :: a' = a ∧ left = [] := by simpa [consText] using hcons
    have hless : ¬∃ k, crlfTurns (b2 :: s) = some k ∧ k < n + 1 := by
      rintro ⟨k, hk, hlt⟩
      exact hturns ⟨k + 1, by simp [crlfTurns, hb, hk], by omega⟩
    obtain ⟨s', hs', rfl⟩ := ih (free_of_cons hfree) n hless hrest
    exact ⟨b :: s', by rw [hs', cons_append], rfl⟩

theorem not_mem_of_free {b : UInt8} {s : List UInt8} (hfree : ¬[b] <:+: s) : b ∉ s := by
  intro hmem
  obtain ⟨s₁, s₂, rfl⟩ := append_of_mem hmem
  exact hfree ⟨s₁, s₂, by simp⟩

section

variable {term : Terminator} (hbyte : term.IsByte) {s : List UInt8} (hfree : ¬term.bytes <:+: s)
  {n : Nat}

include hbyte hfree

theorem scan_found (hturns : ∃ k, term.turns s = some k ∧ k < n) (rest : List UInt8) :
    term.scan n (s ++ (term.bytes ++ rest)) = some (s, rest) := by
  obtain ⟨k, hk, hn⟩ := hturns
  cases term with
  | crlf => exact scan_crlf_of_lt rest hfree hk hn
  | byte value =>
    obtain rfl : s.length = k := by simpa [turns] using hk
    exact scan_byte_of_lt hbyte (not_mem_of_free hfree) rest hn

theorem scan_lost (hturns : ¬∃ k, term.turns s = some k ∧ k < n) {a : List UInt8}
    (hscan : term.scan n (s ++ term.bytes) = some (a, [])) :
    ∃ s', s = s' ++ [0x0D] ∧ a = s ++ [0x0D, 0x0A] := by
  cases term with
  | crlf => exact scan_crlf_lost hfree hturns hscan
  | byte value =>
    have hn : n ≤ s.length := by
      by_contra hn
      exact hturns ⟨s.length, rfl, by omega⟩
    rw [scan_byte_of_ge hbyte (not_mem_of_free hfree) _ hn] at hscan
    simp [bytes] at hscan

end

end Terminator

/-! ## The code for a terminated text -/

/-- A field with a terminator. The parser lets it have a length, but neither a prefix nor a computed
length (`xml_parser.cpp:530-547`), and the validator no packed characters. -/
structure Field.Terminated (f : Field) (term : Terminator) : Prop where
  terminated : f.terminated.bind terminator = some term
  charBits : f.charBits = none
  lengthPrefix : f.lengthPrefix = none
  lengthFrom : f.lengthFrom = none

/-- A string type with a terminator. -/
structure TypeDef.Terminated (t : TypeDef) (term : Terminator) : Prop where
  kind : t.kind = .text
  terminated : t.terminated.bind terminator = some term
  charBits : ∀ c ∈ t.charBits, 1 ≤ c ∧ c ≤ 8

section

variable {g : ClassCode} {f : Field} {term : Terminator} (hf : f.Terminated term)

include hf

theorem Field.Terminated.encodeText_eq (s : List UInt8) (w : BitWriter) :
    encodeText g.lib g.index f s w = .ok (w.appendBytes (s ++ term.bytes)) := by
  obtain ⟨text, htext, hterm⟩ := Option.bind_eq_some_iff.mp hf.terminated
  unfold encodeText
  rw [hf.charBits, htext]
  simp only [hterm, write_eq, encodePlainText_eq, appendBytes_append]

theorem Field.Terminated.parses_wire (hl : f.length = none) (scope : ExprScope)
    (qualified : String) :
    DecodeM.Parses (decodeWireText g.index scope qualified f)
      (some <$> term.scan (terminatedTurns f.maxLength)) := by
  obtain ⟨text, htext, hterm⟩ := Option.bind_eq_some_iff.mp hf.terminated
  unfold decodeWireText
  rw [hl, hf.lengthPrefix, hf.lengthFrom, htext]
  simp only [decodeTerminated, hterm]
  exact (term.parses_read _).map some

end

theorem not_exceedsMax {f : Field} {s : List UInt8}
    (hlen : s.length ≤ terminatedTurns f.maxLength) : ¬f.exceedsMax s.length := by
  rintro ⟨n, hn, hlt⟩
  rw [Option.mem_def.mp hn] at hlen
  simp only [terminatedTurns] at hlen
  omega

theorem memberText_crlf_ne {lib : Library} (hlib : lib.HasCodePage) (index : TypeIndex) (f : Field)
    (s s' : List UInt8) : memberText lib index f (s ++ [0x0D, 0x0A]) ≠ s' ++ [0x0D] := by
  have hlf : f.charFromWire lib 0x0A = 0x0A ∨ f.charFromWire lib 0x0A = 0x1A := by
    unfold Field.charFromWire
    rcases f.encoding with _ | e
    · exact .inl rfl
    cases e with
    | ebcdic => exact .inr ((hlib.ebcdicToAscii _).trans (by decide))
    | _ => exact .inl rfl
  have hpad : f.charFromWire lib 0x0A ≠ trimChar (f.effectivePadding index) := by
    unfold trimChar
    rcases hlf with h | h <;> rw [h] <;> split <;> decide
  have hcr : f.charFromWire lib 0x0A ≠ 0x0D := by
    rcases hlf with h | h <;> rw [h] <;> decide
  rw [memberText_eq, trimMember_eq, map_append]
  have hlast : s.map (f.charFromWire lib) ++ [0x0D, 0x0A].map (f.charFromWire lib)
      = (s.map (f.charFromWire lib) ++ [f.charFromWire lib 0x0D]) ++ [f.charFromWire lib 0x0A] := by
    simp
  rw [hlast]
  exact trimText_concat_ne _ hpad hcr

section

variable {g : ClassCode} {term : Terminator} (hbyte : term.IsByte) {s : List UInt8}
  (hfree : ¬term.bytes <:+: s) {w : BitWriter} (hw : w.Sized) (herr : w.error = none)
  (hsmall : w.data.length + s.length + 2 < 2 ^ 61)

include hbyte hfree hw herr hsmall

omit hbyte hfree hw herr in
theorem length_terminated_lt : (w.data ++ (s ++ term.bytes) ++ []).length < 2 ^ 61 := by
  have : term.bytes.length ≤ 2 := by cases term <;> simp [Terminator.bytes]
  simp
  omega

theorem terminated_plain_iff (hlib : g.lib.HasCodePage) {f : Field} (hf : f.Terminated term)
    (hl : f.length = none) (hplace : plain.Holds g.index f) (hc : f.unchecked = true)
    (hlen : s.length ≤ terminatedTurns f.maxLength) (htrim : trimMember g.index f s = s) :
    DecodesWithin (plain.encode g f s) (plain.decode g f)
        (decoded g f s) (s ++ term.bytes).length w ↔
      (∃ k, term.turns s = some k ∧ k < terminatedTurns f.maxLength)
        ∧ s.map (f.charFromWire g.lib) = s := by
  have hmax := not_exceedsMax hlen
  have hcalls : callsOnOptional f (memberType g.index f) = false := by
    simp [callsOnOptional, hplace.plain rfl]
  have hencode : plain.encode g f s w = .ok (w.appendBytes (s ++ term.bytes)) := by
    rw [encode_plain_checked hplace hc hmax, hf.encodeText_eq]
  have hdecode := parses_plain (.inl rfl) hplace (.inr hl) hcalls
    fun scope => hf.parses_wire hl scope _
  have hout : s ++ term.bytes ≠ [] := by cases term <;> simp [Terminator.bytes]
  rw [decodesWithin_iff hw herr hencode hdecode hout]
  have hself : memberText g.lib g.index f s = s ↔ s.map (f.charFromWire g.lib) = s :=
    memberText_eq_self_iff htrim s rfl
  constructor
  · intro hp
    obtain ⟨a, left, hscan, haccept⟩ := bind_eq_some (hp [] (length_terminated_lt hsmall))
    obtain ⟨-, htext, rfl⟩ := accept_eq_some.mp haccept
    rw [decoded_inj] at htext
    rw [append_nil] at hscan
    by_cases hturns : ∃ k, term.turns s = some k ∧ k < terminatedTurns f.maxLength
    · have hfound := term.scan_found hbyte hfree hturns []
      rw [append_nil, hscan] at hfound
      obtain rfl : a = s := by simpa using hfound
      exact ⟨hturns, hself.mp htext⟩
    · obtain ⟨s', rfl, rfl⟩ := term.scan_lost hbyte hfree hturns hscan
      exact absurd htext (memberText_crlf_ne hlib _ _ _ _)
  · rintro ⟨hturns, hmap⟩ rest -
    rw [append_assoc, bind_some (term.scan_found hbyte hfree hturns rest)]
    exact accept_eq_some.mpr ⟨by rwa [hself.mpr hmap], by rw [hself.mpr hmap], rfl⟩

omit hbyte hfree in
theorem terminated_elsewhere {p : TextPlace} (hp : p ≠ .plain) {f : Field} (hf : f.Terminated term)
    (hl : f.length = none) (hplace : p.Holds g.index f) :
    ¬DecodesWithin (p.encode g f s) (p.decode g f) (decoded g f s) (s ++ term.bytes).length w := by
  have hlonger : s.length < (s ++ term.bytes).length ∧ term.bytes.length ≤ 2 := by
    cases term <;> simp [Terminator.bytes]
  have hencode : ∀ w', p.encode g f s w = .ok w' →
      ∃ out, out.length < (s ++ term.bytes).length ∧ w' = w.appendBytes out := by
    intro w' hok
    obtain ⟨out, hout, rfl⟩ := encode_elsewhere hp hplace hl hok
    exact ⟨out, by omega, rfl⟩
  have hdecode : ∃ q, DecodeM.Parses (p.decode g f) q := by
    cases p with
    | plain => exact absurd rfl hp
    | optional =>
      rcases hcalls : callsOnOptional f (memberType g.index f) with _ | _
      · exact ⟨_, parses_plain (.inr rfl) hplace (.inr hl) hcalls
          fun scope => hf.parses_wire hl scope _⟩
      · exact ⟨_, parses_uncompiled hplace hcalls⟩
    | fx => exact ⟨_, parses_fx hplace (.inr hl) (by simp [hl])⟩
    | bitmap => exact ⟨_, parses_bitmap hplace (by simp [hl])⟩
  obtain ⟨q, hq⟩ := hdecode
  refine not_decodesWithin hw herr hencode hq ?_
  simp
  omega

theorem terminated_type_iff {t : TypeDef} (ht : t.Terminated term) (hl : t.length = none)
    (htrim : trimText t.trim t.padding s = s) :
    DecodesWithin (t.encode g.lib (wrapText s)) (t.decode g.lib g.index) (wrapText s)
        (s ++ term.bytes).length w ↔
      ∃ k, term.turns s = some k ∧ k < terminatedTurns t.maxLength := by
  obtain ⟨text, htext, hterm⟩ := Option.bind_eq_some_iff.mp ht.terminated
  have hencode : t.encode g.lib (wrapText s) w = .ok (w.appendBytes (s ++ term.bytes)) := by
    have hwrite : term.write (w.writeString s s.length 0).2 = w.appendBytes (s ++ term.bytes) := by
      rw [term.write_eq, ← appendBytes_append]
      exact congrArg _ (encodePlainText_eq s w)
    have hdone : checkWriter (w.appendBytes (s ++ term.bytes))
        = .ok (w.appendBytes (s ++ term.bytes)) := by
      rw [checkWriter, error_appendBytes, herr]
    have hvalue : (wrapText s).wrappedText = some s := rfl
    simp only [TypeDef.encode, ht.kind, hvalue, TypeDef.encodeText, hl, htext, hterm, hwrite,
      hdone]
  have hdecode : DecodeM.Parses (t.decode g.lib g.index)
      ((fun s => wrapText (trimText t.trim t.padding s)) <$>
        term.scan (terminatedTurns t.maxLength)) := by
    simp only [TypeDef.decode, ht.kind, TypeDef.decodeText, hl, htext, hterm]
    rcases t.charBits with _ | c <;> exact (term.parses_read _).map _
  have hout : s ++ term.bytes ≠ [] := by cases term <;> simp [Terminator.bytes]
  rw [decodesWithin_iff hw herr hencode hdecode hout]
  constructor
  · intro hp
    obtain ⟨a, hscan, hvalue⟩ := map_eq_some (hp [] (length_terminated_lt hsmall))
    rw [append_nil] at hscan
    by_contra hturns
    obtain ⟨s', rfl, rfl⟩ := term.scan_lost hbyte hfree hturns hscan
    have htext : trimText t.trim t.padding ((s' ++ [0x0D] ++ [0x0D]) ++ [0x0A]) = s' ++ [0x0D] := by
      simpa [wrapText] using hvalue
    have hpad : (0x0A : UInt8) ≠ trimChar t.padding := by
      unfold trimChar
      split <;> decide
    exact trimText_concat_ne _ hpad (by decide) htext
  · intro hturns rest _
    rw [append_assoc, map_some _ (term.scan_found hbyte hfree hturns rest), htrim]

end

/-! ## Texts with a terminator and a length -/

/-- A decoder that takes a fixed number of bytes stops after those. -/
theorem decodesWithin_bytes_iff {α : Type} {encode : BitWriter → Except Stop BitWriter}
    {decode : DecodeM α} {a : α} {w : BitWriter} {length size : Nat} {out : List UInt8}
    (hw : w.Sized) (herr : w.error = none) (hencode : encode w = .ok (w.appendBytes out))
    {q : List UInt8 → ByteParser α}
    (hdecode : DecodeM.Parses decode (ByteParser.bytes length >>= q))
    (hsize : 0 < size) (hsmall : w.data.length + out.length + 1 < 2 ^ 61) {P : List UInt8 → Prop}
    (hq : ∀ text rest left, q text rest = some (a, left) ↔ P text ∧ rest = left) :
    DecodesWithin encode decode a size w ↔
      length = size ∧ length ≤ out.length ∧ P (out.take length) := by
  have hparse : ∀ rest, length ≤ out.length → (ByteParser.bytes length >>= q) (out ++ rest)
      = q (out.take length) (out.drop length ++ rest) := by
    intro rest hle
    refine bind_some ?_
    rw [ByteParser.bytes, if_pos (by rw [length_append]; omega), take_append_of_le_length hle,
      drop_append_of_le_length hle]
  refine (encodes_iff herr hencode).trans ⟨fun h => ?_, ?_⟩
  · -- what remains of one more byte tells where the reader stands
    have hbyte : (w.data ++ out ++ [0]).length < 2 ^ 61 := by
      simp
      omega
    have hnone : (w.data ++ out ++ []).length < 2 ^ 61 := by
      simp
      omega
    obtain ⟨left, hp⟩ := (hdecode.result_iff hw hnone).mp (h [] hnone).1
    have hle : length ≤ out.length := by
      obtain ⟨x, y, hx, -⟩ := bind_eq_some hp
      obtain ⟨hlen, hsplit⟩ := bytes_eq_some hx
      have := congrArg List.length hsplit
      simp only [length_append, length_nil] at this
      omega
    obtain ⟨hrun, hpos⟩ := h [0] hbyte
    rw [← hw] at hpos
    have hleft := hdecode.left_of_position hw hbyte hrun hpos
    rw [hparse _ hle, hq] at hleft
    refine ⟨?_, hle, hleft.1⟩
    have hrest := congrArg List.length hleft.2
    simp only [length_append, length_drop, length_singleton] at hrest
    omega
  · rintro ⟨rfl, hle, hP⟩ rest hrest
    have hp : (ByteParser.bytes length >>= q) (out.take length ++ (out.drop length ++ rest))
        = some (a, out.drop length ++ rest) := by
      rw [← append_assoc, take_append_drop, hparse _ hle, hq]
      exact ⟨hP, rfl⟩
    have hsplit : w.data ++ out ++ rest
        = w.data ++ out.take length ++ (out.drop length ++ rest) := by
      rw [append_assoc, append_assoc, ← append_assoc (out.take length), take_append_drop]
    rw [hsplit] at hrest ⊢
    refine ⟨(hdecode.result_iff hw hrest).mpr ⟨_, hp⟩, ?_⟩
    rw [hdecode.position_eq hw hrest (ne_nil_of_length_pos (by rw [length_take]; omega)) hp,
      length_take, Nat.min_eq_left hle, hw]

/-- What is written where a field has a terminator and a length: only the code of a plain field
looks at the terminator. -/
def TextPlace.sizedWire (p : TextPlace) (g : ClassCode) (f : Field) (length : Nat)
    (term : Terminator) (s : List UInt8) : List UInt8 :=
  if p = .plain then s ++ term.bytes
  else paddedString (wireText g.lib f s) length (p.padChar g.index f)

/-- The bytes of a string type with a length, which ignores the terminator. -/
def TypeDef.sizedWire (t : TypeDef) (lib : Library) (length : Nat) (s : List UInt8) : List UInt8 :=
  paddedString (if t.encoding.needsConversion then lib.fromAscii t.encoding s else s) length
    (paddingChar t.padding t.encoding)

/-- A string type with a length returns the text, and its `length` characters end where the
terminator would. -/
def TypeDef.SizedReturns (t : TypeDef) (lib : Library) (w : BitWriter) (length size : Nat)
    (s : List UInt8) : Prop :=
  match t.charBits with
  | some c => w.bitPos + c.toNat * length = 8 * (w.sizeBytes + size)
      ∧ trimText t.trim t.padding
        (packedText c.toNat length (if t.padding = .null then 0 else 0x20) s) = s
  | none => length = size
      ∧ trimText t.trim t.padding (if t.encoding.needsConversion then
          lib.toAscii t.encoding (t.sizedWire lib length s) else t.sizedWire lib length s) = s

section

variable {g : ClassCode} {term : Terminator} {s : List UInt8} {w : BitWriter} {length : Nat}
  (hw : w.Sized) (herr : w.error = none)
  (hroom : w.data.length + s.length + length + 3 < 2 ^ 61)

include hw herr hroom

theorem sized_field_iff {p : TextPlace} {f : Field} {decode : DecodeM Object}
    {encode : BitWriter → Except Stop BitWriter}
    (hencode : encode w = .ok (w.appendBytes (p.sizedWire g f length term s)))
    {q : List UInt8 → ByteParser Object} (hdecode : DecodeM.Parses decode
      (ByteParser.bytes length >>= fun bs => q (memberText g.lib g.index f bs)))
    (hq : ∀ text rest left, q text rest = some (decoded g f s, left) ↔ text = s ∧ rest = left) :
    DecodesWithin encode decode (decoded g f s) (s ++ term.bytes).length w ↔
      length = s.length + term.bytes.length
        ∧ memberText g.lib g.index f (p.sizedWire g f length term s) = s := by
  have htwo : 0 < term.bytes.length ∧ term.bytes.length ≤ 2 := by
    cases term <;> simp [Terminator.bytes]
  have hout : (p.sizedWire g f length term s).length
      = if p = .plain then s.length + term.bytes.length else length := by
    unfold TextPlace.sizedWire
    split <;> simp [WriterCall.length_paddedString]
  rw [decodesWithin_bytes_iff (P := fun text => memberText g.lib g.index f text = s) hw herr
    hencode hdecode (by rw [length_append]; omega) (by rw [hout]; split <;> omega), length_append]
  · refine and_congr_right fun hlength => ?_
    have hle : (p.sizedWire g f length term s).length = length := by
      rw [hout]
      split
      · exact hlength.symm
      · rfl
    rw [take_of_length_le hle.le]
    simp [hle]
  · exact fun text => hq _

omit hw herr hroom in
theorem accept_iff {f : Field} (hmax : ¬f.exceedsMax s.length) (text rest left : List UInt8) :
    accept g f text rest = some (decoded g f s, left) ↔ text = s ∧ rest = left := by
  rw [accept_eq_some, decoded_inj]
  constructor
  · exact And.right
  · rintro ⟨rfl, h⟩
    exact ⟨hmax, rfl, h⟩

omit hw herr hroom in
theorem not_decodesWithin_of_error {α : Type} {encode : BitWriter → Except Stop BitWriter}
    {decode : DecodeM α} {a : α} {size : Nat} {e : Stop} (h : encode w = .error e) :
    ¬DecodesWithin encode decode a size w := by
  rintro ⟨w', bytes, hok, -⟩
  simp [h] at hok

/-- An optional text is not trimmed, so it keeps the characters that fill it up. -/
theorem sized_optional {f : Field} (hf : f.Terminated term) (hl : f.length = some length)
    (hplace : optional.Holds g.index f) (hlen : s.length ≤ terminatedTurns f.maxLength) :
    ¬DecodesWithin (optional.encode g f s) (optional.decode g f) (decoded g f s)
      (s ++ term.bytes).length w := by
  have hencode := encode_optional hplace s w
  rcases hplace.checks_cases (g.scope.name.qualified f.name) s
    (.ok (encodeOptionalText g.lib g.index f s w)) with ⟨hc, h⟩ | ⟨hc, hmax, message, h⟩ | ⟨hc, hmax, h⟩
  · exact not_decodesWithin_of_error (hencode.trans h)
  · exact absurd hmax (not_exceedsMax hlen)
  have hwrite : optional.encode g f s w
      = .ok (w.appendBytes (optional.sizedWire g f length term s)) := by
    rw [hencode, h, encodeOptionalText, hf.charBits, hl]
    simp [encodeFixedText, BitWriter.writeString_eq, TextPlace.sizedWire, padChar]
  rcases hcalls : callsOnOptional f (memberType g.index f) with _ | _
  · rw [sized_field_iff hw herr hroom hwrite
      (parses_length hl hf.charBits (.inr rfl) hplace hcalls (by omega)) (accept_iff hmax)]
    rintro ⟨hlength, htext⟩
    have htrim : f.trim.getD .none = .none := by
      simp only [callsOnOptional, hplace.optional rfl, hplace.isString, Bool.true_and,
        Bool.or_eq_false_iff] at hcalls
      rcases htrim : f.trim with _ | t
      · rfl
      · simpa [htrim] using hcalls.2.1
    rw [memberText_eq, trimMember_eq, htrim, trimText] at htext
    have hkept := congrArg List.length htext
    have hterm : 0 < term.bytes.length := by cases term <;> simp [Terminator.bytes]
    rw [length_map, TextPlace.sizedWire, if_neg (by decide),
      WriterCall.length_paddedString] at hkept
    omega
  · intro hdone
    have hshort : (w.data ++ optional.sizedWire g f length term s ++ []).length < 2 ^ 61 := by
      simp [TextPlace.sizedWire, WriterCall.length_paddedString]
      omega
    have hrun := ((encodes_iff herr hwrite).mp hdone [] hshort).1
    obtain ⟨left, hp⟩ := ((parses_uncompiled hplace hcalls).result_iff hw hshort).mp hrun
    simp at hp

theorem sized_iff {p : TextPlace} {f : Field} (hf : f.Terminated term)
    (hl : f.length = some length) (hplace : p.Holds g.index f)
    (hlen : s.length ≤ terminatedTurns f.maxLength) :
    DecodesWithin (p.encode g f s) (p.decode g f) (decoded g f s) (s ++ term.bytes).length w ↔
      p ≠ .optional ∧ (p = .plain → f.unchecked = true)
        ∧ length = s.length + term.bytes.length
        ∧ memberText g.lib g.index f (p.sizedWire g f length term s) = s := by
  have hmax := not_exceedsMax hlen
  have hfixed : fixedOrRemaining f = ByteParser.bytes length := by simp [fixedOrRemaining, hl]
  have hcount : f.length ≠ some BitReader.dynamicExtent := by
    simp only [hl, ne_eq, Option.some.injEq, BitReader.dynamicExtent]
    omega
  cases p with
  | plain =>
    by_cases hc : f.unchecked = true
    · have hwrite : plain.encode g f s w
          = .ok (w.appendBytes (plain.sizedWire g f length term s)) := by
        rw [encode_plain_checked hplace hc hmax, hf.encodeText_eq]
        rfl
      rw [sized_field_iff hw herr hroom hwrite (parses_length hl hf.charBits (.inl rfl) hplace
        (callsOnOptional_plain hplace) (by omega)) (accept_iff hmax)]
      simp [hc]
    · have hencode := encode_plain hplace s w
      rcases hplace.checks_cases (g.scope.name.qualified f.name) s
        (encodeText g.lib g.index f s w) with ⟨-, h⟩ | h | h
      · simp [not_decodesWithin_of_error (hencode.trans h), hc]
      · exact absurd h.1 hc
      · exact absurd h.1 hc
  | optional =>
    exact iff_of_false (sized_optional hw herr hroom hf hl hplace hlen) fun h => h.1 rfl
  | fx =>
    have hwrite : fx.encode g f s w = .ok (w.appendBytes (fx.sizedWire g f length term s)) := by
      simp [encode_fx hplace, encodeFxText, hf.charBits, hl, encodeFixedText,
        BitWriter.writeString_eq, TextPlace.sizedWire, padChar]
    have hdecode := parses_fx hplace (.inl hf.charBits) hcount
    rw [hfixed] at hdecode
    rw [sized_field_iff hw herr hroom hwrite (q := fun text => pure (decoded g f text)) hdecode
      fun text rest left => by simp [decoded_inj]]
    simp
  | bitmap =>
    have hwrite : bitmap.encode g f s w
        = .ok (w.appendBytes (bitmap.sizedWire g f length term s)) := by
      rw [encode_bitmap hplace, encodeBitmapText_eq g hl]
      rfl
    have hdecode := parses_bitmap hplace hcount
    rw [hfixed] at hdecode
    rw [sized_field_iff hw herr hroom hwrite (q := fun text => pure (decoded g f text)) hdecode
      fun text rest left => by simp [decoded_inj]]
    simp

omit hw in
theorem sized_type_iff {t : TypeDef} (ht : t.Terminated term) (hl : t.length = some length)
    {bits : List Bool} (hholds : w.Holds bits) :
    DecodesWithin (t.encode g.lib (wrapText s)) (t.decode g.lib g.index) (wrapText s)
        (s ++ term.bytes).length w ↔
      t.SizedReturns g.lib w length (s ++ term.bytes).length s := by
  have hvalue : (wrapText s).wrappedText = some s := rfl
  have htwo : 0 < term.bytes.length ∧ term.bytes.length ≤ 2 := by
    cases term <;> simp [Terminator.bytes]
  unfold TypeDef.SizedReturns
  rcases hbits : t.charBits with _ | c
  · have hout : (t.sizedWire g.lib length s).length = length :=
      WriterCall.length_paddedString _ _ _
    have hencode : t.encode g.lib (wrapText s) w
        = .ok (w.appendBytes (t.sizedWire g.lib length s)) := by
      have hdone : checkWriter (w.appendBytes (t.sizedWire g.lib length s))
          = .ok (w.appendBytes (t.sizedWire g.lib length s)) := by
        rw [checkWriter, error_appendBytes, herr]
      simp only [TypeDef.encode, ht.kind, hvalue, TypeDef.encodeText, hbits, hl,
        BitWriter.writeString_eq]
      exact hdone
    have hdecode : DecodeM.Parses (t.decode g.lib g.index) (ByteParser.bytes length >>= fun bs =>
        pure (wrapText (trimText t.trim t.padding
          (if t.encoding.needsConversion then g.lib.toAscii t.encoding bs else bs)))) := by
      simp only [TypeDef.decode, ht.kind, TypeDef.decodeText, hbits, hl]
      exact (DecodeM.parses_read (BitReader.refines_readString
        (by unfold BitReader.dynamicExtent; omega))).map _
    rw [decodesWithin_bytes_iff hholds.sized herr hencode hdecode (by rw [length_append]; omega)
      (by rw [hout]; omega) (P := fun bs => trimText t.trim t.padding
          (if t.encoding.needsConversion then g.lib.toAscii t.encoding bs else bs) = s)
      fun text rest left => by simp [wrapText]]
    rw [take_of_length_le hout.le]
    simp [hout]
  · obtain ⟨bytes, hok, hfin, hshort, hruns⟩ := readPacked_writePacked
      (if t.padding = .null then 0 else 0x20) s hholds herr
      (by have := ht.charBits c hbits; omega : c.toNat ≤ 8)
      (by omega : w.data.length + length < 2 ^ 61)
    have hencode : t.encode g.lib (wrapText s) w
        = .ok (writePacked c.toNat length (if t.padding = .null then 0 else 0x20) s w) := by
      simp only [TypeDef.encode, ht.kind, hvalue, TypeDef.encodeText, hbits, hl, checkWriter, hok]
    have hrun : ∀ rest, (bytes ++ rest).length < 2 ^ 61 →
        (DecodeM.runAt (t.decode g.lib g.index) w (bytes ++ rest)).result
            = .ok (wrapText (trimText t.trim t.padding
              (packedText c.toNat length (if t.padding = .null then 0 else 0x20) s)))
          ∧ (DecodeM.runAt (t.decode g.lib g.index) w (bytes ++ rest)).reader.position
            = w.bitPos + c.toNat * length := by
      intro rest hrest
      obtain ⟨-, -, hread⟩ := hruns rest hrest
      simp only [DecodeM.runAt, TypeDef.decode, ht.kind, TypeDef.decodeText, hbits, hl]
      rw [DecodeM.bind_ok (by rw [DecodeM.read_ok hread])]
      simp only [DecodeM.read_ok hread]
      exact ⟨rfl, BitReader.position_seek _ _⟩
    have hrest : (bytes ++ []).length < 2 ^ 61 := by simpa using hshort
    constructor
    · rintro ⟨w', bytes', hok', hfin', hdone⟩
      cases hencode.symm.trans hok'
      cases hfin.symm.trans hfin'
      obtain ⟨hresult, hposition⟩ := hdone [] hrest
      rw [(hrun [] hrest).1] at hresult
      rw [(hrun [] hrest).2] at hposition
      exact ⟨hposition, by simpa [wrapText] using hresult⟩
    · rintro ⟨hposition, htext⟩
      refine ⟨_, bytes, hencode, hfin, fun rest hrest => ?_⟩
      rw [(hrun rest hrest).1, (hrun rest hrest).2, htext]
      exact ⟨rfl, hposition⟩

end

def labelField : Field :=
  { name := "label", typeRef := "string", terminated := some "null", maxLength := some 2
    encoding := some .ascii, padding := some .null, trim := some .right }

/-- A line of text. -/
def lineField : Field :=
  { name := "line", typeRef := "string", terminated := some "crlf", encoding := some .ascii
    padding := some .null, trim := some .right }

/-- A text in EBCDIC. -/
def remarkField : Field :=
  { name := "remark", typeRef := "string", terminated := some "null", encoding := some .ebcdic
    padding := some .null, trim := some .right }

/-- A text that may be absent. -/
def commentField : Field :=
  { name := "comment", typeRef := "string", terminated := some "null", encoding := some .ascii
    padding := some .null, trim := some .none, presentWhen := some (.boolLit true) }

/-- A text with a terminator and a length. -/
def tagField : Field :=
  { name := "tag", typeRef := "string", terminated := some "null", length := some 4
    encoding := some .ascii, padding := some .null, trim := some .right }

def noteMessage : MessageDef :=
  { name := "Note"
    children := [.field labelField, .field lineField, .field remarkField, .field commentField,
      .field tagField] }

def noteProtocol : Protocol := { name := "notes", version := "1", messages := [noteMessage] }

def noteCode : ClassCode := .ofMessage .codePage037 noteProtocol noteMessage

end Conduit.Bgen

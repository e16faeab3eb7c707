import Conduit.Bgen.Charset
import Conduit.Bgen.TextPlaces
import Conduit.Io.Encodings

/-!
# Texts with a length prefix

The prefix is a word of one, two, four or eight bytes, into which the number of characters is cast.
A field of a struct is read back as long as the number fits. The code for the other places writes
no prefix.
-/

namespace Conduit.Bgen

open Bits Io TextPlace ByteParser BitWriter BitReader List

/-! ## The prefix -/

/-- The bytes of a prefix on the wire. -/
def prefixSize (bits : Nat) : Nat :=
  if bits ≤ 8 then 1 else if bits ≤ 16 then 2 else if bits ≤ 32 then 4 else 8

theorem prefixSize_pos (bits : Nat) : 0 < prefixSize bits := by
  unfold prefixSize
  split_ifs <;> omega

theorem prefixSize_le (bits : Nat) : prefixSize bits ≤ 8 := by
  unfold prefixSize
  split_ifs <;> omega

/-- The bytes of a prefix with a number that is cast to its type. -/
def prefixWord (bits : Nat) (e : Endian) (value : Nat) : List UInt8 :=
  wordBytes (prefixSize bits) (value % 2 ^ (8 * prefixSize bits)) e

/-- The number that is read from a prefix. -/
def prefixNumber (bits : Nat) (e : Endian) : ByteParser Nat :=
  (fun bs => beVal (e.order bs)) <$> bytes (prefixSize bits)

theorem writePrefix_eq (bits : Nat) (e : Endian) (value : Nat) (w : BitWriter) :
    writePrefix bits e value w = w.appendBytes (prefixWord bits e value) := by
  unfold writePrefix prefixWord prefixSize
  split_ifs
  · rw [wordBytes_one, writeU8]
  · rfl
  · rfl
  · rfl

theorem prefixNumber_word (bits : Nat) (e : Endian) (value : Nat) (rest : List UInt8) :
    prefixNumber bits e (prefixWord bits e value ++ rest)
      = some (value % 2 ^ (8 * prefixSize bits), rest) := by
  have hlen : (prefixWord bits e value).length = prefixSize bits := length_wordBytes _ _ _
  have hbytes := bytes_append (prefixWord bits e value) rest
  rw [hlen] at hbytes
  rw [prefixNumber, map_some _ hbytes, prefixWord,
    beVal_order_wordBytes e (Nat.mod_lt _ (Nat.two_pow_pos _))]

theorem toNat_byte_eq (e : Endian) : (UInt8.toNat <$> byte : ByteParser Nat)
      = (fun bs => beVal (e.order bs)) <$> bytes 1 := by
  funext bs
  rcases bs with _ | ⟨b, bs⟩
  · rfl
  have hbyte : beVal (e.order [b]) = b.toNat := by cases e <;> simp [Endian.order, beVal]
  have hword : bytes 1 (b :: bs) = some ([b], bs) := bytes_append [b] bs
  rw [map_some _ (byte_cons b bs), map_some _ hword, hbyte]

theorem refines_readPrefix (bits : Nat) (e : Endian) :
    Refines (readPrefix bits e) (prefixNumber bits e) := by
  unfold readPrefix prefixNumber prefixSize
  split_ifs
  · rw [← toNat_byte_eq]
    exact refines_readU8
  · exact refines_readFixed "read_u16" (by decide) e
  · exact refines_readFixed "read_u32" (by decide) e
  · exact refines_readFixed "read_u64" (by decide) e

/-! ## The code for a text with a prefix -/

/-- A field that has a length prefix and nothing else that ends it. -/
structure Field.Prefixed (f : Field) (type : String) : Prop where
  lengthPrefix : f.lengthPrefix = some type
  length : f.length = none
  terminated : f.terminated = none

/-- What the number in the prefix counts besides the characters. -/
def Field.prefixExtra (f : Field) (bits : Nat) : Nat :=
  if f.lengthIncludesPrefix then prefixBytes bits else 0

/-- The characters on the wire after their prefix. -/
def prefixed (f : Field) (bits : Nat) (e : Endian) (wire : List UInt8) : List UInt8 :=
  prefixWord bits e (wire.length + f.prefixExtra bits) ++ wire

/-- The parser of the characters after a prefix. A prefix of eight bytes `0xFF` is
`dynamicExtent`: the text is all that is left, and the reader is back at the last of them. -/
def prefixedText (f : Field) (bits : Nat) (e : Endian) : ByteParser (List UInt8) := do
  let len ← prefixNumber bits e
  if len < f.prefixExtra bits then failure
  else if len - f.prefixExtra bits = dynamicExtent then fun rest => some (rest, 0xFF :: rest)
  else bytes (len - f.prefixExtra bits)

section

variable {f : Field} {bits : Nat} {e : Endian} {wire : List UInt8}

theorem prefixedText_prefixed (hcount : wire.length ≠ dynamicExtent)
    (hfit : wire.length + f.prefixExtra bits < 2 ^ (8 * prefixSize bits)) (rest : List UInt8) :
    prefixedText f bits e (prefixed f bits e wire ++ rest) = some (wire, rest) := by
  rw [prefixedText, prefixed, append_assoc,
    bind_some (prefixNumber_word _ _ _ _), Nat.mod_eq_of_lt hfit, if_neg (by omega),
    Nat.add_sub_cancel, if_neg hcount]
  exact bytes_append wire rest

theorem fits_of_prefixedText {a : List UInt8}
    (h : prefixedText f bits e (prefixed f bits e wire) = some (a, [])) :
    wire.length + f.prefixExtra bits < 2 ^ (8 * prefixSize bits) := by
  rw [prefixedText, prefixed, bind_some (prefixNumber_word _ _ _ _)] at h
  split at h
  next => simp at h
  next hle =>
    split at h
    · simp at h
    obtain ⟨hlen, hsplit⟩ := bytes_eq_some h
    rw [append_nil] at hsplit
    subst hsplit
    omega

theorem length_prefixedText {a bs : List UInt8} (h : prefixedText f bits e bs = some (a, [])) :
    a.length < bs.length := by
  obtain ⟨len, rest, hnumber, htext⟩ := bind_eq_some h
  obtain ⟨word, hword, -⟩ := map_eq_some hnumber
  obtain ⟨hlen, rfl⟩ := bytes_eq_some hword
  have hpos := prefixSize_pos bits
  split at htext
  · simp at htext
  split at htext
  · simp at htext
  obtain ⟨-, rfl⟩ := bytes_eq_some htext
  simp
  omega

/-- A prefix is a number of 64 bits, and the largest one is eight bytes `0xFF`. -/
theorem prefixNumber_eq_some {bs rest : List UInt8} {len : Nat}
    (h : prefixNumber bits e bs = some (len, rest)) :
    len < 2 ^ 64 ∧ (len = dynamicExtent → bs = replicate 8 0xFF ++ rest) := by
  obtain ⟨word, hword, rfl⟩ := map_eq_some h
  obtain ⟨hlen, rfl⟩ := bytes_eq_some hword
  have hlt := beVal_lt (e.order word)
  have hsize := prefixSize_le bits
  rw [length_order, hlen] at hlt
  have hpow : 2 ^ (8 * prefixSize bits) ≤ 2 ^ 64 := Nat.pow_le_pow_right (by decide) (by omega)
  refine ⟨by omega, fun hmax => ?_⟩
  rw [hmax] at hlt
  have height : prefixSize bits = 8 := by
    by_contra hne
    have hless : 2 ^ (8 * prefixSize bits) ≤ 2 ^ 56 := Nat.pow_le_pow_right (by decide) (by omega)
    unfold dynamicExtent at hlt
    omega
  have hones : e.order word = replicate 8 0xFF := by
    rw [← beBytes_beVal (e.order word), hmax, length_order, hlen, height]
    decide
  have hword : word = replicate 8 0xFF := by
    rw [← order_order e word, hones]
    cases e <;> decide
  rw [hword]

end

/-- A text of `dynamicExtent` bytes is all that is left, and the reader moves back by one byte. -/
theorem readString_dynamicExtent {r : BitReader} (hr : r.WF) (hpos : 0 < r.nextByte) :
    readString dynamicExtent r = (.ok r.ahead, ⟨r.data, r.nextByte - 1, 0⟩) := by
  have hle := hr.nextByte_le
  have hsmall := hr.small
  have hsize : sizeT (r.nextByte + dynamicExtent) = r.nextByte - 1 := by
    unfold sizeT dynamicExtent
    omega
  have htake : takeBytes "read_bytes" dynamicExtent r
      = (.ok r.ahead, ⟨r.data, r.nextByte - 1, 0⟩) := by
    simp only [takeBytes, hr.alignToByte_byte, hsize]
    rw [if_neg (by omega), if_pos trivial, ahead]
  exact htake

/-- The text after a prefix: the one step that may move back is described from where the prefix
starts, since the byte it moves back to is part of the prefix. -/
theorem parses_prefixedText (f : Field) (bits : Nat) (e : Endian) (stop : Nat → Stop) :
    DecodeM.Parses (do
      let len ← DecodeM.read (readPrefix bits e)
      if len < f.prefixExtra bits then DecodeM.stop (stop len)
      else DecodeM.read (readString (len - f.prefixExtra bits))) (prefixedText f bits e) := by
  have hprefix := DecodeM.parses_read (refines_readPrefix bits e)
  refine hprefix.bind_at fun {r r' len rest} hr hp hmoved => ?_
  obtain ⟨hlt, hones⟩ := prefixNumber_eq_some hp
  by_cases hless : len < f.prefixExtra bits
  · simp only [if_pos hless]
    exact (DecodeM.parses_stop _).at hmoved.wf
  simp only [if_neg hless]
  by_cases hextent : len - f.prefixExtra bits = dynamicExtent
  · have hlen : len = dynamicExtent := by
      unfold dynamicExtent at hextent ⊢
      omega
    have hahead := hones hlen
    have hnext : r.data.length - r'.nextByte = rest.length := by
      rw [← hmoved.data, ← length_ahead, hmoved.ahead]
    have hstart : r.data.length - r.nextByte = 8 + rest.length := by
      rw [← length_ahead, hahead, length_append, length_replicate]
    have hle := hmoved.wf.nextByte_le
    rw [hmoved.data] at hle
    have hback : r.data.drop (r'.nextByte - 1) = 0xFF :: rest := by
      have hskip : r'.nextByte - 1 = r.nextByte + 7 := by omega
      rw [hskip, ← drop_drop]
      change r.ahead.drop 7 = _
      rw [hahead]
      rfl
    have hrun := readString_dynamicExtent hmoved.wf (by omega)
    rw [if_pos hextent, hextent, DecodeM.ParsesFrom, DecodeM.read_ok hrun, hmoved.ahead,
      hmoved.data]
    refine ⟨fun h => ?_, fun h => by simp at h⟩
    obtain ⟨rfl, rfl⟩ : rest = _ ∧ 0xFF :: rest = _ := by simpa using h
    refine ⟨rfl, ⟨hr.small, by simp; omega, by simp, fun _ => rfl⟩, hmoved.data.symm, ?_, .inl rfl⟩
    have hnext' : nextByte ⟨r.data, r'.nextByte - 1, 0⟩ = r'.nextByte - 1 := by
      simp only [nextByte, position]
      omega
    rw [ahead, hnext', hback]
  · rw [if_neg hextent]
    exact (DecodeM.parses_read (refines_readString hextent)).at hmoved.wf

section

variable {g : ClassCode} {f : Field} {type : String} (hf : f.Prefixed type)

include hf

theorem Field.Prefixed.encodeText_eq (s : List UInt8) (w : BitWriter) :
    encodeText g.lib g.index f s w
      = .ok (w.appendBytes (prefixed f (prefixType g.index type).1 (prefixType g.index type).2
          (wireText g.lib f s))) := by
  unfold encodeText prefixed
  rw [hf.length, hf.terminated, hf.lengthPrefix]
  rcases f.charBits with _ | c <;>
    simp only [writePrefix_eq, encodePlainText_eq, appendBytes_append, Field.prefixExtra]

theorem Field.Prefixed.parses_wire (scope : ExprScope) (qualified : String) :
    DecodeM.Parses (decodeWireText g.index scope qualified f)
      (some <$> prefixedText f (prefixType g.index type).1 (prefixType g.index type).2) := by
  unfold decodeWireText
  rw [hf.length, hf.lengthPrefix]
  refine DecodeM.Parses.map ?_ some
  have hparses := parses_prefixedText f (prefixType g.index type).1 (prefixType g.index type).2
    fun len =>
      let size := prefixBytes (prefixType g.index type).1
      .fault (.error ⟨.bufferOverrun,
        s!"decode {qualified}: length-prefix value {len} smaller than prefix size {size}"⟩)
  unfold decodePrefixed
  cases hincludes : f.lengthIncludesPrefix with
  | true => simpa [Field.prefixExtra, hincludes, DecodeM.fail] using hparses
  | false => simpa [Field.prefixExtra, hincludes] using hparses

end

/-- The decoder is not accepted by the C++ compiler, so that there is no class at all. -/
def Uncompiled {α : Type} (decode : DecodeM α) : Prop :=
  ∀ r : BitReader, (decode r).result = .error .uncompiled

/-- Encoding fails, or the encoding followed by any bytes is decoded to the value `a` and the reader
stops right after it. -/
def FailsOrDecodes {α : Type} (encode : BitWriter → Except Stop BitWriter) (decode : DecodeM α)
    (a : α) (w : BitWriter) : Prop :=
  (∃ e, encode w = .error (.fault e)) ∧ ¬Uncompiled decode ∨ ∃ w' bytes, encode w = .ok w' ∧ w'.finish.1 = .ok bytes ∧
      ∀ rest, (bytes ++ rest).length < 2 ^ 61 → (decode.runAt w (bytes ++ rest)).result = .ok a
          ∧ (decode.runAt w (bytes ++ rest)).reader.position = w'.bitPos

theorem failsOrDecodes_iff {α : Type} {encode : BitWriter → Except Stop BitWriter}
    {decode : DecodeM α} {a : α} {w : BitWriter} (herr : w.error = none) {out : List UInt8}
    (hencode : encode w = .ok (w.appendBytes out)) :
    FailsOrDecodes encode decode a w ↔ DecodesWithin encode decode a out.length w := by
  rw [FailsOrDecodes, DecodesWithin, encodes_iff herr hencode, encodes_iff herr hencode,
    bitPos_appendBytes herr]
  simp [hencode]

section

variable {g : ClassCode} {f : Field} {type : String} (hf : f.Prefixed type) {s : List UInt8}
  {w : BitWriter} (hw : w.Sized) (herr : w.error = none)
  (hsmall : w.data.length + s.length + 8 < 2 ^ 61)

include hf hw herr hsmall

theorem prefixed_plain_iff (hplace : plain.Holds g.index f)
    (htrim : trimMember g.index f s = s) (hmax : ¬f.exceedsMax s.length)
    {encode : BitWriter → Except Stop BitWriter}
    (hencode : encode w = encodeText g.lib g.index f s w) :
    FailsOrDecodes encode (plain.decode g f) (decoded g f s) w ↔
      s.length + f.prefixExtra (prefixType g.index type).1
          < 2 ^ (8 * prefixSize (prefixType g.index type).1)
        ∧ (s.map (f.charToWire g.lib)).map (f.charFromWire g.lib) = s := by
  have hcalls : callsOnOptional f (memberType g.index f) = false := by
    simp [callsOnOptional, hplace.plain rfl]
  have hdecode := parses_plain (.inl rfl) hplace (.inr hf.length) hcalls
    fun scope => hf.parses_wire scope _
  rw [hf.encodeText_eq] at hencode
  have hwire : (wireText g.lib f s).length = s.length := by rw [wireText_eq_map, length_map]
  have hcount : (wireText g.lib f s).length ≠ dynamicExtent := by
    unfold dynamicExtent
    omega
  have hsize := prefixSize_le (prefixType g.index type).1
  have hpos := prefixSize_pos (prefixType g.index type).1
  have hlen : (prefixed f (prefixType g.index type).1 (prefixType g.index type).2
      (wireText g.lib f s)).length = prefixSize (prefixType g.index type).1 + s.length := by
    simp [prefixed, prefixWord, hwire]
  have hout : prefixed f (prefixType g.index type).1 (prefixType g.index type).2
      (wireText g.lib f s) ≠ [] := by
    rw [← length_pos_iff]
    omega
  have hself : memberText g.lib g.index f (wireText g.lib f s) = s ↔
      (s.map (f.charToWire g.lib)).map (f.charFromWire g.lib) = s := by
    rw [memberText_eq_self_iff htrim _ hwire, wireText_eq_map]
  rw [failsOrDecodes_iff herr hencode, decodesWithin_iff hw herr hencode hdecode hout, ← hself,
    ← hwire]
  constructor
  · intro hp
    have hrest : (w.data ++ prefixed f (prefixType g.index type).1 (prefixType g.index type).2
        (wireText g.lib f s) ++ []).length < 2 ^ 61 := by
      simp only [append_nil, length_append, hlen]
      omega
    obtain ⟨a, left, htext, haccept⟩ := bind_eq_some (hp [] hrest)
    obtain ⟨-, hmember, rfl⟩ := accept_eq_some.mp haccept
    rw [decoded_inj] at hmember
    rw [append_nil] at htext
    have hfit := fits_of_prefixedText htext
    have hread := prefixedText_prefixed (e := (prefixType g.index type).2) hcount hfit []
    rw [append_nil, htext] at hread
    obtain rfl : a = wireText g.lib f s := by simpa using hread
    exact ⟨hfit, hmember⟩
  · rintro ⟨hfit, hmember⟩ rest -
    rw [bind_some (prefixedText_prefixed hcount hfit rest), hmember]
    exact accept_eq_some.mpr ⟨hmax, rfl, rfl⟩

omit hw herr hsmall in
theorem not_uncompiled_plain (hplace : plain.Holds g.index f) :
    ¬Uncompiled (plain.decode g f) := by
  intro hstop
  -- without input it is the reader that fails
  obtain ⟨e, r', hread⟩ := (refines_readPrefix (prefixType g.index type).1
    (prefixType g.index type).2).error (wf_start (by decide : ([] : List UInt8).length < 2 ^ 61))
    (map_none _ (if_neg (by have := prefixSize_pos (prefixType g.index type).1; simp [ahead]; omega)))
  have hcalls : callsOnOptional f (memberType g.index f) = false := by
    simp [callsOnOptional, hplace.plain rfl]
  have hresult : (plain.decode g f { data := [] }).result = .error (.fault e) := by
    unfold TextPlace.decode DecodeCalls.decodeField
    simp only [hplace.isInline, hplace.noInlineEnum, ClassCode.decoder_index, hcalls,
      Bool.false_eq_true, if_false]
    rw [exprScope_bind]
    simp only [DecodeCalls.decodePlain, hplace.kind_true, decodeText, hf.length, decodeWireText,
      hf.lengthPrefix, ClassCode.decoder_index]
    have hprefix : (decodePrefixed g.index (g.scope.name.qualified f.name) f type
        { data := [] }).result = .error (.fault e) := by
      unfold decodePrefixed
      rw [DecodeM.bind_error (by rw [DecodeM.read_error hread])]
    have htext : ((some <$> decodePrefixed g.index (g.scope.name.qualified f.name) f type :
        DecodeM (Option (List UInt8))) { data := [] }).result = .error (.fault e) := by
      change ((decodePrefixed g.index (g.scope.name.qualified f.name) f type >>= fun a =>
        (pure (some a) : DecodeM (Option (List UInt8)))) { data := [] }).result = _
      rw [DecodeM.bind_error hprefix]
    rcases f.charBits with _ | c
    · dsimp only
      rw [DecodeM.bind_error (by rw [DecodeM.bind_error htext])]
    · dsimp only
      rw [DecodeM.bind_error (by rw [DecodeM.bind_error htext])]
  rw [hstop] at hresult
  cases hresult

theorem not_prefixed_elsewhere {p : TextPlace} (hp : p ≠ .plain) (hplace : p.Holds g.index f)
    {w' : BitWriter} (hok : p.encode g f s w = .ok w') :
    ¬FailsOrDecodes (p.encode g f s) (p.decode g f) (decoded g f s) w := by
  obtain ⟨out, hout, rfl⟩ := encode_elsewhere hp hplace hf.length hok
  rw [failsOrDecodes_iff herr hok]
  intro h
  have hnothing : (w.data ++ out ++ []).length < 2 ^ 61 := by
    simp
    omega
  have hmore : (w.data ++ out ++ [0]).length < 2 ^ 61 := by
    simp
    omega
  have hlength : fixedOrRemaining f = remainingBytes := by simp [fixedOrRemaining, hf.length]
  cases p with
  | plain => exact absurd rfl hp
  | optional =>
    rcases hcalls : callsOnOptional f (memberType g.index f) with _ | _
    · have hdecode := parses_plain (.inr rfl) hplace (.inr hf.length) hcalls
        fun scope => hf.parses_wire scope _
      have hparse := h.parse_eq hw herr hok hdecode hnothing
      obtain ⟨a, left, htext, haccept⟩ := bind_eq_some hparse
      obtain ⟨-, hmember, rfl⟩ := accept_eq_some.mp haccept
      rw [decoded_inj] at hmember
      rw [append_nil] at htext
      have hshort := length_prefixedText htext
      have hle := length_memberText_le g.lib g.index f a
      rw [hmember] at hle
      omega
    · have hdecode := parses_uncompiled hplace hcalls
      have hparse := h.parse_eq hw herr hok hdecode hnothing
      simp at hparse
  | fx =>
    have hparse := h.parse_eq hw herr hok (parses_fx hplace (.inr hf.length) (by simp [hf.length])) hmore
    rw [hlength] at hparse
    obtain ⟨a, htext, -⟩ := map_eq_some hparse
    simp [remainingBytes] at htext
  | bitmap =>
    have hparse := h.parse_eq hw herr hok (parses_bitmap hplace (by simp [hf.length])) hmore
    rw [hlength] at hparse
    obtain ⟨a, htext, -⟩ := map_eq_some hparse
    simp [remainingBytes] at htext

/-- Encoding fails, or decoding gives the text again, exactly where a prefix is written, and the text
is too long for the field or the number of characters fits in the prefix and the characters survive
the conversion to the wire and back. -/
theorem prefixed_decodes_iff {p : TextPlace} (hplace : p.Holds g.index f)
    (htrim : trimMember g.index f s = s) :
    FailsOrDecodes (p.encode g f s) (p.decode g f) (decoded g f s) w ↔ f.unchecked = true ∧
        p = .plain ∧ (f.exceedsMax s.length
            ∨ s.length + f.prefixExtra (prefixType g.index type).1
              < 2 ^ (8 * prefixSize (prefixType g.index type).1)
            ∧ (s.map (f.charToWire g.lib)).map (f.charFromWire g.lib) = s) := by
  have huncompiled {decode : DecodeM Object} {a : Object}
      {encode : BitWriter → Except Stop BitWriter} (h : encode w = .error .uncompiled) :
      ¬FailsOrDecodes encode decode a w := by
    rintro (⟨⟨e, he⟩, -⟩ | ⟨w', bytes, hok, -⟩)
    · simp [h] at he
    · simp [h] at hok
  cases p with
  | plain =>
    have hencode := encode_plain hplace s w
    rcases hplace.checks_cases (g.scope.name.qualified f.name) s (encodeText g.lib g.index f s w)
      with ⟨hc, h⟩ | ⟨hc, hmax, message, h⟩ | ⟨hc, hmax, h⟩
    · rw [h] at hencode
      simp [huncompiled hencode, hc]
    · rw [h] at hencode
      have hfails : FailsOrDecodes (plain.encode g f s) (plain.decode g f)
          (decoded g f s) w :=
        .inl ⟨⟨_, hencode⟩, not_uncompiled_plain hf hplace⟩
      simp [hfails, hc, hmax]
    · rw [h] at hencode
      rw [prefixed_plain_iff hf hw herr hsmall hplace htrim hmax hencode]
      simp [hc, hmax]
  | optional =>
    have hencode := encode_optional hplace s w
    rcases hplace.checks_cases (g.scope.name.qualified f.name) s
      (.ok (encodeOptionalText g.lib g.index f s w))
      with ⟨hc, h⟩ | ⟨hc, hmax, message, h⟩ | ⟨hc, hmax, h⟩
    · rw [h] at hencode
      simp [huncompiled hencode, hc]
    · -- a limit alone keeps the decoder from compiling
      obtain ⟨n, hn, -⟩ := hmax
      have hcalls : callsOnOptional f (memberType g.index f) = true := by
        simp [callsOnOptional, hplace.optional rfl, hplace.isString, Option.mem_def.mp hn]
      rw [h] at hencode
      refine iff_of_false ?_ fun hplain => absurd hplain.2.1 (by decide)
      rintro (⟨-, hcompiled⟩ | ⟨w', bytes, hok, -⟩)
      · exact hcompiled fun r => by rw [decode_uncompiled hplace hcalls]; rfl
      · simp [hencode] at hok
    · rw [h] at hencode
      simp [not_prefixed_elsewhere hf hw herr hsmall (by decide) hplace hencode, hmax]
  | fx =>
    simp [not_prefixed_elsewhere hf hw herr hsmall (by decide) hplace (encode_fx hplace s w)]
  | bitmap =>
    simp [not_prefixed_elsewhere hf hw herr hsmall (by decide) hplace (encode_bitmap hplace s w)]

end

/-! ## A message of texts with a prefix -/

/-- A text of at most 255 characters. -/
def callsignField : Field :=
  { name := "callsign", typeRef := "string", lengthPrefix := some "u8", encoding := some .ascii
    padding := some .null, trim := some .right }

/-- A text that may be absent. -/
def routeField : Field :=
  { name := "route", typeRef := "string", lengthPrefix := some "u8", encoding := some .ascii
    padding := some .null, trim := some .none, presentWhen := some (.boolLit true) }

/-- A text in an FX block. -/
def aliasField : Field := { callsignField with name := "alias" }

def planMessage : MessageDef :=
  { name := "Plan"
    children := [.field callsignField, .field routeField, .fxBlock [.field aliasField]] }

def planProtocol : Protocol :=
  { name := "plans", version := "1"
    types := [{ name := "u8", base := .uint, bits := 8 }]
    messages := [planMessage] }

def planCode : ClassCode := .ofMessage .codePage037 planProtocol planMessage

/-- A short text comes back. -/
theorem prefixed_decodes_iff_callsign :
    FailsOrDecodes (plain.encode planCode callsignField [0x41, 0x42])
      (plain.decode planCode callsignField)
      (decoded planCode callsignField [0x41, 0x42]) {} := by
  have hf : callsignField.Prefixed "u8" := ⟨rfl, rfl, rfl⟩
  have hplace : plain.Holds planCode.index callsignField :=
    ⟨by decide, rfl, rfl, fun _ => rfl, nofun⟩
  exact (prefixed_decodes_iff hf sized_empty rfl (by decide) hplace rfl).mpr
    ⟨rfl, rfl, .inr ⟨by decide, by decide⟩⟩

/-- A text of 256 characters is written with the length zero, and a text that may be absent or is
in an FX block without its length. -/
theorem prefixed_texts_lost : Validator.Accepted planProtocol
      ∧ ¬FailsOrDecodes (plain.encode planCode callsignField (replicate 256 0x41))
        (plain.decode planCode callsignField)
        (decoded planCode callsignField (replicate 256 0x41)) {}
      ∧ ¬FailsOrDecodes (optional.encode planCode routeField [0x41])
        (optional.decode planCode routeField)
        (decoded planCode routeField [0x41]) {}
      ∧ ¬FailsOrDecodes (fx.encode planCode aliasField [0x41]) (fx.decode planCode aliasField)
        (decoded planCode aliasField [0x41]) {} := by
  have hcallsign : callsignField.Prefixed "u8" := ⟨rfl, rfl, rfl⟩
  have hroute : routeField.Prefixed "u8" := ⟨rfl, rfl, rfl⟩
  have halias : aliasField.Prefixed "u8" := ⟨rfl, rfl, rfl⟩
  have hplain : plain.Holds planCode.index callsignField :=
    ⟨by decide, rfl, rfl, fun _ => rfl, nofun⟩
  have hoptional : optional.Holds planCode.index routeField :=
    ⟨by decide, rfl, rfl, nofun, fun _ => rfl⟩
  have hfx : fx.Holds planCode.index aliasField := ⟨by decide, rfl, rfl, nofun, nofun⟩
  have hlong : ∀ s : List UInt8, s.length = 256 →
      trimMember planCode.index callsignField s = s →
      ¬FailsOrDecodes (plain.encode planCode callsignField s) (plain.decode planCode callsignField)
        (decoded planCode callsignField s) {} := by
    intro s hs htrim
    have hmax : ¬callsignField.exceedsMax s.length := by simp [Field.exceedsMax, callsignField]
    have hsmall : length (data {}) + s.length + 8 < 2 ^ 61 := by
      rw [hs]
      decide
    rw [prefixed_plain_iff hcallsign sized_empty rfl hsmall hplain htrim hmax
      (encode_plain_checked hplain rfl hmax {}), hs]
    exact fun h => absurd h.1 (by decide)
  refine ⟨by decide, hlong _ length_replicate (by decide +kernel), ?_, ?_⟩
  · exact not_prefixed_elsewhere hroute sized_empty rfl (by decide) (by decide) hoptional
      rfl
  · exact not_prefixed_elsewhere halias sized_empty rfl (by decide) (by decide) hfx rfl

end Conduit.Bgen

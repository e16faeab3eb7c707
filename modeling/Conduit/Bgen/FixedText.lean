import Conduit.Bgen.PackedText

/-!
# Texts of a fixed length

A text that is shorter than its field is filled up after the conversion to the character set of the
wire, and trimmed after the conversion back. It comes back where the padding that is written is
converted to the padding that is trimmed. A field with a terminator is written as if it had no
length, and packed characters are filled up with spaces and not converted.
-/

namespace Conduit.Bgen

open Io TextPlace BitWriter ByteParser DecodeM List

/-! ## Padding and trimming -/

theorem rdropWhile_beq_eq_self {s : List UInt8} {c : UInt8} (h : s.getLast? ≠ some c) :
    s.rdropWhile (· == c) = s := by
  rw [rdropWhile_eq_self_iff]
  intro hne hlast
  rw [beq_iff_eq] at hlast
  exact h (by rw [getLast?_eq_some_getLast hne, hlast])

/-- Of a text and what follows it the text is left if the rest is trimmed. -/
theorem trimText_right_append {s x y : List UInt8} {p : StringPadding}
    (hend : s.getLast? ≠ some (trimChar p)) (hx : x.length = s.length) :
    trimText .right p (x ++ y) = s ↔ x = s ∧ ∀ b ∈ y, b = trimChar p := by
  change (x ++ y).rdropWhile (· == trimChar p) = s ↔ _
  induction y using reverseRecOn with
  | nil =>
    rw [append_nil]
    constructor
    · intro h
      have hpart := rdropWhile_prefix (· == trimChar p) x
      rw [h] at hpart
      exact ⟨(hpart.eq_of_length hx.symm).symm, by simp⟩
    · rintro ⟨rfl, -⟩
      exact rdropWhile_beq_eq_self hend
  | append_singleton y b ih =>
    rw [← append_assoc]
    by_cases hb : b = trimChar p
    · rw [rdropWhile_concat_pos _ _ _ (by simpa using hb), ih]
      simp [or_imp, hb]
    · rw [rdropWhile_concat_neg _ _ _ (by simpa using hb)]
      constructor
      · intro h
        have := congrArg List.length h
        simp only [length_append, length_singleton] at this
        omega
      · exact fun h => absurd (h.2 b (by simp)) hb

theorem map_eq_self_iff {g : UInt8 → UInt8} {s : List UInt8} :
    s.map g = s ↔ ∀ b ∈ s, g b = b := by
  induction s with
  | nil => simp
  | cons b s ih => simp [ih]

theorem paddedString_of_le {s : List UInt8} {length : Nat} (hlen : s.length ≤ length)
    (pad : UInt8) : paddedString s length pad = s ++ replicate (length - s.length) pad := by
  simp [paddedString, take_of_length_le, hlen]

theorem trimText_paddedString {s : List UInt8} {p : StringPadding} {length : Nat}
    (hlen : s.length ≤ length) (hend : s.getLast? ≠ some (trimChar p)) {wire back : UInt8 → UInt8}
    (hback : ∀ b ∈ s, back (wire b) = b) (pad : UInt8) :
    trimText .right p ((paddedString (s.map wire) length pad).map back) = s ↔
      (s.length < length → back pad = trimChar p) := by
  have hself : (s.map wire).map back = s := by
    rw [map_map]
    exact (map_congr_left hback).trans (map_id s)
  rw [paddedString_of_le (by simpa using hlen), map_append, hself, map_replicate,
    trimText_right_append hend rfl, length_map]
  simp [mem_replicate, Nat.sub_eq_zero_iff_le]

/-- The characters that can be printed. -/
def Printable (b : UInt8) : Prop := 0x20 ≤ b.toNat ∧ b.toNat ≤ 0x7E

instance (b : UInt8) : Decidable (Printable b) := by
  unfold Printable
  infer_instance

theorem ebcdicToAscii_asciiToEbcdic : ∀ n, 0x20 ≤ n → n < 0x7F →
    ebcdicToAsciiTable.getD (asciiToEbcdicTable.getD n 0).toNat 0 = UInt8.ofNat n := by
  decide

theorem charFromWire_charToWire {lib : Library} (hlib : lib.HasCodePage) (f : Field) {b : UInt8}
    (hb : Printable b) : f.charFromWire lib (f.charToWire lib b) = b := by
  have hascii : b.toNat % 128 = b.toNat := Nat.mod_eq_of_lt (by have := hb.2; omega)
  unfold Field.charFromWire Field.charToWire
  rcases f.encoding with _ | e
  · rfl
  cases e with
  | ia5 =>
    apply UInt8.toNat_inj.mp
    have hmask : ∀ n : Nat, n &&& 127 = n % 128 := fun n => Nat.and_two_pow_sub_one_eq_mod n 7
    simp [hmask, hascii]
  | ebcdic =>
    simp only [hlib.ebcdicToAscii, hlib.asciiToEbcdic]
    have htable := ebcdicToAscii_asciiToEbcdic b.toNat hb.1 (by have := hb.2; omega)
    rw [htable, UInt8.ofNat_toNat]
  | ascii => rfl
  | utf8 => rfl

/-! ## Fields and types -/

/-- A string field of a fixed length that is trimmed at its end. The validator accepts from one to
eight bits for a character. -/
structure Field.FixedText (f : Field) (length : Nat) : Prop where
  length : f.length = some length
  trim : f.trim = some .right
  charBits : ∀ c ∈ f.charBits, 1 ≤ c ∧ c ≤ 8

/-- A string type of a fixed length that is trimmed at its end. -/
structure TypeDef.FixedText (t : TypeDef) (length : Nat) : Prop where
  kind : t.kind = .text
  length : t.length = some length
  charBits : t.charBits = none
  trim : t.trim = .right

/-- The encoding of the type that the field names is EBCDIC. -/
def Field.namesEbcdic (f : Field) (index : TypeIndex) : Bool :=
  (if f.typeRef == "" then none else index.type? f.typeRef).any (·.encoding == .ebcdic)

namespace TextPlace

/-- The character that fills up a text. -/
def padChar (p : TextPlace) (index : TypeIndex) (f : Field) : UInt8 :=
  if p = .bitmap ∧ fieldNeedsEncoding f = false then 0 else resolvePaddingChar index f

/-- A text is trimmed at the spaces but filled up with something else: with zeros in a bitmap
struct, or with the space of EBCDIC that the field itself does not convert. -/
def Mispads (p : TextPlace) (index : TypeIndex) (f : Field) : Prop :=
  f.effectivePadding index = .space ∧ (p = .bitmap ∧ fieldNeedsEncoding f = false
      ∨ f.encoding ≠ some .ebcdic ∧ f.namesEbcdic index = true)

/-- The text `s` survives in a field of `length` characters. Characters are packed everywhere but
in a bitmap struct. A plain field with a terminator is written in characters that are not converted,
up to and with its terminator. Otherwise it is the padding that counts. -/
def Keeps (p : TextPlace) (lib : Library) (index : TypeIndex) (f : Field) (length : Nat)
    (s : List UInt8) : Prop :=
  match if p = .bitmap then none else f.charBits, if p = .plain then f.terminated else none with
  | some charBits, _ => (∀ b ∈ s, packedChar charBits.toNat b = b)
      ∧ (s.length < length → packedChar charBits.toNat 0x20 = trimChar (f.effectivePadding index))
  | none, some text => ∃ term ∈ terminator text, length ≤ s.length + term.bytes.length
      ∧ (∀ b ∈ s, f.charFromWire lib b = b)
      ∧ ∀ b ∈ term.bytes.take (length - s.length),
        f.charFromWire lib b = trimChar (f.effectivePadding index)
  | none, none => s.length < length → ¬p.Mispads index f

end TextPlace

theorem resolvePaddingChar_eq (index : TypeIndex) (f : Field) : resolvePaddingChar index f =
      if f.effectivePadding index = .space then
        if f.encoding = some .ebcdic ∨ f.namesEbcdic index = true then 0x40 else 0x20 else 0 := by
  unfold resolvePaddingChar Field.effectivePadding Field.namesEbcdic
  rcases f.padding with _ | p
  · by_cases hname : f.typeRef = ""
    · simp [hname]
    rcases htype : index.type? f.typeRef with _ | t
    · simp [hname]
    · simp [hname]
  · simp

section

variable {lib : Library} (hlib : lib.HasCodePage)

include hlib

theorem charFromWire_padding (f : Field) : f.charFromWire lib 0 = 0
      ∧ (f.encoding ≠ some .ebcdic → f.charFromWire lib 0x20 = 0x20)
      ∧ f.charFromWire lib 0x40 = (if f.encoding = some .ebcdic then 0x20 else 0x40) := by
  unfold Field.charFromWire
  rcases f.encoding with _ | e
  · exact ⟨rfl, fun _ => rfl, rfl⟩
  cases e with
  | ebcdic =>
    simp only [hlib.ebcdicToAscii]
    decide
  | ascii | ia5 | utf8 => exact ⟨rfl, fun _ => rfl, rfl⟩

theorem charFromWire_padChar (p : TextPlace) (index : TypeIndex) (f : Field) :
    f.charFromWire lib (p.padChar index f) = trimChar (f.effectivePadding index)
      ↔ ¬p.Mispads index f := by
  obtain ⟨hzero, hspace, hebcdic⟩ := charFromWire_padding hlib f
  unfold padChar Mispads trimChar
  rw [resolvePaddingChar_eq]
  by_cases hpad : f.effectivePadding index = .space
  · by_cases hbitmap : p = .bitmap ∧ fieldNeedsEncoding f = false
    · simp [hpad, hbitmap, hzero]
    simp only [hpad, hbitmap, if_true, if_false, true_and, false_or]
    by_cases he : f.encoding = some .ebcdic
    · simp [he, hebcdic]
    by_cases hn : f.namesEbcdic index = true
    · simp [he, hn, hebcdic]
    · simp [he, hn, hspace he]
  · simp [hpad, hzero]

end

/-! ## Encodings that are read back -/

/-- The encoding, whatever follows it, is decoded to the value `a`. -/
def DecodesTo {α : Type} (encode : BitWriter → Except Stop BitWriter) (decode : DecodeM α) (a : α)
    (w : BitWriter) : Prop :=
  ∃ w' bytes, encode w = .ok w' ∧ w'.finish.1 = .ok bytes ∧
    ∀ rest, (bytes ++ rest).length < 2 ^ 61 → (decode.runAt w (bytes ++ rest)).result = .ok a

theorem BitWriter.writeString_eq (s : List UInt8) (length : Nat) (pad : UInt8) (w : BitWriter) :
    (w.writeString s length pad).2 = w.appendBytes (paddedString s length pad) := by
  rcases herr : w.error with _ | e
  · simp [writeString, herr]
  · simp [writeString, appendBytes, herr]

section

variable {α : Type} {encode : BitWriter → Except Stop BitWriter} {decode : DecodeM α} {a : α}
  {w : BitWriter} {length : Nat} {out : List UInt8}

theorem not_decodesTo_of_error {e : Stop} (h : encode w = .error e) :
    ¬DecodesTo encode decode a w := by
  rintro ⟨w', bytes, hok, -⟩
  simp [h] at hok

variable (hw : w.Sized) (herr : w.error = none) (hencode : encode w = .ok (w.appendBytes out))
  (hsmall : (w.data ++ out).length < 2 ^ 61)

include hw herr hencode

theorem decodesTo_iff {p : ByteParser α} (hdecode : Parses decode p) :
    DecodesTo encode decode a w ↔ ∀ rest, (w.data ++ out ++ rest).length < 2 ^ 61 →
      ∃ left, p (out ++ rest) = some (a, left) := by
  refine (encodes_iff herr hencode).trans (forall_congr' fun rest => forall_congr' fun hrest => ?_)
  exact hdecode.result_iff hw hrest

include hsmall

theorem decodesTo_bytes_iff (hlen : out.length = length) {q : List UInt8 → ByteParser α}
    (hdecode : Parses decode (bytes length >>= q)) (P : Prop)
    (hq : ∀ rest, (∃ left, q out rest = some (a, left)) ↔ P) : DecodesTo encode decode a w ↔ P := by
  have hparse : ∀ rest, (bytes length >>= q) (out ++ rest) = q out rest := by
    intro rest
    rw [← hlen]
    exact bind_some (bytes_append out rest)
  simp only [decodesTo_iff hw herr hencode hdecode, hparse, hq]
  exact ⟨fun h => h [] (by simpa using hsmall), fun hP _ _ => hP⟩

end

theorem Field.FixedText.toNat_le {f : Field} {length : Nat} (hf : f.FixedText length) {c : Int}
    (hc : f.charBits = some c) : c.toNat ≤ 8 := by
  have := hf.charBits c hc
  omega

theorem parses_length {g : ClassCode} {f : Field} {length : Nat} (hl : f.length = some length)
    (hbits : f.charBits = none) {p : TextPlace} (hp : p = .plain ∨ p = .optional)
    (hplace : p.Holds g.index f) (hcalls : callsOnOptional f (memberType g.index f) = false)
    (hsmall : length < 2 ^ 61) : Parses (p.decode g f)
      (bytes length >>= fun bs => accept g f (memberText g.lib g.index f bs)) := by
  refine parses_plain hp hplace (.inl hbits) hcalls fun scope => ?_
  unfold decodeWireText
  rw [hl]
  exact (parses_read (BitReader.refines_readString
    (by unfold BitReader.dynamicExtent; omega))).map some

theorem callsOnOptional_plain {g : ClassCode} {f : Field} (hplace : plain.Holds g.index f) :
    callsOnOptional f (memberType g.index f) = false := by
  simp [callsOnOptional, hplace.plain rfl]

theorem encodeBitmapText_eq (g : ClassCode) {f : Field} {length : Nat} (hl : f.length = some length)
    (s : List UInt8) (w : BitWriter) :
    encodeBitmapText g.lib g.index f s w = w.appendBytes (BitWriter.paddedString
      (wireText g.lib f s) length (bitmap.padChar g.index f)) := by
  unfold encodeBitmapText padChar
  rw [hl]
  rcases hneeds : fieldNeedsEncoding f with _ | _
  · have hwire : wireText g.lib f s = s := by
      unfold wireText
      rcases hencoding : f.encoding with _ | e
      · rfl
      · simp_all [fieldNeedsEncoding]
    simp [hwire, BitWriter.writeString_eq]
  · simp [encodeFixedText, BitWriter.writeString_eq]

section

variable {g : ClassCode} {s : List UInt8} {w : BitWriter} {length : Nat}
  (hlib : g.lib.HasCodePage) (hs : ∀ b ∈ s, Printable b) (hlen : s.length ≤ length)

include hlib hs hlen

theorem memberText_padded {f : Field} (hf : f.FixedText length)
    (hend : s.getLast? ≠ some (trimChar (f.effectivePadding g.index))) (p : TextPlace) :
    memberText g.lib g.index f
        (paddedString (wireText g.lib f s) length (p.padChar g.index f)) = s ↔
      (s.length < length → ¬p.Mispads g.index f) := by
  rw [memberText_eq, trimMember_eq, hf.trim, wireText_eq_map, ← charFromWire_padChar hlib]
  exact trimText_paddedString hlen hend (fun b hb => charFromWire_charToWire hlib f (hs b hb)) _

variable (hw : w.Sized) (herr : w.error = none) (hsmall : w.data.length + length < 2 ^ 61)

include hw herr hsmall

variable {f : Field}

section

variable (hf : f.FixedText length)
  (hend : s.getLast? ≠ some (trimChar (f.effectivePadding g.index)))

include hf hend

theorem fixed_field_iff {p : TextPlace} {encode : BitWriter → Except Stop BitWriter}
    (hencode : encode w = .ok (w.appendBytes
      (paddedString (wireText g.lib f s) length (p.padChar g.index f))))
    {decode : DecodeM Object} {q : List UInt8 → ByteParser Object}
    (hdecode : Parses decode (bytes length >>= fun bs => q (memberText g.lib g.index f bs)))
    (hq : ∀ text rest, (∃ left, q text rest = some (decoded g f s, left)) ↔ text = s) :
    DecodesTo encode decode (decoded g f s) w ↔ (s.length < length → ¬p.Mispads g.index f) := by
  have hout := WriterCall.length_paddedString (wireText g.lib f s) length (p.padChar g.index f)
  refine decodesTo_bytes_iff hw herr hencode ?_ hout hdecode _ fun rest => ?_
  · simpa [hout] using hsmall
  · rw [hq, memberText_padded hlib hs hlen hf hend]

theorem fixed_plain_iff (hbits : f.charBits = none) (hterm : f.terminated = none)
    (hc : f.unchecked = true) (hmax : ¬f.exceedsMax s.length) (hplace : plain.Holds g.index f) :
    DecodesTo (plain.encode g f s) (plain.decode g f) (decoded g f s) w ↔
      (s.length < length → ¬plain.Mispads g.index f) := by
  have hencode : plain.encode g f s w = .ok (w.appendBytes (BitWriter.paddedString
      (wireText g.lib f s) length (plain.padChar g.index f))) := by
    rw [encode_plain_checked hplace hc hmax]
    simp [encodeText, hbits, hterm, hf.length, encodeFixedText, BitWriter.writeString_eq, padChar]
  have hdecode := parses_length hf.length hbits (.inl rfl) hplace (callsOnOptional_plain hplace)
    (by omega)
  rw [fixed_field_iff hlib hs hlen hw herr hsmall hf hend hencode hdecode]
  intro text rest
  simp only [accept_eq_some, decoded_inj]
  constructor
  · rintro ⟨-, -, h, -⟩
    exact h
  · rintro rfl
    exact ⟨rest, hmax, rfl, rfl⟩

omit hlib hs hsmall in
theorem fixed_terminated_iff (hbits : f.charBits = none) {text : String}
    (hterm : f.terminated = some text) (hc : f.unchecked = true) (hmax : ¬f.exceedsMax s.length)
    (hplace : plain.Holds g.index f) (hroom : w.data.length + length + 2 < 2 ^ 61) :
    DecodesTo (plain.encode g f s) (plain.decode g f) (decoded g f s) w ↔
      plain.Keeps g.lib g.index f length s := by
  simp only [Keeps, reduceCtorEq, if_false, if_true, hbits, hterm]
  have hencode := encode_plain_checked hplace hc hmax w
  rw [encodeText, hbits, hterm] at hencode
  rcases hparse : terminator text with _ | term
  · simp only [hparse] at hencode
    simp [not_decodesTo_of_error hencode]
  simp only [hparse, encodePlainText_eq, term.write_eq, appendBytes_append] at hencode
  have htwo : term.bytes.length ≤ 2 := by cases term <;> simp [Terminator.bytes]
  rw [decodesTo_iff hw herr hencode (parses_length hf.length hbits (.inl rfl) hplace
    (callsOnOptional_plain hplace) (by omega))]
  have hread : ∀ rest left, length ≤ (s ++ term.bytes).length →
      ((bytes length >>= fun bs => accept g f (memberText g.lib g.index f bs))
        (s ++ term.bytes ++ rest) = some (decoded g f s, left) ↔
      (∀ b ∈ s, f.charFromWire g.lib b = b) ∧ (∀ b ∈ term.bytes.take (length - s.length),
        f.charFromWire g.lib b = trimChar (f.effectivePadding g.index))
      ∧ (s ++ term.bytes).drop length ++ rest = left) := by
    intro rest left hle
    have hbytes : bytes length (s ++ term.bytes ++ rest)
        = some ((s ++ term.bytes).take length, (s ++ term.bytes).drop length ++ rest) := by
      rw [bytes, if_pos (by rw [length_append]; omega), take_append_of_le_length hle,
        drop_append_of_le_length hle]
    rw [bind_some hbytes, accept_eq_some, decoded_inj, memberText_eq, trimMember_eq, hf.trim,
      Option.getD_some, take_append, take_of_length_le hlen, map_append,
      trimText_right_append hend (by simp)]
    rw [map_eq_self_iff, forall_mem_map]
    constructor
    · rintro ⟨-, ⟨h, h'⟩, rfl⟩
      exact ⟨h, h', rfl⟩
    · rintro ⟨h, h', rfl⟩
      have htext : trimText .right (f.effectivePadding g.index)
          (s.map (f.charFromWire g.lib) ++ (term.bytes.take (length - s.length)).map
            (f.charFromWire g.lib)) = s :=
        (trimText_right_append hend (by simp)).mpr ⟨map_eq_self_iff.mpr h, forall_mem_map.mpr h'⟩
      exact ⟨by rwa [htext], ⟨h, h'⟩, rfl⟩
  by_cases hle : length ≤ (s ++ term.bytes).length
  · simp only [hread _ _ hle]
    rw [length_append] at hle
    constructor
    · intro h
      obtain ⟨-, hself, hrest, -⟩ := h [] (by simp; omega)
      exact ⟨term, rfl, hle, hself, hrest⟩
    · rintro ⟨term', hterm', -, hself, hrest⟩ rest -
      cases hterm'
      exact ⟨_, hself, hrest, rfl⟩
  · constructor
    · intro h
      obtain ⟨left, hp⟩ := h [] (by simp; omega)
      have hnone : bytes length (s ++ term.bytes ++ []) = none := by
        rw [append_nil, bytes, if_neg hle]
      rw [bind_none hnone] at hp
      cases hp
    · rintro ⟨term', hterm', hle', -⟩
      cases hterm'
      rw [length_append] at hle
      exact absurd hle' hle

omit hw hs hlib herr hsmall in
theorem trimMember_packedText (charBits : Nat) :
    trimMember g.index f (packedText charBits length 0x20 s) = s ↔
      (∀ b ∈ s, packedChar charBits b = b)
        ∧ (s.length < length → packedChar charBits 0x20 = trimChar (f.effectivePadding g.index)) := by
  rw [trimMember_eq, hf.trim, Option.getD_some, packedText, paddedString_of_le hlen, map_append,
    trimText_right_append hend (by simp), map_eq_self_iff, map_replicate]
  simp [mem_replicate, Nat.sub_eq_zero_iff_le]

end

omit hlib hs hlen in
theorem fixed_optional (hf : f.FixedText length) (hplace : optional.Holds g.index f)
    {bits : List Bool} (hholds : w.Holds bits) :
    ¬DecodesTo (optional.encode g f s) (optional.decode g f) (decoded g f s) w := by
  have hcalls : callsOnOptional f (memberType g.index f) = true := by
    simp [callsOnOptional, hplace.optional rfl, hplace.isString, hf.trim]
  have hdecode := parses_uncompiled hplace hcalls
  have hencode := encode_optional hplace s w
  rcases hplace.checks_cases (g.scope.name.qualified f.name) s
    (.ok (encodeOptionalText g.lib g.index f s w))
    with ⟨hc, h⟩ | ⟨hc, hmax, message, h⟩ | ⟨hc, hmax, h⟩
  · exact not_decodesTo_of_error (hencode.trans h)
  · exact not_decodesTo_of_error (hencode.trans h)
  rw [h, encodeOptionalText, hf.length] at hencode
  rcases hbits : f.charBits with _ | c
  · simp only [hbits, encodeFixedText, BitWriter.writeString_eq] at hencode
    rw [decodesTo_iff hw herr hencode hdecode]
    intro h
    obtain ⟨left, hp⟩ := h [] (by simpa [WriterCall.length_paddedString] using hsmall)
    simp at hp
  · simp only [hbits] at hencode
    obtain ⟨bytes, -, hfin, hshort, hruns⟩ := readPacked_writePacked 0x20 s hholds
      herr (hf.toNat_le hbits) hsmall
    rintro ⟨w', bytes', hok, hfin', hdone⟩
    cases hencode.symm.trans hok
    cases hfin.symm.trans hfin'
    have hrest : (bytes ++ []).length < 2 ^ 61 := by simpa using hshort
    obtain ⟨e, he⟩ := hdecode.error (hruns [] hrest).1 rfl
    have hrun : (DecodeM.runAt (optional.decode g f) w (bytes ++ [])).result = .error e := he
    rw [hdone [] hrest] at hrun
    cases hrun

omit hlib hs hw in
theorem fixed_packed_iff (hf : f.FixedText length)
    (hend : s.getLast? ≠ some (trimChar (f.effectivePadding g.index))) {bits : List Bool}
    (hholds : w.Holds bits) {c : Int} (hbits : f.charBits = some c)
    {p : TextPlace} (hp : p = .plain ∧ f.unchecked = true ∧ ¬f.exceedsMax s.length ∨ p = .fx)
    (hplace : p.Holds g.index f) :
    DecodesTo (p.encode g f s) (p.decode g f) (decoded g f s) w ↔
      p.Keeps g.lib g.index f length s := by
  have hkeeps : p.Keeps g.lib g.index f length s ↔
      trimMember g.index f (packedText c.toNat length 0x20 s) = s := by
    rw [trimMember_packedText hlen hf hend]
    rcases hp with ⟨rfl, -⟩ | rfl <;> simp [Keeps, hbits]
  have hencode : p.encode g f s w = .ok (writePacked c.toNat length 0x20 s w) := by
    rcases hp with ⟨rfl, hc, hmax⟩ | rfl
    · simp [encode_plain_checked hplace hc hmax, encodeText, hbits, hf.length]
    · simp [encode_fx hplace, encodeFxText, hbits, hf.length]
  obtain ⟨bytes, -, hfin, hshort, hruns⟩ := readPacked_writePacked 0x20 s hholds
    herr (hf.toNat_le hbits) hsmall
  have hresult : ∀ rest, (bytes ++ rest).length < 2 ^ 61 →
      ((DecodeM.runAt (p.decode g f) w (bytes ++ rest)).result = .ok (decoded g f s) ↔
        trimMember g.index f (packedText c.toNat length 0x20 s) = s) := by
    intro rest hrest
    obtain ⟨-, hwf, hread⟩ := hruns rest hrest
    rcases hp with ⟨rfl, -, hmax⟩ | rfl
    · rw [DecodeM.runAt, decode_plain_packed hbits hf.length hread hplace hwf]
      simp [hmax]
    · exact decode_fx_packed hbits hf.length hread hplace
  rw [hkeeps]
  constructor
  · rintro ⟨w', bytes', hok, hfin', hdone⟩
    cases hencode.symm.trans hok
    cases hfin.symm.trans hfin'
    have hrest : (bytes ++ []).length < 2 ^ 61 := by simpa using hshort
    exact (hresult [] hrest).mp (hdone [] hrest)
  · intro htext
    exact ⟨_, bytes, hencode, hfin, fun rest hrest => (hresult rest hrest).mpr htext⟩

theorem fixed_unchecked_iff (hf : f.FixedText length)
    (hend : s.getLast? ≠ some (trimChar (f.effectivePadding g.index))) {p : TextPlace}
    (hp : p = .fx ∧ f.charBits = none ∨ p = .bitmap) (hplace : p.Holds g.index f) :
    DecodesTo (p.encode g f s) (p.decode g f) (decoded g f s) w ↔
      (s.length < length → ¬p.Mispads g.index f) := by
  have hencode : p.encode g f s w = .ok (w.appendBytes
      (BitWriter.paddedString (wireText g.lib f s) length (p.padChar g.index f))) := by
    rcases hp with ⟨rfl, hbits⟩ | rfl
    · simp [encode_fx hplace, encodeFxText, hbits, hf.length, encodeFixedText,
        BitWriter.writeString_eq, padChar]
    · rw [encode_bitmap hplace, encodeBitmapText_eq g hf.length]
  have hdecode : Parses (p.decode g f) (bytes length >>= fun bs =>
      pure (decoded g f (memberText g.lib g.index f bs))) := by
    have hfixed : fixedOrRemaining f = bytes length := by simp [fixedOrRemaining, hf.length]
    have hcount : f.length ≠ some BitReader.dynamicExtent := by
      simp only [hf.length, ne_eq, Option.some.injEq, BitReader.dynamicExtent]
      omega
    rw [← hfixed]
    rcases hp with ⟨rfl, hbits⟩ | rfl
    · exact parses_fx hplace (.inl hbits) hcount
    · exact parses_bitmap hplace hcount
  exact fixed_field_iff hlib hs hlen hw herr hsmall hf hend hencode
    (q := fun text => pure (decoded g f text)) hdecode
    fun text rest => by simp [decoded_inj]

theorem fixed_type_decodes {t : TypeDef} (ht : t.FixedText length)
    (hend : s.getLast? ≠ some (trimChar t.padding)) :
    DecodesTo (t.encode g.lib (wrapText s)) (t.decode g.lib g.index) (wrapText s) w := by
  -- The conversions are those of a field with the encoding of the type.
  let f : Field := { name := "", encoding := some t.encoding }
  let out := BitWriter.paddedString (s.map (f.charToWire g.lib)) length
    (paddingChar t.padding t.encoding)
  have hout : out.length = length := WriterCall.length_paddedString _ _ _
  have hencode : t.encode g.lib (wrapText s) w = .ok (w.appendBytes out) := by
    have hdone : checkWriter (w.appendBytes out) = .ok (w.appendBytes out) := by
      rw [checkWriter, BitWriter.error_appendBytes, herr]
    have hvalue : (wrapText s).wrappedText = some s := rfl
    have hwire : (if t.encoding.needsConversion then g.lib.fromAscii t.encoding s else s)
        = s.map (f.charToWire g.lib) := wireText_eq_map g.lib f s
    simp only [TypeDef.encode, ht.kind, hvalue, TypeDef.encodeText, ht.charBits, ht.length, hwire,
      BitWriter.writeString_eq]
    exact hdone
  have hdecode : Parses (t.decode g.lib g.index) (bytes length >>= fun bs =>
        pure (wrapText (trimText .right t.padding (bs.map (f.charFromWire g.lib))))) := by
    have hback : ∀ bs, (if t.encoding.needsConversion then g.lib.toAscii t.encoding bs else bs)
        = bs.map (f.charFromWire g.lib) := by
      intro bs
      have h := memberText_eq g.lib g.index f bs
      simpa [memberText, trimMember] using h
    simp only [TypeDef.decode, ht.kind, TypeDef.decodeText, ht.charBits, ht.length, hback, ht.trim]
    exact (parses_read (BitReader.refines_readString (by unfold BitReader.dynamicExtent; omega))).map _
  have hpad : f.charFromWire g.lib (paddingChar t.padding t.encoding) = trimChar t.padding := by
    obtain ⟨hzero, hspace, hebcdic⟩ := charFromWire_padding hlib f
    unfold paddingChar trimChar
    by_cases hp : t.padding = .space
    · by_cases he : t.encoding = .ebcdic
      · simpa [hp, he, f] using hebcdic
      · simpa [hp, he] using hspace (by simpa [f] using he)
    · simpa [hp] using hzero
  refine (decodesTo_bytes_iff hw herr hencode (by simpa [hout] using hsmall) hout hdecode True
    fun rest => ?_).mpr trivial
  have htrim := (trimText_paddedString hlen hend
    (fun b hb => charFromWire_charToWire hlib f (hs b hb)) (paddingChar t.padding t.encoding)).mpr
    fun _ => hpad
  simp only [out, htrim]
  simp

end

section

variable {g : ClassCode} {s : List UInt8} {w : BitWriter} {length : Nat} {bits : List Bool}
  (hlib : g.lib.HasCodePage) (hs : ∀ b ∈ s, Printable b) (hlen : s.length ≤ length)
  (hholds : w.Holds bits) (herr : w.error = none) (hsmall : w.data.length + length + 2 < 2 ^ 61)

include hlib hs hlen hholds herr hsmall

theorem fixed_checked_iff {f : Field} (hf : f.FixedText length)
    (hend : s.getLast? ≠ some (trimChar (f.effectivePadding g.index)))
    (hplace : plain.Holds g.index f) (hc : f.unchecked = true) (hmax : ¬f.exceedsMax s.length) :
    DecodesTo (plain.encode g f s) (plain.decode g f) (decoded g f s) w ↔
      plain.Keeps g.lib g.index f length s := by
  have hshort : w.data.length + length < 2 ^ 61 := by omega
  rcases hbits : f.charBits with _ | c
  · rcases hterm : f.terminated with _ | text
    · rw [fixed_plain_iff hlib hs hlen hholds.sized herr hshort hf hend hbits hterm hc hmax hplace]
      simp [Keeps, hbits, hterm]
    · exact fixed_terminated_iff hlen hholds.sized herr hf hend hbits hterm hc hmax hplace hsmall
  · exact fixed_packed_iff hlen herr hshort hf hend hholds hbits (.inl ⟨rfl, hc, hmax⟩) hplace

/-- Decoding gives the text again exactly where the field is not optional, the text passes the
checks, and the field keeps it. -/
theorem fixed_text_decodes_iff :
    (∀ (p : TextPlace) (f : Field), p.Holds g.index f → f.FixedText length →
      s.getLast? ≠ some (trimChar (f.effectivePadding g.index)) →
      (DecodesTo (p.encode g f s) (p.decode g f) (decoded g f s) w ↔ p ≠ .optional
          ∧ (p = .plain → f.unchecked = true ∧ ¬f.exceedsMax s.length)
          ∧ p.Keeps g.lib g.index f length s))
    ∧ ∀ t : TypeDef, t.FixedText length → s.getLast? ≠ some (trimChar t.padding) →
      DecodesTo (t.encode g.lib (wrapText s)) (t.decode g.lib g.index) (wrapText s) w := by
  have hshort : w.data.length + length < 2 ^ 61 := by omega
  refine ⟨fun p f hplace hf hend => ?_, fun t ht hend =>
    fixed_type_decodes hlib hs hlen hholds.sized herr hshort ht hend⟩
  cases p with
  | plain =>
    have hencode := encode_plain hplace s w
    rcases hplace.checks_cases (g.scope.name.qualified f.name) s (encodeText g.lib g.index f s w)
      with ⟨hc, h⟩ | ⟨hc, hmax, message, h⟩ | ⟨hc, hmax, h⟩
    · rw [h] at hencode
      simp [not_decodesTo_of_error hencode, hc]
    · rw [h] at hencode
      simp [not_decodesTo_of_error hencode, hmax]
    · rw [fixed_checked_iff hlib hs hlen hholds herr hsmall hf hend hplace hc hmax]
      simp [hc, hmax]
  | optional => simp [fixed_optional hholds.sized herr hshort hf hplace hholds]
  | fx =>
    rcases hbits : f.charBits with _ | c
    · rw [fixed_unchecked_iff hlib hs hlen hholds.sized herr hshort hf hend (.inl ⟨rfl, hbits⟩)
        hplace]
      simp [Keeps, hbits]
    · rw [fixed_packed_iff hlen herr hshort hf hend hholds hbits (.inr rfl) hplace]
      simp
  | bitmap =>
    rw [fixed_unchecked_iff hlib hs hlen hholds.sized herr hshort hf hend (.inr rfl) hplace]
    simp [Keeps]

end

/-! ## A message of texts of a fixed length -/

def trackIdentField : Field :=
  { name := "ident", typeRef := "string", length := some 4, padding := some .space
    trim := some .right, encoding := some .ebcdic }

/-- A text that may be absent. -/
def trackAliasField : Field :=
  { name := "alias", typeRef := "string", length := some 4, padding := some .space
    trim := some .right, presentWhen := some (.boolLit true) }

/-- A text in a bitmap struct. -/
def trackTailField : Field :=
  { name := "tail", typeRef := "string", length := some 4, padding := some .space
    trim := some .right, bit := some 0 }

/-- A text with a terminator. -/
def trackNoteField : Field :=
  { name := "note", typeRef := "string", length := some 4, terminated := some "null"
    trim := some .right }

/-- A text in six bits for a character. -/
def trackCallField : Field :=
  { name := "call", base := some .string, length := some 4, charBits := some 6
    padding := some .space, trim := some .right }

def trackMessage : MessageDef :=
  { name := "Track"
    children := [.field trackIdentField, .field trackAliasField, .field trackNoteField,
      .field trackCallField,
      .struct { name := "extras", isBitmap := true } [.field trackTailField]] }

def trackProtocol : Protocol := { name := "tracks", version := "1", messages := [trackMessage] }

def trackCode : ClassCode := .ofMessage .codePage037 trackProtocol trackMessage

/-- A text in EBCDIC that is filled up comes back. -/
theorem fixed_text_decodes_iff_ident :
    DecodesTo (plain.encode trackCode trackIdentField [0x41, 0x37])
      (plain.decode trackCode trackIdentField)
      (decoded trackCode trackIdentField [0x41, 0x37]) {} := by
  have hlib : trackCode.lib.HasCodePage := Library.hasCodePage_codePage037
  have hplace : plain.Holds trackCode.index trackIdentField :=
    ⟨by decide, rfl, rfl, fun _ => rfl, nofun⟩
  have hlen : ([0x41, 0x37] : List UInt8).length ≤ 4 := by decide
  have hiff := (fixed_text_decodes_iff hlib (by simp [Printable]) hlen holds_empty
    rfl (by decide)).1 .plain trackIdentField hplace ⟨rfl, rfl, nofun⟩ (by decide)
  refine hiff.mpr ⟨by decide, fun _ => ⟨rfl, by decide⟩, fun _ hpads => ?_⟩
  rcases hpads.2 with h | h
  · exact absurd h.1 (by decide)
  · exact absurd h.1 (by decide)

/-- A text in a bitmap struct that is filled up, a text that may be absent, one that ends before its
terminator is expected, and small letters in six bits do not come back. -/
theorem fixed_texts_lost : Validator.Accepted trackProtocol
      ∧ ¬DecodesTo (bitmap.encode trackCode trackTailField [0x41])
        (bitmap.decode trackCode trackTailField)
        (decoded trackCode trackTailField [0x41]) {}
      ∧ ¬DecodesTo (optional.encode trackCode trackAliasField [0x41])
        (optional.decode trackCode trackAliasField)
        (decoded trackCode trackAliasField [0x41]) {}
      ∧ ¬DecodesTo (plain.encode trackCode trackNoteField [0x61, 0x62])
        (plain.decode trackCode trackNoteField)
        (decoded trackCode trackNoteField [0x61, 0x62]) {}
      ∧ ¬DecodesTo (plain.encode trackCode trackCallField [0x61, 0x62, 0x63, 0x64])
        (plain.decode trackCode trackCallField)
        (decoded trackCode trackCallField [0x61, 0x62, 0x63, 0x64]) {} := by
  have hlib : trackCode.lib.HasCodePage := Library.hasCodePage_codePage037
  have hlen : ([0x41] : List UInt8).length ≤ 4 := by decide
  have hsmall : length (data {}) + 4 < 2 ^ 61 := by decide
  have htail : trackTailField.FixedText 4 := ⟨rfl, rfl, nofun⟩
  have halias : trackAliasField.FixedText 4 := ⟨rfl, rfl, nofun⟩
  have hnote : trackNoteField.FixedText 4 := ⟨rfl, rfl, nofun⟩
  have hcall : trackCallField.FixedText 4 := ⟨rfl, rfl, by decide⟩
  refine ⟨by decide +kernel, ?_, ?_, fun h => ?_, fun h => ?_⟩
  · rw [fixed_unchecked_iff hlib (by simp [Printable]) hlen sized_empty rfl hsmall
      htail (by decide) (.inr rfl) ⟨by decide, rfl, rfl, nofun, nofun⟩]
    exact fun h => h (by decide) ⟨rfl, .inl ⟨rfl, rfl⟩⟩
  · exact fixed_optional sized_empty rfl hsmall halias
      ⟨by decide, rfl, rfl, nofun, fun _ => rfl⟩ holds_empty
  · rw [fixed_terminated_iff (by decide) sized_empty rfl
      hnote (by decide) rfl rfl rfl (by decide)
      ⟨by decide, rfl, rfl, fun _ => rfl, nofun⟩ (by decide)] at h
    obtain ⟨term, hterm, hle, -⟩ := h
    cases hterm
    exact absurd hle (by decide)
  · rw [fixed_packed_iff (by decide) rfl hsmall
      hcall (by decide) holds_empty rfl (.inl ⟨rfl, rfl, by decide⟩)
      ⟨by decide, rfl, rfl, fun _ => rfl, nofun⟩] at h
    exact absurd (h.1 0x61 (by decide)) (by decide)

end Conduit.Bgen

import Conduit.Bgen.StructDecode
import Conduit.Io.ByteParser

/-!
# Where a text is coded

The code for a string field is printed in four places: for a field of a struct, for one that may be
absent, in an FX block and in a bitmap struct. What each of them writes is a list of bytes, and what
each of them reads is a parser of bytes, unless the characters are packed.
-/

namespace Conduit.Bgen

open Io DecodeM BitWriter BitReader ByteParser Value EncodeCalls DecodeCalls

/-! ## Decoders as parsers -/

namespace DecodeM

variable {α β : Type} {p : ByteParser α} {m : DecodeM α}

/-- A part of a decoder behaves as a parser of the bytes ahead. -/
structure Parses (m : DecodeM α) (p : ByteParser α) : Prop where
  ok : ∀ {r : BitReader} {a : α} {rest : List UInt8}, r.WF → p r.ahead = some (a, rest) →
    (m r).result = .ok a ∧ MovedTo r (m r).reader rest
  error : ∀ {r : BitReader}, r.WF → p r.ahead = none → ∃ e, (m r).result = .error e

/-- What `Parses` says of the decoder on one reader. -/
def ParsesFrom (m : DecodeM α) (p : ByteParser α) (r : BitReader) : Prop :=
  (∀ {a : α} {rest : List UInt8}, p r.ahead = some (a, rest) →
      (m r).result = .ok a ∧ MovedTo r (m r).reader rest)
    ∧ (p r.ahead = none → ∃ e, (m r).result = .error e)

theorem Parses.at {r : BitReader} (h : Parses m p) (hr : r.WF) : ParsesFrom m p r :=
  ⟨h.ok hr, h.error hr⟩

theorem parses_pure (a : α) : Parses (pure a : DecodeM α) (pure a) where
  ok hr h := by
    obtain ⟨rfl, rfl⟩ : a = _ ∧ _ = _ := by simpa using h
    exact ⟨rfl, .refl hr⟩
  error _ h := by simp at h

theorem Parses.bind_map {γ : Type} {k : α → γ} {m : DecodeM γ} {f : γ → DecodeM β}
    {q : α → ByteParser β} (h : Parses m (k <$> p)) (hf : ∀ a, Parses (f (k a)) (q a)) :
    Parses (m >>= f) (p >>= q) where
  ok {r b rest} hr hp := by
    rcases hfirst : p r.ahead with _ | ⟨a, bs⟩
    · rw [bind_none hfirst] at hp
      simp at hp
    rw [bind_some hfirst] at hp
    obtain ⟨hm, hmoved⟩ := h.ok hr (map_some k hfirst)
    rw [← hmoved.ahead] at hp
    obtain ⟨hrun, hmoved'⟩ := (hf a).ok hmoved.wf hp
    rw [bind_ok hm]
    exact ⟨hrun, hmoved.trans hmoved'⟩
  error {r} hr hp := by
    rcases hfirst : p r.ahead with _ | ⟨a, bs⟩
    · obtain ⟨e, hm⟩ := h.error hr (map_none k hfirst)
      rw [bind_error hm]
      exact ⟨e, rfl⟩
    rw [bind_some hfirst] at hp
    obtain ⟨hm, hmoved⟩ := h.ok hr (map_some k hfirst)
    rw [← hmoved.ahead] at hp
    obtain ⟨e, hrun⟩ := (hf a).error hmoved.wf hp
    rw [bind_ok hm]
    exact ⟨e, hrun⟩

theorem Parses.bind {f : α → DecodeM β} {q : α → ByteParser β} (h : Parses m p)
    (hf : ∀ a, Parses (f a) (q a)) : Parses (m >>= f) (p >>= q) := by
  rw [← id_map p] at h
  exact h.bind_map hf

/-- The rest of a decoder from `r` on, given where its first part leaves the reader. -/
theorem Parses.bind_at {f : α → DecodeM β} {q : α → ByteParser β} (h : Parses m p)
    (hf : ∀ {r r' : BitReader} {a : α} {rest : List UInt8}, r.WF → p r.ahead = some (a, rest) →
      MovedTo r r' rest → ParsesFrom (f a) (q a) r') : Parses (m >>= f) (p >>= q) where
  ok {r b rest} hr hp := by
    obtain ⟨a, bs, hfirst, hrest⟩ := bind_eq_some hp
    obtain ⟨hm, hmoved⟩ := h.ok hr hfirst
    rw [← hmoved.ahead] at hrest
    obtain ⟨hrun, hmoved'⟩ := (hf hr hfirst hmoved).1 hrest
    rw [bind_ok hm]
    exact ⟨hrun, hmoved.trans hmoved'⟩
  error {r} hr hp := by
    rcases hfirst : p r.ahead with _ | ⟨a, bs⟩
    · obtain ⟨e, hm⟩ := h.error hr hfirst
      rw [bind_error hm]
      exact ⟨e, rfl⟩
    rw [bind_some hfirst] at hp
    obtain ⟨hm, hmoved⟩ := h.ok hr hfirst
    rw [← hmoved.ahead] at hp
    obtain ⟨e, hrun⟩ := (hf hr hfirst hmoved).2 hp
    rw [bind_ok hm]
    exact ⟨e, hrun⟩

theorem Parses.map (h : Parses m p) (f : α → β) : Parses (f <$> m) (f <$> p) :=
  h.bind fun a => parses_pure (f a)

theorem parses_read {m : ReadM α} (h : Refines m p) : Parses (read m) p where
  ok hr hp := by
    obtain ⟨r', hm, hmoved⟩ := h.ok hr hp
    rw [read_ok hm]
    exact ⟨rfl, hmoved⟩
  error hr hp := by
    obtain ⟨e, r', hm⟩ := h.error hr hp
    rw [read_error hm]
    exact ⟨_, rfl⟩

theorem parses_stop (e : Stop) : Parses (stop e : DecodeM α) failure where
  ok _ h := by simp at h
  error _ _ := ⟨e, rfl⟩

theorem Parses.ite {c : Prop} [Decidable c] {m' : DecodeM α} {p' : ByteParser α} (h : Parses m p)
    (h' : Parses m' p') :
    Parses (if c then m else m') (if c then p else p') := by
  split
  · exact h
  · exact h'

/-- The run of a decoder over `bytes` from where the writer `w` stood. -/
def runAt (m : DecodeM α) (w : BitWriter) (bytes : List UInt8) : Outcome α :=
  m (seek w.bitPos { data := bytes })

section

variable {m : DecodeM α} {p : ByteParser α} (h : Parses m p) {w : BitWriter} (hw : w.Sized)
  {out rest : List UInt8} (hsmall : (w.data ++ out ++ rest).length < 2 ^ 61) {a : α}

include h hw hsmall

theorem Parses.result_iff : (m.runAt w (w.data ++ out ++ rest)).result = .ok a ↔
      ∃ left, p (out ++ rest) = some (a, left) := by
  obtain ⟨hwf, hahead⟩ := ahead_appendBytes hw out rest hsmall
  rw [← hahead]
  constructor
  · intro hrun
    rcases hp : p (ahead _) with _ | ⟨b, left⟩
    · obtain ⟨e, herror⟩ := h.error hwf hp
      rw [runAt, herror] at hrun
      simp at hrun
    have hok := (h.ok hwf hp).1
    rw [runAt, hok] at hrun
    simp only [Except.ok.injEq] at hrun
    exact ⟨left, by rw [hrun]⟩
  · rintro ⟨left, hp⟩
    exact (h.ok hwf hp).1

theorem Parses.position_eq (hout : out ≠ []) (hp : p (out ++ rest) = some (a, rest)) :
    (m.runAt w (w.data ++ out ++ rest)).reader.position = 8 * (w.data.length + out.length) := by
  obtain ⟨hwf, hahead⟩ := ahead_appendBytes hw out rest hsmall
  rw [← hahead] at hp
  have hmoved := (h.ok hwf hp).2
  rw [runAt, hmoved.position_eq]
  · simp
    omega
  · rw [hahead]
    simpa using hout

theorem Parses.position_le {left : List UInt8} (hp : p (out ++ rest) = some (a, left)) :
    (m.runAt w (w.data ++ out ++ rest)).reader.position ≤ 8 * (w.data ++ out ++ rest).length := by
  obtain ⟨hwf, hahead⟩ := ahead_appendBytes hw out rest hsmall
  rw [← hahead] at hp
  exact (h.ok hwf hp).2.position_le.trans (Nat.mul_le_mul_left 8 (Nat.sub_le _ _))

theorem Parses.left_of_position {k : Nat}
    (hrun : (m.runAt w (w.data ++ out ++ rest)).result = .ok a)
    (hpos : (m.runAt w (w.data ++ out ++ rest)).reader.position = 8 * (w.data.length + k)) :
    p (out ++ rest) = some (a, (out ++ rest).drop k) := by
  obtain ⟨left, hp⟩ := (h.result_iff hw hsmall).mp hrun
  obtain ⟨hwf, hahead⟩ := ahead_appendBytes hw out rest hsmall
  have hmoved := (h.ok hwf (hahead.symm ▸ hp)).2
  rw [hp, hmoved.rest_of_position hpos]
  simp [List.drop_append]

end

end DecodeM

theorem exprScope_bind {α : Type} {D : DecodeCalls} {sc : ClassScope} {outer members : Object}
    {f : ExprScope → DecodeM α} {r : BitReader} : (D.exprScope sc outer members >>= f) r
      = f ⟨D.index, sc.optional, members, outer, r.remainingBits⟩ r := rfl

theorem parses_exprScope {α : Type} {D : DecodeCalls} {sc : ClassScope} {outer members : Object}
    {f : ExprScope → DecodeM α} {p : ByteParser α} (h : ∀ scope, Parses (f scope) p) :
    Parses (D.exprScope sc outer members >>= f) p where
  ok {r _ _} hr hp := (h ⟨D.index, sc.optional, members, outer, r.remainingBits⟩).ok hr hp
  error {r} hr hp := (h ⟨D.index, sc.optional, members, outer, r.remainingBits⟩).error hr hp

/-- All bytes that are left. -/
def remainingBytes : ByteParser (List UInt8) := fun bs => some (bs, [])

theorem parses_readRemaining : Parses readRemaining remainingBytes where
  ok {r a rest} hr h := by
    obtain ⟨rfl, rfl⟩ := h
    have hlen : r.remainingBytes = r.ahead.length := by
      rw [hr.remainingBytes_eq, length_ahead, nextByte]
    have hbytes : bytes r.ahead.length r.ahead = some (r.ahead, []) := by
      simpa using bytes_append r.ahead []
    have hread : readRemaining r = read (readBytes r.ahead.length) r := by
      rw [← hlen]
      rfl
    rw [hread]
    have hcount : r.ahead.length ≠ dynamicExtent := by
      have hle := r.length_ahead
      have hsmall := hr.small
      unfold dynamicExtent
      omega
    exact (parses_read (refines_takeBytes "read_bytes" hcount)).ok hr hbytes
  error _ h := by simp [remainingBytes] at h

/-! ## The code of a class -/

/-- What the code of a field runs with: the library, the definitions, the classes that are called,
the class around the field, and the members decoded before it. -/
structure ClassCode where
  lib : Library
  index : TypeIndex
  encodeClass : String → Value → BitWriter → Except Stop BitWriter
  decodeClass : String → DecodeM Value
  turns : Nat
  scope : ClassScope
  encodeTracker : Tracker
  decodeTracker : Tracker
  outer : Object
  members : Object

namespace ClassCode

/-- The code of the first field of a message. -/
def ofMessage (lib : Library) (proto : Protocol) (m : MessageDef) : ClassCode :=
  let index := TypeIndex.ofProtocol proto
  { lib, index
    encodeClass := encodeClassAt lib index index.depth
    decodeClass := decodeClassAt lib index 0 index.depth []
    turns := 0
    scope := .top (optionalNames index index.depth) m.name m.children
    encodeTracker := .start
    decodeTracker := .start
    outer := []
    members := [] }

variable (g : ClassCode)

def encoder : EncodeCalls := encodeWith g.lib g.index g.encodeClass

def decoder : DecodeCalls := decodeWith g.lib g.index g.turns g.decodeClass

@[simp] theorem encoder_lib : g.encoder.lib = g.lib := by
  cases g.index.depth <;> rfl

@[simp] theorem encoder_index : g.encoder.index = g.index := by
  cases g.index.depth <;> rfl

@[simp] theorem decoder_lib : g.decoder.lib = g.lib := by
  cases g.index.depth <;> rfl

@[simp] theorem decoder_index : g.decoder.index = g.index := by
  cases g.index.depth <;> rfl

end ClassCode

theorem encodePlainText_eq (s : List UInt8) (w : BitWriter) :
    encodePlainText s w = w.appendBytes s := by
  rcases herr : w.error with _ | e
  · simp [encodePlainText, writeString, herr, paddedString]
  · simp [encodePlainText, writeString, appendBytes, herr]

/-- The bytes after a text. -/
def Terminator.bytes : Terminator → List UInt8
  | .crlf => [0x0D, 0x0A]
  | .byte value => [UInt8.ofNat (toUint64 value)]

theorem Terminator.write_eq (term : Terminator) (w : BitWriter) :
    term.write w = w.appendBytes term.bytes := by
  cases term with
  | crlf =>
    simp only [write, writeU8, appendBytes_append]
    rfl
  | byte value => simp [write, bytes, writeU8, wordBytes, Bits.beBytes, Endian.order]

/-- The text of a field of a bitmap struct (`cpp_structs.cpp:2072-2090`). Without a conversion it is
filled up with zeros. -/
def encodeBitmapText (lib : Library) (index : TypeIndex) (f : Field) (s : List UInt8)
    (w : BitWriter) : BitWriter :=
  match f.length with
  | some length =>
    if fieldNeedsEncoding f then encodeFixedText lib index f length s w
    else (w.writeString s length 0).2
  | none => encodePlainText (wireText lib f s) w

/-- The places where the code for a string field is printed. -/
inductive TextPlace where
  | plain
  | optional
  | fx
  | bitmap
deriving DecidableEq

namespace TextPlace

/-- The code that writes the text `s` of a field. -/
def encode (p : TextPlace) (g : ClassCode) (f : Field) (s : List UInt8) (w : BitWriter) :
    Except Stop BitWriter :=
  match p with
  | .plain =>
    (g.encoder.encodeField g.scope g.encodeTracker ((f.name, .text s) :: g.members) f
      { writer := w }).map (·.writer)
  | .optional =>
    g.encoder.encodeOptional g.scope g.encodeTracker ((f.name, .text s) :: g.members) f w
  | .fx => g.encoder.encodeFxField g.scope g.encodeTracker ((f.name, .text s) :: g.members) f w
  | .bitmap => g.encoder.encodeBitmapField g.scope f (.text s) w

/-- The code that reads a field, and adds it to the members. -/
def decode (p : TextPlace) (g : ClassCode) (f : Field) : DecodeM Object :=
  match p with
  | .plain | .optional => g.decoder.decodeField g.scope g.outer g.decodeTracker g.members f
  | .fx =>
    (fun v => g.members ++ [(f.name, v)]) <$> g.decoder.decodeFxField g.scope g.decodeTracker f
  | .bitmap => (fun v => g.members ++ [(f.name, v)]) <$> g.decoder.decodeBitmapField g.scope f

/-- The members after the text `s` has been read. -/
def decoded (g : ClassCode) (f : Field) (s : List UInt8) : Object :=
  g.members ++ [(f.name, .text s)]

/-- A string field that stands in the place and is not computed. -/
structure Holds (p : TextPlace) (index : TypeIndex) (f : Field) : Prop where
  kind : fieldKind false (memberType index f) = .text
  isInline : f.isInline = false
  autoExpr : f.autoExpr = none
  plain : p = .plain → f.isOptional = false
  optional : p = .optional → f.isOptional = true

end TextPlace

theorem fieldKind_text {fti : FieldTypeInfo} : fieldKind false fti = .text ↔
      fti.isEnum = false ∧ fti.hasFieldScale = false ∧ fti.isString = true := by
  unfold fieldKind
  split_ifs <;> simp_all

theorem isString_inlineNumberType (f : Field) : (inlineNumberType f).isString = false := by
  unfold inlineNumberType FieldTypeInfo.scaled
  split
  · split <;> rfl
  · split_ifs <;> rfl
  · rfl

theorem isString_resolveTypeDef (f : Field) (t : TypeDef) :
    (resolveTypeDef f t).isString = false := by
  unfold resolveTypeDef FieldTypeInfo.scaled
  cases t.base <;> split_ifs <;> rfl

/-- A type that is a text is nothing else. -/
structure FieldTypeInfo.OnlyText (fti : FieldTypeInfo) : Prop where
  isStruct : fti.isStruct = false
  isBytes : fti.isBytes = false
  bits : fti.bits = 0
  isSigned : fti.isSigned = false

theorem onlyText_resolveInlineType (f : Field) :
    (resolveInlineType f).isString = true → (resolveInlineType f).OnlyText := by
  have hnumber := isString_inlineNumberType f
  unfold resolveInlineType FieldTypeInfo.withEncoding
  rcases f.base with _ | base
  · simp [hnumber]
  cases base with
  | string => exact fun _ => ⟨rfl, rfl, rfl, rfl⟩
  | _ => simp [hnumber]

theorem onlyText_resolveFieldType (f : Field) (index : TypeIndex) :
    (resolveFieldType f index).isString = true → (resolveFieldType f index).OnlyText := by
  unfold resolveFieldType
  split
  · exact onlyText_resolveInlineType f
  split_ifs
  · simp
  · exact fun _ => ⟨rfl, rfl, rfl, rfl⟩
  · split <;> simp [FieldTypeInfo.withEncoding, isString_resolveTypeDef]

theorem onlyText_memberType (index : TypeIndex) (f : Field) :
    (memberType index f).isString = true → (memberType index f).OnlyText := by
  unfold memberType
  split
  · intro h
    obtain ⟨hstruct, hbytes, hbits, hsigned⟩ := onlyText_resolveFieldType f index h
    exact ⟨hstruct, hbytes, hbits, hsigned⟩
  · exact onlyText_resolveFieldType f index

/-- No comparison of a text with a number is printed for the field. -/
def Field.unchecked (f : Field) : Bool :=
  f.constraint.all fun k => k.equals.isNone && k.max.isNone && k.min.all (· == "0")

/-- Whether a text or bytes of this size are too long for the field. -/
def Field.exceedsMax (f : Field) (size : Nat) : Prop := ∃ n ∈ f.maxLength, size > toUint64 n

instance (f : Field) (size : Nat) : Decidable (f.exceedsMax size) := by
  unfold Field.exceedsMax
  infer_instance

section

variable {g : ClassCode} {f : Field} {p : TextPlace}

namespace TextPlace.Holds

variable (h : p.Holds g.index f)
include h

theorem isEnum : (memberType g.index f).isEnum = false := (fieldKind_text.mp h.kind).1

theorem hasFieldScale : (memberType g.index f).hasFieldScale = false :=
  (fieldKind_text.mp h.kind).2.1

theorem isString : (memberType g.index f).isString = true := (fieldKind_text.mp h.kind).2.2

theorem kind_true : fieldKind true (memberType g.index f) = .text := by
  simp [fieldKind, h.isEnum, h.hasFieldScale, h.isString]

theorem noInlineEnum (inlined : Bool) :
    (inlined && !f.enumValues.isEmpty && f.typeRef == "") = false := by
  have henum := h.isEnum
  by_contra hc
  rw [Bool.not_eq_false, Bool.and_assoc, Bool.and_eq_true] at hc
  simp [memberType, hc.2] at henum

/-! ## What is written -/

theorem encodeConstraint_text (qualified : String) (s : List UInt8) :
    encodeConstraint g.lib g.index qualified f (memberType g.index f) (.text s)
      = if f.unchecked then .ok () else .error .uncompiled := by
  obtain ⟨hstruct, hbytes, hbits, hsigned⟩ := onlyText_memberType g.index f h.isString
  rcases hk : f.constraint with _ | k
  · simp [encodeConstraint, Field.unchecked, hk]
  have hprints : (encodeConstraintCode (memberType g.index f) qualified).prints k
      = !f.unchecked := by
    rcases k with ⟨equals, min, max, deferred⟩
    rcases equals with _ | equals <;> rcases max with _ | max <;> rcases min with _ | min <;>
      simp [ConstraintCode.prints, encodeConstraintCode, Field.unchecked, hk, hbits, hsigned, bne]
  simp only [encodeConstraint, hk, h.isEnum, hstruct, hbytes, hprints]
  rcases f.unchecked with _ | _ <;> rfl

/-- The checks before a text is written: the comparison of a string with a number does not compile,
and a text that is too long is an error. -/
theorem checks_cases (qualified : String) (s : List UInt8) (x : Except Stop BitWriter) :
    let checked := do
      encodeConstraint g.lib g.index qualified f (memberType g.index f) (.text s)
      encodeMaxLength qualified f (memberType g.index f) (.text s)
      x
    f.unchecked = false ∧ checked = .error .uncompiled
    ∨ f.unchecked = true ∧ f.exceedsMax s.length
      ∧ (∃ message, checked = .error (errorStop .stringTooLong message))
    ∨ f.unchecked = true ∧ ¬f.exceedsMax s.length ∧ checked = x := by
  intro checked
  have hfirst := h.encodeConstraint_text qualified s
  rcases hc : f.unchecked with _ | _
  · left
    rw [hc] at hfirst
    refine ⟨rfl, ?_⟩
    simp only [checked, hfirst]
    rfl
  right
  rw [hc] at hfirst
  have hchecked : checked
      = (encodeMaxLength qualified f (memberType g.index f) (.text s) >>= fun _ => x) := by
    simp only [checked, hfirst]
    rfl
  rcases hmax : f.maxLength with _ | n
  · right
    refine ⟨rfl, by simp [Field.exceedsMax, hmax], ?_⟩
    rw [hchecked]
    simp [encodeMaxLength, hmax]
    rfl
  by_cases hlt : s.length > toUint64 n
  · left
    refine ⟨rfl, ⟨n, hmax, hlt⟩,
      s!"encode {qualified}: length {s.length} exceeds max length {n}", ?_⟩
    rw [hchecked]
    simp only [encodeMaxLength, hmax, h.isString, Bool.true_or, if_true, size, if_pos hlt]
    rfl
  · right
    refine ⟨rfl, by simpa [Field.exceedsMax, hmax] using hlt, ?_⟩
    rw [hchecked]
    simp only [encodeMaxLength, hmax, h.isString, Bool.true_or, if_true, size, if_neg hlt]
    rfl

end TextPlace.Holds

namespace TextPlace

variable {s : List UInt8}

theorem encode_plain (h : TextPlace.plain.Holds g.index f) (s : List UInt8) (w : BitWriter) :
    encode .plain g f s w = (do
      encodeConstraint g.lib g.index (g.scope.name.qualified f.name) f (memberType g.index f)
        (.text s)
      encodeMaxLength (g.scope.name.qualified f.name) f (memberType g.index f) (.text s)
      encodeText g.lib g.index f s w) := by
  have hnone : f.ownLength = none ∧ f.siblingLength = none ∧ f.countedArray = none := by
    simp [Field.ownLength, Field.siblingLength, Field.countedArray, h.autoExpr]
  simp only [encode, encodeField, hnone, h.isInline, h.noInlineEnum, List.lookup_cons_self,
    ClassCode.encoder_index, ClassCode.encoder_lib, encodePlain, h.kind_true,
    Bool.false_eq_true, if_false]
  rcases encodeConstraint g.lib g.index (g.scope.name.qualified f.name) f (memberType g.index f)
    (.text s) with _ | _
  · rfl
  rcases encodeMaxLength (g.scope.name.qualified f.name) f (memberType g.index f) (.text s)
    with _ | _
  · rfl
  rcases encodeText g.lib g.index f s w with _ | _
  · rfl
  · rfl

theorem encode_plain_checked (h : TextPlace.plain.Holds g.index f) (hc : f.unchecked = true)
    (hmax : ¬f.exceedsMax s.length) (w : BitWriter) :
    encode .plain g f s w = encodeText g.lib g.index f s w := by
  rw [encode_plain h]
  rcases h.checks_cases (g.scope.name.qualified f.name) s (encodeText g.lib g.index f s w) with
    h | h | h
  · exact absurd hc (by simp [h.1])
  · exact absurd h.2.1 hmax
  · exact h.2.2

theorem encode_optional (h : TextPlace.optional.Holds g.index f) (s : List UInt8) (w : BitWriter) :
    encode .optional g f s w = (do
      encodeConstraint g.lib g.index (g.scope.name.qualified f.name) f (memberType g.index f)
        (.text s)
      encodeMaxLength (g.scope.name.qualified f.name) f (memberType g.index f) (.text s)
      .ok (encodeOptionalText g.lib g.index f s w)) := by
  simp only [encode, encodeOptional, List.lookup_cons_self, ClassCode.encoder_index,
    ClassCode.encoder_lib, h.kind]

theorem encode_fx (h : TextPlace.fx.Holds g.index f) (s : List UInt8) (w : BitWriter) :
    encode .fx g f s w = .ok (encodeFxText g.lib g.index f s w) := by
  simp only [encode, encodeFxField, List.lookup_cons_self, ClassCode.encoder_index,
    ClassCode.encoder_lib, h.kind, h.isInline, Bool.false_eq_true, if_false]

theorem encode_bitmap (h : TextPlace.bitmap.Holds g.index f) (s : List UInt8) (w : BitWriter) :
    encode .bitmap g f s w = .ok (encodeBitmapText g.lib g.index f s w) := by
  simp only [encode, encodeBitmapField, encodeBitmapText, ClassCode.encoder_index,
    ClassCode.encoder_lib, h.kind]
  rcases f.length with _ | n
  · rfl
  · split_ifs <;> rfl

theorem encode_elsewhere (hp : p ≠ .plain) (h : p.Holds g.index f) (hl : f.length = none)
    {w w' : BitWriter} (hok : p.encode g f s w = .ok w') :
    ∃ out, out.length = s.length ∧ w' = w.appendBytes out := by
  have hwire : (wireText g.lib f s).length = s.length := by
    unfold wireText Library.fromAscii
    rcases f.encoding with _ | e
    · rfl
    · cases e <;> simp [StringEncoding.needsConversion]
  cases p with
  | plain => exact absurd rfl hp
  | optional =>
    have htext : encodeOptionalText g.lib g.index f s w = w.appendBytes s := by
      unfold encodeOptionalText
      rw [hl]
      rcases f.charBits with _ | c <;> exact encodePlainText_eq s w
    rw [encode_optional h, htext] at hok
    rcases h.checks_cases (g.scope.name.qualified f.name) s (.ok (w.appendBytes s)) with
      hc | ⟨-, -, message, hc⟩ | hc
    · rw [hc.2] at hok
      simp at hok
    · rw [hc] at hok
      simp at hok
    · rw [hc.2.2] at hok
      exact ⟨s, rfl, (Except.ok.inj hok).symm⟩
  | fx =>
    have htext : encodeFxText g.lib g.index f s w = w.appendBytes (wireText g.lib f s) := by
      unfold encodeFxText
      rw [hl]
      rcases f.charBits with _ | c <;> exact encodePlainText_eq _ w
    rw [encode_fx h, htext] at hok
    exact ⟨_, hwire, (Except.ok.inj hok).symm⟩
  | bitmap =>
    rw [encode_bitmap h, encodeBitmapText, hl] at hok
    exact ⟨_, hwire, by rw [← Except.ok.inj hok]; exact encodePlainText_eq _ w⟩

/-! ## What is read -/

/-- A text becomes a member unless it is too long. -/
def accept (g : ClassCode) (f : Field) (s : List UInt8) : ByteParser Object :=
  if f.exceedsMax s.length then failure else pure (decoded g f s)

theorem accept_eq_some {bs left : List UInt8} {o : Object} : accept g f s bs = some (o, left) ↔
      ¬f.exceedsMax s.length ∧ decoded g f s = o ∧ bs = left := by
  unfold accept
  split
  next h => simp [h]
  next h => simp [h]

theorem decoded_inj {s' : List UInt8} : decoded g f s = decoded g f s' ↔ s = s' := by simp [decoded]

theorem parses_decodeMaxLength (h : p.Holds g.index f) (qualified : String) (s : List UInt8) :
    Parses (do
      ofExcept (decodeMaxLength qualified f (memberType g.index f) (.text s))
      return decoded g f s) (accept g f s) := by
  unfold accept
  rcases hmax : f.maxLength with _ | n
  · have hok : decodeMaxLength qualified f (memberType g.index f) (.text s) = .ok () := by
      simp [decodeMaxLength, hmax]
    rw [hok, if_neg (by simp [Field.exceedsMax, hmax])]
    exact parses_pure _
  by_cases hlt : s.length > toUint64 n
  · rw [if_pos ⟨n, hmax, hlt⟩]
    simp only [decodeMaxLength, hmax, h.isString, Bool.true_or, if_true, size, if_pos hlt]
    exact parses_stop _
  · rw [if_neg (by simpa [Field.exceedsMax, hmax] using hlt)]
    simp only [decodeMaxLength, hmax, h.isString, Bool.true_or, if_true, size, if_neg hlt]
    exact parses_pure _

theorem parses_plain (hp : p = .plain ∨ p = .optional) (h : p.Holds g.index f)
    (hpacked : f.charBits = none ∨ f.length = none)
    (hcalls : callsOnOptional f (memberType g.index f) = false) {wire : ByteParser (List UInt8)}
    (hwire : ∀ scope, Parses
      (decodeWireText g.index scope (g.scope.name.qualified f.name) f) (some <$> wire)) :
    Parses (decode p g f) (wire >>= fun s => accept g f (memberText g.lib g.index f s)) := by
  have hdecode : decode p g f
      = g.decoder.decodeField g.scope g.outer g.decodeTracker g.members f := by
    rcases hp with rfl | rfl <;> rfl
  have htext : ∀ scope, decodeText g.lib g.index scope (g.scope.name.qualified f.name) f
      = (decodeWireText g.index scope (g.scope.name.qualified f.name) f >>= fun s =>
          pure (s.map fun s => text (memberText g.lib g.index f s))) := by
    intro scope
    unfold decodeText
    rcases hpacked with hc | hl
    · rw [hc]
    rw [hl]
    rcases f.charBits with _ | _ <;> rfl
  rw [hdecode]
  unfold decodeField
  simp only [h.isInline, h.noInlineEnum, ClassCode.decoder_index, ClassCode.decoder_lib, hcalls,
    Bool.false_eq_true, if_false]
  refine parses_exprScope fun scope => ?_
  simp only [decodePlain, ClassCode.decoder_index, ClassCode.decoder_lib, h.kind_true, htext]
  have hread : Parses (decodeWireText g.index scope (g.scope.name.qualified f.name) f >>= fun s =>
        pure (s.map fun s => text (memberText g.lib g.index f s)))
      ((fun s => some (text (memberText g.lib g.index f s))) <$> wire) :=
    (hwire scope).bind_map (f := fun s => pure (s.map fun s => text (memberText g.lib g.index f s)))
      fun s => parses_pure (some (text (memberText g.lib g.index f s)))
  exact hread.bind_map fun s => parses_decodeMaxLength h _ _

theorem decode_uncompiled (h : TextPlace.optional.Holds g.index f)
    (hcalls : callsOnOptional f (memberType g.index f) = true) :
    decode .optional g f = stop .uncompiled := by
  unfold decode decodeField
  simp only [h.isInline, h.noInlineEnum, ClassCode.decoder_index, hcalls, Bool.false_eq_true,
    if_false, if_true]

theorem parses_uncompiled (h : TextPlace.optional.Holds g.index f)
    (hcalls : callsOnOptional f (memberType g.index f) = true) :
    Parses (decode .optional g f) failure := by
  rw [decode_uncompiled h hcalls]
  exact parses_stop _

theorem parses_member {m : DecodeM (List UInt8)} {wire : ByteParser (List UInt8)}
    (hread : Parses m wire) :
    Parses ((fun v => g.members ++ [(f.name, v)]) <$> (do
        return text (memberText g.lib g.index f (← m)) : DecodeM Value))
      ((fun s => decoded g f (memberText g.lib g.index f s)) <$> wire) := by
  have htext : Parses (do return text (memberText g.lib g.index f (← m)))
      ((fun s => text (memberText g.lib g.index f s)) <$> wire) :=
    hread.map fun s => text (memberText g.lib g.index f s)
  exact htext.bind_map (f := fun v => pure (g.members ++ [(f.name, v)]))
    fun s => parses_pure (decoded g f (memberText g.lib g.index f s))

/-- The bytes of a text in an FX block or a bitmap struct: a fixed number, or all that are left. -/
def fixedOrRemaining (f : Field) : ByteParser (List UInt8) := f.length.elim remainingBytes bytes

theorem parses_fx (h : TextPlace.fx.Holds g.index f)
    (hpacked : f.charBits = none ∨ f.length = none) (hcount : f.length ≠ some dynamicExtent) :
    Parses (decode .fx g f)
      ((fun s => decoded g f (memberText g.lib g.index f s)) <$> fixedOrRemaining f) := by
  simp only [decode, decodeFxField, ClassCode.decoder_index, ClassCode.decoder_lib,
    h.isInline, h.kind, Bool.false_eq_true, if_false, decodeFxText, fixedOrRemaining]
  rcases hl : f.length with _ | n
  · rcases f.charBits with _ | c <;> exact parses_member parses_readRemaining
  rw [hpacked.resolve_right (by simp [hl])]
  exact parses_member (parses_read (refines_readString (by simpa [hl] using hcount)))

theorem parses_bitmap (h : TextPlace.bitmap.Holds g.index f)
    (hcount : f.length ≠ some dynamicExtent) : Parses (decode .bitmap g f)
      ((fun s => decoded g f (memberText g.lib g.index f s)) <$> fixedOrRemaining f) := by
  simp only [decode, decodeBitmapField, ClassCode.decoder_index, ClassCode.decoder_lib,
    h.kind, fixedOrRemaining]
  rcases hl : f.length with _ | n
  · exact parses_member parses_readRemaining
  · exact parses_member (parses_read (refines_readString (by simpa [hl] using hcount)))

end TextPlace

end

/-! ## Encodings that are read back -/

/-- An encoding that is followed by any bytes is decoded to the value `a`, and the reader stops
`size` bytes after where the encoding begins. -/
def DecodesWithin {α : Type} (encode : BitWriter → Except Stop BitWriter) (decode : DecodeM α)
    (a : α) (size : Nat) (w : BitWriter) : Prop :=
  ∃ w' bytes, encode w = .ok w' ∧ w'.finish.1 = .ok bytes ∧
    ∀ rest, (bytes ++ rest).length < 2 ^ 61 → (decode.runAt w (bytes ++ rest)).result = .ok a
        ∧ (decode.runAt w (bytes ++ rest)).reader.position = 8 * (w.sizeBytes + size)

theorem encodes_iff {encode : BitWriter → Except Stop BitWriter} {w : BitWriter} {out : List UInt8}
    (herr : w.error = none) (hencode : encode w = .ok (w.appendBytes out))
    {P : BitWriter → List UInt8 → Prop} :
    (∃ w' bytes, encode w = .ok w' ∧ w'.finish.1 = .ok bytes ∧ P w' bytes) ↔
      P (w.appendBytes out) (w.data ++ out) := by
  simp [hencode, finish_appendBytes herr]

section

variable {α : Type} {encode : BitWriter → Except Stop BitWriter} {decode : DecodeM α} {a : α}
  {w : BitWriter} (hw : w.Sized) (herr : w.error = none) {out : List UInt8}
  (hencode : encode w = .ok (w.appendBytes out)) {p : ByteParser α}
  (hdecode : Parses decode p)

include hw herr hencode hdecode

theorem DecodesWithin.parse_eq (h : DecodesWithin encode decode a out.length w) {rest : List UInt8}
    (hrest : (w.data ++ out ++ rest).length < 2 ^ 61) : p (out ++ rest) = some (a, rest) := by
  obtain ⟨hrun, hpos⟩ := (encodes_iff herr hencode).mp h rest hrest
  rw [← hw] at hpos
  have hp := hdecode.left_of_position hw hrest hrun hpos
  rwa [List.drop_left] at hp

/-- An encoding that appends bytes, and a decoder that is a parser. -/
theorem decodesWithin_iff (hout : out ≠ []) : DecodesWithin encode decode a out.length w ↔
      ∀ rest, (w.data ++ out ++ rest).length < 2 ^ 61 → p (out ++ rest) = some (a, rest) := by
  refine ⟨fun h rest hrest => h.parse_eq hw herr hencode hdecode hrest, fun hp => ?_⟩
  refine (encodes_iff herr hencode).mpr fun rest hrest => ?_
  refine ⟨(hdecode.result_iff hw hrest).mpr ⟨rest, hp rest hrest⟩, ?_⟩
  rw [hdecode.position_eq hw hrest hout (hp rest hrest), hw]

end

theorem not_decodesWithin {α : Type} {encode : BitWriter → Except Stop BitWriter}
    {decode : DecodeM α} {a : α} {w : BitWriter} (hw : w.Sized) (herr : w.error = none) {size : Nat}
    (hencode : ∀ w', encode w = .ok w' → ∃ out, out.length < size ∧ w' = w.appendBytes out)
    {p : ByteParser α} (hdecode : Parses decode p)
    (hsmall : w.data.length + size ≤ 2 ^ 61) : ¬DecodesWithin encode decode a size w := by
  rintro ⟨w', bytes, hw', hbytes, hruns⟩
  obtain ⟨out, hout, rfl⟩ := hencode w' hw'
  rw [finish_appendBytes herr] at hbytes
  cases hbytes
  have hrest : (w.data ++ out ++ []).length < 2 ^ 61 := by
    simp
    omega
  obtain ⟨hrun, hpos⟩ := hruns [] hrest
  obtain ⟨left, hp⟩ := (hdecode.result_iff hw hrest).mp hrun
  have hle := hdecode.position_le hw hrest hp
  rw [hpos, ← hw] at hle
  simp at hle
  omega

end Conduit.Bgen

import Conduit.Bgen.FrameLayout
import Mathlib.Data.List.Induction

/-!
# The length of a frame

The generated session recovers the size of a frame from the length field that the encoder has
patched. The place, the width and the arithmetic of that field are worked out twice: by the encoder
from the statements it executes, and by the analyzer from the declared widths.
-/

namespace Conduit.Bgen

open List

open Bits Io SessionAnalyzer FrameCode Validator BitReader EncodeStep SessionInfo
open BitWriter (Sized Extends)

/-! ## The modifier and its inverse -/

/-- A length survives the modifier and a field of `n` bytes: nothing is cut off, and a division
leaves no remainder. -/
def LengthFits (m : ArithModifier) (n length : Nat) : Prop :=
  let c := toUint64 m.literal
  length < 2 ^ 64 ∧
    match m.op with
    | .none => length < 2 ^ (8 * n)
    | .add => (length + c) % 2 ^ 64 < 2 ^ (8 * n)
    | .sub => (length + (2 ^ 64 - c)) % 2 ^ 64 < 2 ^ (8 * n)
    | .mul => length * c < 2 ^ (8 * n) ∧ (c = 0 → length = 0)
    | .div => length / c * c = length ∧ length / c < 2 ^ (8 * n)
    | .mod => (c = 0 ∨ length < c) ∧ length < 2 ^ (8 * n)

instance (m : ArithModifier) (n length : Nat) : Decidable (LengthFits m n length) := by
  unfold LengthFits
  cases m.op <;> infer_instance

theorem toUint64_lt_size (value : Int) : toUint64 value < 2 ^ 64 := by
  unfold toUint64
  omega

section Modifier

variable {length c bound : Nat}

theorem add_sub_cancels_iff (hc : c < 2 ^ 64) (hbound : bound ≤ 2 ^ 64) (hpos : 0 < bound) :
    sizeT (sizeT (length + c) % bound + (2 ^ 64 - c)) = length
      ↔ length < 2 ^ 64 ∧ (length + c) % 2 ^ 64 < bound := by
  have hlt : sizeT (length + c) % bound < bound := Nat.mod_lt _ hpos
  unfold sizeT at hlt ⊢
  constructor
  · intro h
    omega
  rintro ⟨hsmall, hfits⟩
  rw [Nat.mod_eq_of_lt hfits]
  omega

theorem sub_add_cancels_iff (hc : c < 2 ^ 64) (hbound : bound ≤ 2 ^ 64) (hpos : 0 < bound) :
    sizeT (sizeT (length + (2 ^ 64 - c)) % bound + c) = length
      ↔ length < 2 ^ 64 ∧ (length + (2 ^ 64 - c)) % 2 ^ 64 < bound := by
  have hlt : sizeT (length + (2 ^ 64 - c)) % bound < bound := Nat.mod_lt _ hpos
  unfold sizeT at hlt ⊢
  constructor
  · intro h
    omega
  rintro ⟨hsmall, hfits⟩
  rw [Nat.mod_eq_of_lt hfits]
  omega

theorem mul_div_cancels_iff (hbound : bound ≤ 2 ^ 64) (hpos : 0 < bound) :
    sizeT (length * c) % bound / c = length
      ↔ length < 2 ^ 64 ∧ length * c < bound ∧ (c = 0 → length = 0) := by
  constructor
  · intro h
    have hlt : sizeT (length * c) % bound < bound := Nat.mod_lt _ hpos
    have hback := Nat.div_mul_le_self (sizeT (length * c) % bound) c
    rw [h] at hback
    refine ⟨?_, by omega, ?_⟩
    · have hdiv := Nat.div_le_self (sizeT (length * c) % bound) c
      omega
    · rintro rfl
      rw [← h, Nat.div_zero]
  · rintro ⟨-, hfits, hzero⟩
    have hword : sizeT (length * c) = length * c := Nat.mod_eq_of_lt (by omega)
    rw [hword, Nat.mod_eq_of_lt hfits]
    rcases Nat.eq_zero_or_pos c with rfl | hc
    · rw [hzero rfl]
    · exact Nat.mul_div_cancel length hc

theorem div_mul_cancels_iff (hpos : 0 < bound) : sizeT (length / c % bound * c) = length
      ↔ length < 2 ^ 64 ∧ length / c * c = length ∧ length / c < bound := by
  have hle : length / c % bound * c ≤ length / c * c := Nat.mul_le_mul_right c (Nat.mod_le _ _)
  have hback := Nat.div_mul_le_self length c
  constructor
  · intro h
    have hsmall : length < 2 ^ 64 := by
      rw [← h]
      exact Nat.mod_lt _ (by decide)
    have hword : sizeT (length / c % bound * c) = length / c % bound * c :=
      Nat.mod_eq_of_lt (by omega)
    refine ⟨hsmall, by omega, ?_⟩
    rcases Nat.eq_zero_or_pos c with rfl | hc
    · rwa [Nat.div_zero]
    have hsame : length / c % bound * c = length / c * c := by omega
    rw [← Nat.eq_of_mul_eq_mul_right hc hsame]
    exact Nat.mod_lt _ hpos
  · rintro ⟨hsmall, hexact, hfits⟩
    rw [Nat.mod_eq_of_lt hfits, hexact]
    exact Nat.mod_eq_of_lt hsmall

theorem mod_mod_cancels_iff (hbound : bound ≤ 2 ^ 64) (hpos : 0 < bound) :
    length % c % bound % c = length ↔ length < 2 ^ 64 ∧ (c = 0 ∨ length < c) ∧ length < bound := by
  constructor
  · intro h
    have hlt : length % c % bound < bound := Nat.mod_lt _ hpos
    have hle : length % c % bound % c ≤ length % c % bound := Nat.mod_le _ _
    refine ⟨by omega, ?_, by omega⟩
    rcases Nat.eq_zero_or_pos c with hc | hc
    · exact .inl hc
    right
    rw [← h]
    exact Nat.mod_lt _ hc
  · rintro ⟨-, hc, hfits⟩
    have hmod : length % c = length := by
      rcases hc with rfl | hc
      · exact Nat.mod_zero length
      · exact Nat.mod_eq_of_lt hc
    rw [hmod, Nat.mod_eq_of_lt hfits, hmod]

end Modifier

variable {f : Field} {a : AutoExpr} {children : List StructChild}

section

variable (l : LengthCode)

theorem LengthCode.width_le : l.width ≤ 4 := by
  unfold LengthCode.width
  split
  · omega
  · split <;> omega

theorem LengthCode.one_le_width : 1 ≤ l.width := by
  unfold LengthCode.width
  split
  · omega
  · split <;> omega

theorem LengthCode.stored_mod (length : Nat) :
    l.stored length % 2 ^ (8 * l.width) = applyArith length l.modifier % 2 ^ (8 * l.width) := by
  apply Nat.mod_mod_of_dvd
  apply Nat.pow_dvd_pow
  unfold LengthCode.width storageBits
  split
  · omega
  split
  · omega
  · split <;> omega

theorem LengthCode.stored_mod_lt (length : Nat) : l.stored length % 2 ^ (8 * l.width) < 2 ^ 64 := by
  have hwidth := l.width_le
  calc l.stored length % 2 ^ (8 * l.width) < 2 ^ (8 * l.width) := Nat.mod_lt _ (Nat.two_pow_pos _)
    _ ≤ 2 ^ 64 := Nat.pow_le_pow_right (by decide) (by omega)

theorem LengthCode.reverseArith_stored_iff (length : Nat) :
    reverseArith (l.stored length % 2 ^ (8 * l.width)) l.modifier = length
      ↔ LengthFits l.modifier l.width length := by
  have hwidth := l.width_le
  have hbound : 2 ^ (8 * l.width) ≤ 2 ^ 64 := Nat.pow_le_pow_right (by decide) (by omega)
  have hpos : 0 < 2 ^ (8 * l.width) := Nat.two_pow_pos _
  have hc := toUint64_lt_size l.modifier.literal
  rw [l.stored_mod]
  unfold applyArith reverseArith LengthFits ArithModifier.hasModifier
  cases l.modifier.op with
  | none =>
    constructor
    · intro h
      have hsame : length % 2 ^ (8 * l.width) = length := h
      exact ⟨by omega, by omega⟩
    · rintro ⟨-, hfits⟩
      exact Nat.mod_eq_of_lt hfits
  | add => exact add_sub_cancels_iff hc hbound hpos
  | sub => exact sub_add_cancels_iff hc hbound hpos
  | mul => exact mul_div_cancels_iff hbound hpos
  | div => exact div_mul_cancels_iff hpos
  | mod => exact mod_mod_cancels_iff hbound hpos

end

/-! ## The analyzer and the encoder find the same field -/

/-- The last length field among some children. -/
def lastLength (children : List StructChild) : Option (Field × AutoExpr) :=
  ((autoFields children).filter (·.2.kind == .length)).getLast?

theorem lastLength_append (children : List StructChild) (child : StructChild) :
    lastLength (children ++ [child]) = (lastLength [child]).or (lastLength children) := by
  simp only [lastLength, autoFields, filterMap_append, filter_append, getLast?_append]

/-- What the scan knows about the length field. -/
structure SessionInfo.LengthOf (index : TypeIndex) (si : SessionInfo) (f : Field) (a : AutoExpr) :
    Prop where
  fieldName : si.lengthFieldName = f.name
  fieldRef : si.frameLengthFieldRef = a.fieldRef
  bits : si.frameLengthBits = resolveFieldBits index f
  modifier : si.frameLengthModifier = a.modifier
  endian : si.frameLengthEndian = f.endian

theorem lastLength_field (hauto : f.autoExpr = some a) (hkind : a.kind = .length) :
    lastLength [.field f] = some (f, a) := by
  simp [lastLength, autoFields, hauto, hkind]

theorem lastLength_eq_some {child : StructChild} (h : lastLength [child] = some (f, a)) :
    child = .field f ∧ f.autoExpr = some a ∧ a.kind = .length := by
  cases child with
  | field g =>
    cases hauto : g.autoExpr with
    | none => simp [lastLength, autoFields, hauto] at h
    | some b =>
      by_cases hkind : b.kind = .length
      · rw [lastLength_field hauto hkind] at h
        obtain ⟨rfl, rfl⟩ := h
        exact ⟨rfl, hauto, hkind⟩
      · simp [lastLength, autoFields, hauto, hkind] at h
  | _ => simp [lastLength, autoFields] at h

theorem mem_of_lastLength (h : lastLength children = some (f, a)) :
    f ∈ plainFields children ∧ f.autoExpr = some a ∧ a.kind = .length := by
  have hmem := mem_of_getLast? h
  simp only [mem_filter, autoFields, mem_filterMap, beq_iff_eq] at hmem
  obtain ⟨⟨child, hchild, hauto⟩, hkind⟩ := hmem
  cases child with
  | field g =>
    simp only [Option.map_eq_some_iff, Prod.mk.injEq] at hauto
    obtain ⟨b, hb, rfl, rfl⟩ := hauto
    exact ⟨mem_filterMap.mpr ⟨.field g, hchild, rfl⟩, hb, hkind⟩
  | _ => cases hauto

theorem SessionInfo.LengthOf.scanHeaderChild {index : TypeIndex} {si : SessionInfo} {offset : Nat}
    {child : StructChild} (h : si.LengthOf index f a) (hchild : lastLength [child] = none) :
    (SessionAnalyzer.scanHeaderChild index (si, offset) child).1.LengthOf index f a := by
  cases child with
  | field g =>
    have hauto : (SessionAnalyzer.scanAuto index offset g si).LengthOf index f a := by
      unfold SessionAnalyzer.scanAuto
      split
      next => exact h
      next b hauto =>
        split
        next hkind => exact ⟨h.1, h.2, h.3, h.4, h.5⟩
        next hkind =>
          rw [lastLength_field hauto hkind] at hchild
          cases hchild
        next hkind => exact ⟨h.1, h.2, h.3, h.4, h.5⟩
        next => exact h
    exact ⟨hauto.1, hauto.2, hauto.3, hauto.4, hauto.5⟩
  | struct s children =>
    simp only [SessionAnalyzer.scanHeaderChild]
    split <;> exact h
  | _ => exact h

theorem lengthFieldName_scanHeader (index : TypeIndex) (start : SessionInfo × Nat)
    (h : lastLength children = none) :
    (children.foldl (scanHeaderChild index) start).1.lengthFieldName = start.1.lengthFieldName := by
  induction children using reverseRecOn with
  | nil => rfl
  | append_singleton children child ih =>
    rw [lastLength_append, Option.or_eq_none_iff] at h
    rw [foldl_append, foldl_cons, ← ih h.2]
    cases child with
    | field f =>
      simp only [scanHeaderChild, scanAuto]
      split
      next => rfl
      next a hauto =>
        split
        next hkind => rfl
        next hkind =>
          rw [lastLength_field hauto hkind] at h
          cases h.1
        next hkind => rfl
        next => rfl
    | struct s children =>
      simp only [scanHeaderChild]
      split <;> rfl
    | _ => rfl

theorem scanHeader_length (index : TypeIndex) (start : SessionInfo × Nat)
    (h : lastLength children = some (f, a)) :
    (children.foldl (scanHeaderChild index) start).1.LengthOf index f a := by
  induction children using reverseRecOn with
  | nil => simp [lastLength, autoFields] at h
  | append_singleton children child ih =>
    rw [lastLength_append] at h
    rw [foldl_append, foldl_cons]
    cases hchild : lastLength [child] with
    | none =>
      rw [hchild] at h
      exact (ih h).scanHeaderChild hchild
    | some found =>
      rw [hchild, Option.some_or, Option.some.injEq] at h
      subst h
      obtain ⟨rfl, hauto, hkind⟩ := lastLength_eq_some hchild
      simp only [scanHeaderChild, scanAuto, hauto, hkind]
      exact ⟨rfl, rfl, rfl, rfl, rfl⟩

theorem FrameCode.Generated.lengthOf {proto : Protocol} {frame : FrameDef} {code : FrameCode}
    {l : LengthCode} (h : Generated proto frame code) (hl : code.length = some l) :
    ∃ f a, lastLength frame.headerFields = some (f, a) ∧ code.session.LengthOf code.index f a
      ∧ (a.fieldRef = "" ∨ a.fieldRef = "payload")
      ∧ l = { payloadOnly := a.fieldRef == "payload", modifier := a.modifier,
              bits := (resolveFieldType f code.index).bits, endian := f.endian } := by
  have hemit := h.length
  rw [hl] at hemit
  unfold emitLength at hemit
  split at hemit
  next => cases hemit
  next f a hlast =>
    split at hemit
    next href =>
      cases hemit
      have hscan := scanHeader_length (TypeIndex.ofProtocol proto)
        ({ payloadIsArray := frame.payload.isArray
           payloadLengthFrom := frame.payload.lengthFrom }, 0) hlast
      refine ⟨f, a, hlast, ?_, by simpa using href, rfl⟩
      rw [h.session, h.index]
      exact ⟨hscan.1, hscan.2, hscan.3, hscan.4, hscan.5⟩
    next => cases hemit

/-! ## Reading the length back -/

/-- The number of bytes that the session reads. -/
def SessionInfo.readWidth (si : SessionInfo) : Nat :=
  if si.frameLengthBits ≤ 8 then 1
  else if si.frameLengthBits ≤ 16 then 2
  else if si.frameLengthBits ≤ 32 then 4
  else 8

theorem SessionInfo.lengthRead_eq (si : SessionInfo) {r : BitReader} (hr : r.WF)
    (hroom : (r.position + 7) / 8 + si.readWidth ≤ r.data.length) :
    (si.lengthRead r).1 = .ok (beVal (si.frameLengthEndian.order
      ((r.data.drop ((r.position + 7) / 8)).take si.readWidth))) := by
  unfold lengthRead
  unfold readWidth at hroom ⊢
  split
  next h8 =>
    rw [if_pos h8] at hroom
    rw [readU8_eq hr hroom]
    -- a single byte has no order
    have hone : ((r.data.drop ((r.position + 7) / 8)).take 1).length = 1 := by
      rw [length_take, length_drop]
      omega
    obtain ⟨byte, hbyte⟩ := length_eq_one_iff.mp hone
    rw [hbyte]
    cases si.frameLengthEndian <;> rfl
  next h8 =>
    rw [if_neg h8] at hroom
    split
    next h16 =>
      rw [if_pos h16] at hroom
      exact readFixed_eq _ _ hr hroom
    next h16 =>
      rw [if_neg h16] at hroom
      split
      next h32 =>
        rw [if_pos h32] at hroom
        exact readFixed_eq _ _ hr hroom
      next h32 =>
        rw [if_neg h32] at hroom
        exact readFixed_eq _ _ hr hroom

theorem SessionInfo.rawLength_eq (si : SessionInfo) {data : List UInt8}
    (hsmall : data.length < 2 ^ 61)
    (hroom : (si.frameLengthBitOffset + 7) / 8 + si.readWidth ≤ data.length) :
    (si.rawLength { data }).1 = .ok (beVal (si.frameLengthEndian.order
      ((data.drop ((si.frameLengthBitOffset + 7) / 8)).take si.readWidth))) := by
  have hr := wf_start hsmall
  have hpos : position { data } = 0 := rfl
  unfold rawLength
  split
  next hoff =>
    have hskip : skipBits si.frameLengthBitOffset { data }
        = (.ok (), seek si.frameLengthBitOffset { data }) := by
      have hroom' : position { data } + si.frameLengthBitOffset ≤ 8 * data.length := by omega
      rw [skipBits, hr.remainingBits_eq, if_neg (by simp only; omega),
        hr.advance_eq hroom', hpos, Nat.zero_add]
    rw [ReadM.bind_ok hskip]
    have hseek := hr.seek (p := si.frameLengthBitOffset) (by simp only; omega)
    have hread := si.lengthRead_eq hseek (by simpa using hroom)
    simpa using hread
  next hoff =>
    have hzero : si.frameLengthBitOffset = 0 := by omega
    rw [hzero] at hroom ⊢
    exact si.lengthRead_eq hr hroom

/-! ## Recovering the size of a frame -/

/-- The byte from which the length field counts. -/
def FrameCode.lengthOrigin (code : FrameCode) (l : LengthCode) : Nat :=
  if l.payloadOnly then code.headerLayout.lengthEnd else 0

/-- The declared header and the written one agree about the length field: it starts at the same
byte, has the same width and lies inside the declared header. -/
structure FrameCode.LengthLayout (code : FrameCode) (l : LengthCode) : Prop where
  declared : 0 < code.session.frameLengthBits
  place : (code.session.frameLengthBitOffset + 7) / 8 = code.headerLayout.lengthStart
  width : code.session.readWidth = l.width
  inside : code.headerLayout.lengthStart + l.width ≤ code.session.minFrameHeaderSize
  small : code.session.minFrameHeaderSize + code.session.frameFooterSize < 2 ^ 61

/-- The session adds for the rest of the frame what the encoder has not counted: everything for a
length of the frame, and for a length of the payload exactly what stands before it. -/
def FrameCode.CountsRest (code : FrameCode) (l : LengthCode) : Prop :=
  l.payloadOnly = true → code.headerLayout.lengthEnd
    = code.session.minFrameHeaderSize + code.session.frameFooterSize

theorem HeaderLayout.lengthEnd_le (cs : List FieldCode) {l : HeaderLayout}
    (h : l.lengthEnd ≤ (l.position + 7) / 8) :
    (cs.foldl add l).lengthEnd ≤ ((cs.foldl add l).position + 7) / 8 := by
  induction cs generalizing l with
  | nil => exact h
  | cons c cs ih =>
    apply ih
    unfold HeaderLayout.add
    cases c.source with
    | placeholder => exact le_rfl
    | _ =>
      simp only
      omega

section Encoded

variable {code : FrameCode} {l : LengthCode} {object : FrameObject} {steps : List EncodeStep}
  {bytes : List UInt8}

/-- An encoded frame holds the stored length at the place that the layout says, for the length
that is counted from the origin to the end of the frame. -/
theorem FrameCode.stored_of_encodeBytes (hl : code.length = some l)
    (henc : code.encodeBytes object (runAll steps) = .ok bytes) :
    code.headerLayout.lengthStart + l.width ≤ bytes.length ∧ code.lengthOrigin l ≤ bytes.length
      ∧ (bytes.drop code.headerLayout.lengthStart).take l.width
        = wordBytes l.width (l.stored (bytes.length - code.lengthOrigin l)) l.endian := by
  obtain ⟨body, hpay, herr, hroom, hbytes⟩ := (code.encodeBytes_eq_ok_iff object).mp henc
  have hroom := hroom l hl
  have hfooter := code.extends_writeFooter object body
  have hbody := extends_runAll hpay
  obtain ⟨hheader, hat⟩ := code.holds_writeHeader (hbody.error (hfooter.error herr))
  have hsized : (code.writeFooter object body).data.length
      = (code.writeFooter object body).sizeBytes := hfooter.sized (hbody.sized hheader.sized)
  have hpos := hbody.pos.trans hfooter.pos
  generalize code.writeHeader object {} = s at *
  generalize code.writeFooter object body = w at *
  rw [hat.position] at hpos
  simp only [finalBytes, hl, BitWriter.patched, hat.lengthStart] at hbytes hroom
  have hlength : bytes.length = w.sizeBytes := by
    rw [hbytes, BitWriter.length_overwrite (by simpa using hroom), hsized]
  have hmeasured : l.measured s w = bytes.length - code.lengthOrigin l := by
    rw [LengthCode.measured, hlength, hat.lengthEnd, lengthOrigin]
  refine ⟨by omega, ?_, ?_⟩
  · have hend : code.headerLayout.lengthEnd ≤ (code.headerLayout.position + 7) / 8 :=
      HeaderLayout.lengthEnd_le code.header (Nat.zero_le _)
    rw [hlength, BitWriter.sizeBytes, lengthOrigin]
    split <;> omega
  rw [← hmeasured, hbytes]
  have hstart : code.headerLayout.lengthStart ≤ w.data.length := by omega
  have h := BitWriter.drop_take_overwrite
    (wordBytes l.width (l.stored (l.measured s w)) l.endian) hstart
  rwa [length_wordBytes] at h

theorem reverseArith_lt {value : Nat} (m : ArithModifier) (h : value < 2 ^ 64) :
    reverseArith value m < 2 ^ 64 := by
  have hdiv := Nat.div_le_self value (toUint64 m.literal)
  have hmod := Nat.mod_le value (toUint64 m.literal)
  unfold reverseArith arith inverseOp sizeT
  split
  · cases m.op <;> simp only <;> omega
  · exact h

section

variable {proto : Protocol} {frame : FrameDef} (hgen : Generated proto frame code)
  (hl : code.length = some l)

include hgen hl

theorem FrameCode.extractFrameLength_eq (hlayout : code.LengthLayout l)
    (henc : code.encodeBytes object (runAll steps) = .ok bytes)
    (hmin : code.session.minFrameHeaderSize ≤ bytes.length) :
    code.session.extractFrameLength (bytes.take code.session.minFrameHeaderSize)
      = code.session.frameLengthOf
        (l.stored (bytes.length - code.lengthOrigin l) % 2 ^ (8 * l.width)) := by
  obtain ⟨f, a, -, hsession, -, hlength⟩ := hgen.lengthOf hl
  have hendian : code.session.frameLengthEndian = l.endian := by rw [hsession.endian, hlength]
  obtain ⟨-, -, hword⟩ := stored_of_encodeBytes hl henc
  have hinside := hlayout.inside
  have htake : (bytes.take code.session.minFrameHeaderSize).length
      = code.session.minFrameHeaderSize := by
    rw [length_take]
    omega
  have hsmall := hlayout.small
  have hsize : (bytes.take code.session.minFrameHeaderSize).length < 2 ^ 61 := by omega
  have hraw := code.session.rawLength_eq hsize
    (by rw [htake, hlayout.place, hlayout.width]; exact hinside)
  have hvalue : beVal (l.endian.order
      (((bytes.take code.session.minFrameHeaderSize).drop code.headerLayout.lengthStart).take
        l.width)) = l.stored (bytes.length - code.lengthOrigin l) % 2 ^ (8 * l.width) := by
    rw [drop_take, take_take, Nat.min_eq_left (by omega), hword, wordBytes, order_order,
      beVal_beBytes]
  rw [hlayout.place, hlayout.width, hendian, hvalue] at hraw
  rw [extractFrameLength, if_pos hlayout.declared, htake, if_neg (Nat.lt_irrefl _), hraw]

theorem FrameCode.Generated.frameLengthOf_eq (value : Nat) :
    code.session.frameLengthOf value = if l.payloadOnly then
          sizeT (reverseArith value l.modifier
            + (code.session.minFrameHeaderSize + code.session.frameFooterSize))
        else reverseArith value l.modifier := by
  obtain ⟨f, a, -, hsession, -, rfl⟩ := hgen.lengthOf hl
  rw [frameLengthOf, hsession.fieldRef, hsession.modifier]

end

/-- The size of a frame is recovered exactly if the frame is as long as its declared header and
the counted length survives the modifier and the width of the field, provided that the session
adds what was not counted. If it does not, the size comes out wrong for every length that
survives. -/
theorem extractFrameLength_eq_iff {proto : Protocol} {frame : FrameDef}
    (hgen : generate proto frame = some code) (hl : code.length = some l)
    (hlayout : code.LengthLayout l)
    (henc : code.encodeBytes object (runAll steps) = .ok bytes) :
    (code.CountsRest l →
      (code.session.extractFrameLength (bytes.take code.session.minFrameHeaderSize) = bytes.length
        ↔ code.session.minFrameHeaderSize ≤ bytes.length ∧ bytes.length < 2 ^ 64
          ∧ LengthFits l.modifier l.width (bytes.length - code.lengthOrigin l)))
    ∧ (¬code.CountsRest l → LengthFits l.modifier l.width (bytes.length - code.lengthOrigin l) →
      code.session.extractFrameLength (bytes.take code.session.minFrameHeaderSize)
        ≠ bytes.length) := by
  have hgenerated := generated hgen
  obtain ⟨hend, horigin, -⟩ := stored_of_encodeBytes hl henc
  have hwidth := l.one_le_width
  have hsmall := hlayout.small
  unfold CountsRest
  by_cases hmin : code.session.minFrameHeaderSize ≤ bytes.length
  · rw [extractFrameLength_eq hgenerated hl hlayout henc hmin,
      hgenerated.frameLengthOf_eq hl, ← l.reverseArith_stored_iff]
    have hlt := reverseArith_lt l.modifier (l.stored_mod_lt (bytes.length - code.lengthOrigin l))
    generalize reverseArith _ l.modifier = recovered at *
    unfold lengthOrigin sizeT at *
    cases hcase : l.payloadOnly with
    | false =>
      simp only [Bool.false_eq_true, if_false, false_imp_iff, true_imp_iff, not_true_eq_false,
        and_true, Nat.sub_zero] at hlt ⊢
      omega
    | true =>
      simp only [hcase, if_true, forall_const] at horigin ⊢
      omega
  · have hshort : (bytes.take code.session.minFrameHeaderSize).length
        < code.session.minFrameHeaderSize := by
      rw [length_take]
      omega
    rw [extractFrameLength, if_pos hlayout.declared, if_pos hshort]
    refine ⟨fun _ => ?_, fun _ _ => ?_⟩ <;> omega

end Encoded

/-! ## Two small frames -/

/-- A header of a length and an id, where the length counts what `ref` says. -/
def lengthFrame (ref : String) : FrameDef :=
  { name := "Packet"
    headerFields :=
      [.field { name := "size", typeRef := "u8", autoAttr := some "length"
                autoExpr := some { kind := .length, fieldRef := ref } },
       .field { name := "kind", typeRef := "u8", autoAttr := some "id"
                autoExpr := some { kind := .id } }] }

def lengthProtocol (ref : String) : Protocol :=
  { name := "ping"
    version := "1"
    types := [{ name := "u8", bits := 8 }]
    messages := [{ name := "Ping", id := "1"
                   children := [.field { name := "value", typeRef := "u8" }] }]
    frames := [lengthFrame ref] }

def pingObject : FrameObject := { member := fun _ => 1, payloadCount := 1 }

/-- The encoder of a message with one byte. -/
def pingSteps : List EncodeStep := [.write (.writeWord 1 .big) 7]

/-- A length of the whole frame is recovered. -/
theorem extractFrameLength_eq_iff_total :
    ∃ code l, generate (lengthProtocol "") (lengthFrame "") = some code
      ∧ code.length = some l ∧ code.LengthLayout l ∧ code.CountsRest l
      ∧ code.encodeBytes pingObject (runAll pingSteps) = .ok [3, 1, 7]
      ∧ code.session.extractFrameLength [3, 1] = 3 := by
  obtain ⟨code, hgen⟩ : ∃ code, generate (lengthProtocol "") (lengthFrame "")
      = some code := Option.isSome_iff_exists.mp (by decide +kernel)
  have hcode : code = (generate (lengthProtocol "") (lengthFrame "")).get
      (by decide +kernel) := by rw [Option.get_of_eq_some _ hgen]
  have hl : code.length = some ⟨false, {}, 8, .big⟩ := by
    rw [hcode]
    decide +kernel
  have hlayout : code.LengthLayout ⟨false, {}, 8, .big⟩ := by
    subst hcode
    exact ⟨by decide +kernel, by decide +kernel, by decide +kernel, by decide +kernel,
      by decide +kernel⟩
  have hrest : code.CountsRest ⟨false, {}, 8, .big⟩ := by
    intro h
    cases h
  have henc : code.encodeBytes pingObject (runAll pingSteps) = .ok [3, 1, 7] := by
    rw [hcode]
    decide +kernel
  have hmin : code.session.minFrameHeaderSize = 2 := by
    rw [hcode]
    decide +kernel
  have horigin : code.lengthOrigin ⟨false, {}, 8, .big⟩ = 0 := rfl
  have hsize := ((extractFrameLength_eq_iff hgen hl hlayout henc).1 hrest).mpr
    ⟨by rw [hmin]; decide, by decide, by rw [horigin]; decide⟩
  rw [hmin] at hsize
  exact ⟨code, _, hgen, hl, hlayout, hrest, henc, hsize⟩

/-- A length of the payload also counts the id that follows it, and the session adds the whole
header once more: the three bytes of an accepted frame are taken for four. -/
theorem extractFrameLength_eq_iff_fails : Accepted (lengthProtocol "payload")
      ∧ ∃ code, generate (lengthProtocol "payload") (lengthFrame "payload") = some code
        ∧ code.encodeBytes pingObject (runAll pingSteps) = .ok [2, 1, 7]
        ∧ code.session.minFrameHeaderSize = 2
        ∧ code.session.extractFrameLength [2, 1] = 4 := by
  refine ⟨by decide +kernel, (generate (lengthProtocol "payload")
    (lengthFrame "payload")).get (by decide +kernel), ?_⟩
  refine ⟨(Option.some_get _).symm, ?_, ?_, ?_⟩
  · decide +kernel
  · decide +kernel
  · decide +kernel

end Conduit.Bgen

import Conduit.Bindings.SessionFields

/-!
# Registered sessions

When the native session that `register_session` and `registerSession` set up reads the frame lengths
of the generated session: exactly for a length field that makes up the last two bytes of the header
in big-endian order, or the whole header in little-endian order, and that counts what the framer
needs without further arithmetic.
-/

namespace Conduit.Bindings

open PythonTransceiver

open Bits Io Ports Bgen SessionAnalyzer PythonSession

/-! ## Headers of less than two bytes -/

section
variable {extract : List UInt8 → Option Int}

theorem PythonTransceiver.registerSession_zero : registerSession extract 0 = none := rfl

theorem PythonTransceiver.registerSession_one {length : Int} (h : extract [2] = some length) :
    registerSession extract 1
      = some { minHeaderSize := 1, lengthSkipBits := 2 ^ 64 - 8, lengthFieldBits := 16,
               lengthBigEndian := decide (length = 0x0102) } := by
  have hend : probeEndianness extract (-8) 16 = some (decide (length = 0x0102)) := by
    show (extract [2]).bind _ = _
    rw [h]
    rfl
  show (probeEndianness extract (-8) 16).bind _ = _
  rw [hend]
  rfl

theorem extractFrameLength_one {header : List UInt8} (hlen : header.length = 1) (big : Bool) :
    FrameConfig.extractFrameLength
      { minHeaderSize := 1, lengthSkipBits := 2 ^ 64 - 8, lengthFieldBits := 16,
        lengthBigEndian := big } header = 0 := by
  obtain ⟨byte, rfl⟩ := List.length_eq_one_iff.mp hlen
  simp [FrameConfig.extractFrameLength, BitReader.skipBits, BitReader.remainingBits, sizeT,
    ReadM.fail]

theorem PythonTransceiver.agrees_one_iff : Agrees extract 1 (registerSession extract 1)
      ↔ ∀ header, header.length = 1 → extract header = some 0 := by
  constructor
  · rintro ⟨cfg, hcfg, hlengths⟩ header hlen
    obtain ⟨length, hlength⟩ : ∃ length, extract [2] = some length := ⟨_, hlengths [2] rfl⟩
    rw [registerSession_one hlength] at hcfg
    cases hcfg
    rw [hlengths header hlen, extractFrameLength_one hlen]
    rfl
  · intro h
    refine ⟨_, registerSession_one (h [2] rfl), ?_⟩
    intro header hlen
    rw [h header hlen, extractFrameLength_one hlen]
    rfl

theorem JavaTransceiver.registerSession_zero : registerSession extract 0 = none := rfl

theorem JavaTransceiver.registerSession_one : registerSession extract 1 = none := rfl

theorem not_agrees_none {headerSize : Nat} : ¬ Agrees extract headerSize none := by
  rintro ⟨cfg, hcfg, -⟩
  cases hcfg

theorem not_agrees_constant {headerSize : Nat} {register : Option FrameConfig} {length : Int}
    (hsize : headerSize < 2 ^ 61) (htwo : 2 ≤ headerSize) (hne : length ≠ 0)
    (hregister : Answers extract headerSize → register = some (probedConfig extract headerSize))
    (h : ∀ header, header.length = headerSize → extract header = some length) :
    ¬ Agrees extract headerSize register := by
  rw [agrees_iff hsize htwo hregister]
  have hzeros := h _ (List.length_replicate (a := (0 : UInt8)))
  rintro (hends | ⟨-, hall⟩)
  · rw [hends.zeros] at hzeros
    exact hne (Option.some.inj hzeros).symm
  · rw [hall.zeros] at hzeros
    exact hne (Option.some.inj hzeros).symm

end

variable {si : SessionInfo}

/-- A length field that the probes can find. -/
def Placed (si : SessionInfo) : Prop :=
  si.readWidth = 2 ∧ si.frameLengthEndian = .big
      ∧ si.frameLengthBitOffset + 16 = 8 * si.minFrameHeaderSize
    ∨ si.readWidth = si.minFrameHeaderSize ∧ si.frameLengthEndian = .little
      ∧ si.frameLengthBitOffset = 0

/-! ## Python -/

/-- The native session has the frame lengths of the Python session. -/
def PythonAgrees (si : SessionInfo) : Prop :=
  Agrees (extractFrameLength si) si.minFrameHeaderSize
    (registerSession (extractFrameLength si) si.minFrameHeaderSize)

/-- A single byte that always stands for zero is the exception. -/
def PythonProbed (si : SessionInfo) : Prop :=
  si.frameLengthBits > 0 ∧ (2 ≤ si.minFrameHeaderSize ∧ Placed si ∧ Unchanged si
      ∨ si.minFrameHeaderSize = 1 ∧ si.readWidth = 1 ∧ si.frameLengthBitOffset = 0 ∧ Vanishes si)

theorem pythonAgrees_one (hone : si.minFrameHeaderSize = 1) (hbits : si.frameLengthBits > 0) :
    PythonAgrees si ↔ si.readWidth = 1 ∧ si.frameLengthBitOffset = 0 ∧ Vanishes si := by
  have hread := readsField hbits
  have hwidth := readWidth_cases si
  rw [PythonAgrees, ← frameLength_eq_zero]
  rw [hone] at hread ⊢
  rw [agrees_one_iff]
  constructor
  · intro h
    have hinside := hread.inside (h _ List.length_replicate)
    have hwidth : si.readWidth = 1 := by omega
    refine ⟨hwidth, by omega, ?_⟩
    intro v hv
    rw [hwidth, show si.frameLengthBitOffset = 0 by omega] at hread
    have hval := hread.whole (beBytes 1 v) (length_beBytes 1 v)
    rw [h _ (length_beBytes 1 v), beVal_order_one _ hv] at hval
    exact hval.symm
  · rintro ⟨hwidth, hoffset, hzero⟩ header hlen
    rw [hwidth, hoffset] at hread
    rw [hread.whole header hlen]
    have hlt := beVal_lt (si.frameLengthEndian.order header)
    rw [length_order, hlen] at hlt
    exact hzero _ hlt

theorem pythonAgrees_iff (hsize : si.minFrameHeaderSize < 2 ^ 61) :
    PythonAgrees si ↔ PythonProbed si := by
  by_cases hbits : si.frameLengthBits > 0
  · simp only [PythonProbed, hbits, true_and]
    by_cases htwo : 2 ≤ si.minFrameHeaderSize
    · have hread := readsField hbits
      have hwidth := readWidth_cases si
      have hrigid := rigid si
      have hpow : 1 < 2 ^ (8 * si.readWidth) := Nat.one_lt_two_pow (by omega)
      rw [PythonAgrees, agrees_iff hsize htwo (registerSession_eq hsize htwo),
        endsWithLength_iff hread hwidth hrigid htwo, isLength_iff hread hwidth hrigid htwo,
        frameLength_eq_self (by decide), frameLength_eq_self hpow,
        Placed]
      constructor
      · rintro (⟨hw, he, hends, hsame⟩ | ⟨-, hw, he, hstart, hsame⟩)
        · exact .inl ⟨htwo, .inl ⟨hw, he, hends⟩, hsame⟩
        · exact .inl ⟨htwo, .inr ⟨hw, he, hstart⟩, hsame⟩
      rintro (⟨-, ⟨hw, he, hends⟩ | ⟨hw, he, hstart⟩, hsame⟩ | ⟨hone, -⟩)
      · exact .inl ⟨hw, he, hends, hsame⟩
      · exact .inr ⟨by omega, hw, he, hstart, hsame⟩
      · omega
    by_cases hone : si.minFrameHeaderSize = 1
    · rw [pythonAgrees_one hone hbits]
      constructor
      · exact fun h => .inr ⟨hone, h⟩
      rintro (⟨htwo', -⟩ | ⟨-, h⟩)
      · exact absurd htwo' htwo
      · exact h
    have hzero : si.minFrameHeaderSize = 0 := by omega
    constructor
    · intro h
      rw [PythonAgrees, hzero, registerSession_zero] at h
      exact absurd h not_agrees_none
    · rintro (⟨htwo', -⟩ | ⟨hone', -⟩)
      · exact absurd htwo' htwo
      · exact absurd hone' hone
  -- without a length field the session gives the size of the header
  have hextract (header : List UInt8) (hlen : header.length = si.minFrameHeaderSize) :
      extractFrameLength si header = some (si.minFrameHeaderSize : Int) := by
    rw [extractFrameLength, if_neg hbits, hlen]
  constructor
  · intro h
    exfalso
    by_cases htwo : 2 ≤ si.minFrameHeaderSize
    · exact not_agrees_constant hsize htwo (by omega) (registerSession_eq hsize htwo) hextract h
    by_cases hone : si.minFrameHeaderSize = 1
    · rw [PythonAgrees, hone, agrees_one_iff] at h
      have hzeros := h [0] rfl
      rw [hextract [0] hone.symm, hone] at hzeros
      cases hzeros
    · rw [PythonAgrees, show si.minFrameHeaderSize = 0 by omega, registerSession_zero] at h
      exact not_agrees_none h
  · exact fun h => absurd h.1 hbits

/-! ## Java -/

/-- The numbers that are printed into the class are literals of type `int`. -/
structure JavaCompiles (si : SessionInfo) : Prop where
  offset : si.frameLengthBitOffset < 2 ^ 31
  low : -2 ^ 31 ≤ si.frameLengthModifier.literal
  high : si.frameLengthModifier.literal < 2 ^ 31

/-- The native session has the frame lengths of the Java session. -/
def JavaAgrees (si : SessionInfo) : Prop :=
  Agrees (JavaSession.extractFrameLength si) si.minFrameHeaderSize
    (JavaTransceiver.registerSession (JavaSession.extractFrameLength si) si.minFrameHeaderSize)

/-- An `int` holds the values of no other field. -/
def JavaProbed (si : SessionInfo) : Prop :=
  si.frameLengthBits > 0 ∧ si.readWidth = 2 ∧ Placed si ∧ JavaSession.Unchanged si

theorem javaAgrees_iff (hcompiles : JavaCompiles si) (hsize : si.minFrameHeaderSize < 2 ^ 28) :
    JavaAgrees si ↔ JavaProbed si := by
  by_cases htwo : 2 ≤ si.minFrameHeaderSize
  · by_cases hbits : si.frameLengthBits > 0
    · have hread := JavaSession.readsField hsize hcompiles.offset hbits
      have hwidth := readWidth_cases si
      have hrigid := JavaSession.rigid si
      have hself := JavaSession.frameLength_eq_self hcompiles.low hcompiles.high
        (2 ^ 16) (by decide) (Nat.le_refl _)
      simp only [JavaProbed, hbits, true_and, Placed]
      rw [JavaAgrees, agrees_iff (by omega) htwo (JavaTransceiver.registerSession_eq hsize htwo),
        endsWithLength_iff hread hwidth hrigid htwo, isLength_iff hread hwidth hrigid htwo, hself]
      constructor
      · rintro (⟨hw, he, hends, hsame⟩ | ⟨-, hw, he, hstart, hsame⟩)
        · exact ⟨hw, .inl ⟨hw, he, hends⟩, hsame⟩
        have htwo' : si.readWidth = 2 := by
          by_contra hne
          have hpow : 2 ^ (8 * 4) ≤ 2 ^ (8 * si.readWidth) :=
            Nat.pow_le_pow_right (by decide) (by omega)
          have hlt := JavaSession.frameLength_lt (hsame (2 ^ 32 - 1) (by omega))
          omega
        rw [htwo'] at hsame
        exact ⟨htwo', .inr ⟨hw, he, hstart⟩, hself.mp hsame⟩
      · rintro ⟨hw, ⟨-, he, hends⟩ | ⟨hw', he, hstart⟩, hsame⟩
        · exact .inl ⟨hw, he, hends, hsame⟩
        refine .inr ⟨by omega, hw', he, hstart, ?_⟩
        rw [hw]
        exact hself.mpr hsame
    have hextract (header : List UInt8) (hlen : header.length = si.minFrameHeaderSize) :
        JavaSession.extractFrameLength si header = some (si.minFrameHeaderSize : Int) := by
      rw [JavaSession.extractFrameLength, if_neg hbits, hlen, wrap32_natCast (by omega)]
    constructor
    · intro h
      exact absurd h (not_agrees_constant (by omega) htwo (by omega)
        (JavaTransceiver.registerSession_eq hsize htwo) hextract)
    · exact fun h => absurd h.1 hbits
  constructor
  · intro h
    exfalso
    rw [JavaAgrees] at h
    rcases (show si.minFrameHeaderSize = 0 ∨ si.minFrameHeaderSize = 1 by omega) with hzero | hone
    · rw [hzero, JavaTransceiver.registerSession_zero] at h
      exact not_agrees_none h
    · rw [hone, JavaTransceiver.registerSession_one] at h
      exact not_agrees_none h
  · rintro ⟨-, hw, ⟨-, -, hends⟩ | ⟨hw', -, -⟩, -⟩
    · omega
    · omega

/-! ## Both bindings -/

/-- The sessions whose lengths the native session reads. In Java the size of the header in bits
must be an `int`. -/
theorem registered_lengths_agree_iff (si : SessionInfo) (hsize : si.minFrameHeaderSize < 2 ^ 61) :
    (PythonAgrees si ↔ PythonProbed si)
      ∧ (JavaCompiles si → si.minFrameHeaderSize < 2 ^ 28 → (JavaAgrees si ↔ JavaProbed si)) :=
  ⟨pythonAgrees_iff hsize, javaAgrees_iff⟩

/-- A header of an id and a length of two bytes. -/
def sizedFrame : FrameDef :=
  { name := "Packet"
    headerFields :=
      [.field { name := "kind", typeRef := "u8", autoAttr := some "id"
                autoExpr := some { kind := .id } },
       .field { name := "size", typeRef := "u16", autoAttr := some "length"
                autoExpr := some { kind := .length } }] }

def sizedProtocol : Protocol :=
  { name := "ping"
    version := "1"
    types := [{ name := "u8", bits := 8 }, { name := "u16", bits := 16 }]
    messages := [{ name := "Ping", id := "1"
                   children := [.field { name := "value", typeRef := "u8" }] }]
    frames := [sizedFrame] }

theorem registered_lengths_agree_sized : Validator.Accepted sizedProtocol
      ∧ (analyze sizedProtocol sizedFrame).minFrameHeaderSize = 3
      ∧ PythonAgrees (analyze sizedProtocol sizedFrame)
      ∧ JavaAgrees (analyze sizedProtocol sizedFrame) := by
  have hthree : (analyze sizedProtocol sizedFrame).minFrameHeaderSize = 3 := by
    decide +kernel
  have hplaced : Placed (analyze sizedProtocol sizedFrame) :=
    .inl ⟨by decide +kernel, by decide +kernel, by decide +kernel⟩
  have hop : (analyze sizedProtocol sizedFrame).frameLengthModifier = {} := by
    decide +kernel
  have hover : overhead (analyze sizedProtocol sizedFrame) = 0 := by
    decide +kernel
  have hiff := registered_lengths_agree_iff (analyze sizedProtocol sizedFrame)
    (by rw [hthree]; decide)
  have hpython : Unchanged (analyze sizedProtocol sizedFrame) := by
    rw [Unchanged, hop]
    exact hover
  have hjava : JavaSession.Unchanged (analyze sizedProtocol sizedFrame) := by
    rw [JavaSession.Unchanged, hop, hover]
    rfl
  refine ⟨by decide +kernel, hthree, ?_, ?_⟩
  · exact hiff.1.mpr ⟨by decide +kernel, .inl ⟨by rw [hthree]; decide, hplaced, hpython⟩⟩
  refine (hiff.2 ⟨by decide +kernel, by rw [hop]; decide, by rw [hop]; decide⟩
    (by rw [hthree]; decide)).mpr ⟨by decide +kernel, by decide +kernel, hplaced, hjava⟩

/-- A length of one byte before the id is taken for a word of two bytes in little-endian order: a
frame of three bytes is taken for 259. -/
theorem registered_lengths_differ : Validator.Accepted (lengthProtocol "")
      ∧ (analyze (lengthProtocol "") (lengthFrame "")).minFrameHeaderSize = 2
      ∧ registerSession (extractFrameLength (analyze (lengthProtocol "") (lengthFrame ""))) 2
        = some (restConfig 2 0 false)
      ∧ JavaTransceiver.registerSession (JavaSession.extractFrameLength
          (analyze (lengthProtocol "") (lengthFrame ""))) 2
        = some (restConfig 2 0 false)
      ∧ extractFrameLength (analyze (lengthProtocol "") (lengthFrame "")) [3, 1] = some 3
      ∧ JavaSession.extractFrameLength
          (analyze (lengthProtocol "") (lengthFrame "")) [3, 1] = some 3
      ∧ (restConfig 2 0 false).extractFrameLength [3, 1] = 259 := by
  decide +kernel

end Conduit.Bindings

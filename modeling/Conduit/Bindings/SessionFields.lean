import Conduit.Bgen.FrameLength
import Conduit.Bindings.Fields
import Conduit.Ports.Session

/-!
# The fields of generated sessions

The sessions of Python and Java read a word at the bit offset of the length field, without going to
a byte boundary, and undo the operation of the field. Neither computation can turn the bytes of a
word around.
-/

namespace Conduit.Ports

open Bits Io Bgen Bindings JavaReader Option

theorem readWidth_cases (si : SessionInfo) :
    si.readWidth = 1 ∨ si.readWidth = 2 ∨ si.readWidth = 4 ∨ si.readWidth = 8 := by
  unfold SessionInfo.readWidth
  split_ifs <;> simp

theorem beVal_order_one {v : Nat} (e : Endian) (h : v < 2 ^ 8) :
    beVal (e.order (beBytes 1 v)) = v := by
  have hword := wordBytes_one v e
  rw [wordBytes, wordBytes] at hword
  rw [hword, Endian.order, beVal_beBytes, Nat.mod_eq_of_lt h]

theorem lengthRead_eq {σ : Type} {readBits : Nat → PortM σ Nat} {state : Nat → σ}
    {data : List UInt8} (h : Supplies readBits state data 8) (si : SessionInfo) {p : Nat}
    (hp : p ≤ 8 * data.length) :
    lengthRead readBits si (state p) = if p + 8 * si.readWidth ≤ 8 * data.length then
          some (beVal (si.frameLengthEndian.order
            (beBytes si.readWidth (valueAt data p (8 * si.readWidth)))),
            state (p + 8 * si.readWidth)) else none := by
  rw [lengthRead, SessionInfo.readWidth]
  by_cases h8 : si.frameLengthBits ≤ 8
  · rw [if_pos h8, if_pos h8, h p hp]
    by_cases hroom : p + 8 ≤ 8 * data.length
    · rw [if_pos hroom, if_pos hroom, beVal_order_one _ (valueAt_lt hroom)]
    · rw [if_neg hroom, if_neg hroom]
  rw [if_neg h8, if_neg h8]
  by_cases h16 : si.frameLengthBits ≤ 16
  · rw [if_pos h16, if_pos h16]
    exact readUnsigned_eq h 2 _ hp
  rw [if_neg h16, if_neg h16]
  by_cases h32 : si.frameLengthBits ≤ 32
  · rw [if_pos h32, if_pos h32]
    exact readUnsigned_eq h 4 _ hp
  rw [if_neg h32, if_neg h32]
  exact readUnsigned_eq h 8 _ hp

theorem rawLength_eq {σ : Type} {skipBits : Nat → PortM σ Unit} {readBits : Nat → PortM σ Nat}
    {state : Nat → σ} {data : List UInt8} (h : Supplies readBits state data 8) (si : SessionInfo)
    (hskip : skipBits si.frameLengthBitOffset (state 0)
      = if si.frameLengthBitOffset ≤ 8 * data.length then some ((), state si.frameLengthBitOffset)
        else none) : rawLength skipBits readBits si (state 0)
      = if si.frameLengthBitOffset + 8 * si.readWidth ≤ 8 * data.length then
          some (beVal (si.frameLengthEndian.order (beBytes si.readWidth
            (valueAt data si.frameLengthBitOffset (8 * si.readWidth)))),
            state (si.frameLengthBitOffset + 8 * si.readWidth)) else none := by
  rw [rawLength]
  by_cases hzero : si.frameLengthBitOffset = 0
  · rw [hzero]
    exact lengthRead_eq h si (Nat.zero_le _)
  rw [if_pos (Nat.pos_of_ne_zero hzero)]
  by_cases hroom : si.frameLengthBitOffset ≤ 8 * data.length
  · rw [if_pos hroom] at hskip
    rw [bind_some hskip]
    exact lengthRead_eq h si hroom
  · rw [if_neg hroom] at hskip
    rw [bind_none hskip, if_neg (by omega)]

theorem PythonSession.readsField {si : SessionInfo} (hbits : si.frameLengthBits > 0) :
    ReadsField (PythonSession.extractFrameLength si) si.minFrameHeaderSize
      si.frameLengthBitOffset si.readWidth si.frameLengthEndian (PythonSession.frameLength si) := by
  intro header hlen
  have hskip : PythonReader.skipBits si.frameLengthBitOffset ⟨header, 0⟩
      = if si.frameLengthBitOffset ≤ 8 * header.length
        then some ((), ⟨header, si.frameLengthBitOffset⟩) else none := by
    simp only [PythonReader.skipBits, Nat.zero_add]
    split <;> split <;> first | rfl | omega
  rw [PythonSession.extractFrameLength, if_pos hbits, if_neg (by omega),
    rawLength_eq (PythonReader.supplies header 8) si hskip, ← hlen]
  split <;> rfl

theorem JavaSession.readsField {si : SessionInfo} (hsize : si.minFrameHeaderSize < 2 ^ 28)
    (hoffset : si.frameLengthBitOffset < 2 ^ 31) (hbits : si.frameLengthBits > 0) :
    ReadsField (JavaSession.extractFrameLength si) si.minFrameHeaderSize
      si.frameLengthBitOffset si.readWidth si.frameLengthEndian (JavaSession.frameLength si) := by
  intro header hlen
  have hdata : header.length < 2 ^ 28 := by omega
  have hskip : skipBits si.frameLengthBitOffset (javaAt header 0)
      = if si.frameLengthBitOffset ≤ 8 * header.length
        then some ((), javaAt header si.frameLengthBitOffset) else none := by
    rw [skipBits_eq (by omega), Nat.zero_add]
  rw [JavaSession.extractFrameLength, if_pos hbits, if_neg (by omega), start_eq hdata,
    rawLength_eq (supplies hdata (by decide)) si hskip, ← hlen]
  split <;> rfl

/-! ## The computation in Python -/

namespace PythonSession

variable {si : SessionInfo}

theorem frameLength_eq_some {val : Nat} {length : Int} : frameLength si val = some length
      ↔ ∃ x, undo si.frameLengthModifier val = some x ∧ x + overhead si = length := by
  simp [frameLength, map_eq_some_iff]

theorem rigid (si : SessionInfo) : Rigid (frameLength si) := by
  apply Rigid.of_monotone
  simp only [frameLength_eq_some, undo]
  generalize si.frameLengthModifier.literal = literal
  cases si.frameLengthModifier.op with
  | none | mod | add | sub =>
    simp only [some.injEq, exists_eq_left']
    intro _
    left
    omega
  | mul =>
    by_cases hlit : literal = 0
    · simp [hlit]
    simp only [if_neg hlit, some.injEq, exists_eq_left']
    intro hzero
    rcases Int.lt_or_gt_of_ne hlit with hneg | hpos
    · right
      intro a x hx
      have hle := Int.fdiv_nonpos_of_nonneg_of_nonpos (Int.natCast_nonneg a) (Int.le_of_lt hneg)
      rw [Int.natCast_zero, Int.zero_fdiv] at hzero
      omega
    left
    intro a b hab x y hx hy
    have hle : (a : Int).fdiv literal ≤ (b : Int).fdiv literal := by
      rw [Int.fdiv_eq_ediv_of_nonneg _ (Int.le_of_lt hpos),
        Int.fdiv_eq_ediv_of_nonneg _ (Int.le_of_lt hpos)]
      exact Int.ediv_le_ediv hpos (by omega)
    omega
  | div =>
    simp only [some.injEq, exists_eq_left']
    intro hzero
    rcases lt_or_ge literal 0 with hneg | hpos
    · right
      intro a x hx
      have hle := Int.mul_nonpos_of_nonneg_of_nonpos (Int.natCast_nonneg a) (Int.le_of_lt hneg)
      omega
    left
    intro a b hab x y hx hy
    have hle := Int.mul_le_mul_of_nonneg_right (Int.ofNat_le.mpr hab) hpos
    omega

/-- The length is the value of the field. -/
def Unchanged (si : SessionInfo) : Prop :=
  match si.frameLengthModifier.op with
  | .none | .mod => overhead si = 0
  | .add => si.frameLengthModifier.literal = overhead si
  | .sub => si.frameLengthModifier.literal = -overhead si
  | .mul | .div => si.frameLengthModifier.literal = 1 ∧ overhead si = 0

theorem frameLength_eq_self {bound : Nat} (hbound : 1 < bound) :
    (∀ v < bound, frameLength si v = some (v : Int)) ↔ Unchanged si := by
  simp only [frameLength_eq_some, undo, Unchanged]
  generalize si.frameLengthModifier.literal = literal
  cases si.frameLengthModifier.op with
  | none | mod | add | sub =>
    simp only [some.injEq, exists_eq_left']
    constructor
    · intro h
      have hzero := h 0 (by omega)
      omega
    · intro h v _
      omega
  | mul =>
    constructor
    · intro h
      obtain ⟨x, hx, hzero⟩ := h 0 (by omega)
      obtain ⟨y, hy, hone⟩ := h 1 hbound
      by_cases hlit : literal = 0
      · rw [if_pos hlit] at hx
        cases hx
      rw [if_neg hlit, some.injEq] at hx hy
      rw [Int.natCast_zero, Int.zero_fdiv] at hx
      have hquot : (1 : Int).fdiv literal = 1 := by
        rw [Int.natCast_one] at hy hone
        omega
      refine ⟨?_, by omega⟩
      rcases Int.lt_or_gt_of_ne hlit with hneg | hpos
      · have hle := Int.fdiv_nonpos_of_nonneg_of_nonpos (show (0 : Int) ≤ 1 by decide)
          (Int.le_of_lt hneg)
        omega
      by_contra hne
      rw [Int.fdiv_eq_ediv_of_nonneg _ (Int.le_of_lt hpos),
        Int.ediv_eq_zero_of_lt (by decide) (by omega)] at hquot
      cases hquot
    · rintro ⟨rfl, hzero⟩ v _
      exact ⟨v, by simp, by omega⟩
  | div =>
    simp only [some.injEq, exists_eq_left']
    constructor
    · intro h
      have hzero := h 0 (by omega)
      have hone := h 1 hbound
      omega
    · rintro ⟨rfl, hzero⟩ v _
      omega

/-- The length of every field of one byte is zero. -/
def Vanishes (si : SessionInfo) : Prop :=
  overhead si = 0 ∧ (si.frameLengthModifier.op = .mul ∧ 256 ≤ si.frameLengthModifier.literal
      ∨ si.frameLengthModifier.op = .div ∧ si.frameLengthModifier.literal = 0)

theorem frameLength_eq_zero : (∀ v < 2 ^ 8, frameLength si v = some 0) ↔ Vanishes si := by
  simp only [frameLength_eq_some, undo, Vanishes]
  generalize si.frameLengthModifier.literal = literal
  cases si.frameLengthModifier.op with
  | none | mod | add | sub =>
    simp only [some.injEq, exists_eq_left']
    constructor
    · intro h
      have hzero := h 0 (by decide)
      have hone := h 1 (by decide)
      omega
    · rintro ⟨_, ⟨hop, _⟩ | ⟨hop, _⟩⟩ <;> cases hop
  | mul =>
    constructor
    · intro h
      obtain ⟨x, hx, hzero⟩ := h 0 (by decide)
      obtain ⟨y, hy, hone⟩ := h 1 (by decide)
      obtain ⟨z, hz, hmax⟩ := h 255 (by decide)
      by_cases hlit : literal = 0
      · rw [if_pos hlit] at hx
        cases hx
      rw [if_neg hlit, some.injEq] at hx hy hz
      rw [Int.natCast_zero, Int.zero_fdiv] at hx
      refine ⟨by omega, .inl ⟨rfl, ?_⟩⟩
      rcases Int.lt_or_gt_of_ne hlit with hneg | hpos
      · -- the quotient is rounded down
        have hlt := Int.fdiv_neg_of_neg_of_pos (show (-1 : Int) < 0 by decide)
          (show 0 < -literal by omega)
        rw [Int.neg_fdiv_neg] at hlt
        rw [Int.natCast_one] at hy
        omega
      · by_contra hsmall
        have hge : 1 ≤ ((255 : Nat) : Int).fdiv literal := by
          rw [Int.fdiv_eq_ediv_of_nonneg _ (Int.le_of_lt hpos), Int.le_ediv_iff_mul_le hpos]
          omega
        omega
    · rintro ⟨hzero, ⟨_, hlit⟩ | ⟨hop, _⟩⟩
      · intro v hv
        refine ⟨0, ?_, by omega⟩
        rw [if_neg (by omega), Int.fdiv_eq_ediv_of_nonneg _ (by omega),
          Int.ediv_eq_zero_of_lt (by omega) (by omega)]
      · cases hop
  | div =>
    simp only [some.injEq, exists_eq_left']
    constructor
    · intro h
      have hzero := h 0 (by decide)
      have hone := h 1 (by decide)
      exact ⟨by omega, .inr ⟨trivial, by omega⟩⟩
    rintro ⟨hzero, ⟨hop, _⟩ | ⟨_, rfl⟩⟩
    · cases hop
    intro v _
    omega

end PythonSession

/-! ## The computation in Java -/

namespace JavaSession

variable {si : SessionInfo}

theorem wrap32_add_wrap32 (a b : Int) : wrap32 (a + wrap32 b) = wrap32 (a + b) := Int.add_bmod_bmod

theorem wrap32_wrap32_add (a b : Int) : wrap32 (wrap32 a + b) = wrap32 (a + b) := Int.bmod_add_bmod

theorem wrap32_emod (a : Int) : wrap32 a % 2 ^ 32 = a % 2 ^ 32 := Int.bmod_emod

theorem wrap32_lt (a : Int) : wrap32 a < 2 ^ 31 := by
  have hlt := Int.bmod_lt (x := a) (m := 2 ^ 32) (by decide)
  exact hlt

theorem neg_le_wrap32 (a : Int) : -2 ^ 31 ≤ wrap32 a := by
  have hle := Int.le_bmod (x := a) (m := 2 ^ 32) (by decide)
  exact hle

theorem wrap32_wrap32_sub (a b : Int) : wrap32 (wrap32 a - b) = wrap32 (a - b) := Int.bmod_sub_bmod

theorem wrap32_wrap32_mul (a b : Int) : wrap32 (wrap32 a * b) = wrap32 (a * b) := Int.bmod_mul_bmod

theorem emod_of_wrap32 {a b : Int} (h : wrap32 a = b) : a % 2 ^ 32 = b % 2 ^ 32 := by
  rw [← h, wrap32_emod]

theorem wrap32_of_emod {a b : Int} (h : a % 2 ^ 32 = b % 2 ^ 32) (hlow : -2 ^ 31 ≤ b)
    (hhigh : b < 2 ^ 31) : wrap32 a = b := by
  have hemod := wrap32_emod a
  have hlow' := neg_le_wrap32 a
  have hhigh' := wrap32_lt a
  omega

theorem tdiv_bounds (a : Nat) (literal : Int) :
    -(a : Int) ≤ (a : Int).tdiv literal ∧ (a : Int).tdiv literal ≤ a := by
  have habs : ((a : Int).tdiv literal).natAbs ≤ a := by
    rw [Int.natAbs_tdiv]
    exact Nat.div_le_self _ _
  omega

theorem frameLength_eq_some {val : Nat} {length : Int} : frameLength si val = some length
      ↔ ∃ x, undo si.frameLengthModifier (wrap32 val) = some x
        ∧ wrap32 (x + overhead si) = length := by
  simp only [frameLength, toInt32, map_eq_some_iff, wrap32_add_wrap32]

theorem frameLength_mul (hop : si.frameLengthModifier.op = .mul) (hzero : frameLength si 0 = some 0)
    {a : Nat} (ha : a < 2 ^ 31) {x : Int} (hx : frameLength si a = some x) :
    si.frameLengthModifier.literal ≠ 0 ∧ x = (a : Int).tdiv si.frameLengthModifier.literal := by
  rw [frameLength_eq_some] at hzero hx
  obtain ⟨q₀, hq₀, hzero⟩ := hzero
  obtain ⟨q, hq, hx⟩ := hx
  simp only [undo, hop] at hq₀ hq
  by_cases hlit : si.frameLengthModifier.literal = 0
  · rw [if_pos hlit] at hq
    cases hq
  have hbounds := tdiv_bounds a si.frameLengthModifier.literal
  rw [if_neg hlit, some.injEq] at hq₀ hq
  rw [show wrap32 ((0 : Nat) : Int) = 0 from rfl, Int.zero_tdiv] at hq₀
  have hwrap : wrap32 (a : Int) = a := wrap32_of_lt (by omega) (by omega)
  rw [hwrap, wrap32_of_lt (by omega) (by omega)] at hq
  have hemod := emod_of_wrap32 hzero
  rw [← hq₀, show wrap32 0 = 0 from rfl] at hemod
  have hlength : wrap32 (q + overhead si) = q := wrap32_of_emod (by omega) (by omega) (by omega)
  exact ⟨hlit, by omega⟩

theorem rigid (si : SessionInfo) : Rigid (frameLength si) := by
  have htop7 : frameLength si (256 ^ 7) = frameLength si 0 := by
    rw [frameLength, frameLength, show toInt32 (256 ^ 7) = toInt32 0 by decide]
  cases hop : si.frameLengthModifier.op with
  | mul =>
    constructor
    · intro hzero hone hhigh
      obtain ⟨hlit, hq⟩ := frameLength_mul hop hzero (by decide) hone
      obtain ⟨-, hq'⟩ := frameLength_mul hop hzero (by decide) hhigh
      rcases Int.lt_or_gt_of_ne hlit with hneg | hpos
      · have hle := Int.tdiv_nonpos_of_nonneg_of_nonpos (Int.natCast_nonneg 1) (Int.le_of_lt hneg)
        omega
      · have hle := Int.tdiv_le_tdiv hpos (show ((1 : Nat) : Int) ≤ (256 ^ 3 : Nat) by decide)
        omega
    intro n hn hzero htop a ha x hx
    by_cases hseven : n = 7
    · rw [hseven, htop7, hzero] at htop
      cases htop
    have hsmall : 256 ^ n < 2 ^ 31 := by
      simp only [List.mem_cons, List.not_mem_nil, or_false] at hn
      rcases hn with rfl | rfl | rfl
      · decide
      · decide
      · exact absurd rfl hseven
    obtain ⟨hlit, hq⟩ := frameLength_mul hop hzero hsmall htop
    obtain ⟨-, hq'⟩ := frameLength_mul hop hzero (by omega) hx
    rcases Int.lt_or_gt_of_ne hlit with hneg | hpos
    · have hle := Int.tdiv_nonpos_of_nonneg_of_nonpos (Int.natCast_nonneg a) (Int.le_of_lt hneg)
      omega
    · have hle := Int.tdiv_le_tdiv hpos (Int.ofNat_le.mpr (Nat.le_of_lt ha))
      rw [hq, hq']
      exact hle
  | none | mod | add | sub | div =>
    -- modulo `2 ^ 32` the value is shifted by a constant or multiplied
    constructor
    · intro hzero hone hhigh
      simp only [frameLength, toInt32, undo, hop, map_some, some.injEq,
        wrap32_add_wrap32, wrap32_wrap32_add, wrap32_wrap32_sub, wrap32_wrap32_mul]
        at hzero hone hhigh
      have hzero' := emod_of_wrap32 hzero
      have hone' := emod_of_wrap32 hone
      have hhigh' := emod_of_wrap32 hhigh
      omega
    intro n hn hzero htop
    exfalso
    simp only [frameLength, toInt32, undo, hop, map_some, some.injEq,
      wrap32_add_wrap32, wrap32_wrap32_add, wrap32_wrap32_sub, wrap32_wrap32_mul] at hzero htop
    have hzero' := emod_of_wrap32 hzero
    have htop' := emod_of_wrap32 htop
    simp only [List.mem_cons, List.not_mem_nil, or_false] at hn
    rcases hn with rfl | rfl | rfl <;> omega

/-- The length is the value of the field, up to multiples of `2 ^ 32`. -/
def Unchanged (si : SessionInfo) : Prop :=
  match si.frameLengthModifier.op with
  | .none | .mod => wrap32 (overhead si) = 0
  | .add => wrap32 (overhead si - si.frameLengthModifier.literal) = 0
  | .sub => wrap32 (overhead si + si.frameLengthModifier.literal) = 0
  | .mul | .div => si.frameLengthModifier.literal = 1 ∧ wrap32 (overhead si) = 0

theorem frameLength_eq_self (hlow : -2 ^ 31 ≤ si.frameLengthModifier.literal)
    (hhigh : si.frameLengthModifier.literal < 2 ^ 31) (bound : Nat) (hbound : 1 < bound)
    (hsmall : bound ≤ 2 ^ 16) :
    (∀ v < bound, frameLength si v = some (v : Int)) ↔ Unchanged si := by
  cases hop : si.frameLengthModifier.op with
  | none | mod | add | sub | div =>
    simp only [Unchanged, frameLength, toInt32, undo, hop, map_some, some.injEq,
      wrap32_add_wrap32, wrap32_wrap32_add, wrap32_wrap32_sub, wrap32_wrap32_mul]
    constructor
    · intro h
      have hzero := emod_of_wrap32 (h 0 (by omega))
      have hone := emod_of_wrap32 (h 1 hbound)
      first
        | exact wrap32_of_emod (by omega) (by decide) (by decide)
        | exact ⟨by omega, wrap32_of_emod (by omega) (by decide) (by decide)⟩
    · intro h v hv
      first
        | have hzero := emod_of_wrap32 h
          exact wrap32_of_emod (by omega) (by omega) (by omega)
        | have hzero := emod_of_wrap32 h.2
          exact wrap32_of_emod (by rw [h.1]; omega) (by omega) (by omega)
  | mul =>
    simp only [Unchanged, hop]
    constructor
    · intro h
      have hzero := h 0 (by omega)
      obtain ⟨hlit, hquot⟩ := frameLength_mul hop hzero (by decide) (h 1 hbound)
      obtain ⟨x, hx, hover⟩ := frameLength_eq_some.mp hzero
      simp only [undo, hop, if_neg hlit, some.injEq] at hx
      rw [show wrap32 ((0 : Nat) : Int) = 0 from rfl, Int.zero_tdiv,
        show wrap32 (0 : Int) = 0 from rfl] at hx
      rw [← hx, Int.zero_add] at hover
      refine ⟨?_, hover⟩
      rcases Int.lt_or_gt_of_ne hlit with hneg | hpos
      · have hle := Int.tdiv_nonpos_of_nonneg_of_nonpos (Int.natCast_nonneg 1) (Int.le_of_lt hneg)
        omega
      by_contra hne
      rw [Int.tdiv_eq_zero_of_lt (by decide) (by omega)] at hquot
      cases hquot
    · rintro ⟨hlit, hover⟩ v hv
      have hzero := emod_of_wrap32 hover
      have hwrap : wrap32 (v : Int) = v := wrap32_of_lt (by omega) (by omega)
      refine frameLength_eq_some.mpr ⟨v, ?_, wrap32_of_emod (by omega) (by omega) (by omega)⟩
      simp only [undo, hop, hlit, Int.tdiv_one, hwrap]
      rfl

theorem frameLength_lt {val : Nat} {length : Int} (h : frameLength si val = some length) :
    length < 2 ^ 31 := by
  obtain ⟨x, -, rfl⟩ := frameLength_eq_some.mp h
  exact wrap32_lt _

end JavaSession

end Conduit.Ports

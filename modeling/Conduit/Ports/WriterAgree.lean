import Conduit.Ports.WriterBits

/-!
# The writers of the three backends

The C++ writer moves to a byte boundary before every word and before it aligns; the writers of
Python and Java do not do so before a word, and the one of Python does not do so before it aligns.
The three write the same bytes as long as these calls come at byte boundaries. A call that does not
leaves them at different positions, and one more bit shows it.
-/

namespace Conduit.Ports

open Bits Io List Option

namespace WriterCall

variable {c : WriterCall} {bs : List Bool} {w : BitWriter} {wp : PortWriter}
  (calls : List WriterCall)

/-- The bytes of a word call. -/
def word? : WriterCall → Option (List UInt8)
  | .writeU8 value => some (wordBytes 1 value .big)
  | .writeU16 value e => some (wordBytes 2 value e)
  | .writeU32 value e => some (wordBytes 4 value e)
  | .writeU64 value e => some (wordBytes 8 value e)
  | _ => none

/-- The bits after a call, as the C++ writer writes them. -/
def cppBits (c : WriterCall) (bs : List Bool) : List Bool :=
  match c with
  | .writeBits value n => bs ++ msbBits n value
  | .writeBytes data => bs ++ bytePad bs.length ++ bytesBits data
  | .alignTo 0 => bs
  | .alignTo k => bs ++ bytePad bs.length ++ bytesBits (boundaryPad k ((bs.length + 7) / 8))
  | c => bs ++ bytePad bs.length ++ bytesBits (c.word?.getD [])

/-- The bits after a call, as the Python writer writes them. -/
def pythonBits (c : WriterCall) (bs : List Bool) : List Bool :=
  match c with
  | .writeBits value n => bs ++ msbBits n value
  | .writeBytes data => bs ++ bytePad bs.length ++ bytesBits data
  | .alignTo k => bs ++ bytesBits (boundaryPad k ((bs.length + 7) / 8))
  | c => bs ++ bytesBits (c.word?.getD [])

/-- The bits after a call, as the Java writer writes them. -/
def javaBits (c : WriterCall) (bs : List Bool) : List Bool :=
  match c with
  | .alignTo _ => c.cppBits bs
  | c => c.pythonBits bs

/-- A word or an alignment comes at a byte boundary. -/
def Placed (p : Nat) : WriterCall → Prop
  | .writeBits .. | .writeBytes _ => True
  | _ => p % 8 = 0

instance (p : Nat) : (c : WriterCall) → Decidable (c.Placed p)
  | .writeBits .. | .writeBytes _ => inferInstanceAs (Decidable True)
  | .writeU8 _ | .writeU16 .. | .writeU32 .. | .writeU64 .. | .alignTo _ =>
    inferInstanceAs (Decidable (p % 8 = 0))

theorem bits_of_placed (h : c.Placed bs.length) :
    c.pythonBits bs = c.cppBits bs ∧ c.javaBits bs = c.cppBits bs := by
  have hpad : bs.length % 8 = 0 → bs ++ bytePad bs.length = bs := by
    intro ha
    rw [bytePad_of_aligned ha, append_nil]
  cases c with
  | writeBits value n => exact ⟨rfl, rfl⟩
  | writeBytes data => exact ⟨rfl, rfl⟩
  | alignTo k =>
    refine ⟨?_, rfl⟩
    cases k with
    | zero =>
      simp only [pythonBits, cppBits, boundaryPad, Nat.mod_zero]
      split
      · simp
      · simp
    | succ k => simp only [pythonBits, cppBits, hpad h]
  | writeU8 value | writeU16 value e | writeU32 value e | writeU64 value e =>
    simp only [javaBits, pythonBits, cppBits, hpad h, and_self]

/-! ## The writers write these bits -/

theorem cpp_holds (h : w.Holds bs) (hok : (c.cpp w).error = none) (herr : w.error = none) :
    (c.cpp w).Holds (c.cppBits bs) := by
  cases c with
  | writeBits value n => exact h.writeBits hok
  | alignTo k =>
    cases k with
    | zero => exact h
    | succ k => exact h.alignTo herr (Nat.succ_ne_zero k)
  | writeU8 | writeU16 | writeU32 | writeU64 | writeBytes => exact h.appendBytes _ herr

theorem cpp_sticky (c : WriterCall) (hok : (c.cpp w).error = none) : w.error = none := by
  by_contra herr
  have hsome : w.error.isSome = true := isSome_iff_ne_none.mpr herr
  cases c with
  | writeBits value n =>
    simp only [cpp, BitWriter.writeBits, hsome, if_true] at hok
    exact herr hok
  | alignTo k => exact herr ((BitWriter.error_alignTo k w).symm.trans hok)
  | writeU8 | writeU16 | writeU32 | writeU64 | writeBytes =>
    exact herr ((BitWriter.error_appendBytes _ w).symm.trans hok)

theorem python_stands {w w' : PortWriter} (h : w.Stands bs) (hw : c.python w = some w') :
    w'.Stands (c.pythonBits bs) := by
  cases c with
  | writeBits value n => exact Python.writeBits_stands h hw
  | writeU8 value =>
    have hstands := Python.writeBits_stands h hw
    rw [msbBits_mod _ (Nat.le_refl 8)] at hstands
    show w'.Stands (bs ++ bytesBits (beBytes 1 value))
    rwa [bytesBits_beBytes]
  | writeU16 value e | writeU32 value e | writeU64 value e => exact Python.foldlM_stands _ h hw
  | writeBytes data =>
    simp only [python, Python.writeBytes, Python.writeU8_byte] at hw
    exact Python.foldlM_stands _ h.alignToByte hw
  | alignTo k =>
    simp only [python, Python.alignTo, Python.writeU8_byte] at hw
    split at hw
    · cases hw
    rw [PortWriter.sizeBytes, h.bitPos] at hw
    exact Python.foldlM_stands _ h hw

theorem count_le {value n : Nat} (hok : ((WriterCall.writeBits value n).cpp w).error = none) :
    n ≤ 64 := by
  by_contra hbig
  have herr := cpp_sticky (.writeBits value n) hok
  simp only [cpp, BitWriter.writeBits, herr, isSome_none, Bool.false_eq_true, if_false,
    if_pos (show n > 64 by omega)] at hok
  exact BitWriter.setError_ne_none _ _ _ hok

theorem java_fits {w w' : PortWriter} (h : Java.Fits w bs)
    (hcount : ∀ value n, c = .writeBits value n → n ≤ 64) (hw : c.java w = some w') :
    Java.Fits w' (c.javaBits bs) := by
  cases c with
  | writeBits value n => exact Java.writeBits_fits (hcount value n rfl) h.stands hw
  | writeU8 value =>
    have hfits := Java.writeBits_fits (by omega) h.stands hw
    rw [msbBits_mod _ (Nat.le_refl 8)] at hfits
    show Java.Fits w' (bs ++ bytesBits (beBytes 1 value))
    rwa [bytesBits_beBytes]
  | writeU16 value e | writeU32 value e | writeU64 value e => exact Java.foldlM_fits _ h hw
  | writeBytes data =>
    simp only [java, Java.writeBytes, Java.writeU8_byte] at hw
    obtain ⟨w₁, halign, hbytes⟩ := bind_eq_some_iff.mp hw
    have haligned := Java.alignTo_fits (by decide) h.stands halign
    simp only [boundaryPad, Nat.mod_one, if_true, bytesBits_nil, append_nil] at haligned
    exact Java.foldlM_fits _ haligned hbytes
  | alignTo k =>
    cases k with
    | zero =>
      cases hw
      exact h
    | succ k => exact Java.alignTo_fits (Nat.succ_ne_zero k) h.stands hw

/-! ## Sequences of calls -/

/-- Where the C++ writer stands after a call. -/
def after (p : Nat) : WriterCall → Nat
  | .writeBits _ n => p + n
  | .writeBytes data => 8 * ((p + 7) / 8) + 8 * data.length
  | .alignTo 0 => p
  | .alignTo k => 8 * ((p + 7) / 8) + 8 * (boundaryPad k ((p + 7) / 8)).length
  | c => 8 * ((p + 7) / 8) + 8 * (c.word?.getD []).length

/-- Every word and every alignment comes at a byte boundary, from position `p` on. -/
def AllPlaced : Nat → List WriterCall → Prop
  | _, [] => True
  | p, c :: calls => c.Placed p ∧ AllPlaced (c.after p) calls

theorem length_append_pad (bs : List Bool) (bytes : List UInt8) :
    (bs ++ bytePad bs.length ++ bytesBits bytes).length
      = 8 * ((bs.length + 7) / 8) + 8 * bytes.length := by
  rw [length_append, length_append, length_bytePad, length_bytesBits]
  omega

theorem length_cppBits (c : WriterCall) (bs : List Bool) :
    (c.cppBits bs).length = c.after bs.length := by
  cases c with
  | writeBits value n => simp [cppBits, after]
  | alignTo k =>
    cases k with
    | zero => rfl
    | succ k => exact length_append_pad bs _
  | writeU8 | writeU16 | writeU32 | writeU64 | writeBytes => exact length_append_pad bs _

/-- The three writers stand behind the same bits. -/
structure Together (w : BitWriter) (wp wj : PortWriter) (bs : List Bool) : Prop where
  cpp : w.Holds bs
  error : w.error = none
  python : wp.Stands bs
  java : Java.Fits wj bs

theorem together_start : Together {} Python.start Java.start [] :=
  ⟨BitWriter.holds_empty, rfl, Python.stands_start, Java.fits_start⟩

theorem Together.step {wp' wj wj' : PortWriter} (h : Together w wp wj bs)
    (hplaced : c.Placed bs.length) (hok : (c.cpp w).error = none) (hpy : c.python wp = some wp')
    (hjava : c.java wj = some wj') : Together (c.cpp w) wp' wj' (c.cppBits bs) := by
  obtain ⟨hpybits, hjavabits⟩ := bits_of_placed hplaced
  refine ⟨cpp_holds h.cpp hok h.error, hok, ?_, ?_⟩
  · rw [← hpybits]
    exact python_stands h.python hpy
  rw [← hjavabits]
  apply java_fits h.java _ hjava
  rintro value n rfl
  exact count_le hok

theorem bits_of_misplaced {wp' : PortWriter} (hmisplaced : ¬ c.Placed bs.length)
    (hpy : c.python wp = some wp') : (c.pythonBits bs).length % 8 ≠ 0 ∧
      (c.cppBits bs).length = 8 * (((c.pythonBits bs).length + 7) / 8) ∧
      (c.cppBits bs).length ≤ (c.javaBits bs).length + 7 := by
  have hword : bs.length % 8 ≠ 0 → ∀ bytes : List UInt8, (bs ++ bytesBits bytes).length % 8 ≠ 0 ∧
        (bs ++ bytePad bs.length ++ bytesBits bytes).length
          = 8 * (((bs ++ bytesBits bytes).length + 7) / 8) := by
    intro hpos bytes
    rw [length_append_pad, length_append, length_bytesBits]
    constructor <;> omega
  cases c with
  | writeBits value n | writeBytes data => exact absurd trivial hmisplaced
  | alignTo k =>
    cases k with
    | zero => cases hpy
    | succ k =>
      obtain ⟨hinside, hlength⟩ := hword hmisplaced (boundaryPad (k + 1) ((bs.length + 7) / 8))
      exact ⟨hinside, hlength, Nat.le_add_right _ 7⟩
  | writeU8 | writeU16 | writeU32 | writeU64 =>
    obtain ⟨hinside, hlength⟩ := hword hmisplaced _
    exact ⟨hinside, hlength, hlength.trans_le (Nat.mul_div_le _ 8)⟩

theorem foldl_sticky : ∀ {w : BitWriter}, (cppRun calls w).error = none → w.error = none := by
  induction calls with
  | nil => exact fun h => h
  | cons c calls ih => exact fun h => cpp_sticky c (ih h)

theorem run_together : ∀ {w : BitWriter} {wp wp' wj wj' : PortWriter}
    {bs : List Bool}, Together w wp wj bs → AllPlaced bs.length calls →
      (cppRun calls w).error = none → pythonRun calls wp = some wp' → javaRun calls wj = some wj' →
      ∃ bs', Together (cppRun calls w) wp' wj' bs' := by
  induction calls with
  | nil =>
    intro w wp wp' wj wj' bs h _ _ hpy hjava
    cases hpy
    cases hjava
    exact ⟨bs, h⟩
  | cons c calls ih =>
    intro w wp wp' wj wj' bs h hplaced hok hpy hjava
    rw [pythonRun, foldlM_cons] at hpy
    rw [javaRun, foldlM_cons] at hjava
    obtain ⟨wp₁, hpyFirst, hpyRest⟩ := bind_eq_some_iff.mp hpy
    obtain ⟨wj₁, hjavaFirst, hjavaRest⟩ := bind_eq_some_iff.mp hjava
    have hnext := h.step hplaced.1 (foldl_sticky calls hok) hpyFirst hjavaFirst
    apply ih hnext _ hok hpyRest hjavaRest
    rw [length_cppBits]
    exact hplaced.2

theorem run_apart : ∀ {w : BitWriter} {wp wp' wj wj' : PortWriter}
    {bs : List Bool}, Together w wp wj bs → ¬ AllPlaced bs.length calls →
      (cppRun calls w).error = none → pythonRun calls wp = some wp' → javaRun calls wj = some wj' →
      ∃ before, before <+: calls ∧ ∃ cppBits pyBits wp₁, (cppRun before w).Holds cppBits ∧
        (cppRun before w).error = none ∧ pythonRun before wp = some wp₁ ∧ wp₁.Stands pyBits ∧
        cppBits.length < 2 ^ 32 ∧ pyBits.length % 8 ≠ 0 ∧
        cppBits.length = 8 * ((pyBits.length + 7) / 8) := by
  induction calls with
  | nil => exact fun _ hplaced => absurd trivial hplaced
  | cons c calls ih =>
    intro w wp wp' wj wj' bs h hplaced hok hpy hjava
    rw [pythonRun, foldlM_cons] at hpy
    rw [javaRun, foldlM_cons] at hjava
    obtain ⟨wp₁, hpyFirst, hpyRest⟩ := bind_eq_some_iff.mp hpy
    obtain ⟨wj₁, hjavaFirst, hjavaRest⟩ := bind_eq_some_iff.mp hjava
    have hfirst : (c.cpp w).error = none := foldl_sticky calls hok
    by_cases hhere : c.Placed bs.length
    · have hnext := h.step hhere hfirst hpyFirst hjavaFirst
      have hlater : ¬ AllPlaced (c.cppBits bs).length calls := by
        rw [length_cppBits]
        exact fun hrest => hplaced ⟨hhere, hrest⟩
      obtain ⟨before, hbefore, bits, pyBits, wp₂, hholds, herr, hrun, hrest⟩ :=
        ih hnext hlater hok hpyRest hjavaRest
      refine ⟨c :: before, cons_prefix_cons.mpr ⟨rfl, hbefore⟩, bits, pyBits, wp₂, hholds, herr,
        ?_, hrest⟩
      rw [pythonRun, foldlM_cons, hpyFirst]
      exact hrun
    obtain ⟨hinside, hlength, hjavaLength⟩ := bits_of_misplaced hhere hpyFirst
    have hfits : Java.Fits wj₁ (c.javaBits bs) := by
      apply java_fits h.java _ hjavaFirst
      rintro value n rfl
      exact count_le hfirst
    have hrange := hfits.range
    refine ⟨[c], cons_prefix_cons.mpr ⟨rfl, nil_prefix⟩, c.cppBits bs, c.pythonBits bs,
      wp₁, cpp_holds h.cpp hfirst h.error, hfirst, ?_, python_stands h.python hpyFirst, by omega,
      hinside, hlength⟩
    rw [pythonRun, foldlM_cons, hpyFirst]
    rfl

theorem cppBytes_bits {calls : List WriterCall} (h : (cppRun calls {}).Holds bs)
    (hok : (cppRun calls {}).error = none) :
    ∃ bytes, cppBytes calls = some bytes ∧ bytesBits bytes = bs ++ bytePad bs.length := by
  obtain ⟨bytes, hfinish, hbits⟩ := h.finish hok
  refine ⟨bytes, ?_, hbits⟩
  rw [cppBytes, hfinish]
  rfl

theorem error_of_cppBytes {calls : List WriterCall} {bytes : List UInt8}
    (h : cppBytes calls = some bytes) : (cppRun calls {}).error = none := by
  unfold cppBytes BitWriter.finish at h
  split at h
  next => cases h
  next hnone => exact hnone

theorem bytes_differ {before : List WriterCall} {pyBits : List Bool}
    (hholds : (cppRun before {}).Holds bs) (hok : (cppRun before {}).error = none)
    (hrun : pythonRun before Python.start = some wp) (hstands : wp.Stands pyBits)
    (hrange : bs.length < 2 ^ 32) (hinside : pyBits.length % 8 ≠ 0)
    (hlength : bs.length = 8 * ((pyBits.length + 7) / 8)) :
    ∃ cb pb, cppBytes (before ++ [.writeBits 1 1]) = some cb ∧
      pythonBytes (before ++ [.writeBits 1 1]) = some pb ∧ pb ≠ cb := by
  have hcppStep : cppRun (before ++ [.writeBits 1 1]) {} = (cppRun before {}).writeBits 1 1 := by
    rw [cppRun, foldl_append]
    rfl
  have hok' : (cppRun (before ++ [.writeBits 1 1]) {}).error = none := by
    rw [hcppStep]
    exact BitWriter.error_writeBits hok (by decide) (by rw [hholds.1]; omega)
  have hholds' : (cppRun (before ++ [.writeBits 1 1]) {}).Holds (bs ++ msbBits 1 1) := by
    rw [hcppStep] at hok' ⊢
    exact hholds.writeBits hok'
  obtain ⟨cb, hcb, hcbBits⟩ := cppBytes_bits hholds' hok'
  -- a single bit takes the loop of the Python writer, which does not fail
  obtain ⟨wp', hwp'⟩ : ∃ wp', Python.writeBits 1 1 wp = some wp' := by
    refine ⟨(Python.ensure 1 wp).writeLoop (Python.chunk 1) 1 1, ?_⟩
    rw [Python.writeBits]
    exact if_neg (by omega)
  have hstands' := Python.writeBits_stands hstands hwp'
  refine ⟨cb, wp'.toBytes, hcb, ?_, ?_⟩
  · rw [pythonBytes, pythonRun, foldlM_append, ← pythonRun, hrun]
    show Option.map _ (Option.bind (Python.writeBits 1 1 wp) some) = _
    rw [hwp']
    rfl
  intro heq
  have hbits := hstands'.bits_toBytes
  rw [heq, hcbBits] at hbits
  have hlen := congrArg length hbits
  simp only [length_append, length_msbBits, length_bytePad] at hlen
  omega

/-- The three backends write the same bytes for a sequence of calls that none of them rejects, when
every word and every alignment comes at a byte boundary. A sequence with one that does not starts
with calls after which one more bit gives other bytes in Python than in C++. -/
theorem writers_agree (calls : List WriterCall) {cb pb jb : List UInt8}
    (hcpp : cppBytes calls = some cb) (hpy : pythonBytes calls = some pb)
    (hjava : javaBytes calls = some jb) :
    (AllPlaced 0 calls → pb = cb ∧ jb = cb) ∧
      (¬ AllPlaced 0 calls → ∃ before, before <+: calls ∧ ∃ cb' pb',
        cppBytes (before ++ [.writeBits 1 1]) = some cb' ∧
        pythonBytes (before ++ [.writeBits 1 1]) = some pb' ∧ pb' ≠ cb') := by
  have hok := error_of_cppBytes hcpp
  obtain ⟨wp, hpyRun, rfl⟩ := map_eq_some_iff.mp hpy
  obtain ⟨wj, hjavaRun, rfl⟩ := map_eq_some_iff.mp hjava
  constructor
  · intro hplaced
    obtain ⟨bs, h⟩ := run_together calls together_start hplaced hok hpyRun hjavaRun
    obtain ⟨bytes, hbytes, hbits⟩ := cppBytes_bits h.cpp hok
    cases hbytes.symm.trans hcpp
    constructor
    · exact bytesBits_inj (h.python.bits_toBytes.trans hbits.symm)
    · exact bytesBits_inj (h.java.stands.bits_toBytes.trans hbits.symm)
  · intro hmisplaced
    obtain ⟨before, hbefore, bs, pyBits, wp₁, hholds, herr, hrun, hstands, hrange, hinside, hlength⟩ :=
      run_apart calls together_start hmisplaced hok hpyRun hjavaRun
    exact ⟨before, hbefore, bytes_differ hholds herr hrun hstands hrange hinside hlength⟩

/-- Three bits, five more, a word in little endian and an alignment. -/
def alignedCalls : List WriterCall :=
  [.writeBits 5 3, .writeBits 3 5, .writeU16 0x1234 .little, .alignTo 4]

theorem writers_agree_word : ∃ cb pb jb, cppBytes alignedCalls = some cb ∧
    pythonBytes alignedCalls = some pb ∧ javaBytes alignedCalls = some jb ∧ pb = cb ∧ jb = cb :=
  have hcpp : cppBytes alignedCalls = some [0xa3, 0x34, 0x12, 0] := by decide +kernel
  have hpy : pythonBytes alignedCalls = some [0xa3, 0x34, 0x12, 0] := by decide +kernel
  have hjava : javaBytes alignedCalls = some [0xa3, 0x34, 0x12, 0] := by decide +kernel
  ⟨_, _, _, hcpp, hpy, hjava,
    (writers_agree alignedCalls hcpp hpy hjava).1 ⟨trivial, trivial, rfl, rfl, trivial⟩⟩

/-- A bit and a byte: C++ moves to the next byte in between, Python and Java do not. -/
theorem writers_differ : cppBytes [.writeBits 1 1, .writeU8 255] = some [0x80, 0xff] ∧
      pythonBytes [.writeBits 1 1, .writeU8 255] = some [0xff, 0x80] ∧
      javaBytes [.writeBits 1 1, .writeU8 255] = some [0xff, 0x80] := by
  decide +kernel

end WriterCall

end Conduit.Ports

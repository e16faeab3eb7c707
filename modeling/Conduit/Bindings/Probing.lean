import Conduit.Bindings.Passthrough
import Conduit.Ports.CppReads
import Conduit.Ports.JavaReads

/-!
# What probing finds

The parameters that the probes find say where a field starts; it is taken to end with the header.
So the native session agrees with a generated one exactly if that one reads the last two bytes of
the header, the first of them first, or the whole header, the last byte first.
-/

namespace Conduit.Bindings

open Bits Io Ports List Option

/-! ## The native session -/

theorem byte_of_beVal {bytes : List UInt8} {i : Nat} {byte : UInt8}
    (h : bytes.reverse[i]? = some byte) : (beVal bytes >>> (i * 8)) &&& 0xff = byte.toNat := by
  obtain ⟨front, back, hsplit, hlen⟩ : ∃ front back, bytes.reverse = front ++ byte :: back
      ∧ front.length = i := by
    obtain ⟨hi, hget⟩ := List.getElem?_eq_some_iff.mp h
    refine ⟨bytes.reverse.take i, bytes.reverse.drop (i + 1), ?_, ?_⟩
    · rw [← hget, getElem_cons_drop, take_append_drop]
    rw [length_take]
    omega
  have hbytes : bytes = (back.reverse ++ [byte]) ++ front.reverse := by
    rw [← bytes.reverse_reverse, hsplit]
    simp
  have hlow : beVal front.reverse < 2 ^ (8 * i) := by
    have hlt := beVal_lt front.reverse
    rwa [length_reverse, hlen] at hlt
  have hbyte : byte.toNat < 256 := byte.toNat_lt
  rw [hbytes, beVal_append, beVal_append, beVal_singleton, length_reverse, hlen,
    Nat.shiftRight_eq_div_pow, Nat.mul_comm i 8, Nat.mul_comm (_ + _), Nat.mul_add_div
    (Nat.two_pow_pos _), Nat.div_eq_of_lt hlow]
  rw [show (0xff : Nat) = 2 ^ 8 - 1 from rfl, Nat.and_two_pow_sub_one_eq_mod]
  simp only [length_singleton]
  omega

theorem swapBytes_beVal (bytes : List UInt8) :
    swapBytes bytes.length (beVal bytes) = beVal bytes.reverse := by
  -- after `m` turns the last `m` bytes stand at the top
  have hturns : ∀ m ≤ bytes.length, (range m).foldl (fun swapped i => swapped |||
        ((beVal bytes >>> (i * 8)) &&& 0xff) <<< ((bytes.length - 1 - i) * 8)) 0
        = 2 ^ (8 * (bytes.length - m)) * beVal (bytes.reverse.take m) := by
    intro m
    induction m with
    | zero => simp
    | succ m ih =>
      intro hm
      obtain ⟨byte, hbyte⟩ : ∃ byte, bytes.reverse[m]? = some byte :=
        ⟨_, getElem?_eq_getElem (by rw [length_reverse]; omega)⟩
      obtain ⟨rest, hrest⟩ : ∃ rest, bytes.length = m + 1 + rest := ⟨_, (Nat.add_sub_of_le hm).symm⟩
      have hlt : byte.toNat < 2 ^ 8 := byte.toNat_lt
      have hroom : byte.toNat <<< (rest * 8) < 2 ^ (8 * (rest + 1)) := by
        rw [Nat.shiftLeft_eq, Nat.mul_comm rest, Nat.mul_succ, Nat.pow_add, Nat.mul_comm]
        exact Nat.mul_lt_mul_of_pos_left hlt (Nat.two_pow_pos _)
      rw [range_succ, foldl_append, ih (by omega), foldl_cons, foldl_nil, byte_of_beVal hbyte,
        show bytes.length - 1 - m = rest by omega, show bytes.length - m = rest + 1 by omega,
        show bytes.length - (m + 1) = rest by omega, ← Nat.two_pow_add_eq_or_of_lt hroom,
        take_add_one, hbyte, toList_some, beVal_append, beVal_singleton, Nat.shiftLeft_eq,
        length_singleton]
      ring
  have hall := hturns bytes.length le_rfl
  rw [Nat.sub_self, Nat.pow_zero, Nat.one_mul, ← length_reverse, take_length,
    length_reverse] at hall
  exact hall

/-- What a native session reads that skips `skip` bytes and takes the rest of the header. -/
def nativeLength (skip : Nat) (big : Bool) (header : List UInt8) : Nat :=
  if header.length - skip ≤ 8 then
    if big then beVal (header.drop skip) else beVal (header.drop skip).reverse
  else 0

/-- The parameters of a field that ends with the header. -/
def restConfig (headerSize skip : Nat) (big : Bool) : FrameConfig :=
  { minHeaderSize := headerSize
    lengthSkipBits := 8 * skip
    lengthFieldBits := 8 * (headerSize - skip)
    lengthBigEndian := big }

theorem skip_to {header : List UInt8} (hsize : header.length < 2 ^ 61) {p : Nat}
    (hp : p ≤ 8 * header.length) :
    (if p > 0 then BitReader.skipBits p { data := header } else (.ok (), { data := header }))
      = (.ok (), cppAt header p) := by
  have hstart : ({ data := header } : BitReader) = cppAt header 0 := (cppAt_byte 0).symm
  have hskip := cpp_skipBits hsize (Nat.zero_le (8 * header.length)) p
  rw [Nat.zero_add, if_pos hp] at hskip
  split
  next =>
    rw [ofReadM] at hskip
    split at hskip
    next h =>
      cases hskip
      exact h
    next => cases hskip
  next h =>
    obtain rfl : p = 0 := by omega
    rw [hstart]

theorem extractFrameLength_rest {header : List UInt8} (hsize : header.length < 2 ^ 61)
    {skip : Nat} (hskip : skip + 2 ≤ header.length) (big : Bool) :
    (restConfig header.length skip big).extractFrameLength header
      = nativeLength skip big header := by
  have hlen : (header.drop skip).length = header.length - skip := length_drop
  have hval : valueAt header (8 * skip) (8 * (header.length - skip)) = beVal (header.drop skip) := by
    rw [← beVal_valueAt (by omega) (by omega), show 8 * skip / 8 = skip by omega,
      show 8 * (header.length - skip) / 8 = header.length - skip by omega, ← hlen,
      take_length]
  rw [restConfig, FrameConfig.extractFrameLength, nativeLength]
  dsimp only
  rw [if_neg (Nat.lt_irrefl _), skip_to hsize (by omega)]
  by_cases hfits : header.length - skip ≤ 8
  · have hread := cpp_readBits hsize (p := 8 * skip) (by omega)
      (n := 8 * (header.length - skip)) (by omega) (by omega)
    simp only [hread, hval, if_pos hfits,
      show 8 * (header.length - skip) > 0 ∧ 8 * (header.length - skip) ≤ 64 by omega,
      show 8 * (header.length - skip) > 8 by omega, and_true, if_true,
      show (8 * (header.length - skip) + 7) / 8 = header.length - skip by omega]
    cases big with
    | true => rfl
    | false =>
      rw [← hlen]
      exact swapBytes_beVal _
  · rw [if_neg hfits]
    simp only []
    rw [if_neg (by omega)]

/-! ## The probes -/

theorem length_probeHeader (size skip : Nat) (first second : UInt8) :
    (probeHeader size skip first second).length = size := by
  simp [probeHeader]

theorem probeHeader_eq {size skip : Nat} (h : skip + 2 ≤ size) (first second : UInt8) :
    probeHeader size skip first second
      = replicate skip 0 ++ first :: second :: replicate (size - skip - 2) 0 := by
  obtain ⟨rest, rfl⟩ : ∃ rest, size = skip + (rest + 2) := ⟨size - skip - 2, by omega⟩
  rw [probeHeader, replicate_add, set_append_right _ _ (by simp), set_append_right _ _ (by simp),
    length_replicate, Nat.sub_self, Nat.add_sub_cancel_left,
    show skip + (rest + 2) - skip - 2 = rest by omega]
  rfl

section
variable (extract : List UInt8 → Option Int) (headerSize : Nat)

/-- A length of 42 is understood `skip` bytes into the header. -/
def hits (skip : Nat) : Bool :=
  decide (headerSize - skip ≥ 2) && (decide (extract (probeHeader headerSize skip 0 42) = some 42)
      || decide (extract (probeHeader headerSize skip 42 0) = some 42))

/-- The place that the first probe takes for the start of the length field. -/
def probedSkip : Nat := ((range headerSize).find? (hits extract headerSize)).getD (headerSize - 2)

/-- The answer of the second probe. -/
def probedBig (skip : Nat) : Bool :=
  decide (extract (probeHeader headerSize skip 1 2) = some 0x0102)

/-- The parameters that the probes find. -/
def probedConfig : FrameConfig :=
  restConfig headerSize (probedSkip extract headerSize)
    (probedBig extract headerSize (probedSkip extract headerSize))

/-- The session answers to every header. -/
def Answers : Prop := ∀ header, header.length = headerSize → ∃ length, extract header = some length

variable {headerSize}

theorem probedSkip_le (h : 2 ≤ headerSize) : probedSkip extract headerSize + 2 ≤ headerSize := by
  rw [probedSkip]
  cases hfind : (range headerSize).find? (hits extract headerSize) with
  | none =>
    rw [getD_none]
    omega
  | some skip =>
    have hhit := find?_some hfind
    simp only [hits, Bool.and_eq_true, decide_eq_true_eq] at hhit
    rw [getD_some]
    omega

variable {extract}

theorem probeLoop_eq (h : Answers extract headerSize) (skips : List Nat) :
    probeLoop extract headerSize skips = some (skips.find? (hits extract headerSize)) := by
  induction skips with
  | nil => rfl
  | cons skip rest ih =>
    obtain ⟨big, hbig⟩ := h _ (length_probeHeader headerSize skip 0 42)
    obtain ⟨little, hlittle⟩ := h _ (length_probeHeader headerSize skip 42 0)
    rw [probeLoop]
    by_cases hroom : headerSize - skip ≥ 2
    · by_cases hhit : big = 42
      · simp [hits, hroom, hbig, hhit]
      by_cases hhit' : little = 42
      · simp [hits, hroom, hbig, hhit, hlittle, hhit']
      · simp [hits, hroom, hbig, hhit, hlittle, hhit', ih]
    · rw [ih]
      simp [hits, hroom]

theorem probedSkip_hits : probedSkip extract headerSize = headerSize - 2
      ∨ hits extract headerSize (probedSkip extract headerSize) = true := by
  rw [probedSkip]
  cases hfind : (range headerSize).find? (hits extract headerSize) with
  | none => exact .inl rfl
  | some skip => exact .inr (find?_some hfind)

theorem not_hits_of_lt {skip : Nat} (h : skip < probedSkip extract headerSize) :
    hits extract headerSize skip = false := by
  rw [probedSkip] at h
  cases hfind : (range headerSize).find? (hits extract headerSize) with
  | none =>
    rw [hfind, getD_none] at h
    have hnone := find?_eq_none.mp hfind skip (mem_range.mpr (by omega))
    simpa using hnone
  | some first =>
    rw [hfind] at h
    have hfirst := (find?_range_eq_some.mp hfind).2.2 skip h
    simpa using hfirst

end

/-! ## Registration -/

theorem zeros_natCast (n : Nat) : zeros n = some (replicate n 0) := by
  rw [zeros, if_neg (by omega), Int.toNat_natCast]

section
variable {extract : List UInt8 → Option Int} {headerSize : Nat}

theorem PythonTransceiver.setItem_natCast {header : List UInt8} {i : Nat} (byte : UInt8)
    (h : i < header.length) : setItem header i byte = some (header.set i byte) := by
  simp only [setItem, if_neg (Int.not_lt.mpr (Int.natCast_nonneg i))]
  rw [if_pos (by omega), Int.toNat_natCast]

theorem PythonTransceiver.probeSkipBits_eq (htwo : 2 ≤ headerSize)
    (h : Answers extract headerSize) :
    probeSkipBits extract headerSize = some ((8 * probedSkip extract headerSize : Nat) : Int) := by
  rw [probeSkipBits, probeLoop_eq h, probedSkip]
  cases (range headerSize).find? (hits extract headerSize) with
  | none =>
    simp
    omega
  | some skip =>
    simp
    omega

theorem PythonTransceiver.probeEndianness_eq {skip : Nat} (hskip : skip + 2 ≤ headerSize)
    (h : Answers extract headerSize) :
    probeEndianness extract (8 * skip : Nat) (8 * (headerSize - skip) : Nat)
      = some (probedBig extract headerSize skip) := by
  obtain ⟨length, hlength⟩ := h _ (length_probeHeader headerSize skip 1 2)
  have hbytes : ((8 * skip : Nat) : Int) / 8 = skip := by omega
  have hfield : (((8 * (headerSize - skip) : Nat) : Int) + 7) / 8 = (headerSize - skip : Nat) := by
    omega
  have hsum : (skip : Int) + (headerSize - skip : Nat) = headerSize := by omega
  have hheader : ((replicate headerSize 0).set skip 1).set (skip + 1) 2
      = probeHeader headerSize skip 1 2 := rfl
  rw [probeEndianness]
  simp only [hbytes, hfield, hsum, zeros_natCast, Option.bind_eq_bind, Option.bind_some]
  rw [setItem_natCast _ (by simp; omega)]
  simp only [Option.bind_some]
  rw [if_pos (by omega), show (skip : Int) + 1 = (skip + 1 : Nat) by omega,
    setItem_natCast _ (by simp; omega)]
  simp only [Option.bind_some]
  rw [hheader, probedBig, hlength]
  simp

theorem PythonTransceiver.registerSession_eq (hsize : headerSize < 2 ^ 61) (htwo : 2 ≤ headerSize)
    (h : Answers extract headerSize) :
    registerSession extract headerSize = some (probedConfig extract headerSize) := by
  have hle := probedSkip_le extract htwo
  have hfield : (headerSize : Int) * 8 - (8 * probedSkip extract headerSize : Nat)
      = (8 * (headerSize - probedSkip extract headerSize) : Nat) := by
    omega
  rw [registerSession, probeSkipBits_eq htwo h]
  simp only [Option.bind_eq_bind, Option.bind_some]
  rw [hfield, probeEndianness_eq hle h, toUint64_natCast (by omega), toUint64_natCast (by omega),
    toUint64_natCast (by omega)]
  rfl

theorem JavaTransceiver.setItem_natCast {header : List UInt8} {i : Nat} (byte : UInt8)
    (h : i < header.length) : setItem header i byte = some (header.set i byte) := by
  rw [setItem, if_pos (by omega), Int.toNat_natCast]

theorem wrap32_natCast {n : Nat} (h : n < 2 ^ 31) : wrap32 n = n :=
  wrap32_of_lt (by omega) (by omega)

theorem JavaTransceiver.probeFrameSkipBits_eq (hsize : headerSize < 2 ^ 28) (htwo : 2 ≤ headerSize)
    (h : Answers extract headerSize) : probeFrameSkipBits extract headerSize
      = some ((8 * probedSkip extract headerSize : Nat) : Int) := by
  have hle := probedSkip_le extract htwo
  rw [probedSkip] at hle
  rw [probeFrameSkipBits, probeLoop_eq h, probedSkip]
  cases hfind : (range headerSize).find? (hits extract headerSize) with
  | none =>
    have hbits : ((headerSize : Int) - 2) * 8 = (8 * (headerSize - 2) : Nat) := by omega
    show some (wrap32 _) = _
    rw [hbits, wrap32_natCast (by omega), getD_none]
  | some skip =>
    rw [hfind, getD_some] at hle
    have hbits : (skip : Int) * 8 = (8 * skip : Nat) := by omega
    show some (wrap32 _) = _
    rw [hbits, wrap32_natCast (by omega), getD_some]

theorem JavaTransceiver.probeFrameEndianness_eq {skip : Nat} (hsize : headerSize < 2 ^ 28)
    (hskip : skip + 2 ≤ headerSize) (h : Answers extract headerSize) :
    probeFrameEndianness extract (8 * skip : Nat) (8 * (headerSize - skip) : Nat)
      = some (probedBig extract headerSize skip) := by
  obtain ⟨length, hlength⟩ := h _ (length_probeHeader headerSize skip 1 2)
  have hbytes : ((8 * skip : Nat) : Int).tdiv 8 = skip := by
    rw [JavaReader.tdiv_natCast]
    omega
  have hfield : (wrap32 ((8 * (headerSize - skip) : Nat) + 7)).tdiv 8
      = (headerSize - skip : Nat) := by
    have hcast : ((8 * (headerSize - skip) : Nat) : Int) + 7
        = (8 * (headerSize - skip) + 7 : Nat) := by
      omega
    rw [hcast, wrap32_natCast (by omega), JavaReader.tdiv_natCast]
    omega
  have hsum : wrap32 ((skip : Int) + (headerSize - skip : Nat)) = headerSize := by
    rw [show (skip : Int) + (headerSize - skip : Nat) = headerSize by omega,
      wrap32_natCast (by omega)]
  have hheader : ((replicate headerSize 0).set skip 1).set (skip + 1) 2
      = probeHeader headerSize skip 1 2 := rfl
  rw [probeFrameEndianness]
  simp only [hbytes, hfield, hsum, zeros_natCast, Option.bind_eq_bind, Option.bind_some]
  rw [if_pos (by omega), setItem_natCast _ (by simp; omega)]
  simp only [Option.bind_some]
  rw [show (skip : Int) + 1 = (skip + 1 : Nat) by omega, setItem_natCast _ (by simp; omega)]
  simp only [Option.bind_some]
  rw [hheader, probedBig, hlength]
  simp

theorem JavaTransceiver.registerSession_eq (hsize : headerSize < 2 ^ 28) (htwo : 2 ≤ headerSize)
    (h : Answers extract headerSize) :
    registerSession extract headerSize = some (probedConfig extract headerSize) := by
  have hle := probedSkip_le extract htwo
  have hbits : wrap32 (headerSize * 8) = (8 * headerSize : Nat) := by
    rw [show (headerSize : Int) * 8 = (8 * headerSize : Nat) by omega, wrap32_natCast (by omega)]
  have hfield : ((8 * headerSize : Nat) : Int) - (8 * probedSkip extract headerSize : Nat)
      = (8 * (headerSize - probedSkip extract headerSize) : Nat) := by
    omega
  rw [registerSession, probeFrameSkipBits_eq hsize htwo h, Option.bind_eq_bind, Option.bind_some,
    hbits, hfield, wrap32_natCast (by omega)]
  dsimp only
  rw [probeFrameEndianness_eq hsize hle h, toUint64_natCast (by omega),
    toUint64_natCast (by omega), toUint64_natCast (by omega)]
  rfl

end

/-! ## Agreement -/

section
variable (extract : List UInt8 → Option Int) (headerSize : Nat)

/-- The session is registered, and the native one gives its frame lengths. -/
def Agrees (register : Option FrameConfig) : Prop :=
  ∃ cfg, register = some cfg ∧ ∀ header, header.length = headerSize →
    extract header = some (cfg.extractFrameLength header : Int)

/-- What the native session reads with the probed parameters is the length. -/
def ReadsProbed : Prop :=
  ∀ header, header.length = headerSize → extract header
    = some (nativeLength (probedSkip extract headerSize)
        (probedBig extract headerSize (probedSkip extract headerSize)) header : Int)

/-- The length is the last two bytes of the header, the first of them first. -/
def EndsWithLength : Prop :=
  ∀ header, header.length = headerSize →
    extract header = some (beVal (header.drop (headerSize - 2)) : Int)

/-- The length is the whole header, the last byte first. -/
def IsLength : Prop :=
  ∀ header, header.length = headerSize → extract header = some (beVal header.reverse : Int)

variable {extract headerSize} {skip : Nat}

section

variable (h : skip + 2 ≤ headerSize) (first second : UInt8)

include h first second

theorem drop_probeHeader : (probeHeader headerSize skip first second).drop skip
      = first :: second :: replicate (headerSize - skip - 2) 0 := by
  rw [probeHeader_eq h, drop_left' length_replicate]

theorem beVal_probe : beVal ((probeHeader headerSize skip first second).drop skip)
      = (first.toNat * 256 + second.toNat) * 2 ^ (8 * (headerSize - skip - 2)) := by
  rw [drop_probeHeader h, beVal_cons, beVal_cons, beVal_replicate_zero, length_cons,
    length_replicate]
  ring

theorem beVal_reverse_probe : beVal ((probeHeader headerSize skip first second).drop skip).reverse
      = second.toNat * 256 + first.toNat := by
  rw [drop_probeHeader h, reverse_cons, reverse_cons, beVal_append, beVal_append]
  simp

end

theorem nativeLength_before (h : skip + 3 ≤ headerSize) (hfits : headerSize - (skip + 1) ≤ 8) :
    nativeLength (skip + 1) false (probeHeader headerSize skip 0 42) = 42 := by
  have hdrop : (probeHeader headerSize skip 0 42).drop (skip + 1)
      = 42 :: replicate (headerSize - skip - 2) 0 := by
    rw [← drop_drop, drop_probeHeader (by omega)]
    rfl
  rw [nativeLength, length_probeHeader, if_pos hfits, hdrop, reverse_cons, beVal_append]
  simp

theorem Agrees.endsWith_or_isLength {big : Bool} (hskip : skip + 2 ≤ headerSize)
    (hplace : skip = headerSize - 2 ∨ hits extract headerSize skip = true)
    (hfirst : ∀ j < skip, hits extract headerSize j = false)
    (hbig : big = probedBig extract headerSize skip) (h : ∀ header, header.length = headerSize →
      extract header = some (nativeLength skip big header : Int)) :
    EndsWithLength extract headerSize ∨ headerSize ≤ 8 ∧ IsLength extract headerSize := by
  have hprobe (i : Nat) (first second : UInt8) := h _ (length_probeHeader headerSize i first second)
  have hfits : headerSize - skip ≤ 8 := by
    by_contra hlarge
    rcases hplace with rfl | hhit
    · omega
    simp only [hits, hprobe, nativeLength, length_probeHeader, if_neg hlarge] at hhit
    simp at hhit
  cases big with
  | true =>
    -- 258 is read back only if nothing follows its two bytes
    have hval := hprobe skip 1 2
    rw [of_decide_eq_true hbig.symm, nativeLength, length_probeHeader, if_pos hfits, if_pos rfl,
      beVal_probe hskip] at hval
    have hpow := some.inj hval
    rw [show (1 : UInt8).toNat = 1 from rfl, show (2 : UInt8).toNat = 2 from rfl] at hpow
    have hskip : skip = headerSize - 2 := by
      by_contra hne
      have hone : 1 < 2 ^ (8 * (headerSize - skip - 2)) := Nat.one_lt_two_pow (by omega)
      omega
    subst hskip
    left
    intro header hlen
    rw [h header hlen, nativeLength, hlen, if_pos hfits, if_pos rfl]
  | false =>
    cases skip with
    | zero =>
      right
      refine ⟨hfits, ?_⟩
      intro header hlen
      rw [h header hlen, nativeLength, hlen, if_pos hfits]
      simp
    | succ skip =>
      have hhit := hprobe skip 0 42
      rw [nativeLength_before (by omega) hfits] at hhit
      have hnone := hfirst skip (Nat.lt_succ_self skip)
      simp [hits, hhit, show 2 ≤ headerSize - skip by omega] at hnone

theorem EndsWithLength.readsProbed (htwo : 2 ≤ headerSize) (h : EndsWithLength extract headerSize) :
    ReadsProbed extract headerSize := by
  have hle := probedSkip_le extract htwo
  have hplace : probedSkip extract headerSize = headerSize - 2
      ∨ hits extract headerSize (probedSkip extract headerSize) = true := probedSkip_hits
  unfold ReadsProbed
  generalize probedSkip extract headerSize = skip at hle hplace ⊢
  have hprobe (i : Nat) (first second : UInt8) := h _ (length_probeHeader headerSize i first second)
  have hskip : skip = headerSize - 2 := by
    rcases hplace with hskip | hhit
    · exact hskip
    by_contra hne
    -- the two bytes of the trial lie before the last two, or overlap them by one
    have hdrop : ∀ first second, beVal ((probeHeader headerSize skip first second).drop
        (headerSize - 2)) = if skip + 3 = headerSize then second.toNat * 256 else 0 := by
      intro first second
      obtain ⟨rest, hrest⟩ : ∃ rest, headerSize = skip + (rest + 3) := ⟨headerSize - skip - 3, by omega⟩
      rw [show headerSize - 2 = skip + (rest + 1) by omega, ← drop_drop,
        drop_probeHeader hle, drop_succ_cons]
      cases rest with
      | zero =>
        rw [drop_zero, if_pos (by omega), beVal_cons, beVal_replicate_zero,
          length_replicate, show headerSize - skip - 2 = 1 by omega]
        omega
      | succ rest => rw [drop_succ_cons, drop_replicate, beVal_replicate_zero, if_neg (by omega)]
    simp only [hits, hprobe, hdrop] at hhit
    by_cases hedge : skip + 3 = headerSize
    · simp [hedge] at hhit
    · simp [hedge] at hhit
  have hbig : probedBig extract headerSize skip = true := by
    have hval := beVal_probe hle 1 2
    rw [hskip, show headerSize - (headerSize - 2) - 2 = 0 by omega] at hval
    rw [probedBig, hprobe, hskip, hval]
    simp
  intro header hlen
  rw [h header hlen, hbig, nativeLength, if_pos (by omega), if_pos rfl, hskip]

theorem IsLength.readsProbed (htwo : 2 ≤ headerSize) (hsmall : headerSize ≤ 8)
    (h : IsLength extract headerSize) : ReadsProbed extract headerSize := by
  have hval (first second : UInt8) : extract (probeHeader headerSize 0 first second)
      = some ((second.toNat * 256 + first.toNat : Nat) : Int) := by
    have hprobe := beVal_reverse_probe (show 0 + 2 ≤ headerSize from htwo) first second
    rw [h _ (length_probeHeader _ _ _ _), ← hprobe, drop_zero]
  have hskip : probedSkip extract headerSize = 0 := by
    by_contra hne
    have hnone : hits extract headerSize 0 = false := not_hits_of_lt (Nat.pos_of_ne_zero hne)
    rw [hits, hval 42 0] at hnone
    simp [htwo] at hnone
  have hbig : probedBig extract headerSize 0 = false := by
    rw [probedBig, hval]
    simp
  intro header hlen
  rw [h header hlen, hskip, hbig, nativeLength, if_pos (by omega)]
  simp

/-- What a session must be for its probed parameters to be right. -/
theorem agrees_iff {register : Option FrameConfig} (hsize : headerSize < 2 ^ 61)
    (htwo : 2 ≤ headerSize)
    (hregister : Answers extract headerSize → register = some (probedConfig extract headerSize)) :
    Agrees extract headerSize register
      ↔ EndsWithLength extract headerSize ∨ headerSize ≤ 8 ∧ IsLength extract headerSize := by
  have hle := probedSkip_le extract htwo
  have hnative (header : List UInt8) (hlen : header.length = headerSize) (big : Bool) :
      (restConfig headerSize (probedSkip extract headerSize) big).extractFrameLength header
        = nativeLength (probedSkip extract headerSize) big header := by
    subst hlen
    exact extractFrameLength_rest hsize hle big
  constructor
  · rintro ⟨cfg, hcfg, hlengths⟩
    have hanswers : Answers extract headerSize := fun header hlen => ⟨_, hlengths header hlen⟩
    rw [hregister hanswers] at hcfg
    cases hcfg
    refine Agrees.endsWith_or_isLength hle probedSkip_hits (fun _ => not_hits_of_lt) rfl ?_
    intro header hlen
    rw [hlengths header hlen, probedConfig, hnative header hlen]
  intro hform
  have hlengths : ReadsProbed extract headerSize := by
    rcases hform with hends | ⟨hsmall, hall⟩
    · exact hends.readsProbed htwo
    · exact hall.readsProbed htwo hsmall
  refine ⟨_, hregister fun header hlen => ⟨_, hlengths header hlen⟩, ?_⟩
  intro header hlen
  rw [hlengths header hlen, probedConfig, hnative header hlen]

end

end Conduit.Bindings

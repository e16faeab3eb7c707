import Mathlib.Data.Nat.Bitwise
import Mathlib.Data.List.Basic
import Mathlib.Tactic.Ring

/-!
# Bit lists, most significant bit first

A bit stream is a `List Bool` in transmission order. `msbBits n v` is the image of the `n` low
bits of a number in such a stream and `bitsVal` reads a stream back as a number; the two are
inverse to each other up to reduction modulo `2 ^ n`. `bytesBits` is the stream of a byte
buffer.
-/

namespace Conduit.Bits

open List

variable (bs : List Bool) (v n : Nat)

/-- The `n` low bits of `v`, most significant first. -/
def msbBits : Nat → Nat → List Bool
  | 0, _ => []
  | n + 1, v => v.testBit n :: msbBits n v

/-- The number a bit list denotes, most significant bit first. -/
def bitsVal (bs : List Bool) : Nat := bs.foldl (fun acc b => 2 * acc + b.toNat) 0

/-- The bit stream of a byte buffer. -/
def bytesBits (bytes : List UInt8) : List Bool := bytes.flatMap (fun b => msbBits 8 b.toNat)

@[simp] theorem length_msbBits (v : Nat) : (msbBits n v).length = n := by
  induction n with
  | zero => rfl
  | succ n ih => simp [msbBits, ih]

@[simp] theorem msbBits_zero_left : msbBits 0 v = [] := rfl

theorem msbBits_congr {n v w : Nat} (h : ∀ i < n, v.testBit i = w.testBit i) :
    msbBits n v = msbBits n w := by
  induction n with
  | zero => rfl
  | succ n ih =>
    simp only [msbBits]
    rw [h n (Nat.lt_succ_self n), ih (fun i hi => h i (Nat.lt_succ_of_lt hi))]

@[simp] theorem msbBits_zero_right : msbBits n 0 = replicate n false := by
  induction n with
  | zero => rfl
  | succ n ih => simp [msbBits, ih, replicate_succ]

theorem msbBits_mod {n m : Nat} (h : n ≤ m) : msbBits n (v % 2 ^ m) = msbBits n v := by
  apply msbBits_congr
  intro i hi
  rw [Nat.testBit_mod_two_pow]
  simp [show i < m by omega]

theorem msbBits_add (a b v : Nat) : msbBits (a + b) v = msbBits a (v >>> b) ++ msbBits b v := by
  induction a with
  | zero => simp
  | succ a ih =>
    have e : a + 1 + b = (a + b) + 1 := by omega
    rw [e]
    simp only [msbBits, ih, cons_append]
    rw [Nat.testBit_shiftRight, Nat.add_comm b a]

theorem foldl_bits (acc : Nat) :
    bs.foldl (fun acc b => 2 * acc + b.toNat) acc = acc * 2 ^ bs.length + bitsVal bs := by
  induction bs generalizing acc with
  | nil => simp [bitsVal]
  | cons b bs ih =>
    simp only [foldl_cons, length_cons, bitsVal]
    rw [ih, ih (2 * 0 + b.toNat)]
    ring

@[simp] theorem bitsVal_nil : bitsVal [] = 0 := rfl

theorem bitsVal_cons (b : Bool) (bs : List Bool) :
    bitsVal (b :: bs) = b.toNat * 2 ^ bs.length + bitsVal bs := by
  unfold bitsVal
  rw [foldl_cons, foldl_bits]
  simp [bitsVal]

theorem bitsVal_append (as bs : List Bool) :
    bitsVal (as ++ bs) = bitsVal as * 2 ^ bs.length + bitsVal bs := by
  unfold bitsVal
  rw [foldl_append, foldl_bits]
  rfl

theorem bitsVal_lt : bitsVal bs < 2 ^ bs.length := by
  induction bs with
  | nil => simp
  | cons b bs ih =>
    rw [bitsVal_cons, length_cons, Nat.pow_succ]
    cases b <;> simp <;> omega

/-- Reading back the `n` low bits of `v` gives `v` modulo `2 ^ n`. -/
@[simp] theorem bitsVal_msbBits (v : Nat) : bitsVal (msbBits n v) = v % 2 ^ n := by
  induction n with
  | zero => simp [Nat.mod_one]
  | succ n ih =>
    rw [msbBits, bitsVal_cons, ih, length_msbBits, Nat.mod_pow_succ, Nat.add_comm,
      Nat.testBit_eq_decide_div_mod_eq]
    rcases Nat.mod_two_eq_zero_or_one (v / 2 ^ n) with h | h <;> simp [h]

@[simp] theorem msbBits_bitsVal : msbBits bs.length (bitsVal bs) = bs := by
  induction bs with
  | nil => rfl
  | cons b bs ih =>
    have hlt := bitsVal_lt bs
    have hmod : msbBits bs.length (bitsVal (b :: bs)) = msbBits bs.length (bitsVal bs) := by
      rw [← msbBits_mod _ (Nat.le_refl bs.length), bitsVal_cons, Nat.mul_add_mod_self_right,
        Nat.mod_eq_of_lt hlt]
    have hbit : (bitsVal (b :: bs)).testBit bs.length = b := by
      rw [bitsVal_cons, Nat.testBit_eq_decide_div_mod_eq,
        Nat.add_comm, Nat.add_mul_div_right _ _ (Nat.two_pow_pos _), Nat.div_eq_of_lt hlt]
      cases b <;> simp
    rw [length_cons, msbBits, hbit, hmod, ih]

theorem bitsVal_inj {as bs : List Bool} (hlen : as.length = bs.length)
    (h : bitsVal as = bitsVal bs) : as = bs := by
  rw [← msbBits_bitsVal as, ← msbBits_bitsVal bs, hlen, h]

theorem bitsVal_replicate_false : bitsVal (replicate n false) = 0 := by
  rw [← msbBits_zero_right, bitsVal_msbBits, Nat.zero_mod]

theorem msbBits_or_low {n j a m : Nat} (hj : j ≤ n) (ha : a % 2 ^ j = 0) (hm : m < 2 ^ j) :
    msbBits n (a ||| m) = msbBits (n - j) (a >>> j) ++ msbBits j m := by
  obtain ⟨k, rfl⟩ : ∃ k, n = k + j := ⟨n - j, by omega⟩
  rw [msbBits_add, Nat.add_sub_cancel]
  congr 1
  · apply msbBits_congr
    intro i _
    rw [Nat.testBit_shiftRight, Nat.testBit_shiftRight, Nat.testBit_or,
      Nat.testBit_lt_two_pow (x := m) (Nat.lt_of_lt_of_le hm (Nat.pow_le_pow_right (by omega)
        (Nat.le_add_right j i))), Bool.or_false]
  apply msbBits_congr
  intro i hi
  have h0 : a.testBit i = false := by
    have h := Nat.testBit_mod_two_pow a j i
    rw [ha] at h
    simpa [hi] using h.symm
  rw [Nat.testBit_or, h0, Bool.false_or]

theorem testBit_top {n v : Nat} (hn : 1 ≤ n) (hv : v < 2 ^ n) :
    v.testBit (n - 1) = decide (2 ^ (n - 1) ≤ v) := by
  rw [← Nat.sub_add_cancel hn] at hv
  by_cases h : 2 ^ (n - 1) ≤ v
  · simp [h, Nat.testBit_of_two_pow_le_and_two_pow_add_one_gt h hv]
  · simp [h, Nat.testBit_lt_two_pow (not_le.mp h)]

theorem or_extension {n c v : Nat} (hc : c ≤ n) (hv : v < 2 ^ c) :
    v ||| (2 ^ n - 1 - (2 ^ c - 1)) = 2 ^ n - 2 ^ c + v := by
  have hpow : 2 ^ n = 2 ^ c * 2 ^ (n - c) := by
    rw [← Nat.pow_add]
    congr 1
    omega
  have hmask : 2 ^ n - 1 - (2 ^ c - 1) = 2 ^ c * (2 ^ (n - c) - 1) := by
    rw [Nat.mul_sub, ← hpow]
    omega
  rw [hmask, Nat.or_comm, ← Nat.two_pow_add_eq_or_of_lt hv, Nat.mul_sub, ← hpow, Nat.mul_one]

theorem msbBits_sign {m raw : Nat} (neg : Bool) (hraw : raw < 2 ^ m) :
    msbBits (m + 1) (if neg then raw ||| 2 ^ m else raw) = neg :: msbBits m raw := by
  have htop : raw.testBit m = false := Nat.testBit_lt_two_pow hraw
  cases neg with
  | false => simp [msbBits, htop]
  | true =>
    simp only [if_true, msbBits, Nat.testBit_or, htop, Nat.testBit_two_pow_self, Bool.or_true]
    congr 1
    apply msbBits_congr
    intro i hi
    rw [Nat.testBit_or, Nat.testBit_two_pow_of_ne (by omega), Bool.or_false]

theorem take_drop_msbBits {n s k : Nat} (h : s + k ≤ n) :
    ((msbBits n v).drop s).take k = msbBits k (v >>> (n - s - k)) := by
  obtain ⟨m, rfl⟩ : ∃ m, n = s + (k + m) := ⟨n - s - k, by omega⟩
  rw [msbBits_add, drop_append_of_le_length (by simp), drop_of_length_le (by simp),
    nil_append, msbBits_add, take_append_of_le_length (by simp),
    take_of_length_le (by simp)]
  congr 2
  omega

@[simp] theorem bytesBits_nil : bytesBits [] = [] := rfl

@[simp] theorem bytesBits_cons (b : UInt8) (bs : List UInt8) :
    bytesBits (b :: bs) = msbBits 8 b.toNat ++ bytesBits bs := rfl

@[simp] theorem bytesBits_append (as bs : List UInt8) :
    bytesBits (as ++ bs) = bytesBits as ++ bytesBits bs := by
  simp [bytesBits]

@[simp] theorem length_bytesBits (bs : List UInt8) : (bytesBits bs).length = 8 * bs.length := by
  induction bs with
  | nil => rfl
  | cons b bs ih => simp [ih]; omega

theorem bytesBits_replicate_zero : bytesBits (replicate n 0) = replicate (8 * n) false := by
  induction n with
  | zero => rfl
  | succ n ih =>
    rw [replicate_succ, bytesBits_cons, ih, Nat.mul_succ, Nat.add_comm (8 * n) 8, replicate_add]
    simp

theorem drop_bytesBits (bs : List UInt8) (k : Nat) :
    (bytesBits bs).drop (8 * k) = bytesBits (bs.drop k) := by
  induction bs generalizing k with
  | nil => simp
  | cons b bs ih =>
    cases k with
    | zero => simp
    | succ k =>
      rw [bytesBits_cons, drop_succ_cons, ← ih k, drop_append, length_msbBits,
        drop_of_length_le (by simp), nil_append, show 8 * (k + 1) - 8 = 8 * k by omega]

theorem take_bytesBits (bs : List UInt8) (k : Nat) :
    (bytesBits bs).take (8 * k) = bytesBits (bs.take k) := by
  induction bs generalizing k with
  | nil => simp
  | cons b bs ih =>
    cases k with
    | zero => simp
    | succ k =>
      rw [bytesBits_cons, take_succ_cons, bytesBits_cons, ← ih k, take_append,
        length_msbBits, take_of_length_le (by simp), show 8 * (k + 1) - 8 = 8 * k by omega]

theorem take_drop_bytesBits {data : List UInt8} {q : Nat} {byte : UInt8} {s k : Nat}
    (hbyte : data[q]? = some byte) (h : s + k ≤ 8) :
    ((bytesBits data).drop (8 * q + s)).take k = msbBits k (byte.toNat >>> (8 - s - k)) := by
  obtain ⟨hq, hget⟩ := List.getElem?_eq_some_iff.mp hbyte
  rw [← drop_drop, drop_bytesBits, drop_eq_getElem_cons hq, hget, bytesBits_cons,
    drop_append_of_le_length (by simp; omega), take_append_of_le_length (by simp; omega),
    take_drop_msbBits _ h]

theorem toNat_eq_bitsVal (b : UInt8) : bitsVal (msbBits 8 b.toNat) = b.toNat := by
  rw [bitsVal_msbBits]
  exact Nat.mod_eq_of_lt b.toNat_lt

theorem bytesBits_inj {as bs : List UInt8} (h : bytesBits as = bytesBits bs) : as = bs := by
  induction as generalizing bs with
  | nil =>
    have hlen := congrArg length h
    simp only [bytesBits_nil, length_nil, length_bytesBits] at hlen
    exact (eq_nil_of_length_eq_zero (by omega)).symm
  | cons a as ih =>
    cases bs with
    | nil => simpa using congrArg length h
    | cons b bs =>
      rw [bytesBits_cons, bytesBits_cons] at h
      obtain ⟨hb, hrest⟩ := append_inj h (by simp)
      have hab : a.toNat = b.toNat := by rw [← toNat_eq_bitsVal a, hb, toNat_eq_bitsVal b]
      rw [UInt8.toNat_inj.mp hab, ih hrest]

/-- The zero bits from position `n` up to the next byte boundary. -/
def bytePad (n : Nat) : List Bool := replicate ((8 - n % 8) % 8) false

@[simp] theorem length_bytePad : (bytePad n).length = (8 - n % 8) % 8 := by simp [bytePad]

theorem bytePad_of_aligned {n : Nat} (h : n % 8 = 0) : bytePad n = [] := by simp [bytePad, h]

theorem bytePad_of_unaligned {n : Nat} (h : n % 8 ≠ 0) :
    bytePad n = replicate (8 - n % 8) false := by
  rw [bytePad, Nat.mod_eq_of_lt (by omega)]

theorem length_append_bytePad_mod : (bs ++ bytePad bs.length).length % 8 = 0 := by
  rw [length_append, length_bytePad]
  omega

theorem bytePad_append_bytePad : bytePad (bs ++ bytePad bs.length).length = [] :=
  bytePad_of_aligned (length_append_bytePad_mod bs)

theorem modify_length_append (front : List UInt8) (last : UInt8) (f : UInt8 → UInt8) :
    (front ++ [last]).modify front.length f = front ++ [f last] := by
  induction front with
  | nil => rfl
  | cons b bs ih => simp [ih]

theorem and_shiftLeft_lt {j c : Nat} (hc : c ≤ j) : (v &&& (2 ^ c - 1)) <<< (j - c) < 2 ^ j := by
  rw [Nat.and_two_pow_sub_one_eq_mod, Nat.shiftLeft_eq]
  calc v % 2 ^ c * 2 ^ (j - c) < 2 ^ c * 2 ^ (j - c) :=
        Nat.mul_lt_mul_of_pos_right (Nat.mod_lt _ (Nat.two_pow_pos c)) (Nat.two_pow_pos _)
    _ = 2 ^ j := by rw [← Nat.pow_add]; congr 1; omega

theorem msbBits_shiftLeft {j c : Nat} (hc : c ≤ j) :
    msbBits j ((v &&& (2 ^ c - 1)) <<< (j - c)) = msbBits c v ++ replicate (j - c) false := by
  apply bitsVal_inj
  · simp
    omega
  rw [bitsVal_msbBits, Nat.mod_eq_of_lt (and_shiftLeft_lt v hc), bitsVal_append,
    bitsVal_replicate_false, bitsVal_msbBits, length_replicate, Nat.shiftLeft_eq,
    Nat.and_two_pow_sub_one_eq_mod, Nat.add_zero]

theorem msbBits_or_byte {last : UInt8} {t : List Bool} {j c : Nat}
    (hlast : msbBits 8 last.toNat = t ++ replicate j false) (hc : c ≤ j) :
    msbBits 8 (last ||| UInt8.ofNat ((v &&& (2 ^ c - 1)) <<< (j - c))).toNat
      = t ++ msbBits c v ++ replicate (j - c) false := by
  have hlen := congrArg length hlast
  simp only [length_msbBits, length_append, length_replicate] at hlen
  have hval : last.toNat = bitsVal t * 2 ^ j := by
    rw [← toNat_eq_bitsVal, hlast, bitsVal_append, bitsVal_replicate_false]
    simp
  have hlt := and_shiftLeft_lt v hc
  have hlt8 : (v &&& (2 ^ c - 1)) <<< (j - c) < 2 ^ 8 :=
    Nat.lt_of_lt_of_le hlt (Nat.pow_le_pow_right (by omega) (by omega))
  have hor : (last ||| UInt8.ofNat ((v &&& (2 ^ c - 1)) <<< (j - c))).toNat
      = last.toNat ||| ((v &&& (2 ^ c - 1)) <<< (j - c)) := by
    rw [UInt8.toNat_or]
    congr 1
    exact Nat.mod_eq_of_lt hlt8
  have ht : msbBits (8 - j) (last.toNat >>> j) = t := by
    rw [hval, Nat.shiftRight_eq_div_pow, Nat.mul_div_cancel _ (Nat.two_pow_pos j),
      show 8 - j = t.length by omega, msbBits_bitsVal]
  rw [hor, msbBits_or_low (by omega) (by rw [hval, Nat.mul_mod_left]) hlt, msbBits_shiftLeft v hc,
    ht, append_assoc]

/-- Filling `c` of the `j` zero bits at the end of a buffer, when they are all in its last
byte. -/
theorem bytesBits_modify_or {data : List UInt8} {bs : List Bool} {j c : Nat}
    (hdata : bytesBits data = bs ++ replicate j false) (hj : 1 ≤ j) (hj8 : j ≤ 8) (hc : c ≤ j) :
    bytesBits (data.modify (bs.length / 8) (· ||| UInt8.ofNat ((v &&& (2 ^ c - 1)) <<< (j - c))))
      = bs ++ msbBits c v ++ replicate (j - c) false := by
  have hlen := congrArg length hdata
  simp only [length_bytesBits, length_append, length_replicate] at hlen
  -- the byte that is changed is the last one
  obtain ⟨front, last, rfl⟩ : ∃ front last, data = front ++ [last] := by
    rcases eq_nil_or_concat data with h | ⟨front, last, h⟩
    · subst h
      simp only [length_nil] at hlen
      omega
    · exact ⟨front, last, by simpa using h⟩
  simp only [length_append, length_cons, length_nil] at hlen
  have hidx : bs.length / 8 = front.length := by omega
  rw [bytesBits_append] at hdata
  obtain ⟨t, rfl⟩ : ∃ t, bs = bytesBits front ++ t := by
    have hle : (bytesBits front).length ≤ bs.length := by
      rw [length_bytesBits]
      omega
    obtain ⟨t, ht⟩ := prefix_of_prefix_length_le ⟨_, hdata⟩ (prefix_append bs _) hle
    exact ⟨t, ht.symm⟩
  rw [append_assoc] at hdata
  have hlast := append_cancel_left hdata
  rw [bytesBits_cons, bytesBits_nil, append_nil] at hlast
  rw [hidx, modify_length_append, bytesBits_append, bytesBits_cons, bytesBits_nil,
    append_nil, msbBits_or_byte v hlast hc]
  simp only [append_assoc]

end Conduit.Bits

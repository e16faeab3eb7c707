import Conduit.Bits.MsbFirst

/-!
# Words of several bytes

`beBytes n v` are the `n` low bytes of a number, most significant byte first, and `beVal` reads a
byte list back. Little-endian words are the same lists reversed. `boundaryPad` is the padding to a
boundary of several bytes.
-/

namespace Conduit.Bits

variable (bytes : List UInt8)

/-- The `n` low bytes of `v`, most significant first. -/
def beBytes : Nat → Nat → List UInt8
  | 0, _ => []
  | n + 1, v => UInt8.ofNat (v >>> (8 * n)) :: beBytes n v

/-- The number a byte list denotes, most significant byte first. -/
def beVal (bytes : List UInt8) : Nat := bytes.foldl (fun acc b => 256 * acc + b.toNat) 0

@[simp] theorem length_beBytes (n v : Nat) : (beBytes n v).length = n := by
  induction n with
  | zero => rfl
  | succ n ih => simp [beBytes, ih]

@[simp] theorem toNat_ofNat_byte (v : Nat) : (UInt8.ofNat v).toNat = v % 2 ^ 8 := rfl

@[simp] theorem bytesBits_beBytes (n v : Nat) : bytesBits (beBytes n v) = msbBits (8 * n) v := by
  induction n with
  | zero => rfl
  | succ n ih =>
    rw [beBytes, bytesBits_cons, ih, toNat_ofNat_byte, msbBits_mod _ (Nat.le_refl 8),
      Nat.mul_succ, Nat.add_comm (8 * n) 8, msbBits_add]

theorem beVal_eq_bitsVal : beVal bytes = bitsVal (bytesBits bytes) := by
  have step : ∀ (bytes : List UInt8) (acc : Nat), bytes.foldl (fun acc b => 256 * acc + b.toNat) acc
        = acc * 2 ^ (8 * bytes.length) + bitsVal (bytesBits bytes) := by
    intro bytes
    induction bytes with
    | nil => simp
    | cons b bs ih =>
      intro acc
      rw [List.foldl_cons, ih, bytesBits_cons, bitsVal_append, toNat_eq_bitsVal, length_bytesBits,
        List.length_cons, Nat.mul_succ, Nat.pow_add]
      ring
  rw [beVal, step]
  simp

theorem beVal_beBytes (n v : Nat) : beVal (beBytes n v) = v % 2 ^ (8 * n) := by
  rw [beVal_eq_bitsVal, bytesBits_beBytes, bitsVal_msbBits]

theorem beVal_lt : beVal bytes < 2 ^ (8 * bytes.length) := by
  rw [beVal_eq_bitsVal, ← length_bytesBits]
  exact bitsVal_lt _

theorem beBytes_beVal : beBytes bytes.length (beVal bytes) = bytes := by
  apply bytesBits_inj
  rw [bytesBits_beBytes, beVal_eq_bitsVal, ← length_bytesBits, msbBits_bitsVal]

theorem beVal_append (as bs : List UInt8) :
    beVal (as ++ bs) = beVal as * 2 ^ (8 * bs.length) + beVal bs := by
  rw [beVal_eq_bitsVal, bytesBits_append, bitsVal_append, length_bytesBits, ← beVal_eq_bitsVal,
    ← beVal_eq_bitsVal]

@[simp] theorem beVal_nil : beVal [] = 0 := rfl

@[simp] theorem beVal_singleton (b : UInt8) : beVal [b] = b.toNat := by simp [beVal]

theorem beVal_cons (b : UInt8) (bs : List UInt8) :
    beVal (b :: bs) = b.toNat * 2 ^ (8 * bs.length) + beVal bs := by
  rw [← List.singleton_append, beVal_append, beVal_singleton]

@[simp] theorem beVal_replicate_zero (n : Nat) : beVal (List.replicate n 0) = 0 := by
  rw [beVal_eq_bitsVal, bytesBits_replicate_zero, bitsVal_replicate_false]

theorem beBytes_mod (n v : Nat) : beBytes n (v % 2 ^ (8 * n)) = beBytes n v := by
  apply bytesBits_inj
  rw [bytesBits_beBytes, bytesBits_beBytes, msbBits_mod v le_rfl]

/-- The zero bytes that bring a length of `n` bytes to the next multiple of `k`. -/
def boundaryPad (k n : Nat) : List UInt8 := if n % k = 0 then [] else List.replicate (k - n % k) 0

@[simp] theorem length_boundaryPad (k n : Nat) :
    (boundaryPad k n).length = if n % k = 0 then 0 else k - n % k := by
  unfold boundaryPad
  split <;> simp

/-! ## Binary-coded decimal -/

/-- The `k` low decimal digits of `v`, one in each nibble. -/
def bcdOf : Nat → Nat → Nat
  | 0, _ => 0
  | k + 1, v => v % 10 + 16 * bcdOf k (v / 10)

theorem bcdOf_lt (k v : Nat) : bcdOf k v < 2 ^ (4 * k) := by
  induction k generalizing v with
  | zero => simp [bcdOf]
  | succ k ih =>
    have := ih (v / 10)
    rw [bcdOf, Nat.mul_succ, Nat.pow_add]
    omega

theorem bcdOf_succ_mod (k v : Nat) : bcdOf (k + 1) v % 16 = v % 10 := by
  rw [bcdOf]
  omega

theorem bcdOf_succ_div (k v : Nat) : bcdOf (k + 1) v / 16 = bcdOf k (v / 10) := by
  rw [bcdOf]
  omega

/-- The `k` low nibbles of `raw` as decimal digits. -/
def decimalVal : Nat → Nat → Nat
  | 0, _ => 0
  | k + 1, raw => raw % 16 + 10 * decimalVal k (raw / 16)

/-- The `k` low nibbles of `raw` are decimal digits. -/
def IsDecimal : Nat → Nat → Prop
  | 0, _ => True
  | k + 1, raw => raw % 16 ≤ 9 ∧ IsDecimal k (raw / 16)

instance decidableIsDecimal : (k raw : Nat) → Decidable (IsDecimal k raw)
  | 0, _ => inferInstanceAs (Decidable True)
  | k + 1, raw =>
    have := decidableIsDecimal k (raw / 16)
    inferInstanceAs (Decidable (raw % 16 ≤ 9 ∧ IsDecimal k (raw / 16)))

theorem decimalVal_lt {k raw : Nat} (h : IsDecimal k raw) : decimalVal k raw < 10 ^ k := by
  induction k generalizing raw with
  | zero => simp [decimalVal]
  | succ k ih =>
    have hdigit := h.1
    have hrest := ih h.2
    rw [decimalVal, Nat.pow_succ]
    omega

theorem decimalVal_bound (k raw : Nat) : decimalVal k raw < 2 * 10 ^ k := by
  have hsum : ∀ k raw, 9 * decimalVal k raw + 15 ≤ 15 * 10 ^ k := by
    intro k
    induction k with
    | zero => simp [decimalVal]
    | succ k ih =>
      intro raw
      have hrest := ih (raw / 16)
      rw [decimalVal, Nat.pow_succ]
      omega
  have hlt := hsum k raw
  omega

theorem bcdOf_decimalVal {k raw : Nat} (h : IsDecimal k raw) :
    bcdOf k (decimalVal k raw) = raw % 2 ^ (4 * k) := by
  induction k generalizing raw with
  | zero => simp [bcdOf, Nat.mod_one]
  | succ k ih =>
    have hdigit := h.1
    have hlow : (raw % 16 + 10 * decimalVal k (raw / 16)) % 10 = raw % 16 := by omega
    have hhigh : (raw % 16 + 10 * decimalVal k (raw / 16)) / 10 = decimalVal k (raw / 16) := by omega
    rw [decimalVal, bcdOf, hlow, hhigh, ih h.2, Nat.mul_succ, Nat.add_comm (4 * k) 4, Nat.pow_add,
      Nat.mod_mul]

end Conduit.Bits

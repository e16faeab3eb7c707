import Conduit.Ports.ReaderBits

/-!
# What the Java reader reads

The bits of a buffer of less than `2 ^ 28` bytes have positions of type `int`. There the Java
reader gives what is expected as long as no position and no value leaves its type.
-/

namespace Conduit.Ports

open Bits Io Value

theorem wrap32_of_lt {n : Int} (h : -2 ^ 31 ≤ n) (hlt : n < 2 ^ 31) : wrap32 n = n := by
  rw [wrap32, Int.bmod_def]
  split <;> omega

theorem wrap32_of_ge {n : Int} (h : 2 ^ 31 ≤ n) (hlt : n < 2 ^ 32) : wrap32 n = n - 2 ^ 32 := by
  rw [wrap32, Int.bmod_def]
  split <;> omega

theorem sizeT_append {val k b : Nat} (hk : k ≤ 64) (hb : b < 2 ^ k) :
    sizeT (val <<< k) ||| b = sizeT (val * 2 ^ k + b) := by
  have hsplit : (2 : Nat) ^ 64 = 2 ^ k * 2 ^ (64 - k) := by
    rw [← Nat.pow_add]
    congr 1
    omega
  have hleft : val * 2 ^ k % 2 ^ 64 = 2 ^ k * (val % 2 ^ (64 - k)) := by
    rw [hsplit, Nat.mul_comm val, Nat.mul_mod_mul_left]
  have hright : (val * 2 ^ k + b) % 2 ^ 64 = 2 ^ k * (val % 2 ^ (64 - k)) + b := by
    rw [hsplit, Nat.mod_mul, Nat.mul_comm val, Nat.mul_add_mod, Nat.mod_eq_of_lt hb,
      Nat.mul_add_div (Nat.two_pow_pos k), Nat.div_eq_of_lt hb, Nat.add_zero, Nat.add_comm]
  rw [sizeT, sizeT, Nat.shiftLeft_eq, hleft, hright, Nat.two_pow_add_eq_or_of_lt hb]

theorem sizeT_of_lt {val : Nat} (h : val < 2 ^ 64) : sizeT val = val := Nat.mod_eq_of_lt h

theorem sizeT_lt (val : Nat) : sizeT val < 2 ^ 64 := Nat.mod_lt _ (by decide)

theorem sizeT_mul_add (val m b : Nat) : sizeT (sizeT val * m + b) = sizeT (val * m + b) := by
  simp only [sizeT, Nat.add_mod, Nat.mul_mod, Nat.mod_mod]

namespace JavaReader

/-- The reader at bit `p`. -/
def javaAt (data : List UInt8) (p : Nat) : JavaReader := ⟨data, p, 8 * data.length⟩

section
variable {data : List UInt8} (hdata : data.length < 2 ^ 28) {p n bits : Nat}

include hdata in
theorem start_eq : start data = javaAt data 0 := by
  rw [start, javaAt, wrap32_of_lt (by omega) (by omega)]
  rfl

theorem byteAt_natCast (i : Nat) : byteAt data i = data[i]? := by
  rw [byteAt, if_pos (Int.natCast_nonneg i), Int.toNat_natCast]

theorem bitsOf_eq (byte : UInt8) {avail take : Nat} (havail : avail ≤ 8) (htake : take ≤ avail) :
    bitsOf byte avail take = (byte.toNat >>> (avail - take)) &&& (2 ^ take - 1) := by
  have hsigned : byte.toInt8.toInt
      = if byte.toNat < 2 ^ 7 then (byte.toNat : Int) else byte.toNat - 2 ^ 8 := by
    have htoInt : byte.toInt8.toInt = byte.toBitVec.toInt := rfl
    rw [htoInt, BitVec.toInt_eq_toNat_cond]
    show (if 2 * byte.toNat < 2 ^ 8 then (byte.toNat : Int) else byte.toNat - 2 ^ 8) = _
    split <;> split <;> omega
  rw [← Java.toNat_ediv_emod, bitsOf, hsigned]
  split
  · rfl
  · rw [Java.ediv_emod_sub_pow _ (by omega)]

theorem tdiv_natCast (p : Nat) : (p : Int).tdiv 8 = (p / 8 : Nat) := by
  rw [Int.tdiv_eq_ediv_of_nonneg (Int.natCast_nonneg p)]
  rfl

theorem tmod_natCast (p : Nat) : (p : Int).tmod 8 = (p % 8 : Nat) := by
  rw [Int.tmod_eq_emod_of_nonneg (Int.natCast_nonneg p)]
  rfl

include hdata in
theorem readLoop_turn {remaining take : Nat} (val fuel : Nat) (hdone : remaining ≠ 0)
    (hp : p < 8 * data.length) (htake : take = min (8 - p % 8) remaining) :
    readLoop (fuel + 1) remaining val (javaAt data p)
      = readLoop fuel (remaining - take) (sizeT (val * 2 ^ take + valueAt data p take))
          (javaAt data (p + take)) := by
  obtain ⟨byte, hbyte⟩ : ∃ byte, data[p / 8]? = some byte :=
    ⟨_, List.getElem?_eq_getElem (by omega)⟩
  have havail : (8 - (p : Int).tmod 8).toNat = 8 - p % 8 := by
    rw [tmod_natCast]
    omega
  have hbits : bitsOf byte (8 - p % 8) take = valueAt data p take := by
    rw [bitsOf_eq byte (by omega) (by omega), valueAt_byte hbyte (by omega)]
  have hpos : wrap32 ((p : Int) + take) = (p + take : Nat) := by
    rw [wrap32_of_lt (by omega) (by omega)]
    rfl
  simp only [readLoop, if_neg hdone, javaAt, havail, tdiv_natCast, byteAt_natCast, hbyte, ← htake,
    hbits, hpos]
  rw [sizeT_append (by omega) (valueAt_lt (by omega))]

theorem readLoop_outside {remaining : Nat} (val fuel : Nat) (hdone : remaining ≠ 0)
    (hp : 8 * data.length ≤ p) : readLoop (fuel + 1) remaining val (javaAt data p) = none := by
  have hbyte : data[p / 8]? = none := List.getElem?_eq_none (by omega)
  simp only [readLoop, if_neg hdone, javaAt, tdiv_natCast, byteAt_natCast, hbyte]

include hdata in
theorem readLoop_eq (fuel : Nat) : ∀ (remaining val p : Nat), remaining ≤ fuel → val < 2 ^ 64 →
    p ≤ 8 * data.length → readLoop fuel remaining val (javaAt data p)
        = if p + remaining ≤ 8 * data.length then
            some (sizeT (val * 2 ^ remaining + valueAt data p remaining),
              javaAt data (p + remaining)) else none := by
  have hnil : ∀ fuel val p, val < 2 ^ 64 → p ≤ 8 * data.length → readLoop fuel 0 val (javaAt data p)
        = if p + 0 ≤ 8 * data.length then
            some (sizeT (val * 2 ^ 0 + valueAt data p 0), javaAt data (p + 0))
          else none := by
    intro fuel val p hval hp
    rw [if_pos (by omega), Nat.pow_zero, Nat.mul_one, valueAt_zero, Nat.add_zero val,
      sizeT_of_lt hval]
    cases fuel <;> rfl
  induction fuel with
  | zero =>
    intro remaining val p hfuel hval hp
    obtain rfl : remaining = 0 := by omega
    exact hnil 0 val p hval hp
  | succ fuel ih =>
    intro remaining val p hfuel hval hp
    by_cases hdone : remaining = 0
    · subst hdone
      exact hnil _ val p hval hp
    by_cases hend : p = 8 * data.length
    · rw [readLoop_outside val fuel hdone (by omega), if_neg (by omega)]
    obtain ⟨take, htake⟩ : ∃ take, take = min (8 - p % 8) remaining := ⟨_, rfl⟩
    obtain ⟨rest, hrest⟩ : ∃ rest, remaining = take + rest := ⟨remaining - take, by omega⟩
    rw [readLoop_turn hdata val fuel hdone (by omega) htake, hrest, Nat.add_sub_cancel_left,
      ih rest _ (p + take) (by omega) (sizeT_lt _) (by omega), sizeT_mul_add, Nat.add_assoc p]
    by_cases hroom : p + (take + rest) ≤ 8 * data.length
    · rw [if_pos hroom, if_pos hroom, valueAt_add hroom, Nat.pow_add]
      congr 3
      ring
    · rw [if_neg hroom, if_neg hroom]

theorem wholeBytes_eq (k : Nat) : ∀ (i val : Nat), val < 2 ^ 64 → i ≤ data.length →
    wholeBytes data k i val = if i + k ≤ data.length then
          some (sizeT (val * 2 ^ (8 * k) + valueAt data (8 * i) (8 * k))) else none := by
  induction k with
  | zero =>
    intro i val hval hi
    rw [if_pos (by omega), Nat.mul_zero, Nat.pow_zero, Nat.mul_one, valueAt_zero, Nat.add_zero,
      sizeT_of_lt hval]
    rfl
  | succ k ih =>
    intro i val hval hi
    simp only [wholeBytes, byteAt_natCast]
    by_cases hend : i = data.length
    · rw [List.getElem?_eq_none (by omega), if_neg (by omega)]
    obtain ⟨byte, hbyte⟩ : ∃ byte, data[i]? = some byte := ⟨_, List.getElem?_eq_getElem (by omega)⟩
    have hvalue : byte.toNat = valueAt data (8 * i) 8 := by
      have hbits : (byte.toNat >>> (8 - 8 * i % 8 - 8)) &&& (2 ^ 8 - 1) = valueAt data (8 * i) 8 :=
        valueAt_byte (by rwa [show 8 * i / 8 = i by omega]) (by omega)
      rw [← hbits, show 8 - 8 * i % 8 - 8 = 0 by omega, Nat.shiftRight_zero,
        Nat.and_two_pow_sub_one_eq_mod, Nat.mod_eq_of_lt byte.toNat_lt]
    have hnext := ih (i + 1) (sizeT (val * 2 ^ 8 + valueAt data (8 * i) 8)) (sizeT_lt _) (by omega)
    rw [hbyte]
    dsimp only
    rw [hvalue, sizeT_append (by omega) (valueAt_lt (by omega)),
      show ((i : Int) + 1) = (i + 1 : Nat) by rfl, hnext, Nat.add_right_comm i 1 k, ← Nat.add_assoc]
    by_cases hroom : i + k + 1 ≤ data.length
    · rw [if_pos hroom, if_pos hroom, sizeT_mul_add, show 8 * (k + 1) = 8 + 8 * k by omega,
        valueAt_add (by omega), Nat.pow_add, show 8 * (i + 1) = 8 * i + 8 by omega]
      congr 2
      ring
    · rw [if_neg hroom, if_neg hroom]

include hdata in
theorem takes_readBits (n : Nat) : Takes (readBits n) (javaAt data) data n sizeT := by
  intro p hp
  have hpos : p + n ≤ 8 * data.length → wrap32 ((p : Int) + n) = (p + n : Nat) := by
    intro hroom
    rw [wrap32_of_lt (by omega) (by omega)]
    rfl
  rw [readBits]
  by_cases hcheck : wrap32 ((p : Int) + n) > 8 * data.length
  · rw [if_pos (show wrap32 ((javaAt data p).bitPos + n) > (javaAt data p).bitLen from hcheck),
      if_neg (by omega)]
  rw [if_neg (show ¬ wrap32 ((javaAt data p).bitPos + n) > (javaAt data p).bitLen from hcheck)]
  by_cases hfast : (p : Int) % 8 = 0 ∧ n % 8 = 0
  · have hbyte : (javaAt data p).bitPos / 8 = (p / 8 : Nat) := rfl
    rw [if_pos (show (javaAt data p).bitPos % 8 = 0 ∧ _ from hfast), hbyte,
      show (javaAt data p).data = data from rfl,
      wholeBytes_eq (n / 8) (p / 8) 0 (by decide) (by omega), Nat.zero_mul, Nat.zero_add,
      show 8 * (p / 8) = p by omega, show 8 * (n / 8) = n by omega]
    by_cases hroom : p + n ≤ 8 * data.length
    · rw [if_pos (by omega), if_pos hroom]
      show some (_, (⟨data, wrap32 ((p : Int) + n), _⟩ : JavaReader)) = _
      rw [hpos hroom]
      rfl
    · rw [if_neg (by omega), if_neg hroom]
      rfl
  · rw [if_neg (show ¬ ((javaAt data p).bitPos % 8 = 0 ∧ _) from hfast),
      readLoop_eq hdata n n 0 p (Nat.le_refl n) (by decide) hp, Nat.zero_mul, Nat.zero_add]

theorem sizeT_valueAt (hn : n ≤ 64) (hroom : p + n ≤ 8 * data.length) :
    sizeT (valueAt data p n) = valueAt data p n :=
  sizeT_of_lt ((valueAt_lt hroom).trans_le (Nat.pow_le_pow_right (by omega) hn))

include hdata in
theorem supplies (hn : n ≤ 64) : Supplies readBits (javaAt data) data n := by
  intro p hp
  rw [takes_readBits hdata n p hp]
  by_cases hroom : p + n ≤ 8 * data.length
  · rw [if_pos hroom, if_pos hroom, sizeT_valueAt hn hroom]
  · rw [if_neg hroom, if_neg hroom]

theorem signed_long {v : Nat} (hn : n ≤ 64) (hv : v < 2 ^ n) :
    (if n < 64 ∧ n > 0 ∧ v.testBit (n - 1) then toInt64 (sizeT (v + 2 ^ 64 - 2 ^ n)) else toInt64 v)
      = (v : Int).bmod (2 ^ n) := by
  by_cases h64 : n = 64
  · subst h64
    rw [if_neg (by omega), ← BitReader.signExtend_eq (by decide) (by decide) hv]
    rfl
  have hle : 2 ^ n ≤ 2 ^ 63 := Nat.pow_le_pow_right (by omega) (by omega)
  have hcast : ((2 : Int) ^ n) = (2 ^ n : Nat) := by push_cast; rfl
  rw [BitReader.bmod_of_lt hv]
  by_cases hsign : n > 0 ∧ v.testBit (n - 1)
  · rw [if_pos ⟨by omega, hsign⟩, if_pos hsign, sizeT_of_lt (by omega), toInt64, hcast]
    rw [testBit_top hsign.1 hv, decide_eq_true_eq] at hsign
    split <;> omega
  · rw [if_neg (fun h => hsign h.2), if_neg hsign, BitReader.toInt64_of_lt (by omega)]

theorem bcdLoop_eq (raw k : Nat) : ∀ (i result mult : Nat), 4 * (i + k) ≤ 64 → result < 2 ^ 64 →
    bcdLoop raw k i result mult = sizeT (result + mult * decimalVal k (raw / 16 ^ i)) := by
  induction k with
  | zero =>
    intro i result mult _ hresult
    rw [decimalVal, Nat.mul_zero, Nat.add_zero, sizeT_of_lt hresult]
    rfl
  | succ k ih =>
    intro i result mult hi hresult
    have hdigit : Java.chunk raw (i * 4) 4 = raw / 16 ^ i % 16 := by
      rw [Java.chunk_eq (by omega), Nat.shiftRight_eq_div_pow, Nat.mul_comm, Nat.pow_mul]
      exact Nat.and_two_pow_sub_one_eq_mod _ 4
    rw [bcdLoop, hdigit, ih (i + 1) _ _ (by omega) (sizeT_lt _), decimalVal, Nat.pow_succ,
      ← Nat.div_div_eq_div_mul]
    have hmod : ∀ a b c : Nat, sizeT (sizeT a + sizeT b * c) = sizeT (a + b * c) := by
      intro a b c
      simp only [sizeT, Nat.add_mod, Nat.mul_mod, Nat.mod_mod]
    rw [hmod]
    congr 1
    ring

theorem bcdLoop_decimal (raw : Nat) (hbits : bits ≤ 64) :
    bcdLoop raw (bits / 4) 0 0 1 = decimalVal (bits / 4) raw := by
  have hpow : 10 ^ (bits / 4) ≤ 10 ^ 16 := Nat.pow_le_pow_right (by decide) (by omega)
  have hbound := decimalVal_bound (bits / 4) raw
  rw [bcdLoop_eq _ _ 0 0 1 (by omega) (by decide), Nat.zero_add, Nat.one_mul, Nat.pow_zero,
    Nat.div_one, sizeT_of_lt (by omega)]

theorem negate_eq {val : Nat} (h : val ≤ 2 ^ 63) : negate val = -(val : Int) := by
  unfold negate toInt64 sizeT
  split <;> omega

include hdata in
theorem takes_sign {rest : PortM JavaReader Nat} {g : Nat → Nat}
    (hrest : Takes rest (javaAt data) data (bits - 1) g) : Takes (do
        let sign ← readBits 1
        let val ← rest
        return if sign ≠ 0 then negate val else toInt64 val) (javaAt data) data (max bits 1)
      fun v => if v / 2 ^ (bits - 1) ≠ 0 then negate (g (v % 2 ^ (bits - 1)))
        else toInt64 (g (v % 2 ^ (bits - 1))) :=
  Takes.sign (supplies hdata (by decide)) hrest
    fun sign val => if sign ≠ 0 then negate val else toInt64 val

theorem magnitude_lt (v : Nat) (hbits : bits ≤ 64) : v % 2 ^ (bits - 1) < 2 ^ 63 :=
  (Nat.mod_lt _ (Nat.two_pow_pos _)).trans_le (Nat.pow_le_pow_right (by omega) (by omega))

theorem sign_eq {g : Nat → Nat} {v m : Nat} (hv : v < 2 ^ max bits 1)
    (hm : m = g (v % 2 ^ (bits - 1))) (hfits : m < 2 ^ 63) :
    (if v / 2 ^ (bits - 1) ≠ 0 then negate m else toInt64 m) = signed bits g v := by
  rw [signed_eq_of_lt g hv, ← hm, negate_eq (by omega), BitReader.toInt64_of_lt hfits]

theorem skipBits_eq (hrange : p + n < 2 ^ 31) : skipBits n (javaAt data p)
      = if p + n ≤ 8 * data.length then some ((), javaAt data (p + n)) else none := by
  have hpos : wrap32 ((p : Int) + n) = (p + n : Nat) := by
    rw [wrap32_of_lt (by omega) (by omega)]
    rfl
  simp only [skipBits, javaAt, hpos]
  by_cases hroom : p + n ≤ 8 * data.length
  · rw [if_neg (by omega), if_pos hroom]
  · rw [if_pos (by omega), if_neg hroom]

include hdata in
theorem alignTo_eq {k : Nat} (hk : k ≠ 0) (hp : p ≤ 8 * data.length) : alignTo k (javaAt data p)
      = some ((), ⟨data, min (wrap32 (boundaryAfter k p : Nat)) (8 * data.length),
          8 * data.length⟩) := by
  have hbyte : (if (p : Int).tmod 8 ≠ 0 then wrap32 ((p : Int) + (8 - (p : Int).tmod 8)) else p)
      = (8 * ((p + 7) / 8) : Nat) := by
    rw [tmod_natCast]
    split
    · rw [wrap32_of_lt (by omega) (by omega)]; omega
    · omega
  have hdiv : ((8 * ((p + 7) / 8) : Nat) : Int).tdiv 8 = ((p + 7) / 8 : Nat) := by
    rw [tdiv_natCast]
    omega
  have hmod : (((p + 7) / 8 : Nat) : Int).tmod k = ((p + 7) / 8 % k : Nat) := by
    rw [Int.tmod_eq_emod_of_nonneg (Int.natCast_nonneg _)]
    rfl
  have hmodLt : (p + 7) / 8 % k < k := Nat.mod_lt _ (Nat.pos_of_ne_zero hk)
  rw [javaAt]
  simp only [alignTo, if_neg hk, hbyte, hdiv, hmod]
  have hpos : (if (((p + 7) / 8 % k : Nat) : Int) ≠ 0
        then wrap32 ((8 * ((p + 7) / 8) : Nat) + ((k : Int) - ((p + 7) / 8 % k : Nat)) * 8)
        else (8 * ((p + 7) / 8) : Nat))
      = wrap32 (boundaryAfter k p : Nat) := by
    rw [boundaryAfter, length_boundaryPad]
    by_cases hz : (p + 7) / 8 % k = 0
    · rw [if_neg (by omega), if_pos hz, wrap32_of_lt (by omega) (by omega)]
      rfl
    rw [if_pos (by omega), if_neg hz]
    congr 1
    omega
  have hclamp : ∀ w l : Int, (if w > l then l else w) = min w l := by
    intro w l
    split <;> omega
  rw [hpos, hclamp]

end

end JavaReader

/-- The calls whose positions and values stay in range: the words of at most 64 bits or more bits
than there are, and the positions that do not wrap around. -/
def ReaderCall.InRange (data : List UInt8) (p : Nat) : ReaderCall → Prop
  | .readBits n | .readSignedBits n | .readBcd n => n.val ≤ 64 ∨ 8 * data.length < p + n
  | .readBcdSigned bits => bits.val ≤ 61 ∨ 8 * data.length < p + max bits.val 1
  | .readSignMagnitude bits => bits.val ≤ 64 ∨ 8 * data.length < p + max bits.val 1
  | .readU8 | .readU16 _ | .readU32 _ | .readU64 _ => True
  | .skipBits n => p + n < 2 ^ 31
  | .alignTo k =>
    k.val = 0 ∨ boundaryAfter k p < 2 ^ 31 ∨ 8 * data.length ≤ wrap32 (boundaryAfter k p : Nat)

open JavaReader in
theorem ReaderCall.java_eq {c : ReaderCall} {data : List UInt8} {p : Nat}
    (hdata : data.length < 2 ^ 28) (hp : p ≤ 8 * data.length) (hrange : c.InRange data p) :
    c.java (javaAt data p) = (c.expected data p).map (Prod.map id (javaAt data)) := by
  have hword := supplies hdata (show 8 ≤ 64 by decide)
  cases c with
  | readBits n =>
    refine bind_onBits uint (fun v => .uint v) (takes_readBits hdata n p hp) fun hroom => ?_
    rw [sizeT_valueAt (hrange.resolve_right (by omega)) hroom]
  | readSignedBits n =>
    have hread := (takes_readBits hdata n).map fun val : Nat =>
      if n.val < 64 ∧ n.val > 0 ∧ val.testBit (n - 1) then toInt64 (sizeT (val + 2 ^ 64 - 2 ^ n.val))
      else toInt64 val
    refine bind_onBits int (fun v => .int ((v : Int).bmod (2 ^ n.val))) (hread p hp) fun hroom => ?_
    have hn : n.val ≤ 64 := hrange.resolve_right (by omega)
    beta_reduce
    rw [sizeT_valueAt hn hroom, signed_long hn (valueAt_lt hroom)]
  | readU8 => exact bind_onBits uint _ (hword p hp) fun _ => rfl
  | readU16 e => exact word_onBits hword 2 e hp
  | readU32 e => exact word_onBits hword 4 e hp
  | readU64 e => exact word_onBits hword 8 e hp
  | readBcd bits =>
    have hread := (takes_readBits hdata bits).map fun raw => bcdLoop raw (bits.val / 4) 0 0 1
    refine bind_onBits uint (fun v => .uint (decimalVal (bits.val / 4) v)) (hread p hp)
      fun hroom => ?_
    have hbits : bits.val ≤ 64 := hrange.resolve_right (by omega)
    beta_reduce
    rw [sizeT_valueAt hbits hroom, bcdLoop_decimal _ hbits]
  | readBcdSigned bits =>
    have hread := takes_sign hdata ((takes_readBits hdata (bits - 1)).map
      fun raw => bcdLoop raw ((bits.val - 1) / 4) 0 0 1)
    refine bind_onBits int (fun v => .int (signed bits (decimalVal ((bits - 1) / 4)) v))
      (hread p hp) fun hroom => ?_
    have hbits : bits.val ≤ 61 := hrange.resolve_right (by omega)
    have hpow : 10 ^ ((bits.val - 1) / 4) ≤ 10 ^ 15 := Nat.pow_le_pow_right (by decide) (by omega)
    have hbound := decimalVal_bound ((bits.val - 1) / 4)
      (valueAt data p (max bits 1) % 2 ^ (bits.val - 1))
    have hrest := magnitude_lt (valueAt data p (max bits 1)) (show bits.val ≤ 64 by omega)
    have hm := bcdLoop_decimal (sizeT (valueAt data p (max bits 1) % 2 ^ (bits.val - 1)))
      (show bits.val - 1 ≤ 64 by omega)
    rw [sizeT_of_lt (by omega)] at hm
    beta_reduce
    rw [sizeT_of_lt (by omega), sign_eq (valueAt_lt hroom) hm (by omega)]
  | readSignMagnitude bits =>
    have hread := takes_sign hdata (takes_readBits hdata (bits - 1))
    refine bind_onBits int (fun v => .int (signed bits id v)) (hread p hp) fun hroom => ?_
    have hrest := magnitude_lt (valueAt data p (max bits 1))
      (show bits.val ≤ 64 from hrange.resolve_right (by omega))
    beta_reduce
    rw [sizeT_of_lt (by omega)]
    exact congrArg int (sign_eq (g := id) (valueAt_lt hroom) rfl hrest)
  | skipBits n =>
    exact bind_onBits (fun _ => done) (fun _ => .done) (skipBits_eq hrange) fun _ => rfl
  | alignTo k =>
    show (JavaReader.alignTo k >>= fun _ => pure done) _ = _
    by_cases hk : k.val = 0
    · have hstay : JavaReader.alignTo k (javaAt data p) = some ((), javaAt data p) := if_pos hk
      rw [bind_some hstay, ReaderCall.expected, if_pos hk]
      rfl
    have hend : min (wrap32 (boundaryAfter k p : Nat)) (8 * data.length : Int)
        = (min (boundaryAfter k p) (8 * data.length) : Nat) := by
      rcases hrange with hzero | hsmall | hlarge
      · exact absurd hzero hk
      · rw [wrap32_of_lt (by omega) (by omega)]
        omega
      have hge : 8 * data.length ≤ boundaryAfter k p := by
        by_contra hlt
        rw [wrap32_of_lt (by omega) (by omega)] at hlarge
        omega
      omega
    rw [bind_some (alignTo_eq hdata hk hp), hend, ReaderCall.expected, if_neg hk]
    rfl

end Conduit.Ports

import Conduit.Io.Encodings
import Conduit.Io.ReaderSafety
import Conduit.Ports.BitReader
import Conduit.Ports.WriterBits

/-!
# What the readers read

`expected` is the outcome of a call at a bit position, read off the bits of the buffer. The Python
reader computes it for every call.
-/

namespace Conduit.Ports

open Bits Io PythonReader BitReader Value

/-! ## Bits of a buffer -/

variable {data : List UInt8} {p : Nat}

/-- The C++ reader at bit `p`. -/
def cppAt (data : List UInt8) (p : Nat) : BitReader := seek p { data }

/-- The number of the `n` bits from `p` on. -/
def valueAt (data : List UInt8) (p n : Nat) : Nat := bitsVal (((bytesBits data).drop p).take n)

theorem peek_cppAt (data : List UInt8) (p n : Nat) : (cppAt data p).peek n = valueAt data p n := by
  rw [peek, cppAt, position_seek]
  rfl

@[simp] theorem valueAt_zero (data : List UInt8) (p : Nat) : valueAt data p 0 = 0 := rfl

theorem valueAt_lt {n : Nat} (h : p + n ≤ 8 * data.length) : valueAt data p n < 2 ^ n := by
  rw [← peek_cppAt]
  exact peek_lt (by rwa [cppAt, position_seek])

theorem valueAt_add {a b : Nat} (h : p + (a + b) ≤ 8 * data.length) :
    valueAt data p (a + b) = valueAt data p a * 2 ^ b + valueAt data (p + a) b := by
  have hadd := peek_add (r := cppAt data p) (a := a) (b := b) (by rwa [cppAt, position_seek])
  rw [peek_cppAt, peek_cppAt, show (cppAt data p).position = p from position_seek p _] at hadd
  rw [hadd]
  congr 1
  exact peek_cppAt data (p + a) b

theorem valueAt_byte {k : Nat} {byte : UInt8} (hbyte : data[p / 8]? = some byte)
    (hk : p % 8 + k ≤ 8) : (byte.toNat >>> (8 - p % 8 - k)) &&& (2 ^ k - 1) = valueAt data p k := by
  rw [← peek_cppAt]
  exact peek_byte (r := cppAt data p) hbyte hk

theorem beVal_valueAt {n : Nat} (hp : p % 8 = 0) (hn : n % 8 = 0) :
    beVal ((data.drop (p / 8)).take (n / 8)) = valueAt data p n := by
  rw [beVal_eq_bitsVal, ← take_bytesBits, ← drop_bytesBits, show 8 * (p / 8) = p by omega,
    show 8 * (n / 8) = n by omega]
  rfl

/-! ## Outcomes of calls -/

/-- The outcome of a call that reads `n` bits, if they are there. -/
def onBits (data : List UInt8) (p n : Nat) (f : Nat → Value) : Option (Value × Nat) :=
  if p + n ≤ 8 * data.length then some (f (valueAt data p n), p + n) else none

theorem onBits_some {n : Nat} {f : Nat → Value} (h : p + n ≤ 8 * data.length) :
    onBits data p n f = some (f (valueAt data p n), p + n) :=
  if_pos h

theorem onBits_none {n : Nat} {f : Nat → Value} (h : 8 * data.length < p + n) :
    onBits data p n f = none :=
  if_neg (by omega)

/-- The top one of `bits` bits as the sign of the number in the others. -/
def signed (bits : Nat) (magnitude : Nat → Nat) (raw : Nat) : Int :=
  if raw.testBit (bits - 1) then -(magnitude (raw % 2 ^ (bits - 1)) : Int)
  else magnitude (raw % 2 ^ (bits - 1))

/-- The next boundary of `k` bytes, in bits. -/
def boundaryAfter (k p : Nat) : Nat := 8 * ((p + 7) / 8 + (boundaryPad k ((p + 7) / 8)).length)

/-- What a call gives at bit `p`, and where it ends. -/
def ReaderCall.expected (data : List UInt8) (p : Nat) : ReaderCall → Option (Value × Nat)
  | .readBits n => onBits data p n .uint
  | .readSignedBits n => onBits data p n fun v => .int ((v : Int).bmod (2 ^ n.val))
  | .readU8 => onBits data p 8 .uint
  | .readU16 e => onBits data p 16 fun v => .uint (beVal (e.order (beBytes 2 v)))
  | .readU32 e => onBits data p 32 fun v => .uint (beVal (e.order (beBytes 4 v)))
  | .readU64 e => onBits data p 64 fun v => .uint (beVal (e.order (beBytes 8 v)))
  | .readBcd bits => onBits data p bits fun v => .uint (decimalVal (bits.val / 4) v)
  | .readBcdSigned bits =>
    onBits data p (max bits.val 1) fun v =>
      .int (signed bits.val (decimalVal ((bits.val - 1) / 4)) v)
  | .readSignMagnitude bits => onBits data p (max bits.val 1) fun v => .int (signed bits.val id v)
  | .skipBits n => onBits data p n fun _ => .done
  | .alignTo k => some (.done, if k.val = 0 then p else min (boundaryAfter k p) (8 * data.length))

theorem signed_eq_of_lt {bits v : Nat} (magnitude : Nat → Nat) (h : v < 2 ^ max bits 1) :
    signed bits magnitude v = if v / 2 ^ (bits - 1) ≠ 0 then -(magnitude (v % 2 ^ (bits - 1)) : Int)
        else magnitude (v % 2 ^ (bits - 1)) := by
  have hsign : v / 2 ^ (bits - 1) < 2 := by
    rwa [Nat.div_lt_iff_lt_mul (Nat.two_pow_pos _), ← Nat.pow_succ',
      show (bits - 1).succ = max bits 1 by omega]
  rw [signed, Nat.testBit_eq_decide_div_mod_eq]
  congr 1
  simp only [decide_eq_true_eq, eq_iff_iff]
  generalize v / 2 ^ (bits - 1) = sign at hsign
  omega

/-! ## Calls that are made of calls -/

section
variable {σ α β : Type} {m : PortM σ α} {r : σ}

theorem bind_some {f : α → PortM σ β} {r' : σ} {a : α} (h : m r = some (a, r')) :
    (m >>= f) r = f a r' := by
  show (m r).bind _ = _
  rw [h]
  rfl

theorem bind_none {f : α → PortM σ β} (h : m r = none) : (m >>= f) r = none := by
  show (m r).bind _ = _
  rw [h]
  rfl

theorem bind_pure_eq {c : Prop} [Decidable c] {r' : σ} {a : α} (f : α → β)
    (h : m r = if c then some (a, r') else none) :
    (m >>= fun x => pure (f x)) r = if c then some (f a, r') else none := by
  by_cases hc : c
  · rw [if_pos hc] at h ⊢
    rw [bind_some h]
    rfl
  · rw [if_neg hc] at h ⊢
    exact bind_none h

/-- The call reads the next `n` bits, if they are there, where `state p` is the reader at bit
`p`. -/
def Supplies (readBits : Nat → PortM σ Nat) (state : Nat → σ) (data : List UInt8) (n : Nat) :
    Prop :=
  ∀ p ≤ 8 * data.length, readBits n (state p)
    = if p + n ≤ 8 * data.length then some (valueAt data p n, state (p + n)) else none

variable {readBits : Nat → PortM σ Nat} {state : Nat → σ} {data : List UInt8}

theorem readOctets_eq (h : Supplies readBits state data 8) (m : Nat) : ∀ p ≤ 8 * data.length,
    readOctets readBits m (state p) = if p + 8 * m ≤ 8 * data.length then
          some (beBytes m (valueAt data p (8 * m)), state (p + 8 * m)) else none := by
  induction m with
  | zero =>
    intro p hp
    rw [if_pos (by omega)]
    rfl
  | succ m ih =>
    intro p hp
    have hfirst := h p hp
    rw [readOctets]
    by_cases hroom : p + 8 ≤ 8 * data.length
    · rw [if_pos hroom] at hfirst
      have hrest := ih (p + 8) hroom
      rw [bind_some hfirst]
      by_cases hall : p + 8 + 8 * m ≤ 8 * data.length
      · rw [if_pos hall] at hrest
        rw [bind_some hrest, if_pos (by omega), show 8 * (m + 1) = 8 + 8 * m by omega,
          valueAt_add (by omega), beBytes, ← Nat.add_assoc]
        have hlow := valueAt_lt hall
        have hhigh : (valueAt data p 8 * 2 ^ (8 * m) + valueAt data (p + 8) (8 * m)) >>> (8 * m)
            = valueAt data p 8 := by
          rw [Nat.shiftRight_eq_div_pow, Nat.mul_comm, Nat.mul_add_div (Nat.two_pow_pos _),
            Nat.div_eq_of_lt hlow, Nat.add_zero]
        have hrest : (valueAt data p 8 * 2 ^ (8 * m) + valueAt data (p + 8) (8 * m)) % 2 ^ (8 * m)
            = valueAt data (p + 8) (8 * m) := by
          rw [Nat.mul_comm, Nat.mul_add_mod, Nat.mod_eq_of_lt hlow]
        rw [hhigh, ← beBytes_mod m (_ + _), hrest]
        rfl
      · rw [if_neg hall] at hrest
        rw [bind_none hrest, if_neg (by omega)]
    · rw [if_neg hroom] at hfirst
      rw [bind_none hfirst, if_neg (by omega)]

theorem readUnsigned_eq (h : Supplies readBits state data 8) (m : Nat) (e : Endian) {p : Nat}
    (hp : p ≤ 8 * data.length) :
    readUnsigned readBits m e (state p) = if p + 8 * m ≤ 8 * data.length then
          some (beVal (e.order (beBytes m (valueAt data p (8 * m)))), state (p + 8 * m))
        else none := by
  have hbytes := readOctets_eq h m p hp
  exact bind_pure_eq (fun bytes => beVal (e.order bytes)) hbytes

/-- The call takes the next `n` bits, if they are there, and gives `g` of their number. -/
def Takes (m : PortM σ α) (state : Nat → σ) (data : List UInt8) (n : Nat) (g : Nat → α) : Prop :=
  ∀ p ≤ 8 * data.length, m (state p)
    = if p + n ≤ 8 * data.length then some (g (valueAt data p n), state (p + n)) else none

theorem Takes.map {n : Nat} {g : Nat → α} (h : Takes m state data n g) (f : α → β) :
    Takes (m >>= fun x => pure (f x)) state data n fun v => f (g v) :=
  fun p hp => bind_pure_eq f (h p hp)

theorem Takes.sign (h : Supplies readBits state data 1) {rest : PortM σ α} {bits : Nat}
    {g : Nat → α} (hrest : Takes rest state data (bits - 1) g) (f : Nat → α → β) :
    Takes (do let sign ← readBits 1; let value ← rest; return f sign value) state data
      (max bits 1) fun v => f (v / 2 ^ (bits - 1)) (g (v % 2 ^ (bits - 1))) := by
  intro p hp
  have hsign := h p hp
  rw [show max bits 1 = 1 + (bits - 1) by omega]
  by_cases hroom : p + 1 ≤ 8 * data.length
  · rw [if_pos hroom] at hsign
    have hread := hrest.map (f (valueAt data p 1)) (p + 1) hroom
    rw [Nat.add_assoc] at hread
    rw [bind_some hsign, hread]
    by_cases hall : p + (1 + (bits - 1)) ≤ 8 * data.length
    · have hlow : valueAt data (p + 1) (bits - 1) < 2 ^ (bits - 1) := valueAt_lt (by omega)
      rw [if_pos hall, if_pos hall, valueAt_add hall, Nat.mul_comm (valueAt data p 1)]
      beta_reduce
      rw [Nat.mul_add_div (Nat.two_pow_pos _), Nat.div_eq_of_lt hlow, Nat.mul_add_mod,
        Nat.mod_eq_of_lt hlow, Nat.add_zero (valueAt data p 1)]
    · rw [if_neg hall, if_neg hall]
  · rw [if_neg hroom] at hsign
    rw [bind_none hsign, if_neg (by omega)]

theorem bind_onBits {m : PortM σ α} {p n : Nat} {a : α} (f : α → Value) (g : Nat → Value)
    (h : m (state p) = if p + n ≤ 8 * data.length then some (a, state (p + n)) else none)
    (hval : p + n ≤ 8 * data.length → f a = g (valueAt data p n)) :
    (m >>= fun x => pure (f x)) (state p) = (onBits data p n g).map (Prod.map id state) := by
  rw [bind_pure_eq f h, onBits]
  by_cases hroom : p + n ≤ 8 * data.length
  · rw [if_pos hroom, if_pos hroom, hval hroom]
    rfl
  · rw [if_neg hroom, if_neg hroom]
    rfl

theorem word_onBits (h : Supplies readBits state data 8) (m : Nat) (e : Endian) {p : Nat}
    (hp : p ≤ 8 * data.length) : (readUnsigned readBits m e >>= fun x => pure (uint x)) (state p)
      = (onBits data p (8 * m) fun v => .uint (beVal (e.order (beBytes m v)))).map
          (Prod.map id state) :=
  bind_onBits uint _ (readUnsigned_eq h m e hp) fun _ => rfl

end

/-! ## The Python reader -/

namespace PythonReader

variable {data : List UInt8}

theorem mask_eq (byte take shift : Nat) :
    (byte &&& ((2 ^ take - 1) <<< shift)) >>> shift = (byte >>> shift) &&& (2 ^ take - 1) := by
  rw [Nat.shiftRight_and_distrib, Nat.shiftLeft_shiftRight]

theorem readLoop_eq (fuel : Nat) : ∀ (remaining val p : Nat),
    remaining ≤ fuel → p + remaining ≤ 8 * data.length → readLoop fuel remaining val ⟨data, p⟩
        = some (val * 2 ^ remaining + valueAt data p remaining, ⟨data, p + remaining⟩) := by
  induction fuel with
  | zero =>
    intro remaining val p hfuel _
    obtain rfl : remaining = 0 := by omega
    simp [readLoop]
    rfl
  | succ fuel ih =>
    intro remaining val p hfuel hroom
    by_cases hdone : remaining = 0
    · simp [readLoop, hdone]
    obtain ⟨byte, hbyte⟩ : ∃ byte, data[p / 8]? = some byte :=
      ⟨_, List.getElem?_eq_getElem (by omega)⟩
    obtain ⟨take, htake⟩ : ∃ take, take = min (8 - p % 8) remaining := ⟨_, rfl⟩
    have hbits := valueAt_byte (k := take) hbyte (by omega)
    have hlt : valueAt data p take < 2 ^ take := valueAt_lt (by omega)
    have hnext := ih (remaining - take) (val <<< take ||| valueAt data p take) (p + take)
      (by omega) (by omega)
    simp only [readLoop, if_neg hdone, hbyte, ← htake, mask_eq, hbits]
    rw [hnext, shiftLeft_or_peek hlt]
    obtain ⟨rest, hrest⟩ : ∃ rest, remaining = take + rest := ⟨remaining - take, by omega⟩
    rw [hrest, Nat.add_sub_cancel_left, valueAt_add (by omega), Nat.add_assoc p]
    congr 2
    ring

theorem supplies (data : List UInt8) (n : Nat) : Supplies readBits (mk data) data n := by
  intro p hp
  simp only [readBits]
  by_cases hroom : p + n ≤ 8 * data.length
  · rw [if_neg (by omega), if_pos hroom]
    by_cases hfast : p % 8 = 0 ∧ n % 8 = 0
    · rw [if_pos hfast, beVal_valueAt hfast.1 hfast.2]
    · rw [if_neg hfast, readLoop_eq n n 0 p (Nat.le_refl n) hroom, Nat.zero_mul, Nat.zero_add]
  · rw [if_pos (by omega), if_neg hroom]

theorem bcdLoop_eq (raw k : Nat) : ∀ (i result mult : Nat),
    bcdLoop raw k i result mult = result + mult * decimalVal k (raw / 16 ^ i) := by
  induction k with
  | zero => simp [bcdLoop, decimalVal]
  | succ k ih =>
    intro i result mult
    have hdigit : (raw >>> (i * 4)) &&& 15 = raw / 16 ^ i % 16 := by
      rw [Nat.shiftRight_eq_div_pow, Nat.mul_comm, Nat.pow_mul]
      exact Nat.and_two_pow_sub_one_eq_mod _ 4
    rw [bcdLoop, ih, hdigit, decimalVal, Nat.pow_succ, ← Nat.div_div_eq_div_mul]
    ring

theorem takes_readBcd (data : List UInt8) (bits : Nat) :
    Takes (readBcd bits) (mk data) data bits (decimalVal (bits / 4)) := by
  have hread := Takes.map (g := fun v => v) (supplies data bits)
    fun raw => bcdLoop raw (bits / 4) 0 0 1
  simp only [bcdLoop_eq, Nat.zero_add, Nat.one_mul, Nat.pow_zero, Nat.div_one] at hread
  simp only [readBcd, bcdLoop_eq, Nat.zero_add, Nat.one_mul, Nat.pow_zero, Nat.div_one]
  exact hread

theorem takes_sign {rest : PortM PythonReader Nat} {bits : Nat} {g : Nat → Nat}
    (hrest : Takes rest (mk data) data (bits - 1) g) : Takes (do
        let sign ← readBits 1
        let val ← rest
        return if sign ≠ 0 then -(val : Int) else val) (mk data) data (max bits 1)
      fun v => if v / 2 ^ (bits - 1) ≠ 0 then -(g (v % 2 ^ (bits - 1)) : Int)
        else g (v % 2 ^ (bits - 1)) :=
  Takes.sign (supplies data 1) hrest fun sign val => if sign ≠ 0 then -(val : Int) else val

theorem alignTo_eq {k p : Nat} : alignTo k ⟨data, p⟩
      = some ((), ⟨data, if k = 0 then p else min (boundaryAfter k p) (8 * data.length)⟩) := by
  unfold alignTo
  by_cases hk : k = 0
  · rw [if_pos hk, if_pos hk]
  have hbyte : (if p % 8 ≠ 0 then p + (8 - p % 8) else p) = 8 * ((p + 7) / 8) := by
    split <;> omega
  rw [if_neg hk, if_neg hk]
  simp only [hbyte, show 8 * ((p + 7) / 8) / 8 = (p + 7) / 8 by omega]
  rw [boundaryAfter, length_boundaryPad]
  by_cases hz : (p + 7) / 8 % k = 0
  · rw [if_neg (by simpa using hz), if_pos hz]
    rfl
  · rw [if_pos hz, if_neg hz, Nat.mul_add, Nat.mul_comm (k - _) 8]

end PythonReader

theorem ReaderCall.python_eq (c : ReaderCall) {data : List UInt8} {p : Nat}
    (hp : p ≤ 8 * data.length) :
    c.python ⟨data, p⟩ = (c.expected data p).map (Prod.map id (PythonReader.mk data)) := by
  have hsupplies := PythonReader.supplies data
  cases c with
  | readBits n => exact bind_onBits uint _ (hsupplies n p hp) fun _ => rfl
  | readSignedBits n =>
    have hread := Takes.map (g := fun v => v) (hsupplies n) fun val : Nat =>
      if n.val > 0 ∧ val.testBit (n - 1) then (val : Int) - 2 ^ n.val else val
    refine bind_onBits int (fun v => .int ((v : Int).bmod (2 ^ n.val))) (hread p hp) fun hroom => ?_
    rw [bmod_of_lt (valueAt_lt hroom)]
  | readU8 => exact bind_onBits uint _ (hsupplies 8 p hp) fun _ => rfl
  | readU16 e => exact word_onBits (hsupplies 8) 2 e hp
  | readU32 e => exact word_onBits (hsupplies 8) 4 e hp
  | readU64 e => exact word_onBits (hsupplies 8) 8 e hp
  | readBcd bits =>
    exact bind_onBits uint (fun v => .uint (decimalVal (bits / 4) v))
      (PythonReader.takes_readBcd data bits p hp) fun _ => rfl
  | readBcdSigned bits =>
    have hread := PythonReader.takes_sign (PythonReader.takes_readBcd data (bits - 1))
    refine bind_onBits int (fun v => .int (signed bits (decimalVal ((bits - 1) / 4)) v))
      (hread p hp) fun hroom => ?_
    rw [signed_eq_of_lt _ (valueAt_lt hroom)]
  | readSignMagnitude bits =>
    have hread := PythonReader.takes_sign (g := fun v => v) (hsupplies (bits - 1))
    refine bind_onBits int (fun v => .int (signed bits (fun m => m) v)) (hread p hp) fun hroom => ?_
    rw [signed_eq_of_lt _ (valueAt_lt hroom)]
  | skipBits n =>
    have hskip : PythonReader.skipBits n ⟨data, p⟩
        = if p + n ≤ 8 * data.length then some ((), ⟨data, p + n⟩) else none := by
      simp only [PythonReader.skipBits]
      split <;> split <;> first | rfl | omega
    exact bind_onBits (fun _ => done) (fun _ => .done) hskip fun _ => rfl
  | alignTo k =>
    show (PythonReader.alignTo k >>= fun _ => pure done) _ = _
    rw [bind_some PythonReader.alignTo_eq]
    rfl

end Conduit.Ports

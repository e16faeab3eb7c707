import Conduit.Ports.ReaderBits

/-!
# What the C++ reader reads

The C++ reader gives what is expected of the calls it accepts: at most 64 bits at a time, words at
byte boundaries, and decimal numbers whose nibbles are digits.
-/

namespace Conduit.Ports

open Bits Io BitReader

section
variable {α : Type} {m : ReadM α} {r r' : BitReader}

theorem ofReadM_ok {a : α} (h : m r = (.ok a, r')) : ofReadM m r = some (a, r') := by
  rw [ofReadM, h]

theorem ofReadM_error {e : Fault} (h : m r = (.error e, r')) : ofReadM m r = none := by
  rw [ofReadM, h]

end

theorem unpackBcd_error (name : String) (raw k : Nat) : ∀ (i result mult : Nat),
    ¬ IsDecimal k (raw / 16 ^ i) → ∃ e, unpackBcd name raw k i result mult = .error e := by
  induction k with
  | zero => exact fun _ _ _ h => absurd trivial h
  | succ k ih =>
    intro i result mult h
    have hdigit : (raw >>> (i * 4)) &&& 15 = raw / 16 ^ i % 16 := by
      rw [Nat.shiftRight_eq_div_pow, Nat.mul_comm, Nat.pow_mul]
      exact Nat.and_two_pow_sub_one_eq_mod _ 4
    by_cases hsmall : raw / 16 ^ i % 16 ≤ 9
    · simp only [unpackBcd, hdigit, if_neg (show ¬ raw / 16 ^ i % 16 > 9 by omega)]
      apply ih
      rw [Nat.pow_succ, ← Nat.div_div_eq_div_mul]
      exact fun hrest => h ⟨hsmall, hrest⟩
    · simp only [unpackBcd, hdigit, if_pos (show raw / 16 ^ i % 16 > 9 by omega)]
      exact ⟨_, rfl⟩

theorem unpackBcd_decimal (name : String) {raw k : Nat} (hk : k ≤ 16) (h : IsDecimal k raw) :
    unpackBcd name raw k 0 0 1 = .ok (decimalVal k raw) := by
  have hpow : 10 ^ k ≤ 10 ^ 16 := Nat.pow_le_pow_right (by decide) hk
  have hunpack := unpackBcd_eq name raw k 0 0 1 (decimalVal k raw)
    (by simpa using (bcdOf_decimalVal h).symm) (by decide) (by omega)
  rw [hunpack, Nat.mod_eq_of_lt (decimalVal_lt h), Nat.zero_add, Nat.one_mul]

theorem unpackBcd_cases (name : String) (raw : Nat) {k : Nat} (hk : k ≤ 16) :
    (IsDecimal k raw ∧ unpackBcd name raw k 0 0 1 = .ok (decimalVal k raw))
      ∨ ¬ IsDecimal k raw ∧ ∃ e, unpackBcd name raw k 0 0 1 = .error e := by
  by_cases hdecimal : IsDecimal k raw
  · exact .inl ⟨hdecimal, unpackBcd_decimal name hk hdecimal⟩
  refine .inr ⟨hdecimal, unpackBcd_error name raw k 0 0 1 ?_⟩
  rwa [Nat.pow_zero, Nat.div_one]

section
variable {data : List UInt8} {p : Nat} (hdata : data.length < 2 ^ 61) (hp : p ≤ 8 * data.length)
  {n bits : Nat} {α : Type}

theorem position_cppAt : (cppAt data p).position = p := position_seek p _

theorem cppAt_byte (q : Nat) : cppAt data (8 * q) = ⟨data, q, 0⟩ := seek_byte q _

theorem ofReadM_bind_error {β : Type} {m : ReadM α} {f : α → ReadM β} {r r' : BitReader} {e : Fault}
    (h : m r = (.error e, r')) : ofReadM (m >>= f) r = none :=
  ofReadM_error (ReadM.bind_error h)

theorem signed_eq (bits : Nat) (magnitude : Nat → Nat) (raw : Nat) :
    (if raw.testBit (bits - 1) then -(magnitude (raw &&& (2 ^ (bits - 1) - 1)) : Int)
      else magnitude (raw &&& (2 ^ (bits - 1) - 1))) = signed bits magnitude raw := by
  rw [Nat.and_two_pow_sub_one_eq_mod]
  rfl

theorem valueAt_rest (hbits : 1 ≤ bits) (hroom : p + bits ≤ 8 * data.length) :
    valueAt data p bits &&& (2 ^ (bits - 1) - 1) = valueAt data (p + 1) (bits - 1) := by
  have hlow : valueAt data (p + 1) (bits - 1) < 2 ^ (bits - 1) := valueAt_lt (by omega)
  have hsplit : valueAt data p (1 + (bits - 1))
      = valueAt data p 1 * 2 ^ (bits - 1) + valueAt data (p + 1) (bits - 1) :=
    valueAt_add (by omega)
  rw [show 1 + (bits - 1) = bits by omega] at hsplit
  rw [Nat.and_two_pow_sub_one_eq_mod, hsplit, Nat.mul_comm, Nat.mul_add_mod, Nat.mod_eq_of_lt hlow]

theorem ofReadM_consumes {m : ReadM α} {a : α} (h : Consumes m n (cppAt data p))
    (hval : (p + 7) / 8 + n ≤ data.length → (m (cppAt data p)).1 = .ok a) : ofReadM m (cppAt data p)
      = if (p + 7) / 8 + n ≤ data.length then some (a, cppAt data (8 * ((p + 7) / 8 + n)))
        else none := by
  have hnext : (cppAt data p).nextByte = (p + 7) / 8 := by rw [nextByte, position_cppAt]
  unfold Consumes at h
  rw [hnext, show (cppAt data p).data = data from rfl] at h
  by_cases hroom : (p + 7) / 8 + n ≤ data.length
  · rw [if_pos hroom] at h ⊢
    obtain ⟨b, hb⟩ := h
    have heq := hval hroom
    rw [hb] at heq
    cases heq
    rw [cppAt_byte]
    exact ofReadM_ok hb
  · rw [if_neg hroom] at h ⊢
    obtain ⟨e, he⟩ := h
    exact ofReadM_error he

theorem take_drop_aligned (ha : p % 8 = 0) (hroom : p + 8 * n ≤ 8 * data.length) :
    (data.drop ((p + 7) / 8)).take n = beBytes n (valueAt data p (8 * n)) := by
  have hlen : ((data.drop (p / 8)).take n).length = n := by
    rw [List.length_take, List.length_drop]
    omega
  have hval : beVal ((data.drop (p / 8)).take (8 * n / 8)) = valueAt data p (8 * n) :=
    beVal_valueAt ha (by omega)
  rw [show 8 * n / 8 = n by omega] at hval
  have hbytes := beBytes_beVal ((data.drop (p / 8)).take n)
  rw [hlen, hval] at hbytes
  rw [hbytes, show (p + 7) / 8 = p / 8 by omega]

theorem word_placed {m : PortM BitReader α} {a b : α}
    (h : m (cppAt data p) = if (p + 7) / 8 + n ≤ data.length then
      some (a, cppAt data (8 * ((p + 7) / 8 + n))) else none)
    (hplaced : p % 8 = 0 ∨ 8 * data.length < p + 8 * n)
    (hval : p % 8 = 0 → p + 8 * n ≤ 8 * data.length → a = b) : m (cppAt data p)
      = if p + 8 * n ≤ 8 * data.length then some (b, cppAt data (p + 8 * n)) else none := by
  by_cases hroom : p + 8 * n ≤ 8 * data.length
  · have ha : p % 8 = 0 := by omega
    rw [h, if_pos (by omega), if_pos hroom, hval ha hroom]
    congr 3
    omega
  · rw [h, if_neg (by omega), if_neg hroom]

include hdata hp

theorem cppAt_wf : (cppAt data p).WF := (wf_start (by omega)).seek hp

theorem cpp_readBits (hn : n ≤ 64) (hroom : p + n ≤ 8 * data.length) :
    readBits n (cppAt data p) = (.ok (valueAt data p n), cppAt data (p + n)) := by
  have hread := readBits_eq (cppAt_wf hdata hp) hn (by rwa [position_cppAt])
  rw [peek_cppAt, position_cppAt] at hread
  exact hread

theorem cpp_readBits_error (h : 64 < n ∨ 8 * data.length < p + n) :
    ∃ e r', readBits n (cppAt data p) = (.error e, r') := by
  have hwf := cppAt_wf hdata hp
  have hok : _ ↔ ¬ (n ≤ 64 ∧ n ≤ _) := (Io.ReaderCall.readBits_ok_iff hwf).not
  rw [position_cppAt] at hok
  rcases hrun : readBits n (cppAt data p) with ⟨e | a, r'⟩
  · exact ⟨e, r', rfl⟩
  have hnone := hok.mpr (show ¬ (n ≤ 64 ∧ n ≤ 8 * data.length - p) by omega)
  exact absurd ⟨a, by rw [hrun]⟩ hnone

omit hp in
theorem cpp_supplies (hn : n ≤ 64) :
    Supplies (fun n => ofReadM (readBits n)) (cppAt data) data n := by
  intro p hp
  by_cases hroom : p + n ≤ 8 * data.length
  · rw [if_pos hroom]
    exact ofReadM_ok (cpp_readBits hdata hp hn hroom)
  obtain ⟨e, r', herror⟩ := cpp_readBits_error hdata hp (n := n) (.inr (by omega))
  rw [if_neg hroom]
  exact ofReadM_error herror

theorem ofReadM_readBits {f : Nat → ReadM α} : ofReadM (readBits n >>= f) (cppAt data p)
      = if n ≤ 64 ∧ p + n ≤ 8 * data.length then
          ofReadM (f (valueAt data p n)) (cppAt data (p + n)) else none := by
  by_cases h : n ≤ 64 ∧ p + n ≤ 8 * data.length
  · rw [if_pos h, ofReadM, ofReadM, ReadM.bind_ok (cpp_readBits hdata hp h.1 h.2)]
  obtain ⟨e, r', herror⟩ := cpp_readBits_error hdata hp (n := n) (by omega)
  rw [if_neg h]
  exact ofReadM_bind_error herror

theorem cpp_readSignedBits : ofReadM (readSignedBits n) (cppAt data p)
      = if n ≤ 64 ∧ p + n ≤ 8 * data.length then
          some ((valueAt data p n : Int).bmod (2 ^ n), cppAt data (p + n)) else none := by
  rw [readSignedBits]
  by_cases h0 : n = 0
  · subst h0
    rw [if_pos rfl, if_pos (by omega)]
    rfl
  rw [if_neg h0, ofReadM_readBits hdata hp]
  refine ite_congr rfl (fun h => ?_) fun _ => rfl
  rw [← signExtend_eq (by omega) h.1 (valueAt_lt h.2)]
  rfl

theorem cpp_readBcd (hpos : 0 < bits) : ofReadM (readBcd bits) (cppAt data p)
      = if p + bits ≤ 8 * data.length ∧ bits % 4 = 0 ∧ bits ≤ 64 ∧
            IsDecimal (bits / 4) (valueAt data p bits) then
          some (decimalVal (bits / 4) (valueAt data p bits), cppAt data (p + bits)) else none := by
  rw [readBcd, if_neg (by omega)]
  by_cases hfour : bits % 4 ≠ 0
  · rw [if_pos hfour, if_neg fun h => hfour h.2.1]
    rfl
  rw [if_neg hfour]
  by_cases hbits : bits / 4 > 16
  · rw [if_pos hbits, if_neg fun h => absurd h.2.2.1 (by omega)]
    rfl
  have h4 : bits % 4 = 0 := by omega
  have h64 : bits ≤ 64 := by omega
  rw [if_neg hbits, ofReadM_readBits hdata hp]
  simp only [h4, h64, true_and, ite_and]
  refine ite_congr rfl (fun _ => ?_) fun _ => rfl
  rcases unpackBcd_cases "read_bcd" (valueAt data p bits) (show bits / 4 ≤ 16 by omega) with
    ⟨hdecimal, heq⟩ | ⟨hdecimal, e, heq⟩
  · rw [if_pos hdecimal, heq]
    rfl
  · rw [if_neg hdecimal, heq]
    rfl

theorem cpp_readBcdSigned : ofReadM (readBcdSigned bits) (cppAt data p)
      = if p + bits ≤ 8 * data.length ∧ 5 ≤ bits ∧ bits ≤ 61 ∧ (bits - 1) % 4 = 0 ∧
            IsDecimal ((bits - 1) / 4) (valueAt data (p + 1) (bits - 1)) then
          some (signed bits (decimalVal ((bits - 1) / 4)) (valueAt data p bits),
            cppAt data (p + bits)) else none := by
  rw [readBcdSigned]
  by_cases hmin : bits < 5
  · rw [if_pos hmin, if_neg fun h => absurd h.2.1 (by omega)]
    rfl
  rw [if_neg hmin]
  by_cases hfour : (bits - 1) % 4 ≠ 0
  · rw [if_pos hfour, if_neg fun h => hfour h.2.2.2.1]
    rfl
  rw [if_neg hfour]
  by_cases hmax : (bits - 1) / 4 > 15
  · rw [if_pos hmax, if_neg fun h => absurd h.2.2.1 (by omega)]
    rfl
  have h4 : (bits - 1) % 4 = 0 := by omega
  have h61 : bits ≤ 61 := by omega
  have h64 : bits ≤ 64 := by omega
  rw [if_neg hmax, ofReadM_readBits hdata hp]
  simp only [h4, h61, h64, not_lt.mp hmin, true_and, ite_and]
  refine ite_congr rfl (fun hroom => ?_) fun _ => rfl
  have hrest := valueAt_rest (show 1 ≤ bits by omega) hroom
  rcases unpackBcd_cases "read_bcd_signed" (valueAt data (p + 1) (bits - 1))
    (show (bits - 1) / 4 ≤ 16 by omega) with ⟨hdecimal, heq⟩ | ⟨hdecimal, e, heq⟩
  · rw [if_pos hdecimal, hrest, heq, ← signed_eq, hrest]
    rfl
  · rw [if_neg hdecimal, hrest, heq]
    rfl

theorem cpp_readSignMagnitude : ofReadM (readSignMagnitude bits) (cppAt data p)
      = if p + bits ≤ 8 * data.length ∧ 2 ≤ bits ∧ bits ≤ 64 then
          some (signed bits id (valueAt data p bits), cppAt data (p + bits)) else none := by
  rw [readSignMagnitude]
  by_cases hmin : bits < 2
  · rw [if_pos hmin, if_neg (by omega)]
    rfl
  rw [if_neg hmin, ofReadM_readBits hdata hp]
  refine if_ctx_congr (by omega) (fun h => ?_) fun _ => rfl
  have hrest := valueAt_rest (show 1 ≤ bits by omega) h.1
  have hlt : valueAt data (p + 1) (bits - 1) < 2 ^ 63 :=
    (valueAt_lt (by omega)).trans_le (Nat.pow_le_pow_right (by omega) (by omega))
  simp only [hrest, toInt64_of_lt hlt]
  rw [← signed_eq, hrest]
  rfl

theorem cpp_word (name : String) (hn : n ≤ 8) (e : Endian) :
    ofReadM (readFixed name n e) (cppAt data p) = if (p + 7) / 8 + n ≤ data.length then
          some (beVal (e.order ((data.drop ((p + 7) / 8)).take n)),
            cppAt data (8 * ((p + 7) / 8 + n))) else none := by
  have hwf := cppAt_wf hdata hp
  apply ofReadM_consumes (consumes_readFixed hwf name hn e)
  intro hroom
  have hread := readFixed_eq name (n := n) e hwf (by rwa [position_cppAt])
  rwa [position_cppAt] at hread

theorem cpp_byte : ofReadM readU8 (cppAt data p) = if (p + 7) / 8 + 1 ≤ data.length then
          some (beVal ((data.drop ((p + 7) / 8)).take 1), cppAt data (8 * ((p + 7) / 8 + 1)))
        else none := by
  have hwf := cppAt_wf hdata hp
  apply ofReadM_consumes (consumes_readU8 hwf)
  intro hroom
  have hread := readU8_eq hwf (by rwa [position_cppAt])
  rwa [position_cppAt] at hread

theorem cpp_skipBits (n : Nat) : ofReadM (skipBits n) (cppAt data p)
      = if p + n ≤ 8 * data.length then some ((), cppAt data (p + n)) else none := by
  have hwf := cppAt_wf hdata hp
  have hremaining := hwf.remainingBits_eq
  rw [position_cppAt, show (cppAt data p).data = data from rfl] at hremaining
  by_cases hroom : p + n ≤ 8 * data.length
  · have hadvance := hwf.advance_eq (n := n) (by rwa [position_cppAt])
    rw [position_cppAt] at hadvance
    have hskip : skipBits n (cppAt data p) = (.ok (), cppAt data (p + n)) := by
      rw [skipBits, if_neg (by omega), hadvance]
      rfl
    rw [if_pos hroom]
    exact ofReadM_ok hskip
  · rw [if_neg hroom, ofReadM, skipBits, if_pos (by omega)]
    rfl

theorem cpp_alignTo {k : Nat} (hk : k < 2 ^ 31) : (cppAt data p).alignTo k
      = cppAt data (if k = 0 then p else min (boundaryAfter k p) (8 * data.length)) := by
  by_cases hzero : k = 0
  · rw [if_pos hzero, alignTo, if_pos hzero]
  have halign : (cppAt data p).alignToByte = ⟨data, (p + 7) / 8, 0⟩ := by
    rw [(cppAt_wf hdata hp).alignToByte_eq, position_cppAt, seek_byte]
    rfl
  have hclamp : ∀ q, (if q > data.length then (⟨data, data.length, 0⟩ : BitReader) else ⟨data, q, 0⟩)
      = cppAt data (min (8 * q) (8 * data.length)) := by
    intro q
    split
    next hq => rw [show min (8 * q) (8 * data.length) = 8 * data.length by omega, cppAt_byte]
    next hq => rw [show min (8 * q) (8 * data.length) = 8 * q by omega, cppAt_byte]
  rw [if_neg hzero, alignTo, if_neg hzero, halign, boundaryAfter, length_boundaryPad]
  by_cases hz : (p + 7) / 8 % k = 0
  · simp only [hz, ne_eq, not_true_eq_false, and_false, if_false, if_true, Nat.add_zero]
    exact hclamp _
  have hone : k > 1 := by
    by_contra hle
    obtain rfl : k = 1 := by omega
    exact hz (Nat.mod_one _)
  have hsize : sizeT ((p + 7) / 8 + (k - (p + 7) / 8 % k)) = (p + 7) / 8 + (k - (p + 7) / 8 % k) :=
    Nat.mod_eq_of_lt (by omega)
  simp only [hz, hone, ne_eq, not_false_eq_true, and_self, if_true, if_false, hsize]
  exact hclamp _

end

/-- The calls that the C++ reader answers as expected. -/
def ReaderCall.Accepted (data : List UInt8) (p : Nat) : ReaderCall → Prop
  | .readBits n | .readSignedBits n => n.val ≤ 64 ∨ 8 * data.length < p + n
  | .readU8 => p % 8 = 0 ∨ 8 * data.length < p + 8
  | .readU16 _ => p % 8 = 0 ∨ 8 * data.length < p + 16
  | .readU32 _ => p % 8 = 0 ∨ 8 * data.length < p + 32
  | .readU64 _ => p % 8 = 0 ∨ 8 * data.length < p + 64
  | .readBcd bits => bits.val = 0 ∨ 8 * data.length < p + bits ∨
      bits.val % 4 = 0 ∧ bits.val ≤ 64 ∧ IsDecimal (bits.val / 4) (valueAt data p bits)
  | .readBcdSigned bits => 8 * data.length < p + max bits.val 1 ∨
      5 ≤ bits.val ∧ bits.val ≤ 61 ∧ (bits.val - 1) % 4 = 0 ∧
        IsDecimal ((bits.val - 1) / 4) (valueAt data (p + 1) (bits.val - 1))
  | .readSignMagnitude bits => 8 * data.length < p + max bits.val 1 ∨ 2 ≤ bits.val ∧ bits.val ≤ 64
  | .skipBits _ | .alignTo _ => True

namespace ReaderCall
variable {data : List UInt8} {p : Nat} (hdata : data.length < 2 ^ 61) (hp : p ≤ 8 * data.length)
  {n : Nat} {c : ReaderCall}

theorem cpp_word_onBits (name : String) (hn : n ≤ 8) (e : Endian) (hdata : data.length < 2 ^ 61)
    (hp : p ≤ 8 * data.length) (hplaced : p % 8 = 0 ∨ 8 * data.length < p + 8 * n) :
    (ofReadM (readFixed name n e) >>= fun x => pure (Value.uint x)) (cppAt data p)
      = (onBits data p (8 * n) fun v => .uint (beVal (e.order (beBytes n v)))).map
          (Prod.map id (cppAt data)) :=
  bind_onBits Value.uint _ (word_placed (b := beVal (e.order (beBytes n (valueAt data p (8 * n)))))
      (cpp_word hdata hp name hn e) hplaced
      fun ha hroom => by rw [take_drop_aligned ha hroom])
    fun _ => rfl

include hdata hp in
theorem cpp_eq (haccepted : c.Accepted data p) :
    c.cpp (cppAt data p) = (c.expected data p).map (Prod.map id (cppAt data)) := by
  cases c with
  | readBits n =>
    rcases haccepted with hn | hshort
    · exact bind_onBits Value.uint _ (cpp_supplies hdata hn p hp) fun _ => rfl
    obtain ⟨e, r', herror⟩ := cpp_readBits_error hdata hp (.inr hshort)
    rw [expected, onBits_none hshort]
    exact bind_none (ofReadM_error herror)
  | readSignedBits n =>
    rcases haccepted with hn | hshort
    · have hread := cpp_readSignedBits hdata hp (n := n.val)
      simp only [hn, true_and] at hread
      exact bind_onBits Value.int (fun v => .int ((v : Int).bmod (2 ^ n.val))) hread fun _ => rfl
    · rw [expected, onBits_none hshort]
      exact bind_none ((cpp_readSignedBits hdata hp).trans (if_neg (by omega)))
  | readU8 =>
    have hread := word_placed (b := valueAt data p 8) (cpp_byte hdata hp) haccepted
      fun ha hroom => by
        rw [take_drop_aligned ha hroom, beVal_beBytes, Nat.mod_eq_of_lt (valueAt_lt hroom)]
    exact bind_onBits Value.uint _ hread fun _ => rfl
  | readU16 e => exact cpp_word_onBits "read_u16" (by decide) e hdata hp haccepted
  | readU32 e => exact cpp_word_onBits "read_u32" (by decide) e hdata hp haccepted
  | readU64 e => exact cpp_word_onBits "read_u64" (by decide) e hdata hp haccepted
  | readBcd bits =>
    by_cases hzero : bits.val = 0
    · have hread : ofReadM (BitReader.readBcd bits) (cppAt data p) = some (0, cppAt data p) := by
        rw [hzero]
        rfl
      rw [expected, hzero, onBits_some (by omega)]
      exact bind_some hread
    have hread := cpp_readBcd hdata hp (Nat.pos_of_ne_zero hzero)
    by_cases hroom : p + bits.val ≤ 8 * data.length
    · have hvalid := (haccepted.resolve_left hzero).resolve_left (by omega)
      rw [expected, onBits_some hroom]
      exact bind_some (hread.trans (if_pos ⟨hroom, hvalid⟩))
    · rw [expected, onBits_none (by omega)]
      exact bind_none (hread.trans (if_neg fun h => hroom h.1))
  | readBcdSigned bits =>
    by_cases hroom : p + max bits.val 1 ≤ 8 * data.length
    · have hvalid := haccepted.resolve_left (by omega)
      have hbits : max bits.val 1 = bits.val := by omega
      rw [hbits] at hroom
      rw [expected, hbits, onBits_some hroom]
      exact bind_some ((cpp_readBcdSigned hdata hp).trans (if_pos ⟨hroom, hvalid⟩))
    · rw [expected, onBits_none (by omega)]
      exact bind_none ((cpp_readBcdSigned hdata hp).trans (if_neg fun h => absurd h.2.1 (by omega)))
  | readSignMagnitude bits =>
    by_cases hroom : p + max bits.val 1 ≤ 8 * data.length
    · have hvalid := haccepted.resolve_left (by omega)
      have hbits : max bits.val 1 = bits.val := by omega
      rw [hbits] at hroom
      rw [expected, hbits, onBits_some hroom]
      exact bind_some ((cpp_readSignMagnitude hdata hp).trans (if_pos ⟨hroom, hvalid⟩))
    · rw [expected, onBits_none (by omega)]
      exact bind_none ((cpp_readSignMagnitude hdata hp).trans (if_neg (by omega)))
  | skipBits n =>
    exact bind_onBits (fun _ => Value.done) (fun _ => .done) (cpp_skipBits hdata hp n) fun _ => rfl
  | alignTo k =>
    show some (Value.done, (cppAt data p).alignTo k) = _
    rw [cpp_alignTo hdata hp k.isLt]
    rfl

/-- The bits of the call are there, but the C++ reader fails or ends up further on. -/
def Apart (data : List UInt8) (p : Nat) (c : ReaderCall) : Prop :=
  ∃ v q, c.expected data p = some (v, q) ∧ (c.cpp (cppAt data p) = none ∨
      ∃ v' q', c.cpp (cppAt data p) = some (v', cppAt data q') ∧ q < q' ∧ q' ≤ 8 * data.length)

theorem apart_of_none {g : Nat → Value} (hexpected : c.expected data p = onBits data p n g)
    (hroom : p + n ≤ 8 * data.length) (hcpp : c.cpp (cppAt data p) = none) : c.Apart data p :=
  ⟨_, _, hexpected.trans (onBits_some hroom), .inl hcpp⟩

theorem apart_word {m : PortM BitReader Nat} {a : Nat} {g : Nat → Value}
    (hexpected : c.expected data p = onBits data p (8 * n) g)
    (hcpp : c.cpp (cppAt data p) = (m >>= fun x => pure (Value.uint x)) (cppAt data p))
    (h : m (cppAt data p) = if (p + 7) / 8 + n ≤ data.length then
      some (a, cppAt data (8 * ((p + 7) / 8 + n))) else none)
    (hmisplaced : ¬ (p % 8 = 0 ∨ 8 * data.length < p + 8 * n)) : c.Apart data p := by
  rw [if_pos (by omega)] at h
  rw [onBits_some (by omega)] at hexpected
  refine ⟨_, _, hexpected, .inr ⟨.uint a, 8 * ((p + 7) / 8 + n), ?_, by omega, by omega⟩⟩
  rw [hcpp]
  exact bind_some h

include hdata hp in
theorem apart_of_not_accepted (h : ¬ c.Accepted data p) : c.Apart data p := by
  cases c with
  | readBits n =>
    have hcount : ¬ (n.val ≤ 64 ∨ 8 * data.length < p + n.val) := h
    obtain ⟨e, r', herror⟩ := cpp_readBits_error hdata hp (n := n) (by omega)
    exact apart_of_none (by rw [expected]) (by omega) (bind_none (ofReadM_error herror))
  | readSignedBits n =>
    have hcount : ¬ (n.val ≤ 64 ∨ 8 * data.length < p + n.val) := h
    exact apart_of_none (by rw [expected]) (by omega)
      (bind_none ((cpp_readSignedBits hdata hp).trans (if_neg (by omega))))
  | readU8 => exact apart_word rfl rfl (cpp_byte hdata hp) h
  | readU16 e =>
    exact apart_word (by rw [expected]) rfl (cpp_word hdata hp "read_u16" (by decide) e) h
  | readU32 e =>
    exact apart_word (by rw [expected]) rfl (cpp_word hdata hp "read_u32" (by decide) e) h
  | readU64 e =>
    exact apart_word (by rw [expected]) rfl (cpp_word hdata hp "read_u64" (by decide) e) h
  | readBcd bits =>
    obtain ⟨hzero, hroom, hinvalid⟩ := (not_or.mp h).imp id not_or.mp
    refine apart_of_none (by rw [expected]) (not_lt.mp hroom) (bind_none ?_)
    exact (cpp_readBcd hdata hp (Nat.pos_of_ne_zero hzero)).trans (if_neg fun h => hinvalid h.2)
  | readBcdSigned bits =>
    obtain ⟨hroom, hinvalid⟩ := not_or.mp h
    refine apart_of_none (by rw [expected]) (not_lt.mp hroom) (bind_none ?_)
    exact (cpp_readBcdSigned hdata hp).trans (if_neg fun h => hinvalid h.2)
  | readSignMagnitude bits =>
    obtain ⟨hroom, hinvalid⟩ := not_or.mp h
    refine apart_of_none (by rw [expected]) (not_lt.mp hroom) (bind_none ?_)
    exact (cpp_readSignMagnitude hdata hp).trans (if_neg fun h => hinvalid h.2)
  | skipBits n => exact absurd trivial h
  | alignTo k => exact absurd trivial h

end ReaderCall

end Conduit.Ports

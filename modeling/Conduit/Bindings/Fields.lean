import Conduit.Bindings.Probing

/-!
# Sessions that read a field

A generated session reads a word somewhere in the header and computes the frame length from it.
Headers with a single byte set tell where the word lies: to give the last two bytes of every header,
or all of it in reverse, it must be just these bytes and the computation must not change it.
-/

namespace Conduit.Bindings

open Bits Io Ports List

/-! ## Bits that are not set -/

theorem valueAt_of_zeros_before {data : List UInt8} {a p n : Nat} {rest : List Bool}
    (hdata : bytesBits data = replicate a false ++ rest) (h : p + n ≤ a) :
    valueAt data p n = 0 := by
  rw [valueAt, hdata, drop_append_of_le_length (by rw [length_replicate]; omega),
    take_append_of_le_length (by rw [length_drop, length_replicate]; omega),
    drop_replicate, take_replicate, bitsVal_replicate_false]

theorem valueAt_of_zeros_after {data : List UInt8} {a p n : Nat} (front : List Bool)
    (hdata : bytesBits data = front ++ replicate a false) (h : front.length ≤ p) :
    valueAt data p n = 0 := by
  rw [valueAt, hdata, drop_append, drop_of_length_le h, nil_append,
    drop_replicate, take_replicate, bitsVal_replicate_false]

theorem valueAt_zeros (size p n : Nat) : valueAt (replicate size 0) p n = 0 :=
  valueAt_of_zeros_after [] (bytesBits_replicate_zero size) (Nat.zero_le p)

theorem valueAt_last {size p n : Nat} (h : p + n < 8 * (size + 1)) :
    valueAt (replicate size 0 ++ [1]) p n = 0 := by
  have hbits : bytesBits (replicate size 0 ++ [1]) = replicate (8 * size + 7) false ++ [true] := by
    rw [bytesBits_append, bytesBits_replicate_zero, replicate_add, append_assoc]
    rfl
  exact valueAt_of_zeros_before hbits (by omega)

theorem valueAt_first {size p n : Nat} (h : 0 < p) : valueAt (128 :: replicate size 0) p n = 0 := by
  have hbits : bytesBits (128 :: replicate size 0) = [true] ++ replicate (7 + 8 * size) false := by
    rw [bytesBits_cons, bytesBits_replicate_zero, replicate_add, ← append_assoc]
    rfl
  exact valueAt_of_zeros_after [true] hbits h

/-! ## Fields -/

/-- The session reads `width` bytes from bit `offset` on and computes the length from them. -/
def ReadsField (extract : List UInt8 → Option Int) (headerSize offset width : Nat) (e : Endian)
    (compute : Nat → Option Int) : Prop :=
  ∀ header, header.length = headerSize → extract header
    = if offset + 8 * width ≤ 8 * headerSize then
        compute (beVal (e.order (beBytes width (valueAt header offset (8 * width)))))
      else none

/-- What a computation that undoes one operation cannot do: to forget the fourth byte of a number
or to give less for the first byte of a word than for a smaller number. -/
structure Rigid (compute : Nat → Option Int) : Prop where
  high : compute 0 = some 0 → compute 1 = some 1 → compute (256 ^ 3) ≠ some 0
  top : ∀ n ∈ [1, 3, 7], compute 0 = some 0 → compute (256 ^ n) = some 1 →
    ∀ a < 256 ^ n, ∀ x, compute a = some x → x ≤ 1

theorem Rigid.of_monotone {compute : Nat → Option Int} (h : compute 0 = some 0 →
      (∀ a b, a ≤ b → ∀ x y, compute a = some x → compute b = some y → x ≤ y)
        ∨ ∀ a x, compute a = some x → x ≤ 0) : Rigid compute := by
  constructor
  · intro hzero hone hhigh
    rcases h hzero with hmono | hneg
    · exact absurd (hmono 1 (256 ^ 3) (by decide) 1 0 hone hhigh) (by decide)
    · exact absurd (hneg 1 1 hone) (by decide)
  intro n _ hzero htop a ha x hx
  rcases h hzero with hmono | hneg
  · exact hmono a (256 ^ n) (Nat.le_of_lt ha) x 1 hx htop
  · exact (hneg a x hx).trans (by decide)

section
variable {extract : List UInt8 → Option Int} {headerSize offset width : Nat} {e : Endian}
  {compute : Nat → Option Int}

theorem order_zeros (n : Nat) : beVal (e.order (beBytes n 0)) = 0 := by
  have hbytes : beBytes n 0 = replicate n 0 := by
    apply bytesBits_inj
    rw [bytesBits_beBytes, msbBits_zero_right, bytesBits_replicate_zero]
  rw [hbytes]
  cases e with
  | big => exact beVal_replicate_zero n
  | little =>
    rw [Endian.order, reverse_replicate]
    exact beVal_replicate_zero n

section

variable (h : ReadsField extract headerSize offset width e compute)
include h

theorem ReadsField.of_valueAt (header : List UInt8) (hlen : header.length = headerSize)
    (hval : valueAt header offset (8 * width) = 0) :
    extract header = extract (replicate headerSize 0) := by
  rw [h header hlen, h _ length_replicate, hval, valueAt_zeros]

section

variable {length : Int} (hzeros : extract (replicate headerSize 0) = some length)

include hzeros

theorem ReadsField.inside : offset + 8 * width ≤ 8 * headerSize := by
  by_contra hout
  rw [h _ length_replicate, if_neg hout] at hzeros
  cases hzeros

theorem ReadsField.compute_zero : compute 0 = some length := by
  have hinside := h.inside hzeros
  rw [h _ length_replicate, if_pos hinside, valueAt_zeros, order_zeros] at hzeros
  exact hzeros

end

section

variable (hpos : 0 < headerSize) {length length' : Int}
  (hzeros : extract (replicate headerSize 0) = some length)

include hpos hzeros

theorem ReadsField.ends (hlast : extract (replicate (headerSize - 1) 0 ++ [1]) = some length')
    (hne : length ≠ length') : offset + 8 * width = 8 * headerSize := by
  have hinside := h.inside hzeros
  by_contra hshort
  have hsame := h.of_valueAt (replicate (headerSize - 1) 0 ++ [1])
    (by simp; omega) (valueAt_last (by omega))
  rw [hlast, hzeros] at hsame
  exact hne (Option.some.inj hsame).symm

theorem ReadsField.starts (hfirst : extract (128 :: replicate (headerSize - 1) 0) = some length')
    (hne : length ≠ length') : offset = 0 := by
  by_contra hlate
  have hsame := h.of_valueAt (128 :: replicate (headerSize - 1) 0)
    (by simp; omega) (valueAt_first (by omega))
  rw [hfirst, hzeros] at hsame
  exact hne (Option.some.inj hsame).symm

end

theorem ReadsField.word (hends : offset + 8 * width = 8 * headerSize) (word : List UInt8)
    (hword : word.length = width) :
    extract (replicate (headerSize - width) 0 ++ word) = compute (beVal (e.order word)) := by
  have hlen : (replicate (headerSize - width) 0 ++ word).length = headerSize := by
    rw [length_append, length_replicate]
    omega
  have hvalue : valueAt (replicate (headerSize - width) 0 ++ word) offset (8 * width)
      = beVal word := by
    rw [← beVal_valueAt (by omega) (by omega), show offset / 8 = headerSize - width by omega,
      show 8 * width / 8 = width by omega, drop_left' length_replicate, ← hword,
      take_length]
  rw [h _ hlen, if_pos (by omega), hvalue, ← hword, beBytes_beVal]

end

theorem ReadsField.whole (h : ReadsField extract headerSize 0 headerSize e compute)
    (header : List UInt8) (hlen : header.length = headerSize) :
    extract header = compute (beVal (e.order header)) := by
  have hword := h.word (by omega) header hlen
  rwa [Nat.sub_self] at hword

/-! ## The last two bytes -/

section

variable (h : EndsWithLength extract headerSize)
include h

theorem EndsWithLength.zeros : extract (replicate headerSize 0) = some 0 := by
  rw [h _ length_replicate, drop_replicate, beVal_replicate_zero]
  rfl

theorem EndsWithLength.word (word : List UInt8)
    (hwidth : 2 ≤ word.length) (hle : word.length ≤ headerSize) :
    extract (replicate (headerSize - word.length) 0 ++ word)
      = some (beVal (word.drop (word.length - 2)) : Int) := by
  have hlen : (replicate (headerSize - word.length) (0 : UInt8) ++ word).length = headerSize := by
    rw [length_append, length_replicate]
    omega
  rw [h _ hlen, drop_append, drop_of_length_le (by rw [length_replicate]; omega),
    nil_append, length_replicate,
    show headerSize - 2 - (headerSize - word.length) = word.length - 2 by omega]

variable (hread : ReadsField extract headerSize offset width e compute)
include hread

theorem EndsWithLength.ends (htwo : 2 ≤ headerSize) : offset + 8 * width = 8 * headerSize := by
  have hlast := h.word [0, 1] (Nat.le_refl 2) htwo
  have hheader : replicate (headerSize - 1) (0 : UInt8) ++ [1]
      = replicate (headerSize - 2) 0 ++ [0, 1] := by
    rw [show headerSize - 1 = headerSize - 2 + 1 by omega, replicate_succ', append_assoc]
    rfl
  exact hread.ends (by omega) h.zeros (hheader ▸ hlast) (by decide)

theorem EndsWithLength.width_ne_one (htwo : 2 ≤ headerSize) : width ≠ 1 := by
  rintro rfl
  have hends := h.ends hread htwo
  have hlast := h.word [1, 0] (Nat.le_refl 2) htwo
  have hheader : replicate (headerSize - 2) (0 : UInt8) ++ [1, 0]
      = (replicate (headerSize - 2) 0 ++ [1]) ++ replicate 1 0 := by
    rw [append_assoc]
    rfl
  have hzero : valueAt (replicate (headerSize - 2) 0 ++ [1, 0]) offset (8 * 1) = 0 := by
    apply valueAt_of_zeros_after (a := 8) (bytesBits (replicate (headerSize - 2) 0 ++ [1]))
    · rw [hheader, bytesBits_append, bytesBits_replicate_zero]
    rw [length_bytesBits, length_append, length_replicate, length_singleton]
    omega
  have hsame := hread.of_valueAt _ (by simp; omega) hzero
  rw [h.zeros] at hsame
  exact absurd (Option.some.inj (hlast.symm.trans hsame)) (by decide)

theorem EndsWithLength.compute_eq (hwidth : 2 ≤ width)
    (hends : offset + 8 * width = 8 * headerSize) (word : List UInt8) (hword : word.length = width) :
    compute (beVal (e.order word)) = some (beVal (word.drop (width - 2)) : Int) := by
  rw [← hread.word hends word hword, ← hword]
  exact h.word word (by omega) (by omega)

end

theorem endsWithLength_iff (hread : ReadsField extract headerSize offset width e compute)
    (hwidth : width = 1 ∨ width = 2 ∨ width = 4 ∨ width = 8) (hrigid : Rigid compute)
    (htwo : 2 ≤ headerSize) :
    EndsWithLength extract headerSize ↔ width = 2 ∧ e = .big ∧ offset + 16 = 8 * headerSize
      ∧ ∀ v < 2 ^ 16, compute v = some (v : Int) := by
  constructor
  · intro h
    have hends := h.ends hread htwo
    have hone := h.width_ne_one hread htwo
    have hcompute := h.compute_eq hread (by omega) hends
    have hzero := hread.compute_zero h.zeros
    cases e with
    | little =>
      -- the first of the last two bytes would count less than the last one
      exfalso
      rcases hwidth with rfl | rfl | rfl | rfl
      · exact hone rfl
      · have hbad := hrigid.top 1 (by decide) hzero (hcompute [0, 1] rfl) 1 (by decide) _
          (hcompute [1, 0] rfl)
        exact absurd hbad (by decide)
      · have hbad := hrigid.top 3 (by decide) hzero (hcompute [0, 0, 0, 1] rfl) (256 ^ 2)
          (by decide) _ (hcompute [0, 0, 1, 0] rfl)
        exact absurd hbad (by decide)
      · have hbad := hrigid.top 7 (by decide) hzero (hcompute [0, 0, 0, 0, 0, 0, 0, 1] rfl)
          (256 ^ 6) (by decide) _ (hcompute [0, 0, 0, 0, 0, 0, 1, 0] rfl)
        exact absurd hbad (by decide)
    | big =>
      rcases hwidth with rfl | rfl | rfl | rfl
      · exact absurd rfl hone
      · refine ⟨rfl, rfl, by omega, ?_⟩
        intro v hv
        have hval := hcompute (beBytes 2 v) (length_beBytes 2 v)
        rwa [Nat.sub_self, drop_zero, Endian.order, beVal_beBytes, Nat.mod_eq_of_lt hv] at hval
      · exact absurd (hcompute [1, 0, 0, 0] rfl) (hrigid.high hzero (hcompute [0, 0, 0, 1] rfl))
      · exact absurd (hcompute [0, 0, 0, 0, 1, 0, 0, 0] rfl)
          (hrigid.high hzero (hcompute [0, 0, 0, 0, 0, 0, 0, 1] rfl))
  rintro ⟨rfl, rfl, hends, hcompute⟩ header hlen
  have hdrop : (header.drop (headerSize - 2)).length = 2 := by
    rw [length_drop]
    omega
  have hlt := beVal_lt (header.drop (headerSize - 2))
  rw [hdrop] at hlt
  have hvalue : valueAt header offset (8 * 2) = beVal (header.drop (headerSize - 2)) := by
    rw [← beVal_valueAt (by omega) (by omega), show offset / 8 = headerSize - 2 by omega,
      take_of_length_le (by omega)]
  rw [hread header hlen, if_pos (by omega), hvalue, Endian.order, beVal_beBytes,
    Nat.mod_eq_of_lt hlt, hcompute _ hlt]

/-! ## The whole header -/

theorem IsLength.zeros (h : IsLength extract headerSize) :
    extract (replicate headerSize 0) = some 0 := by
  rw [h _ length_replicate, reverse_replicate, beVal_replicate_zero]
  rfl

theorem IsLength.whole (h : IsLength extract headerSize)
    (hread : ReadsField extract headerSize offset width e compute) (hpos : 0 < headerSize) :
    offset = 0 ∧ width = headerSize := by
  obtain ⟨size, rfl⟩ : ∃ size, headerSize = size + 1 := ⟨headerSize - 1, by omega⟩
  have hfirst : extract (128 :: replicate size 0) = some (128 : Int) := by
    rw [h _ (by simp), reverse_cons, reverse_replicate, beVal_append, beVal_replicate_zero]
    rfl
  have hlast : extract (replicate size 0 ++ [1]) = some ((2 ^ (8 * size) : Nat) : Int) := by
    rw [h _ (by simp), reverse_append, reverse_replicate, reverse_singleton,
      singleton_append, beVal_cons, beVal_replicate_zero, length_replicate]
    simp
  have hpow : 0 < 2 ^ (8 * size) := Nat.two_pow_pos _
  have hstarts := hread.starts (by omega) h.zeros hfirst (by decide)
  have hends := hread.ends (by omega) h.zeros hlast (by omega)
  omega

theorem isLength_iff (hread : ReadsField extract headerSize offset width e compute)
    (hwidth : width = 1 ∨ width = 2 ∨ width = 4 ∨ width = 8) (hrigid : Rigid compute)
    (htwo : 2 ≤ headerSize) :
    IsLength extract headerSize ↔ width = headerSize ∧ e = .little ∧ offset = 0
      ∧ ∀ v < 2 ^ (8 * width), compute v = some (v : Int) := by
  constructor
  · intro h
    obtain ⟨rfl, rfl⟩ := h.whole hread (by omega)
    have hcompute (word : List UInt8) (hword : word.length = width) :
        compute (beVal (e.order word)) = some (beVal word.reverse : Int) := by
      rw [← hread.whole word hword, h word hword]
    have hzero := hread.compute_zero h.zeros
    cases e with
    | big =>
      exfalso
      rcases hwidth with rfl | rfl | rfl | rfl
      · omega
      · have hbad := hrigid.top 1 (by decide) hzero (hcompute [1, 0] rfl) 1 (by decide) _
          (hcompute [0, 1] rfl)
        exact absurd hbad (by decide)
      · have hbad := hrigid.top 3 (by decide) hzero (hcompute [1, 0, 0, 0] rfl) 1
          (by decide) _ (hcompute [0, 0, 0, 1] rfl)
        exact absurd hbad (by decide)
      · have hbad := hrigid.top 7 (by decide) hzero (hcompute [1, 0, 0, 0, 0, 0, 0, 0] rfl)
          1 (by decide) _ (hcompute [0, 0, 0, 0, 0, 0, 0, 1] rfl)
        exact absurd hbad (by decide)
    | little =>
      refine ⟨rfl, rfl, rfl, ?_⟩
      intro v hv
      have hval := hcompute (beBytes width v).reverse (by rw [length_reverse, length_beBytes])
      rwa [Endian.order, reverse_reverse, beVal_beBytes, Nat.mod_eq_of_lt hv] at hval
  · rintro ⟨rfl, rfl, rfl, hcompute⟩ header hlen
    have hlt := beVal_lt header.reverse
    rw [length_reverse, hlen] at hlt
    rw [hread.whole header hlen, Endian.order, hcompute _ hlt]

end

end Conduit.Bindings

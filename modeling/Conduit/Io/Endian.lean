import Conduit.Bits.Words

/-!
# Byte order

`include/conduit/io/endian.hpp`. The fixed-width accessors `read_u16`, `read_u32`, `read_u48` and
`read_u64` differ only in their number of bytes.
-/

namespace Conduit.Io

open Bits

/-- Arithmetic on `size_t`. -/
def sizeT (n : Nat) : Nat := n % 2 ^ 64

/-- `endian.hpp:17-20`. -/
inductive Endian where
  | big
  | little
deriving DecidableEq

/-- The order in which the bytes of a word, given most significant first, are transmitted. -/
def Endian.order (e : Endian) (bytes : List UInt8) : List UInt8 :=
  match e with
  | .big => bytes
  | .little => bytes.reverse

@[simp] theorem length_order (e : Endian) (bytes : List UInt8) :
    (e.order bytes).length = bytes.length := by
  cases e <;> simp [Endian.order]

@[simp] theorem order_order (e : Endian) (bytes : List UInt8) :
    e.order (e.order bytes) = bytes := by
  cases e <;> simp [Endian.order]

/-- The `n` bytes a fixed-width write of `value` stores, in transmission order. -/
def wordBytes (n : Nat) (value : Nat) (e : Endian) : List UInt8 := e.order (beBytes n value)

@[simp] theorem length_wordBytes (n value : Nat) (e : Endian) :
    (wordBytes n value e).length = n := by
  simp [wordBytes]

theorem wordBytes_one (value : Nat) (e : Endian) :
    wordBytes 1 value e = wordBytes 1 value .big := by
  cases e <;> rfl

/-- `endian.hpp:63-112,243-261`: the `n`-byte word at `offset`, `0` when it is not in the
buffer. -/
def readWord (n : Nat) (data : List UInt8) (offset : Nat) (e : Endian) : Nat :=
  if offset + n > data.length then 0
  else beVal (e.order ((data.drop offset).take n))

end Conduit.Io

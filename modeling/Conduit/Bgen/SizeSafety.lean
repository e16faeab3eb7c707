import Conduit.Bgen.Accepted
import Conduit.Bgen.StructDecode
import Conduit.Io.ReaderSafety

/-!
# Lengths and counts that are negative

The value of a length or of a count is converted to `size_t`, so that a negative number becomes a
large one, which the reader adds to its position modulo `2 ^ 64`: `-k` bytes are refused only where
fewer than `k` bytes have been read.
-/

namespace Conduit.Bgen

open Io DecodeM BitReader

/-- The part of a generated decoder that uses the value of an expression as a size. -/
def SizeUse.step (use : SizeUse) (scope : ExprScope) (e : Expr) : DecodeM Unit :=
  match use with
  | .bytes call => sizedBytes call scope e >>= fun _ => pure ()
  | .count array => sizedCount array scope e >>= fun _ => pure ()
  | .fxCount => sizedFxCount scope e >>= fun _ => pure ()

/-- Where a number is refused: as a number of elements above `INT32_MAX`, as a number of bytes where
the sum with the position is past the end of the buffer and does not wrap around. A number of
elements in an FX block is not checked. -/
def SizeUse.RefusesNumber (use : SizeUse) (n : Nat) (r : BitReader) : Prop :=
  match use with
  | .bytes _ => r.data.length < r.nextByte + n ∧ r.nextByte + n < 2 ^ 64
  | .count _ => 2 ^ 31 - 1 < n
  | .fxCount => False

theorem takeBytes_error_iff (call : String) {n : Nat} (hn : n < 2 ^ 64) {r : BitReader}
    (hr : r.WF) : (∃ e, (takeBytes call n r).1 = .error (.error e))
      ↔ r.data.length < r.nextByte + n ∧ r.nextByte + n < 2 ^ 64 := by
  have hle := hr.nextByte_le
  have hsmall := hr.small
  have hwrap : r.data.length < sizeT (r.nextByte + n)
      ↔ r.data.length < r.nextByte + n ∧ r.nextByte + n < 2 ^ 64 := by
    unfold sizeT
    omega
  rw [← hwrap]
  simp only [takeBytes, hr.alignToByte_byte]
  split
  · next h => exact ⟨fun _ => h, fun _ => ⟨_, rfl⟩⟩
  next h =>
  refine ⟨?_, fun h' => absurd h' h⟩
  rintro ⟨e, he⟩
  split at he
  · cases he
  split at he <;> cases he

theorem evalSize_lt {scope : ExprScope} {e : Expr} {n : Nat} (h : evalSize scope e = .ok n) :
    n < 2 ^ 64 := by
  have hsize : ∀ v : CppValue, v.toSize < 2 ^ 64 := by
    intro v
    simp only [CppValue.toSize, CppValue.convert, CppValue.sizeType]
    simp
    omega
  unfold evalSize at h
  cases heval : evalExpr scope true e with
  | error st => simp [heval, bind, Except.bind] at h
  | ok v =>
    simp only [heval, bind, Except.bind] at h
    cases v <;> simp only [Operand.toSize, Except.ok.injEq, reduceCtorEq] at h <;>
      exact h ▸ hsize _

theorem read_fails_iff {α : Type} (m : ReadM α) (r : BitReader) (error : Error) :
    (DecodeM.read m r).result = .error (.fault (.error error))
      ↔ (m r).1 = .error (.error error) := by
  unfold DecodeM.read
  split <;> next h => simp [h]

theorem discard_fails_iff {α : Type} (m : DecodeM α) {r : BitReader} {stop : Stop} :
    ((m >>= fun _ => pure ()) r).result = .error stop ↔ (m r).result = .error stop := by
  cases hm : (m r).result with
  | ok a =>
    rw [bind_ok hm]
    simp
  | error e =>
    rw [bind_error hm]
    simp only [Except.error.injEq]

theorem step_fails_iff (use : SizeUse) {scope : ExprScope} {e : Expr} {n : Nat} {r : BitReader}
    (hr : r.WF) (hn : evalSize scope e = .ok n) :
    (∃ error, (use.step scope e r).result = .error (.fault (.error error)))
      ↔ use.RefusesNumber n r := by
  cases use with
  | bytes call =>
    rw [SizeUse.RefusesNumber, ← takeBytes_error_iff call (evalSize_lt hn) hr]
    simp only [SizeUse.step, discard_fails_iff]
    simp [sizedBytes, hn, read_fails_iff]
  | count array =>
    simp only [SizeUse.RefusesNumber, SizeUse.step, discard_fails_iff]
    simp only [sizedCount, hn, getReader_bind_run, record_bind_run, ofExcept_ok, pure_bind_run]
    split <;> simp_all
  | fxCount =>
    simp only [SizeUse.RefusesNumber, SizeUse.step, discard_fails_iff]
    simp only [sizedFxCount, hn, getReader_bind_run, record_bind_run, ofExcept_ok, pure_bind_run]
    split <;> simp

/-- Two bytes and as many bytes as the first is greater than the second. -/
def differenceProtocol : Protocol :=
  { name := "difference", version := "1"
    structs := [
      { attrs := { name := "Difference" }
        children := [
          .field { name := "a", bits := some 8 },
          .field { name := "b", bits := some 8 },
          .field { name := "rest", base := some .bytes
                   lengthFrom := some (.binary .sub (.fieldRef "a") (.fieldRef "b")) }] }] }

end Conduit.Bgen

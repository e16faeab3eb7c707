import Conduit.Io.Encodings

/-!
# Reading back what was written

A sequence of writer calls and the mirror sequence of reader calls. One call appends bits whose
specification as a read is the mirror call, and a run of calls is their concatenation, so a reader
over the finished buffer sees every written value again. Once a call has recorded an error, the
later writes, patches and alignments change neither the bytes nor the error.
-/

namespace Conduit.Io

open Bits BitReader BitWriter List

/-- The calls of a writer with their arguments as typed in `bit_writer.hpp:35-85`. -/
inductive WriterCall where
  | writeBits (value : UInt64) (count : Nat)
  | writeSignedBits (value : Int64) (count : Nat)
  | writeBcd (value : UInt64) (bits : Nat)
  | writeBcdSigned (value : Int64) (bits : Nat)
  | writeSignMagnitude (value : Int64) (bits : Nat)
  | writeU8 (value : UInt8)
  | writeU16 (value : UInt16) (e : Endian)
  | writeU32 (value : UInt32) (e : Endian)
  | writeU64 (value : UInt64) (e : Endian)
  | writeBytes (bytes : List UInt8)
  | writeString (str : List UInt8) (paddedLength : Nat) (padding : UInt8)
  | alignTo (byteBoundary : Nat)
deriving DecidableEq

/-- What a reader call returns. -/
inductive ReadValue where
  | uint (value : Nat)
  | int (value : Int)
  | bytes (bytes : List UInt8)
  | aligned
deriving DecidableEq

namespace WriterCall

variable {w : BitWriter}

/-- The call on a writer. -/
def run : WriterCall → BitWriter → BitWriter
  | writeBits value count, w => w.writeBits value.toNat count
  | writeSignedBits value count, w => w.writeSignedBits value.toInt count
  | writeBcd value bits, w => w.writeBcd value.toNat bits
  | writeBcdSigned value bits, w => w.writeBcdSigned value.toInt bits
  | writeSignMagnitude value bits, w => w.writeSignMagnitude value.toInt bits
  | writeU8 value, w => w.writeU8 value.toNat
  | writeU16 value e, w => w.writeU16 value.toNat e
  | writeU32 value e, w => w.writeU32 value.toNat e
  | writeU64 value e, w => w.writeU64 value.toNat e
  | writeBytes bytes, w => w.writeBytes bytes
  | writeString str paddedLength padding, w => (w.writeString str paddedLength padding).2
  | alignTo byteBoundary, w => w.alignTo byteBoundary

/-- The reader call that mirrors a writer call. -/
def mirror : WriterCall → ReadM ReadValue
  | writeBits _ count => do return .uint (← readBits count)
  | writeSignedBits _ count => do return .int (← readSignedBits count)
  | writeBcd _ bits => do return .uint (← readBcd bits)
  | writeBcdSigned _ bits => do return .int (← readBcdSigned bits)
  | writeSignMagnitude _ bits => do return .int (← readSignMagnitude bits)
  | writeU8 _ => do return .uint (← readU8)
  | writeU16 _ e => do return .uint (← readU16 e)
  | writeU32 _ e => do return .uint (← readU32 e)
  | writeU64 _ e => do return .uint (← readU64 e)
  | writeBytes bytes => do return .bytes (← readBytes bytes.length)
  | writeString _ paddedLength _ => do return .bytes (← readString paddedLength)
  | alignTo byteBoundary => do
    alignToM byteBoundary
    return .aligned

/-- What the mirror call is to return: the low bits of an unsigned value, the sign extension of
those of a signed one (its balanced residue), the written integer, the written bytes, and the
string cut or padded to its length. -/
def expected : WriterCall → ReadValue
  | writeBits value count => .uint (value.toNat % 2 ^ count)
  | writeSignedBits value count => .int (value.toInt.bmod (2 ^ count))
  | writeBcd value _ => .uint value.toNat
  | writeBcdSigned value _ => .int value.toInt
  | writeSignMagnitude value _ => .int value.toInt
  | writeU8 value => .uint value.toNat
  | writeU16 value _ => .uint value.toNat
  | writeU32 value _ => .uint value.toNat
  | writeU64 value _ => .uint value.toNat
  | writeBytes bytes => .bytes bytes
  | writeString str paddedLength padding =>
    .bytes (str.take paddedLength ++ replicate (paddedLength - str.length) padding)
  | alignTo _ => .aligned

/-- The calls the round trip is about: at most 64 bits at a time, and no decimal number of zero
digits. -/
def InScope : WriterCall → Prop
  | writeBits _ count => count ≤ 64
  | writeSignedBits _ count => count ≤ 64
  | writeBcd _ bits => bits ≠ 0
  | writeSignMagnitude _ bits => bits ≤ 64
  | _ => True

instance : DecidablePred InScope := fun c => by
  cases c <;> unfold InScope <;> infer_instance

/-- The calls in order. -/
def runAll (calls : List WriterCall) (w : BitWriter) : BitWriter :=
  calls.foldl (fun w c => c.run w) w

/-- The mirror calls in order. -/
def readAll : List WriterCall → ReadM (List ReadValue)
  | [] => pure []
  | c :: cs => do
    let value ← c.mirror
    let values ← readAll cs
    return value :: values

/-! ## One call -/

/-- A call on a writer with an error changes neither the bytes nor the error. -/
theorem run_of_error (c : WriterCall) (h : w.error.isSome) :
    (c.run w).data = w.data ∧ (c.run w).error = w.error := by
  have hfixed : ∀ (w : BitWriter) bytes, w.error.isSome → w.appendBytes bytes = w :=
    fun _ _ h => if_pos h
  cases c with
  | alignTo byteBoundary =>
    have hzero : BitWriter.writeU8 0 w.alignToByte = w.alignToByte :=
      hfixed _ _ (by rwa [error_alignToByte])
    simp only [run, BitWriter.alignTo, Function.iterate_fixed hzero, ite_self]
    split
    · exact ⟨rfl, rfl⟩
    · exact ⟨data_alignToByte w, error_alignToByte w⟩
  | _ =>
    simp [run, BitWriter.writeBits, BitWriter.writeSignedBits, BitWriter.writeBcd,
      BitWriter.writeBcdSigned, BitWriter.writeSignMagnitude, BitWriter.writeU8,
      BitWriter.writeU16, BitWriter.writeU32, BitWriter.writeU64, BitWriter.writeBytes,
      BitWriter.writeString, hfixed w _ h, h]

theorem error_of_run {c : WriterCall} (h : (c.run w).error = none) : w.error = none := by
  by_contra hsome
  exact hsome ((c.run_of_error (Option.isSome_iff_ne_none.mpr hsome)).2.symm.trans h)

theorem isInt64_toInt (value : Int64) : IsInt64 value.toInt :=
  ⟨Int64.le_toInt value, Int64.toInt_lt value⟩

theorem paddedString_eq (str : List UInt8) (paddedLength : Nat) (padding : UInt8) :
    paddedString str paddedLength padding
      = str.take paddedLength ++ replicate (paddedLength - str.length) padding := by
  unfold paddedString
  congr 2
  omega

theorem length_paddedString (str : List UInt8) (paddedLength : Nat) (padding : UInt8) :
    (paddedString str paddedLength padding).length = paddedLength := by
  simp [paddedString]
  omega

/-- A call appends bits whose meaning for a reader is the mirror call. -/
theorem run_spec {c : WriterCall} {bs : List Bool} (hw : w.Holds bs) (hscope : c.InScope)
    (hok : (c.run w).error = none) :
    ∃ out, (c.run w).Holds (bs ++ out) ∧ Reads c.mirror bs.length out c.expected := by
  have herr := error_of_run hok
  have hbytes (bytes : List UInt8) : (w.appendBytes bytes).Holds
      (bs ++ (bytePad bs.length ++ bytesBits bytes)) := by
    rw [← append_assoc]
    exact hw.appendBytes _ herr
  cases c with
  | writeBits value count =>
    exact ⟨_, hw.writeBits hok, (reads_readBits_msb _ value.toNat hscope).map _⟩
  | writeSignedBits value count =>
    simp only [run, BitWriter.writeSignedBits_eq herr] at hok ⊢
    refine ⟨_, hw.writeBits hok, ?_⟩
    have hread := (reads_readSignedBits bs.length (toUint64 value.toInt) hscope).map ReadValue.int
    rwa [toUint64_bmod _ hscope] at hread
  | writeBcd value bits =>
    obtain ⟨h4, h64, hfit, hout⟩ := hw.writeBcd herr hok
    obtain ⟨n, rfl⟩ : ∃ n, bits = 4 * n := ⟨bits / 4, by omega⟩
    have hn : n ≠ 0 := fun h0 => hscope (by omega)
    rw [show 4 * n / 4 = n by omega] at hfit hout
    exact ⟨_, hout, (reads_readBcd _ (by omega) (by omega) (hfit hscope)).map _⟩
  | writeBcdSigned value bits =>
    obtain ⟨n, rfl, h1, h15, hfit, hout⟩ := hw.writeBcdSigned (isInt64_toInt value) herr hok
    refine ⟨_, hout, ?_⟩
    have hread := (reads_readBcdSigned bs.length (decide (value.toInt < 0)) h1 h15
      hfit).map ReadValue.int
    rwa [natAbs_sign] at hread
  | writeSignMagnitude value bits =>
    obtain ⟨m, rfl, h1, hfit, hout⟩ := hw.writeSignMagnitude (isInt64_toInt value) herr hok
    have hm : m + 1 ≤ 64 := hscope
    refine ⟨_, hout, ?_⟩
    have hread := (reads_readSignMagnitude bs.length (decide (value.toInt < 0)) h1
      (by omega) hfit).map ReadValue.int
    rwa [natAbs_sign] at hread
  | writeU8 value =>
    refine ⟨_, ?_, (reads_readU8 bs.length value).map _⟩
    have hbyte : wordBytes 1 value.toNat .big = [value] := by
      simp [wordBytes, beBytes, Endian.order]
    simp only [run, BitWriter.writeU8, hbyte]
    exact hbytes [value]
  | writeU16 value e =>
    exact ⟨_, hbytes _, (reads_word "read_u16" bs.length e value.toNat_lt).map _⟩
  | writeU32 value e =>
    exact ⟨_, hbytes _, (reads_word "read_u32" bs.length e value.toNat_lt).map _⟩
  | writeU64 value e =>
    exact ⟨_, hbytes _, (reads_word "read_u64" bs.length e value.toNat_lt).map _⟩
  | writeBytes bytes =>
    exact ⟨_, hbytes bytes, (reads_takeBytes "read_bytes" bs.length bytes).map _⟩
  | writeString str paddedLength padding =>
    have hread := (reads_readString bs.length
      (BitWriter.paddedString str paddedLength padding)).map ReadValue.bytes
    rw [length_paddedString] at hread
    simp only [run, BitWriter.writeString, herr, expected, ← paddedString_eq]
    exact ⟨_, hbytes _, hread⟩
  | alignTo k =>
    by_cases hk : k = 0
    · subst hk
      refine ⟨[], by simpa [run, BitWriter.alignTo] using hw, ?_⟩
      exact (reads_alignToM_zero bs.length).map fun _ => ReadValue.aligned
    · refine ⟨_, ?_, (reads_alignToM bs.length hk).map fun _ => ReadValue.aligned⟩
      rw [← append_assoc]
      exact hw.alignTo herr hk

/-! ## A run of calls -/

theorem error_of_runAll {calls : List WriterCall} (h : (runAll calls w).error = none) :
    w.error = none := by
  induction calls generalizing w with
  | nil => exact h
  | cons c cs ih => exact error_of_run (ih h)

/-- A run of calls appends bits whose meaning for a reader is the run of the mirror calls. -/
theorem runAll_spec {calls : List WriterCall} {bs : List Bool} (hw : w.Holds bs)
    (hscope : ∀ c ∈ calls, c.InScope) (hok : (runAll calls w).error = none) :
    ∃ out, (runAll calls w).Holds (bs ++ out)
      ∧ Reads (readAll calls) bs.length out (calls.map expected) := by
  induction calls generalizing w bs with
  | nil => exact ⟨[], by simpa [runAll] using hw, reads_ret _ _⟩
  | cons c cs ih =>
    have hrun : (runAll cs (c.run w)).error = none := hok
    obtain ⟨out, hout, hread⟩ := run_spec hw (hscope c mem_cons_self) (error_of_runAll hrun)
    obtain ⟨rest, hrest, hreads⟩ := ih hout (fun d hd => hscope d (mem_cons_of_mem _ hd)) hrun
    refine ⟨out ++ rest, by rwa [← append_assoc], ?_⟩
    rw [length_append] at hreads
    exact hread.andThen (hreads.map fun values => c.expected :: values)

/-- An error-free run finishes with a buffer over which a reader performs the mirror calls with
the expected results, and what it leaves unread is the zero padding of the last byte. -/
theorem readAll_finish (calls : List WriterCall) (hscope : ∀ c ∈ calls, c.InScope)
    (hok : (runAll calls {}).error = none) :
    ∃ bytes, (runAll calls {}).finish.1 = .ok bytes ∧ (bytes.length < 2 ^ 61 →
      ∃ r, readAll calls { data := bytes } = (.ok (calls.map expected), r)
        ∧ r.remainingBits < 8 ∧ ∀ bit ∈ (bytesBits bytes).drop r.position, bit = false) := by
  obtain ⟨out, hout, hreads⟩ := runAll_spec holds_empty hscope hok
  rw [nil_append] at hout
  obtain ⟨bytes, hfinish, hbits⟩ := hout.finish hok
  refine ⟨bytes, hfinish, fun hsize => ?_⟩
  have hwf := wf_start hsize
  have hrun := hreads { data := bytes } hwf rfl (by simp [hbits])
  have hlen := congrArg length hbits
  rw [length_bytesBits, length_append, length_bytePad] at hlen
  refine ⟨_, hrun, ?_, ?_⟩
  · rw [(hwf.seek (by simp; omega)).remainingBits_eq, position_seek, data_seek, length_nil]
    simp only at hlen ⊢
    omega
  intro bit hbit
  rw [position_seek, hbits, length_nil, Nat.zero_add,
    drop_append_of_le_length (Nat.le_refl _), drop_length, nil_append] at hbit
  exact eq_of_mem_replicate hbit

/-- A run over aligned and unaligned positions. -/
theorem readAll_finish_mixed :
    ∃ bytes, (runAll [.writeBits 5 3, .writeSignedBits (-2) 7, .writeU16 0x1234 .little,
          .writeBcd 42 8, .alignTo 4] {}).finish.1 = .ok bytes
      ∧ (bytes.length < 2 ^ 61 →
        ∃ r, readAll [.writeBits 5 3, .writeSignedBits (-2) 7, .writeU16 0x1234 .little,
              .writeBcd 42 8, .alignTo 4] { data := bytes }
            = (.ok [.uint 5, .int (-2), .uint 0x1234, .uint 42, .aligned], r)
          ∧ r.remainingBits < 8 ∧ ∀ bit ∈ (bytesBits bytes).drop r.position, bit = false) :=
  readAll_finish [.writeBits 5 3, .writeSignedBits (-2) 7, .writeU16 0x1234 .little,
    .writeBcd 42 8, .alignTo 4] (by decide) (by decide)

theorem runAll_long (n : Nat) : runAll [.writeBits 1 1, .writeString [] n 0] {}
      = { data := 0x80 :: replicate n 0, bitPos := 8 + n * 8 } := by
  have hfirst : run (.writeBits 1 1) {} = { data := [0x80], bitPos := 1 } := by decide
  simp only [runAll, foldl_cons, foldl_nil, hfirst]
  simp [run, BitWriter.writeString, BitWriter.appendBytes, BitWriter.alignToByte,
    BitWriter.advance, BitWriter.paddedString]

theorem readAll_long {n : Nat} (hn : n + 1 = 2 ^ 61) :
    (readAll [.writeBits 1 1, .writeString [] n 0] { data := 0x80 :: replicate n 0 }).1
      = .error (.error ⟨.bufferUnderrun, "read_bits: need 1 bits, only 0 remain"⟩) := by
  have hmirror : mirror (.writeBits 1 1) { data := 0x80 :: replicate n 0 }
      = (.error (.error ⟨.bufferUnderrun, "read_bits: need 1 bits, only 0 remain"⟩),
        { data := 0x80 :: replicate n 0 }) :=
    ReadM.bind_error (readBits_long hn)
  rw [readAll, ReadM.bind_error hmirror]

/-- A decimal number of zero digits is accepted whatever its value and reads back as zero; and in
a buffer of `2 ^ 61` bytes not even the first bit can be read. -/
theorem readAll_finish_fails :
    ((runAll [.writeBcd 5 0] {}).error = none ∧ (runAll [.writeBcd 5 0] {}).finish.1 = .ok []
      ∧ (readAll [.writeBcd 5 0] { data := [] }).1 = .ok [.uint 0]
      ∧ expected (.writeBcd 5 0) = .uint 5)
    ∧ (∃ n, n + 1 = 2 ^ 61 ∧ (runAll [.writeBits 1 1, .writeString [] n 0] {}).error = none
      ∧ (runAll [.writeBits 1 1, .writeString [] n 0] {}).finish.1 = .ok (0x80 :: replicate n 0)
      ∧ (readAll [.writeBits 1 1, .writeString [] n 0] { data := 0x80 :: replicate n 0 }).1
          = .error (.error ⟨.bufferUnderrun, "read_bits: need 1 bits, only 0 remain"⟩)) := by
  refine ⟨by decide, ?_⟩
  obtain ⟨n, hn⟩ : ∃ n, n + 1 = 2 ^ 61 := ⟨2 ^ 61 - 1, by norm_num⟩
  refine ⟨n, hn, by rw [runAll_long], ?_, readAll_long hn⟩
  rw [runAll_long]
  simp [BitWriter.finish, BitWriter.alignToByte]

end WriterCall

/-! ## The first error -/

/-- The calls of `bit_writer.hpp:35-114` that can change a writer. The floating-point writes are
among the word and byte writes. -/
inductive WriterOp where
  | write (call : WriterCall)
  | alignToByte
  | patchU8 (byteOffset : UInt64) (value : UInt8)
  | patchU16 (byteOffset : UInt64) (value : UInt16) (e : Endian)
  | patchU32 (byteOffset : UInt64) (value : UInt32) (e : Endian)
  | finish
  | clear
  | clearError
deriving DecidableEq

namespace WriterOp

variable {w w' : BitWriter} {op : WriterOp} {ops : List WriterOp} {error : Error}

/-- The call on a writer; `clear` is `bit_writer.cpp:399-403`. -/
def run : WriterOp → BitWriter → Except Fault BitWriter
  | write call, w => .ok (call.run w)
  | alignToByte, w => .ok w.alignToByte
  | patchU8 byteOffset value, w => return (← w.patchU8 byteOffset.toNat value.toNat).2
  | patchU16 byteOffset value e, w => return (← w.patchU16 byteOffset.toNat value.toNat e).2
  | patchU32 byteOffset value e, w => return (← w.patchU32 byteOffset.toNat value.toNat e).2
  | finish, w => .ok w.finish.2
  | clear, _ => .ok {}
  | clearError, w => .ok { w with error := none }

/-- The writes, patches and alignments. -/
def Writes (op : WriterOp) : Prop := op ≠ finish ∧ op ≠ clear ∧ op ≠ clearError

instance : DecidablePred Writes := fun _ => inferInstanceAs (Decidable (_ ∧ _))

/-- Adding the width of the word to the offset of a patch does not wrap around. -/
def NoWrap : WriterOp → Prop
  | patchU16 byteOffset _ _ => byteOffset.toNat + 2 < 2 ^ 64
  | patchU32 byteOffset _ _ => byteOffset.toNat + 4 < 2 ^ 64
  | _ => True

/-- The calls in order, up to one that writes outside the buffer. -/
def runAll (ops : List WriterOp) (w : BitWriter) : Except Fault BitWriter :=
  ops.foldlM (fun w op => op.run w) w

theorem runAll_cons (op : WriterOp) (ops : List WriterOp) (w : BitWriter) :
    runAll (op :: ops) w = op.run w >>= runAll ops :=
  foldlM_cons

theorem runAll_append (before ops : List WriterOp) (w : BitWriter) :
    runAll (before ++ ops) w = runAll before w >>= runAll ops :=
  foldlM_append

theorem runAll_cons_ok (h : op.run w = .ok w') : runAll (op :: ops) w = runAll ops w' := by
  rw [runAll_cons, h]
  rfl

theorem runAll_append_ok {before : List WriterOp} (h : runAll before w = .ok w') :
    runAll (before ++ ops) w = runAll ops w' := by
  rw [runAll_append, h]
  rfl

theorem runAll_append_eq_ok {before : List WriterOp} {w'' : BitWriter}
    (h : runAll (before ++ ops) w = .ok w'') :
    ∃ w', runAll before w = .ok w' ∧ runAll ops w' = .ok w'' := by
  rw [runAll_append] at h
  cases hrun : runAll before w with
  | error e => simp [hrun, bind, Except.bind] at h
  | ok w' => exact ⟨w', rfl, by simpa [hrun, bind, Except.bind] using h⟩

/-- The call records an error: there was none before. -/
def Records (op : WriterOp) (w : BitWriter) (error : Error) : Prop :=
  w.error = none ∧ ∃ w', op.run w = .ok w' ∧ w'.error = some error

/-- The writer was just constructed, cleared or finished. -/
def Restarts (ops : List WriterOp) : Prop :=
  ops = [] ∨ ∃ before, ops = before ++ [clear] ∨ ops = before ++ [finish]

theorem Restarts.runAll_eq (h : Restarts ops) (hrun : runAll ops {} = .ok w) : w = {} := by
  obtain rfl | ⟨before, rfl | rfl⟩ := h
  · cases hrun
    rfl
  · obtain ⟨w', -, hlast⟩ := runAll_append_eq_ok hrun
    cases hlast
    rfl
  obtain ⟨w', -, hlast⟩ := runAll_append_eq_ok hrun
  cases hlast
  simp only [BitWriter.finish]
  split <;> rfl

/-- After an error a call changes neither the bytes nor the error. -/
theorem run_of_error (hop : op.Writes) (h : w.error = some error) :
    ∃ w', op.run w = .ok w' ∧ w'.data = w.data ∧ w'.error = some error := by
  cases op with
  | write call =>
    obtain ⟨hdata, herror⟩ := call.run_of_error (w := w) (by simp [h])
    exact ⟨_, rfl, hdata, herror.trans h⟩
  | alignToByte => exact ⟨_, rfl, data_alignToByte w, (error_alignToByte w).trans h⟩
  | patchU8 | patchU16 | patchU32 =>
    refine ⟨w, ?_, rfl, h⟩
    simp [run, BitWriter.patchU8, BitWriter.patchU16, BitWriter.patchU32, patchWord, h]
  | finish | clear | clearError => simp [Writes] at hop

theorem runAll_of_error (hops : ∀ op ∈ ops, op.Writes) (h : w.error = some error) :
    ∃ w', runAll ops w = .ok w' ∧ w'.data = w.data ∧ w'.error = some error := by
  induction ops generalizing w with
  | nil => exact ⟨w, rfl, rfl, h⟩
  | cons op ops ih =>
    rw [forall_mem_cons] at hops
    obtain ⟨w₁, hrun, hdata, herror⟩ := run_of_error hops.1 h
    obtain ⟨w₂, hrun', hdata', herror'⟩ := ih hops.2 herror
    exact ⟨w₂, (runAll_cons_ok hrun).trans hrun', hdata'.trans hdata, herror'⟩

/-- A run from a writer without an error ends with the error that one of its calls recorded. -/
theorem error_runAll_iff (hops : ∀ op ∈ ops, op.Writes) (h : w.error = none)
    (hrun : runAll ops w = .ok w') : w'.error = some error ↔
      ∃ before op after v, ops = before ++ op :: after ∧ runAll before w = .ok v
        ∧ op.Records v error := by
  constructor
  · intro hend
    induction ops generalizing w with
    | nil =>
      cases hrun
      exact absurd (h.symm.trans hend) (by simp)
    | cons op ops ih =>
      rw [forall_mem_cons] at hops
      obtain ⟨w₁, hfirst, hrest⟩ := runAll_append_eq_ok (show runAll ([op] ++ ops) w = _ from hrun)
      have hop : op.run w = .ok w₁ := by
        cases hop : op.run w with
        | error e => simp [runAll, hop, bind, Except.bind] at hfirst
        | ok w₂ => simpa [runAll, hop, bind, Except.bind, pure, Except.pure] using hfirst
      rcases herror : w₁.error with _ | first
      · obtain ⟨before, o, after, v, rfl, hbefore, hrec⟩ := ih hops.2 herror hrest
        exact ⟨op :: before, o, after, v, rfl, (runAll_cons_ok hop).trans hbefore, hrec⟩
      obtain ⟨w₂, hkept, -, herror'⟩ := runAll_of_error hops.2 herror
      cases hkept.symm.trans hrest
      cases herror'.symm.trans hend
      exact ⟨[], op, ops, w, rfl, rfl, h, w₁, hop, herror⟩
  · rintro ⟨before, op, after, v, rfl, hbefore, -, v', hop, herror⟩
    rw [runAll_append_ok hbefore, runAll_cons_ok hop] at hrun
    have hafter : ∀ o ∈ after, o.Writes := fun o ho => hops o (by simp [ho])
    obtain ⟨w₂, hkept, -, herror'⟩ := runAll_of_error hafter herror
    cases hkept.symm.trans hrun
    exact herror'

/-- A patch whose offset does not wrap around stays inside the buffer. -/
theorem run_of_noWrap (h : op.NoWrap) (w : BitWriter) : ∃ w', op.run w = .ok w' := by
  have hpatch : ∀ (name : String) (n offset value : Nat) (e : Endian), offset + n < 2 ^ 64 →
      ∃ result, w.patchWord name n offset value e = .ok result := by
    intro name n offset value e hwrap
    have hsize : sizeT (offset + n) = offset + n := Nat.mod_eq_of_lt hwrap
    unfold patchWord
    rw [hsize]
    split
    · exact ⟨_, rfl⟩
    split <;> exact ⟨_, rfl⟩
  cases op with
  | patchU8 byteOffset value =>
    simp only [run, BitWriter.patchU8]
    split
    · exact ⟨_, rfl⟩
    split <;> exact ⟨_, rfl⟩
  | patchU16 byteOffset value e =>
    obtain ⟨result, hresult⟩ := hpatch "patch_u16" 2 byteOffset.toNat value.toNat e h
    exact ⟨result.2, by simp only [run, BitWriter.patchU16, hresult]; rfl⟩
  | patchU32 byteOffset value e =>
    obtain ⟨result, hresult⟩ := hpatch "patch_u32" 4 byteOffset.toNat value.toNat e h
    exact ⟨result.2, by simp only [run, BitWriter.patchU32, hresult]; rfl⟩
  | write | alignToByte | finish | clear | clearError => exact ⟨_, rfl⟩

theorem runAll_of_noWrap (h : ∀ op ∈ ops, op.NoWrap) (w : BitWriter) :
    ∃ w', runAll ops w = .ok w' := by
  induction ops generalizing w with
  | nil => exact ⟨w, rfl⟩
  | cons op ops ih =>
    rw [forall_mem_cons] at h
    obtain ⟨w₁, hrun⟩ := run_of_noWrap h.1 w
    rw [runAll_cons_ok hrun]
    exact ih h.2 w₁

/-- Calls whose patches do not wrap around never write outside the buffer. After a call has recorded
an error, the bytes and the error stay as they are until `finish`, `clear` or `clear_error`. Without
`clear_error`, `finish` returns the error that was recorded since the start of the run, the last
`clear` or the last `finish`, and the bytes if there was none. -/
theorem first_error_kept :
    (∀ ops, (∀ op ∈ ops, op.NoWrap) → ∃ w, runAll ops {} = .ok w)
    ∧ (∀ before op after w w' error, runAll before {} = .ok w → w.error = none →
      op.run w = .ok w' → w'.error = some error → (∀ o ∈ after, o.Writes) →
      ∃ w'', runAll (before ++ op :: after) {} = .ok w'' ∧ w''.data = w'.data
        ∧ w''.error = some error)
    ∧ ∀ start ops w, Restarts start → (∀ op ∈ ops, op.Writes) → runAll (start ++ ops) {} = .ok w →
      (∀ error, w.finish.1 = .error error ↔
        ∃ before op after v, ops = before ++ op :: after
          ∧ runAll (start ++ before) {} = .ok v ∧ op.Records v error)
      ∧ ((∃ bytes, w.finish.1 = .ok bytes) ↔
        ¬∃ error before op after v, ops = before ++ op :: after
          ∧ runAll (start ++ before) {} = .ok v ∧ op.Records v error) := by
  refine ⟨fun ops h => runAll_of_noWrap h {}, ?_, ?_⟩
  · intro before op after w w' error hbefore _ hop herror hafter
    rw [runAll_append_ok hbefore, runAll_cons_ok hop]
    exact runAll_of_error hafter herror
  intro start ops w hstart hops hrun
  obtain ⟨v, hv, hrun⟩ := runAll_append_eq_ok hrun
  obtain rfl := hstart.runAll_eq hv
  simp only [runAll_append_ok hv, ← error_runAll_iff hops rfl hrun]
  unfold BitWriter.finish
  rcases w.error with _ | error
  · simp
  · simp

/-- A patch out of range, then a write and an alignment. -/
theorem first_error_kept_patch : ∃ w,
    runAll [write (.writeU8 7), patchU8 1 0, write (.writeU8 8), alignToByte] {} = .ok w
      ∧ w.data = [7]
      ∧ w.error = some ⟨.bufferOverrun, "patch_u8: byte_offset 1 out of range [0, 1)"⟩ :=
  first_error_kept.2.1 [write (.writeU8 7)] (patchU8 1 0) [write (.writeU8 8), alignToByte]
    { data := [7], bitPos := 8 } { data := [7], bitPos := 8, error := _ } _ (by rfl) rfl (by rfl)
    rfl (by decide)

/-- The last offset of `size_t` passes the check of `patch_u16`, no error is recorded, and the first
of the two bytes is written outside the buffer. -/
theorem first_error_kept_fails :
    runAll [write (.writeU8 7), patchU16 0xFFFFFFFFFFFFFFFF 0 .big] {} = .error .outOfBounds := by
  decide

end WriterOp

end Conduit.Io

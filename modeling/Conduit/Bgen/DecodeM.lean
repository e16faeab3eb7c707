import Conduit.Bgen.Session
import Conduit.Bgen.StructExpr

/-!
# Running a generated decoder

A generated `decode` reads from a bit reader, evaluates expressions over the members it has decoded
so far, and runs loops over the elements of arrays. A run gives a value or the reason why there is
none, and leaves a reader behind. It also leaves a log: every expression that was evaluated, with
everything that its value depends on, every turn of a loop that goes on to the end of the input, and
every call of the `decode` of a named class with the calls it is made from.

A loop whose number of turns is not known beforehand is given a number of turns, and stops with
`Stop.running` when they are used up.
-/

namespace Conduit.Bgen

open Io

/-- What the value of a length or of a count is used for. -/
inductive SizeUse where
  | bytes (call : String)
  | count (array : String)
  | fxCount

/-- One entry of the log. -/
inductive DecodeEvent where
  | condition (scope : ExprScope) (e : Expr)
  | size (use : SizeUse) (scope : ExprScope) (e : Expr) (reader : BitReader)
  | switch (scope : ExprScope) (e : Expr)
  | argument (scope : ExprScope) (name : String)
  | length (member : CppValue) (m : ArithModifier)
  | turn (before after : BitReader)
  | call (stack : List (String × BitReader)) (name : String) (reader : BitReader)

/-- The member that a reference names, through its accessors. An optional one is dereferenced. -/
def refValue (scope : ExprScope) (name : String) : Except Stop Value :=
  match pathSegments name with
  | [] => .error .uncompiled
  | first :: rest =>
    match scope.outer.lookup first, scope.members.lookup first with
    | some v, _ => callAccessors v rest
    | none, some v => callAccessors v rest
    | none, none =>
      if first ∈ scope.optional then .error (.undefined .absentOptional) else .error .uncompiled

/-- The value of a member as the operand of a `switch`. -/
def Value.switchNumber : Value → Except Stop CppValue
  | .number v => .ok v
  | .enumerator v => .ok v
  | _ => .error .uncompiled

/-- What a run leaves behind. -/
structure Outcome (α : Type) where
  result : Except Stop α
  reader : BitReader
  log : List DecodeEvent := []

/-- The end of a run that a computation stands for. -/
def stopOf {α : Type} : Except Stop α → Option Stop
  | .ok _ => none
  | .error e => some e

theorem stopOf_eq_some {α : Type} {x : Except Stop α} {e : Stop} :
    stopOf x = some e ↔ x = .error e := by
  cases x <;> simp [stopOf]

/-- A part of a generated decoder. -/
def DecodeM (α : Type) : Type := BitReader → Outcome α

namespace DecodeM

variable {α β : Type}

def ret (a : α) : DecodeM α := fun r => ⟨.ok a, r, []⟩

def andThen (m : DecodeM α) (f : α → DecodeM β) : DecodeM β := fun r =>
  match (m r).result with
  | .ok a =>
    let o := f a (m r).reader
    ⟨o.result, o.reader, (m r).log ++ o.log⟩
  | .error e => ⟨.error e, (m r).reader, (m r).log⟩

instance : Monad DecodeM where
  pure := ret
  bind := andThen

@[simp] theorem pure_run (a : α) (r : BitReader) : (pure a : DecodeM α) r = ⟨.ok a, r, []⟩ := rfl

@[simp] theorem pure_bind_run (a : α) (f : α → DecodeM β) (r : BitReader) :
    (pure a >>= f) r = f a r :=
  rfl

section

variable {m : DecodeM α} {f : α → DecodeM β} {r : BitReader}

theorem bind_ok {a : α} (h : (m r).result = .ok a) :
    (m >>= f) r = ⟨(f a (m r).reader).result, (f a (m r).reader).reader,
      (m r).log ++ (f a (m r).reader).log⟩ := by
  show andThen m f r = _
  simp only [andThen, h]

theorem bind_error {e : Stop}
    (h : (m r).result = .error e) : (m >>= f) r = ⟨.error e, (m r).reader, (m r).log⟩ := by
  show andThen m f r = _
  simp only [andThen, h]

end

/-- The run ends here. -/
def stop (e : Stop) : DecodeM α := fun r => ⟨.error e, r, []⟩

/-- `return std::unexpected(conduit::Error(code, message));`. -/
def fail (code : ErrorCode) (message : String) : DecodeM α := stop (.fault (.error ⟨code, message⟩))

def ofExcept : Except Stop α → DecodeM α
  | .ok a => ret a
  | .error e => stop e

/-- An initial value. If it has none the class does not compile. -/
def ofFresh : Except Stop α → DecodeM α
  | .ok a => ret a
  | .error _ => stop .uncompiled

/-- A call on the reader. -/
def read (m : ReadM α) : DecodeM α := fun r =>
  match m r with
  | (.ok a, r') => ⟨.ok a, r', []⟩
  | (.error e, r') => ⟨.error (.fault e), r', []⟩

def getReader : DecodeM BitReader := fun r => ⟨.ok r, r, []⟩

def setReader (r : BitReader) : DecodeM Unit := fun _ => ⟨.ok (), r, []⟩

def record (event : DecodeEvent) : DecodeM Unit := fun r => ⟨.ok (), r, [event]⟩

/-- Decoding from another reader, which is returned. -/
def onReader (sub : BitReader) (m : DecodeM α) : DecodeM (α × BitReader) := fun r =>
  ⟨(m sub).result.map fun a => (a, (m sub).reader), r, (m sub).log⟩

section

variable (f : BitReader → DecodeM β) (g : Unit → DecodeM β) (h : α → DecodeM β) (r : BitReader)

@[simp] theorem getReader_bind_run : (getReader >>= f) r = f r r := rfl

@[simp] theorem record_bind_run (event : DecodeEvent) :
    (record event >>= g) r = ⟨(g () r).result, (g () r).reader, event :: (g () r).log⟩ :=
  rfl

@[simp] theorem stop_run (e : Stop) : (stop e : DecodeM α) r = ⟨.error e, r, []⟩ := rfl

@[simp] theorem stop_bind_run (e : Stop) : ((stop e : DecodeM α) >>= h) r = ⟨.error e, r, []⟩ := rfl

@[simp] theorem fail_run (code : ErrorCode) (message : String) :
    (fail code message : DecodeM α) r = ⟨.error (.fault (.error ⟨code, message⟩)), r, []⟩ :=
  rfl

@[simp] theorem ofExcept_ok (a : α) : ofExcept (.ok a) = (pure a : DecodeM α) := rfl

@[simp] theorem ofExcept_error (e : Stop) : ofExcept (.error e) = (stop e : DecodeM α) := rfl

theorem read_ok {m : ReadM α} {r r' : BitReader} {a : α} (h : m r = (.ok a, r')) :
    read m r = ⟨.ok a, r', []⟩ := by
  simp only [read, h]

theorem read_error {m : ReadM α} {r r' : BitReader} {e : Fault} (h : m r = (.error e, r')) :
    read m r = ⟨.error (.fault e), r', []⟩ := by
  simp only [read, h]

theorem read_bind (m : ReadM α) (f : α → ReadM β) :
    read (m >>= f) = read m >>= fun a => read (f a) := by
  funext r
  rcases hm : m r with ⟨e | a, r'⟩
  · rw [read_error (ReadM.bind_error hm), bind_error (e := .fault e) (by rw [read_error hm]),
      read_error hm]
  rw [bind_ok (a := a) (by rw [read_ok hm]), read_ok hm, List.nil_append]
  unfold read
  rw [ReadM.bind_ok hm]

theorem read_ite {c : Prop} [Decidable c] (m m' : ReadM α) :
    read (if c then m else m') = if c then read m else read m' := by
  split <;> rfl

end

variable (scope : ExprScope)

/-- Taking bytes, a step before they are looked at, and decoding from a reader of them. -/
def bounded {γ : Type} (take : DecodeM (List UInt8)) (before : DecodeM γ) (body : γ → DecodeM α) :
    DecodeM (α × BitReader) := do
  let bytes ← take
  let c ← before
  onReader { data := bytes } (body c)

/-- Decoding from a reader of the next `n` bytes. Where `r.sub_reader(n)` fails, which is not an
error of the caller, the same reader is used. -/
def orSubReader (n : Nat) (m : DecodeM α) : DecodeM α := fun r =>
  match BitReader.subReader n r with
  | (.ok sub, r') => ⟨(m sub).result, r', (m sub).log⟩
  | (.error (.error _), r') => m r'
  | (.error .outOfBounds, r') => ⟨.error (.fault .outOfBounds), r', []⟩

/-- `r.align_to(boundary);`. -/
def align (boundary : Nat) : DecodeM Unit := do
  let r ← getReader
  setReader (r.alignTo (sizeT boundary))

/-! ## Expressions -/

/-- The test of an `if` around a child. -/
def condition (e : Expr) : DecodeM Bool := do
  record (.condition scope e)
  ofExcept (evalCondition scope e)

/-- The value of a `switch` expression. A member that stands alone is not promoted, and an optional
one is dereferenced. -/
def switchValue : Expr → Except Stop CppValue
  | .fieldRef name => refValue scope name >>= Value.switchNumber
  | .constantRef name =>
    match (scope.index.constant? name).bind (constantValue scope.index) with
    | some v => .ok v
    | none => .error .uncompiled
  | e => do
    match ← evalExpr scope false e with
    | .number v => return v
    | .enumerator v => return v
    | .optional _ => throw .uncompiled

def switch (e : Expr) : DecodeM CppValue := do
  record (.switch scope e)
  ofExcept (switchValue scope e)

/-- A member that is handed to the decoder of a nested class. -/
def argument (name : String) : DecodeM Value := do
  record (.argument scope name)
  ofExcept (refValue scope name)

/-- `reverse_arith` (`cpp_structs_helpers.cpp:502-507`) on the member of a length field, as an
`int64_t`. -/
def lengthTotal (member : CppValue) (m : ArithModifier) : Except Stop Int :=
  let op : Option BinaryOp :=
    match inverseOp m.op with
    | .none => none
    | .add => some .add
    | .sub => some .sub
    | .mul => some .mul
    | .div => some .div
    | .mod => some .mod
  match op with
  | none => .ok (CppValue.convert ⟨64, true⟩ member.value).value
  | some op => do
    match ← numberBinary op member.promote (CppValue.literal m.literal) with
    | .number v => return (CppValue.convert ⟨64, true⟩ v.value).value
    | _ => throw .uncompiled

def length (member : CppValue) (m : ArithModifier) : DecodeM Int := do
  record (.length member m)
  ofExcept (lengthTotal member m)

/-- `static_cast<size_t>(expr)`, then a call that takes as many bytes. -/
def sizedBytes (call : String) (scope : ExprScope) (e : Expr) : DecodeM (List UInt8) := do
  let r ← getReader
  record (.size (.bytes call) scope e r)
  let n ← ofExcept (evalSize scope e)
  read (BitReader.takeBytes call n)

/-- `static_cast<size_t>(expr)` as a number of elements, at most `INT32_MAX`. -/
def sizedCount (array : String) (scope : ExprScope) (e : Expr) : DecodeM Nat := do
  let r ← getReader
  record (.size (.count array) scope e r)
  let n ← ofExcept (evalSize scope e)
  if n > 2 ^ 31 - 1 then
    fail .invalidArgument s!"decode {array}: decoded count {n} exceeds INT32_MAX"
  else return n

/-- `static_cast<size_t>(expr)` as a number of elements in an FX block: `reserve` throws for more
elements than any `std::vector` can have. -/
def sizedFxCount (e : Expr) : DecodeM Nat := do
  let r ← getReader
  record (.size .fxCount scope e r)
  let n ← ofExcept (evalSize scope e)
  if n ≥ 2 ^ 63 then stop .threw else return n

/-! ## Loops -/

/-- `for (size_t i = 0; i < count; i++)`. -/
def times (m : DecodeM α) : Nat → DecodeM (List α)
  | 0 => return []
  | count + 1 => do
    let a ← m
    let rest ← times m count
    return a :: rest

/-- A loop that ends where the reader is found at its goal. -/
def repeatUntil (done : BitReader → Bool) (m : DecodeM α) : Nat → DecodeM (List α)
  | 0 => do
    let before ← getReader
    if done before then return [] else stop .running
  | turns + 1 => do
    let before ← getReader
    if done before then return []
    else
      let a ← m
      let after ← getReader
      record (.turn before after)
      let rest ← repeatUntil done m turns
      return a :: rest

/-- `while (!r.at_end())`. -/
def untilEnd (m : DecodeM α) : Nat → DecodeM (List α) := repeatUntil BitReader.atEnd m

/-- The loop over the elements of a `count="fx"` array, each followed by a bit that tells whether
another one comes. -/
def whileFlag (m : DecodeM α) : Nat → DecodeM (List α)
  | 0 => stop .running
  | turns + 1 => do
    let a ← m
    let flag ← read (BitReader.readBits 1)
    if flag = 0 then return [a]
    else
      let rest ← whileFlag m turns
      return a :: rest

end DecodeM

end Conduit.Bgen

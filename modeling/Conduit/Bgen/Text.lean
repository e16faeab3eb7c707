import Mathlib.Tactic.Ring

/-!
# Names and literals

The parts of `codegen/name_utils.hpp` and `analyzer/parse_utils.hpp` that read the texts of a
protocol definition, `is_valid_numeric_literal` of `analyzer/validator.cpp`, and the number that a
literal copied into generated code denotes to the C++ compiler. Characters outside ASCII belong to
none of the classes tested here, as in the C locale.
-/

namespace Conduit.Bgen

/-! ## Names -/

variable (name s : String) (base : Nat)

/-- `name_utils.hpp:20-27`; `to_cpp_type_name` and `to_enum_value_name` are the same function. -/
def toSnakeCase : String := String.ofList (name.toList.map fun c => if c = '-' then '_' else c)

/-- `name_utils.hpp:151-173`. -/
def cppKeywords : List String :=
  ["alignas", "alignof", "and", "and_eq", "asm", "auto", "bitand",
   "bitor", "bool", "break", "case", "catch", "char", "char8_t",
   "char16_t", "char32_t", "class", "compl", "concept", "const",
   "consteval", "constexpr", "constinit", "const_cast", "continue",
   "co_await", "co_return", "co_yield", "decltype", "default",
   "delete", "do", "double", "dynamic_cast", "else", "enum",
   "explicit", "export", "extern", "false", "float", "for",
   "friend", "goto", "if", "inline", "int", "long", "mutable",
   "namespace", "new", "noexcept", "not", "not_eq", "nullptr",
   "operator", "or", "or_eq", "private", "protected", "public",
   "register", "reinterpret_cast", "requires", "return", "short",
   "signed", "sizeof", "static", "static_assert", "static_cast",
   "struct", "switch", "template", "this", "thread_local", "throw",
   "true", "try", "typedef", "typeid", "typename", "union",
   "unsigned", "using", "virtual", "void", "volatile", "wchar_t",
   "while", "xor", "xor_eq"]

def isCppKeyword : Bool := cppKeywords.contains name

def isIdentifierChar (c : Char) : Bool := c.isAlphanum || c == '_'

/-- `name_utils.hpp:177-188`. -/
def isValidCppIdentifier : Bool :=
  match name.toList with
  | [] => false
  | c :: cs => !c.isDigit && !(c == '_' && cs.head? == some '_') && (c :: cs).all isIdentifierChar

/-! ## Literals -/

/-- The digit a character denotes in a base of at most 16. -/
def digitValue (c : Char) : Option Nat :=
  let d :=
    if c.isDigit then c.toNat - '0'.toNat
    else if 'a' ≤ c ∧ c ≤ 'f' then c.toNat - 'a'.toNat + 10
    else if 'A' ≤ c ∧ c ≤ 'F' then c.toNat - 'A'.toNat + 10
    else base
  if d < base then some d else none

/-- The number a non-empty string of digits denotes. -/
def parseDigits : List Char → Option Nat
  | [] => none
  | cs => cs.foldlM (fun acc c => (digitValue base c).map (base * acc + ·)) 0

/-- `std::from_chars` into an `int64_t`, where the whole text has to be consumed: an optional
minus sign, then digits. -/
def fromChars : List Char → Option Int
  | '-' :: cs => do
    let n ← parseDigits base cs
    if n ≤ 2 ^ 63 then some (-n) else none
  | cs => do
    let n ← parseDigits base cs
    if n < 2 ^ 63 then some n else none

/-- The test for `0x` followed by something. -/
def isHexText : List Char → Bool
  | '0' :: x :: _ :: _ => x == 'x' || x == 'X'
  | _ => false

/-- A text without its first sign, and whether there was one. -/
def splitSign : List Char → Bool × List Char
  | '-' :: cs => (true, cs)
  | cs => (false, cs)

/-- As `splitSign`, where a plus sign is a sign too. -/
def splitAnySign : List Char → Bool × List Char
  | '+' :: cs => (false, cs)
  | cs => splitSign cs

/-- `parse_utils.hpp:16-31`. The negation is that of an `int64_t`. -/
def parseLiteral : Option Int := do
  if s.toList.isEmpty then none
  else
    let (negate, cs) := splitSign s.toList
    let val ← if isHexText cs then fromChars 16 (cs.drop 2) else fromChars 10 cs
    return if negate then (-val).bmod (2 ^ 64) else val

/-- `validator.cpp:41-56`. -/
def isValidNumericLiteral : Bool :=
  let cs := (splitSign s.toList).2
  if isHexText cs then (cs.drop 2).all fun c => (digitValue 16 c).isSome
  else !cs.isEmpty && cs.all Char.isDigit

/-- `std::isspace`. -/
def isSpace (c : Char) : Bool := c == ' ' || 9 ≤ c.toNat && c.toNat ≤ 13

/-- The base that `strtoull` with base 0 takes from the beginning of a text, and where the digits
start. After `0x` a digit has to follow. -/
def digitsBase (cs : List Char) : Nat × List Char :=
  if isHexText cs && ((cs.drop 2).head?.bind (digitValue 16)).isSome then (16, cs.drop 2)
  else if cs.head? == some '0' then (8, cs)
  else (10, cs)

/-- What `strtoull` and `strtoll` with base 0 read: white space, a sign, and as many digits as
there are. The rest of the text is not looked at. -/
def leadingNumber : Option (Bool × Nat) :=
  let (negate, cs) := splitAnySign (s.toList.dropWhile isSpace)
  let (base, digits) := digitsBase cs
  (parseDigits base (digits.takeWhile fun c => (digitValue base c).isSome)).map (negate, ·)

/-- `std::stoull(s, nullptr, 0)`: a negative number is taken modulo `2 ^ 64`. -/
def stoull : Option Nat := do
  let (negate, n) ← leadingNumber s
  if n < 2 ^ 64 then some (if negate then (2 ^ 64 - n) % 2 ^ 64 else n) else none

/-- `std::stoll(s, nullptr, 0)`. -/
def stoll : Option Int := do
  let (negate, n) ← leadingNumber s
  let v : Int := if negate then -n else n
  if -2 ^ 63 ≤ v ∧ v < 2 ^ 63 then some v else none

/-- The number a literal denotes in C++ source: hexadecimal after `0x`, octal after another
leading zero, decimal otherwise, with an optional minus sign in front. The text is no literal if a
digit does not belong to its base or the number does not fit in 64 bits. -/
def cppLiteral : Option Int := do
  let (negate, cs) := splitSign s.toList
  let n ←
    if isHexText cs then parseDigits 16 (cs.drop 2)
    else if cs.head? == some '0' then parseDigits 8 cs
    else parseDigits 10 cs
  if n < 2 ^ 64 then some (if negate then -n else n) else none

end Conduit.Bgen

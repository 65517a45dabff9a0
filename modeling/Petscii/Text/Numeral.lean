import Petscii.Text.Quoted
/-!
# Numerals

Writing: decimal numbers as they are, and numbers padded with zeros to four digits in base ten or
sixteen. Reading: unsigned numerals with an optional radix mark, signed numerals, and addresses.

Without a given radix a numeral is decimal, unless it starts with `0`: then `0b`, `0o` and `0x` (in
either case, with a digit after them) announce base 2, 8 and 16, and a bare `0` announces base 8. Such
a numeral may have single underscores between digits, where a radix mark counts as a digit. A numeral
is read from the left, and the first digit that makes it too large ends the reading.
-/

namespace Petscii.Numeral

/-- A number in upper-case digits of a base, with zeros in front up to four places. -/
def padded (base n : Nat) : String :=
  String.ofList (((Nat.toDigits base n).map Char.toUpper).leftpad 4 '0')

/-- A 16-bit address: a dollar sign and at least four hexadecimal digits. -/
def address (a : UInt16) : String :=
  "$" ++ padded 16 a.toNat

inductive Fault where
  | malformed
  | outOfRange
  deriving DecidableEq, Repr

/-- The value of a letter or digit: `a` and `A` are ten. -/
def digitValue (c : Char) : Option Nat :=
  if '0' ≤ c ∧ c ≤ '9' then some (c.toNat - '0'.toNat)
  else if 'a' ≤ c ∧ c ≤ 'z' then some (c.toNat - 'a'.toNat + 10)
  else if 'A' ≤ c ∧ c ≤ 'Z' then some (c.toNat - 'A'.toNat + 10)
  else none

/-- The value of the digits after a part already worth `n`, at most `max`. Underscores are passed over
where they are `allowed`. -/
def value (base max : Nat) (allowed : Bool) (n : Nat) : List Char → Except Fault Nat
  | [] => .ok n
  | c :: rest =>
    if c = '_' ∧ allowed then value base max allowed n rest
    else match digitValue c with
      | none => .error .malformed
      | some d =>
        if base ≤ d then .error .malformed
        else if max < n * base + d then .error .outOfRange
        else value base max allowed (n * base + d) rest

/-- Whether each underscore stands between two digits, the last character before being a digit or
not. -/
def separated (afterDigit : Bool) : List Char → Bool
  | [] => true
  | ['_'] => false
  | '_' :: rest => afterDigit && separated false rest
  | _ :: rest => separated true rest

/-- The base that the start of a numeral announces, the digits after the mark, and whether the mark
counts as a digit before them. -/
def radix (digits : List Char) : Nat × List Char × Bool :=
  match digits with
  | '0' :: mark :: d :: rest =>
    if mark.toLower = 'b' then (2, d :: rest, true)
    else if mark.toLower = 'o' then (8, d :: rest, true)
    else if mark.toLower = 'x' then (16, d :: rest, true)
    else (8, mark :: d :: rest, true)
  | '0' :: rest => (8, rest, true)
  | _ => (10, digits, false)

/-- An unsigned numeral that announces its own base, at most `max`. -/
def unsigned (max : Nat) (digits : List Char) : Except Fault Nat :=
  if digits = [] then .error .malformed
  else
    let (base, body, marked) := radix digits
    match value base max true 0 body with
    | .error fault => .error fault
    | .ok n => if separated marked body then .ok n else .error .malformed

/-- A signed 64-bit numeral that announces its own base. The digits are read as a 64-bit number first,
and only then is the sign taken into account. -/
def signed (text : String) : Except Fault Int := do
  let (negative, digits) :=
    match text.toList with
    | '-' :: digits => (true, digits)
    | '+' :: digits => (false, digits)
    | digits => (false, digits)
  let n ← unsigned 0xFFFFFFFFFFFFFFFF digits
  if negative then
    if n ≤ 0x8000000000000000 then .ok (-(n : Int)) else .error .outOfRange
  else
    if n < 0x8000000000000000 then .ok n else .error .outOfRange

/-- A text that gives no 16-bit number: the digits that were read, and what is wrong with them. -/
structure Error where
  digits : String
  fault : Fault
  deriving DecidableEq, Repr

def Error.message (e : Error) : String :=
  "strconv.ParseUint: parsing " ++ Quoted.text e.digits ++
    match e.fault with
    | .malformed => ": invalid syntax"
    | .outOfRange => ": value out of range"

/-- A 16-bit number: hexadecimal digits after a dollar sign, or a numeral that announces its own
base. -/
def readAddress (text : String) : Except Error UInt16 :=
  match text.toList with
  | '$' :: digits =>
    if digits = [] then .error ⟨"", .malformed⟩
    else match value 16 0xFFFF false 0 digits with
      | .error fault => .error ⟨String.ofList digits, fault⟩
      | .ok n => .ok n.toUInt16
  | digits =>
    match unsigned 0xFFFF digits with
    | .error fault => .error ⟨text, fault⟩
    | .ok n => .ok n.toUInt16

end Petscii.Numeral

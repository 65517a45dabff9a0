import Petscii.Text.Utf8
/-!
# UTF-16 texts

Two bytes make a code unit, in either byte order, and a unit outside the surrogates is a character.
A surrogate joins the unit after it when that one is a low surrogate: a high and a low one give the
character they encode, two low ones give one U+FFFD. Any other surrogate, and a byte left over at the
end, gives U+FFFD by itself.
-/

namespace Petscii.Utf16

inductive ByteOrder where
  | little
  | big

def ByteOrder.unit (order : ByteOrder) (a b : UInt8) : Nat :=
  match order with
  | .little => a.toNat + 256 * b.toNat
  | .big => 256 * a.toNat + b.toNat

/-- The code units of a byte list, last first, after the ones in `acc`, and whether a byte is left. -/
def units (order : ByteOrder) (acc : List Nat) : Bytes → List Nat × Bool
  | [] => (acc, false)
  | [_] => (acc, true)
  | a :: b :: rest => units order (order.unit a b :: acc) rest

def IsSurrogate (u : Nat) : Prop := 0xD800 ≤ u ∧ u ≤ 0xDFFF

def IsLowSurrogate (u : Nat) : Prop := 0xDC00 ≤ u ∧ u ≤ 0xDFFF

instance (u : Nat) : Decidable (IsSurrogate u) := inferInstanceAs (Decidable (_ ∧ _))

instance (u : Nat) : Decidable (IsLowSurrogate u) := inferInstanceAs (Decidable (_ ∧ _))

def replacement : Char := Char.ofNat 0xFFFD

/-- The character of a surrogate `u` before a low surrogate `v`. -/
def pair (u v : Nat) : Char :=
  if IsLowSurrogate u then replacement
  else Char.ofNat (0x10000 + (u - 0xD800) * 0x400 + (v - 0xDC00))

/-- The characters of a list of code units, last first, after the ones in `acc`. -/
def characters (acc : List Char) : List Nat → List Char
  | [] => acc
  | [u] => (if IsSurrogate u then replacement else Char.ofNat u) :: acc
  | u :: v :: rest =>
    if IsSurrogate u then
      if IsLowSurrogate v then characters (pair u v :: acc) rest
      else characters (replacement :: acc) (v :: rest)
    else characters (Char.ofNat u :: acc) (v :: rest)

/-- The characters of a UTF-16 text without byte order mark. -/
def decode (order : ByteOrder) (bytes : Bytes) : List Char :=
  let (us, odd) := units order [] bytes
  let read := characters [] us.reverse
  (if odd then replacement :: read else read).reverse

end Petscii.Utf16

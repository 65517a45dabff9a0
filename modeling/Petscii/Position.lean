/-!
# Positions

Positions of cells, and the sizes and sums they come from, are signed 64-bit integers. Arithmetic on them
wraps around, so a product far outside the range may still lead to a cell. Anything that fits into 64 bits
is left as it is.
-/

namespace Petscii

/-- The number of 64-bit integers. -/
def wordCount : Nat := 0x10000000000000000

/-- The 64-bit integer that an integer wraps around to. -/
def wrap (x : Int) : Int :=
  Int.bmod x wordCount

theorem wrap_eq_self {x : Int} (lower : -0x8000000000000000 ≤ x) (upper : x < 0x8000000000000000) :
    wrap x = x := by
  apply Int.bmod_eq_of_le <;> simp only [wordCount] <;> omega

end Petscii

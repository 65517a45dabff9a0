/-!
# The text screen and the machine around it

A text screen has 25 rows of 40 cells. Generated code reaches it through a `Target`: the symbol of the
screen memory, which the surrounding program supplies, the address of the colour memory and of the two
colour registers, and the name under which generated labels are filed.
-/

namespace Petscii

namespace Screen

def width : Nat := 40

def height : Nat := 25

def cells : Nat := width * height

/-- Values in front of the two planes: border and background. -/
def headerSize : Nat := 2

end Screen

/-- Where generated code writes. -/
structure Target where
  /-- Imported symbol of the screen memory. -/
  screen : String := "ANIMATIONSCREEN"
  colorRam : UInt16 := 0xD800
  borderRegister : UInt16 := 0xD020
  backgroundRegister : UInt16 := 0xD021
  /-- First part of every label of a compiled program. -/
  name : String := "petscii"
  deriving DecidableEq, Repr

end Petscii

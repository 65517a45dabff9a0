import Petscii.Position
import Petscii.Screen
import Petscii.Text.Utf8
/-!
# Frames

A frame is one screen: the border and background colour, a plane of character codes and a plane of
colour codes, both row by row. `Frame.ofPayload` cuts the flat list of values found in a source text
into a frame and `Frame.payload` puts it back together.

Values are 64-bit integers. A frame's image keeps the low eight bits of each. `Frame.xor` combines two
frames value by value, so a value of the result is zero exactly where the two agree.
-/

namespace Petscii

/-- One value of a frame: a character code, a colour code or a register. -/
abbrev Cell := Int64

/-- The byte that stands for a value in memory and in files: its low eight bits. -/
def Cell.byte (c : Cell) : UInt8 :=
  c.toUInt64.toUInt8

def Cell.text (c : Cell) : String :=
  Int.repr c.toInt

/-- The two planes of a frame. A plane of any other number reads the characters. -/
inductive Plane where
  | chars
  | colors
  | other (number : Int)
  deriving DecidableEq, Repr

def Plane.text : Plane → String
  | .chars => "chars"
  | .colors => "colors"
  | .other number => "Plane(" ++ Int.repr number ++ ")"

structure Frame where
  name : String
  border : Cell
  background : Cell
  width : Int
  height : Int
  chars : List Cell
  colors : List Cell
  deriving DecidableEq, Repr

namespace Frame

structure Size where
  name : String
  width : Int
  height : Int
  deriving DecidableEq, Repr

def Size.text (s : Size) : String :=
  s.name ++ " (" ++ Int.repr s.width ++ "x" ++ Int.repr s.height ++ ")"

def size (f : Frame) : Size :=
  ⟨f.name, f.width, f.height⟩

/-- What two frames of different size were needed for. -/
inductive Pairing where
  | combined
  | compared
  deriving DecidableEq, Repr

def Pairing.sign : Pairing → String
  | .combined => "^"
  | .compared => "vs"

inductive Error where
  | shortPayload (name : String) (values : Nat)
  | oddCells (name : String) (values : Nat)
  | cellCount (name : String) (cells : Nat)
  | rowRange (row height : Int)
  | sizesDiffer (pairing : Pairing) (a b : Size)
  /-- The cells `first .. last` are not all there. -/
  | missingCells (name : String) (plane : Plane) (first last : Int)
  /-- The two scans of a row disagree on whether it changed. -/
  | oneSided (prev next : String) (row : Nat)
  deriving DecidableEq, Repr

def Error.message : Error → String
  | .shortPayload name values =>
    s!"frame {name}: payload shorter than the border/background header ({values} values)"
  | .oddCells name values => s!"frame {name}: odd number of cells ({values} data values)"
  | .cellCount name cells =>
    s!"frame {name}: cell count does not match screen size (got {cells}, want {Screen.cells})"
  | .rowRange row height => s!"row >= height: row {row} of {height}"
  | .sizesDiffer pairing a b => s!"frame sizes differ: {a.text} {pairing.sign} {b.text}"
  | .missingCells name plane first last =>
    s!"frame {name}: no cells {first}..{last} in {plane.text}"
  | .oneSided prev next row => s!"compare {prev}/{next} row {row}: one-sided mismatch"

/-- The frame of a flat list of values: border, background, characters, colours. -/
def ofPayload (name : String) : List Cell → Except Error Frame
  | border :: background :: cells =>
    if cells.length % 2 = 1 then .error (.oddCells name cells.length)
    else if cells.length / 2 ≠ Screen.cells then .error (.cellCount name (cells.length / 2))
    else .ok {
      name, border, background
      width := Screen.width
      height := Screen.height
      chars := cells.take Screen.cells
      colors := cells.drop Screen.cells }
  | values => .error (.shortPayload name values.length)

def payload (f : Frame) : List Cell :=
  f.border :: f.background :: (f.chars ++ f.colors)

/-- The image of a frame in memory and in files. -/
def bytes (f : Frame) : Bytes :=
  f.payload.map Cell.byte

def plane (f : Frame) : Plane → List Cell
  | .colors => f.colors
  | _ => f.chars

/-- The cells `first .. last` of a plane. -/
def slice (f : Frame) (p : Plane) (first last : Int) : Except Error (List Cell) :=
  if 0 ≤ first ∧ first ≤ last + 1 ∧ last + 1 ≤ (f.plane p).length then
    .ok (((f.plane p).drop first.toNat).take (last + 1 - first).toNat)
  else .error (.missingCells f.name p first last)

def rowStart (f : Frame) (r : Int) : Int :=
  wrap (r * f.width)

def row (f : Frame) (p : Plane) (r : Int) : Except Error (List Cell) :=
  if r < 0 ∨ f.height ≤ r then .error (.rowRange r f.height)
  else f.slice p (f.rowStart r) (wrap (f.rowStart r + f.width) - 1)

def rows (f : Frame) (p : Plane) : Except Error (List (List Cell)) :=
  (List.range f.height.toNat).mapM fun (r : Nat) => f.row p r

/-- Two frames combined value by value, under the name of the first. Colours beyond the last character
are zero in the result. -/
def xor (a b : Frame) : Except Error Frame :=
  if a.width ≠ b.width ∨ a.height ≠ b.height ∨ a.chars.length ≠ b.chars.length ∨
      a.colors.length ≠ b.colors.length then
    .error (.sizesDiffer .combined a.size b.size)
  else if a.colors.length < a.chars.length then
    .error (.missingCells a.name .colors a.colors.length (a.chars.length - 1))
  else .ok {
    name := a.name
    border := a.border ^^^ b.border
    background := a.background ^^^ b.background
    width := a.width
    height := a.height
    chars := List.zipWith (· ^^^ ·) a.chars b.chars
    colors := List.zipWith (· ^^^ ·) (a.colors.take a.chars.length) (b.colors.take a.chars.length) ++
      List.replicate (a.colors.length - a.chars.length) 0 }

end Frame

end Petscii

import Petscii.Frame.Basic
/-!
# Changed columns, row by row

`Frame.changedRows` compares the characters of two frames of one size and gives, for each row, the
leftmost and the rightmost column in which they differ. Colours are not looked at.
-/

namespace Petscii

/-- The columns from the first to the last that changed in a row. -/
structure Columns where
  first : Nat
  last : Nat
  deriving DecidableEq, Repr

def Columns.single (c : Columns) : Bool :=
  c.first == c.last

def Columns.text (c : Columns) : String :=
  Nat.repr c.first ++ ".." ++ Nat.repr c.last

def Columns.rowText : Option Columns → String
  | none => "-"
  | some c => c.text

namespace Frame

/-- The columns at which a scan of two rows from both ends has found them to differ. -/
structure Scan where
  left : Option Nat := none
  right : Option Nat := none

/-- Look at a column, unless one was found before. -/
def Scan.look (a b : List Cell) (found : Option Nat) (c : Nat) : Option Nat :=
  if found = none ∧ a[c]? ≠ b[c]? then some c else found

/-- In round `x` the scan looks at the column `x` from the left and the one `x` from the right. -/
def Scan.step (width : Nat) (a b : List Cell) (s : Scan) (x : Nat) : Scan :=
  ⟨look a b s.left x, look a b s.right (width - x - 1)⟩

def Scan.rounds (width : Nat) (a b : List Cell) (n : Nat) : Scan :=
  (List.range n).foldl (step width a b) {}

def changedRow (prev next : Frame) (r : Nat) : Except Error (Option Columns) := do
  let p ← prev.row .chars r
  let n ← next.row .chars r
  let found := Scan.rounds prev.width.toNat p n prev.width.toNat
  match found.left, found.right with
  | none, none => .ok none
  | some first, some last => .ok (some ⟨first, last⟩)
  | _, _ => .error (.oneSided prev.name next.name r)

def changedRows (prev next : Frame) : Except Error (List (Option Columns)) :=
  if prev.width ≠ next.width ∨ prev.height ≠ next.height then
    .error (.sizesDiffer .compared prev.size next.size)
  else (List.range prev.height.toNat).mapM (changedRow prev next)

end Frame

end Petscii

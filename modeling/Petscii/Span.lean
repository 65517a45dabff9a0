import Petscii.Frame.Basic
/-!
# Spans of cells

A span is an inclusive range of cell positions. `Span.changed` finds the maximal spans of non-zero
values of a plane, and `Span.split` cuts spans into pieces of a bounded length, which is what an
eight-bit index register can walk.
-/

namespace Petscii

structure Span where
  first : Int
  last : Int
  deriving DecidableEq, Repr

namespace Span

def length (s : Span) : Int :=
  wrap (s.last - s.first + 1)

def text (s : Span) : String :=
  "[" ++ Int.repr s.first ++ "," ++ Int.repr s.last ++ "]"

/-- The smallest span that holds both. -/
def hull (a b : Span) : Span :=
  ⟨min a.first b.first, max a.last b.last⟩

/-- The number of values other than zero that a list begins with. -/
def runLength : List Cell → Nat
  | [] => 0
  | c :: rest => if c = 0 then 0 else runLength rest + 1

/-- Walk from the left over a list that starts at position `i`. At a value other than zero the walk runs on to
the last such value and then goes on behind it: `skip` values were passed in that way. -/
def scan (i : Int) : Nat → List Cell → List Span
  | _, [] => []
  | skip + 1, _ :: rest => scan (i + 1) skip rest
  | 0, c :: rest =>
    if c = 0 then scan (i + 1) 0 rest
    else ⟨i, i + runLength rest⟩ :: scan (i + 1) (runLength rest) rest

/-- The maximal spans of non-zero values of a list, in ascending order. -/
def changed (values : List Cell) : List Span :=
  scan 0 0 values

/-- Consecutive pieces of at most `limit` cells from `first` up to `last`, at most `rounds` of them. -/
def pieces (limit last : Int) : Nat → Int → List Span
  | 0, _ => []
  | rounds + 1, first =>
    if first ≤ last then
      ⟨first, min (wrap (first + limit - 1)) last⟩ :: pieces limit last rounds (wrap (first + limit))
    else []

/-- Every span cut into consecutive pieces of at most `limit` cells. A walk over positions that takes more
steps than there are positions never ends. -/
def split (limit : Int) (spans : List Span) : List Span :=
  spans.flatMap fun s => pieces limit s.last wordCount s.first

end Span

end Petscii

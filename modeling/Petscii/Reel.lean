import Petscii.Frame.Basic
/-!
# Reels

A reel holds the frames of one animation in playback order, with the size of the canvas if the source
declared one. `Reel.select` keeps a piece of it: the tail is cut first and the head after that, so both
bounds count frames from the start of the reel as it was.
-/

namespace Petscii

structure Reel where
  frames : List Frame := []
  /-- The declared canvas width, or -1. -/
  canvasWidth : Int := -1
  /-- The declared canvas height, or -1. -/
  canvasHeight : Int := -1
  deriving DecidableEq, Repr

namespace Reel

def hasCanvas (r : Reel) : Bool :=
  0 ≤ r.canvasWidth && 0 ≤ r.canvasHeight

inductive Bound where
  | first
  | last
  deriving DecidableEq, Repr

def Bound.text : Bound → String
  | .first => "first"
  | .last => "last"

/-- A selection outside a reel: the bound, the frame asked for and how many frames there are. -/
structure RangeError where
  bound : Bound
  frame : Int
  available : Nat
  deriving DecidableEq, Repr

def RangeError.message (e : RangeError) : String :=
  s!"frame index out of range: {e.bound.text} frame {e.frame}, only {e.available} frames available"

/-- The reel without the frames after `last`; all of it when `last` is negative. -/
def keepUpTo (last : Int) (r : Reel) : Except RangeError Reel :=
  if last < 0 then .ok r
  else if r.frames.length ≤ last then .error ⟨.last, last, r.frames.length⟩
  else .ok { r with frames := r.frames.take (last.toNat + 1) }

/-- The reel without the frames before `first`; all of it when `first` is negative. -/
def keepFrom (first : Int) (r : Reel) : Except RangeError Reel :=
  if first < 0 then .ok r
  else if r.frames.length ≤ first then .error ⟨.first, first, r.frames.length⟩
  else .ok { r with frames := r.frames.drop first.toNat }

/-- Keep the frames `first .. last`. The reel is returned beside an error too: when only the head is
out of range, its tail has already been cut. -/
def select (first last : Int) (r : Reel) : Reel × Except RangeError Unit :=
  match r.keepUpTo last with
  | .error e => (r, .error e)
  | .ok shorter =>
    match shorter.keepFrom first with
    | .error e => (shorter, .error e)
    | .ok kept => (kept, .ok ())

end Reel

end Petscii

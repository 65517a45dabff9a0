import Petscii.Text.Utf8
/-!
# Sinks and feeds

A sink takes bytes until it is full: of data that does not fit it takes the part that does, and reports
that it is full. A feed gives bytes and then either ends or breaks off.
-/

namespace Petscii.Stream

inductive Error where
  | sinkFull
  | feedBroke
  /-- A reason that only a machine gives. -/
  | other (reason : String)
  deriving DecidableEq, Repr

def Error.message : Error → String
  | .sinkFull => "sink full"
  | .feedBroke => "source broke"
  | .other reason => reason

structure Delivery where
  taken : Bytes
  outcome : Except Error Unit

/-- Write data to a sink that has room for `room` bytes, or for any number. -/
def deliver (room : Option Nat) (data : Bytes) : Delivery :=
  match room with
  | none => ⟨data, .ok ()⟩
  | some n =>
    if data.length ≤ n then ⟨data, .ok ()⟩ else ⟨data.take n, .error .sinkFull⟩

/-- Bytes to be read, and whether reading them ends in a failure. -/
structure Feed where
  bytes : Bytes
  breaks : Bool := false

def Feed.readAll (f : Feed) : Except Error Bytes :=
  if f.breaks then .error .feedBroke else .ok f.bytes

end Petscii.Stream

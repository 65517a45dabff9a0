import Petscii.Span
/-!
# Runs

A run is a span on one of the planes. The runs of both planes are walked in order of their first cell,
and `Run.schedule` decides how each is written to the screen: a run of one cell by a store, a longer one
by a loop. A loop also takes along the runs right behind its own that start or end on the same cell,
one for each further plane.
-/

namespace Petscii

structure Run where
  span : Span
  plane : Plane
  deriving DecidableEq, Repr

namespace Run

/-- The spans of the two planes in order of their first cell, characters first where two start
together. -/
def merge (chars colors : List Span) : List Run :=
  List.merge (chars.map fun s => ⟨s, .chars⟩) (colors.map fun s => ⟨s, .colors⟩)
    fun a b => a.span.first ≤ b.span.first

/-- How many of the runs behind `anchor` ride in its loop: as long as each starts or ends where the
anchor does and its plane is not among `planes`, those already in the loop. -/
def riders (anchor : Run) (planes : List Plane) : List Run → Nat
  | [] => 0
  | r :: rest =>
    if r.plane ∈ planes ∨ (r.span.first ≠ anchor.span.first ∧ r.span.last ≠ anchor.span.last) then 0
    else riders anchor (r.plane :: planes) rest + 1

/-- How many runs of a list share the loop of its first one, that one included. -/
def shared : List Run → Nat
  | [] => 0
  | anchor :: rest => riders anchor [anchor.plane] rest + 1

inductive Step where
  | store (run : Run)
  | loop (anchor : Run) (riders : List Run)
  deriving DecidableEq, Repr

def Step.runs : Step → List Run
  | .store r => [r]
  | .loop anchor riders => anchor :: riders

/-- The cells that a loop walks: the hull of its runs. -/
def Step.span : Step → Span
  | .store r => r.span
  | .loop anchor riders => riders.foldl (fun s r => s.hull r.span) anchor.span

/-- The steps for a list of runs whose first `taken` ride in an earlier loop. -/
def scheduleFrom : Nat → List Run → List Step
  | _, [] => []
  | taken + 1, _ :: rest => scheduleFrom taken rest
  | 0, r :: rest =>
    if r.span.length = 1 then .store r :: scheduleFrom 0 rest
    else
      let n := riders r [r.plane] rest
      .loop r (rest.take n) :: scheduleFrom n rest

def schedule (runs : List Run) : List Step :=
  scheduleFrom 0 runs

end Run

end Petscii

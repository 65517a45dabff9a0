import Petscii.Asm.Line
import Petscii.Run
import Petscii.Stream
/-!
# Blocks of a compiled program

A compiled program carries its own data. The cells that change are written by the steps of a schedule: a
store takes its value as an operand, and a loop counts X down over the hull of its runs, copying one table
for each run. A table holds the next frame's values over the whole hull, so that cells of the hull outside
a run are written with the value they are to have anyway.

A block is the code and the data of one or more steps, with the number of labels they use.
-/

namespace Petscii.Program

open Asm

structure Stats where
  transitions : Nat := 0
  directStores : Nat := 0
  loops : Nat := 0
  /-- Runs that ride in another run's loop. -/
  foldedRuns : Nat := 0
  dataBytes : Nat := 0
  deriving DecidableEq, Repr

def Stats.add (a b : Stats) : Stats where
  transitions := a.transitions + b.transitions
  directStores := a.directStores + b.directStores
  loops := a.loops + b.loops
  foldedRuns := a.foldedRuns + b.foldedRuns
  dataBytes := a.dataBytes + b.dataBytes

inductive Error where
  | tooFewFrames (count : Nat)
  | frames (cause : Frame.Error)
  | transition (prev next : Nat) (cause : Error)
  | loopTooLong (span : Span)
  | finished
  | stream (e : Stream.Error)
  deriving DecidableEq, Repr

def Error.message : Error → String
  | .tooFewFrames count => s!"compiled mode needs at least 2 frames, got {count}: not enough frames"
  | .frames cause => cause.message
  | .transition prev next cause => s!"transition {prev}->{next}: " ++ cause.message
  | .loopTooLong span => "loop longer than the index register allows: " ++ span.text
  | .finished => "program generator already finished"
  | .stream e => e.message

structure Block where
  code : List Line := []
  data : List Line := []
  labels : Nat := 0
  stats : Stats := {}

def Block.append (a b : Block) : Block where
  code := a.code ++ b.code
  data := a.data ++ b.data
  labels := a.labels + b.labels
  stats := a.stats.add b.stats

/-- The longest loop: X counts from 255 down to 1. -/
def maxLoop : Int := 255

def label (target : Target) (n : Nat) : String :=
  target.name ++ "_label" ++ Numeral.padded 16 n

def destination (target : Target) : Plane → Atom
  | .colors => .address target.colorRam
  | _ => .symbol target.screen

def storeBlock (target : Target) (next : Frame) (run : Run) : Except Error Block :=
  match next.slice run.plane run.span.first run.span.first with
  | .ok [value] => .ok {
      code := [
        .instruction (.ldaImmediate value.toInt),
        .instruction (.sta ⟨destination target run.plane, [.plus (.number run.span.first)]⟩)]
      stats := { directStores := 1 } }
  | .ok _ => .error (.frames (.missingCells next.name run.plane run.span.first run.span.first))
  | .error e => .error (.frames e)

def tableLines (name : String) (values : List Cell) : List Line :=
  .blank :: .label name :: table values

/-- The instructions that copy one cell of a table, X counting from 1. -/
def copyLines (target : Target) (first : Int) (name : String) (plane : Plane) : List Line :=
  [.instruction (.ldaIndexed ⟨.symbol name, [.minus (.number 1)]⟩),
    .instruction (.staIndexed
      ⟨destination target plane, [.plus (.number first), .minus (.number 1)]⟩)]

/-- Write the runs of a loop. The labels from number `labels` on are free: one for each table, and one for
the loop. -/
def loopBlock (target : Target) (next : Frame) (labels : Nat) (span : Span) (runs : List Run) :
    Except Error Block :=
  if maxLoop < span.length then .error (.loopTooLong span)
  else
    match runs.mapM fun r => next.slice r.plane span.first span.last with
    | .error e => .error (.frames e)
    | .ok tables =>
      let names := (List.range runs.length).map fun k => label target (labels + k)
      let loop := label target (labels + runs.length)
      .ok {
        code :=
          [.instruction (.ldx span.length), .label loop] ++
          (names.zip runs).flatMap (fun (name, r) => copyLines target span.first name r.plane) ++
          (Instruction.untilZero loop).map .instruction
        data := (names.zip tables).flatMap fun (name, values) => tableLines name values
        labels := runs.length + 1
        stats := {
          loops := 1
          foldedRuns := runs.length - 1
          dataBytes := tables.flatten.length } }

def stepBlock (target : Target) (next : Frame) (labels : Nat) : Run.Step → Except Error Block
  | .store run => storeBlock target next run
  | .loop anchor riders =>
    loopBlock target next labels (Run.Step.loop anchor riders).span (anchor :: riders)

def stepsBlock (target : Target) (next : Frame) (labels : Nat) :
    List Run.Step → Block × Except Error Unit
  | [] => ({}, .ok ())
  | step :: rest =>
    match stepBlock target next labels step with
    | .error e => ({}, .error e)
    | .ok block =>
      let (more, outcome) := stepsBlock target next (labels + block.labels) rest
      (block.append more, outcome)

end Petscii.Program

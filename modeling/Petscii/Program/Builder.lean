import Petscii.Program.Block
import Petscii.Reel
import Petscii.Stream
/-!
# Building a compiled program

A program needs nothing but the screen. It has a routine that draws the first frame and one routine for
each transition, which turns one frame into the next. A builder collects the code and the data of the
routines; finishing it adds the first routine and puts the module together.

The routine that draws the first frame copies both planes in four chunks at once and returns the number of
the other routines, its low byte in A and the rest in X.
-/

namespace Petscii.Program

open Asm

structure Builder where
  target : Target
  initial : Frame
  /-- Routines for transitions so far. -/
  frames : Nat := 0
  /-- Numbered labels so far. -/
  labels : Nat := 0
  code : List Line := []
  data : List Line := []
  exports : List String := []
  stats : Stats := {}
  finished : Bool := false

namespace Builder

def extend (b : Builder) (block : Block) : Builder :=
  { b with
    code := b.code ++ block.code
    data := b.data ++ block.data
    labels := b.labels + block.labels
    stats := b.stats.add block.stats }

def routineName (b : Builder) (suffix : String) : String :=
  "animation_" ++ b.target.name ++ "_" ++ suffix

def openRoutine (b : Builder) (suffix : String) : Builder :=
  { b with
    code := b.code ++ [.blank, .label (b.routineName suffix)]
    exports := b.exports ++ [b.routineName suffix] }

def registerLines (value : Cell) (register : UInt16) : List Line :=
  [.instruction (.ldaImmediate value.toInt), .instruction (.sta ⟨.address register, []⟩)]

def emitRuns (runs : List Run) (next : Frame) (b : Builder) : Builder × Except Error Unit :=
  let (block, outcome) := stepsBlock b.target next b.labels (Run.schedule runs)
  (b.extend block, outcome)

/-- The runs in which two frames differ, given their combination. No run is longer than a loop. -/
def changedRuns (delta : Frame) : List Run :=
  Run.merge (Span.split maxLoop (Span.changed delta.chars))
    (Span.split maxLoop (Span.changed delta.colors))

/-- Add the routine that turns `prev` into `next`, and give the number of its runs. -/
def addTransition (prev next : Frame) (b : Builder) : Builder × Except Error Nat :=
  if b.finished then (b, .error .finished)
  else
    match prev.xor next with
    | .error e => (b, .error (.frames e))
    | .ok delta =>
      let counted := { b with frames := b.frames + 1 }
      let opened := counted.openRoutine ("frame" ++ Nat.repr counted.frames)
      let registers :=
        (if delta.background = 0 then [] else
          registerLines next.background b.target.backgroundRegister) ++
        (if delta.border = 0 then [] else registerLines next.border b.target.borderRegister)
      let begun := opened.extend { code := registers, stats := { transitions := 1 } }
      let runs := changedRuns delta
      match begun.emitRuns runs next with
      | (b', .error e) => (b', .error e)
      | (b', .ok ()) => (b'.extend { code := [.instruction .rts] }, .ok runs.length)

/-- Chunks that the first routine copies at once. -/
def chunks : Nat := 4

def chunkSize : Nat := Screen.cells / chunks

def counter : String := "I"

/-- Copy one cell of each chunk from a table. -/
def chunkLines (source : String) (destination : Atom) : List Line :=
  let chunk : List Term := [.plusProduct (.symbol counter) (.number chunkSize)]
  [.instruction (.ldaIndexed ⟨.symbol source, chunk⟩),
    .instruction (.staIndexed ⟨destination, chunk⟩)]

def initialBlock (b : Builder) : Block :=
  let chars := label b.target b.labels
  let colors := label b.target (b.labels + 1)
  let loop := label b.target (b.labels + 2)
  { code :=
      registerLines b.initial.background b.target.backgroundRegister ++
      registerLines b.initial.border b.target.borderRegister ++
      [.instruction (.ldx 0), .label loop, .directive (.repeated chunks counter)] ++
      chunkLines chars (.symbol b.target.screen) ++
      chunkLines colors (.address b.target.colorRam) ++
      [.directive .endrepeat] ++
      (Instruction.upTo chunkSize loop).map .instruction ++
      [.instruction (.ldaImmediate (b.frames % 256 : Nat)),
        .instruction (.ldx (b.frames / 256 : Nat)),
        .instruction .rts]
    data := tableLines chars b.initial.chars ++ tableLines colors b.initial.colors
    labels := 3
    stats := { dataBytes := b.initial.chars.length + b.initial.colors.length } }

def close (b : Builder) : Builder :=
  let opened := { b with finished := true }.openRoutine "init"
  opened.extend opened.initialBlock

def moduleLines (b : Builder) : List Line :=
  .directive (.importSymbol b.target.screen) ::
    b.exports.map (fun name => .directive (.exportSymbol name)) ++
    [.directive .rodata] ++ b.data ++ [.blank, .directive .code] ++ b.code ++ [.blank]

def indent : String := "\t"

def text (b : Builder) : String :=
  render indent b.moduleLines

/-- Finish a builder and write its module to a sink. The bytes taken are given beside the outcome. -/
def finish (room : Option Nat) (b : Builder) : Builder × Bytes × Except Error Unit :=
  if b.finished then (b, [], .error .finished)
  else
    let closed := b.close
    let delivery := Stream.deliver room (utf8 closed.text)
    (closed, delivery.taken, delivery.outcome.mapError .stream)

/-- Add the routines between neighbours of a list, the first of which is frame `i`. The number of runs of
each is given in order. -/
def addAll (i : Nat) (b : Builder) : List Frame → Except Error (Builder × List Nat)
  | prev :: next :: rest =>
    match b.addTransition prev next with
    | (_, .error e) => .error (.transition i (i + 1) e)
    | (b', .ok runs) => do
      let (b'', more) ← addAll (i + 1) b' (next :: rest)
      return (b'', runs :: more)
  | _ => .ok (b, [])

end Builder

/-- A reel compiled, but for the first routine: the builder, and the number of runs of each transition. -/
def transitions (target : Target) (reel : Reel) : Except Error (Builder × List Nat) :=
  match reel.frames with
  | first :: second :: rest => Builder.addAll 0 { target, initial := first } (first :: second :: rest)
  | short => .error (.tooFewFrames short.length)

/-- Write the program of a reel to a sink. Nothing is written if there is none. -/
def write (room : Option Nat) (target : Target) (reel : Reel) : Bytes × Except Error Stats :=
  match transitions target reel with
  | .error e => ([], .error e)
  | .ok (b, _) =>
    let (closed, taken, outcome) := b.finish room
    (taken, outcome.map fun _ => closed.stats)

end Petscii.Program

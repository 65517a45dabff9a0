import Petscii.Asm.Line
import Petscii.Frame.Rows
import Petscii.Reel
import Petscii.Stream
/-!
# Patch scripts

A patch script leaves the frames' images in memory and moves the screen from one frame to the next. It has
one procedure for each transition. For every row whose characters changed the procedure copies the changed
columns from the next frame's image, one cell by a load and a store, more by a loop, and the colours of the
same columns with them.

The transitions go once around the reel, from the last frame to the first and on to the last. With
ping-pong they then lead back to the first. A procedure is named after its two frames, and a name that has
been used is not written again.
-/

namespace Petscii

/-- A step from one frame of a reel to another. -/
structure Transition where
  prev : Nat
  next : Nat
  deriving DecidableEq, Repr

def Transition.text (t : Transition) : String :=
  "transition " ++ Nat.repr t.prev ++ "->" ++ Nat.repr t.next

namespace Patch

open Asm

/-- The transitions of a reel of `n` frames, in the order of their procedures. -/
def transitions (n : Nat) (pingPong : Bool) : List Transition :=
  (List.range n).map (fun i => ⟨if i = 0 then n - 1 else i - 1, i⟩) ++
    if pingPong then (List.range (n - 1)).reverse.map fun i => ⟨i + 1, i⟩ else []

inductive Error where
  | noFrames
  | transition (t : Transition) (cause : Frame.Error)
  | missingFrame (t : Transition)
  | stream (e : Stream.Error)
  deriving DecidableEq, Repr

def Error.message : Error → String
  | .noFrames => "animation: not enough frames"
  | .transition t cause => t.text ++ ": " ++ cause.message
  | .missingFrame t => t.text ++ ": no such frame"
  | .stream e => e.message

def procName (prev next : Frame) : String :=
  "animation_" ++ prev.name ++ next.name

/-- A step of a script: the transition, the frames it joins and the columns that change. -/
structure Change where
  transition : Transition
  prev : Frame
  next : Frame
  rows : List (Option Columns)

def compare (frames : List Frame) (t : Transition) : Except Error Change :=
  match frames[t.prev]?, frames[t.next]? with
  | some prev, some next =>
    match prev.changedRows next with
    | .ok rows => .ok ⟨t, prev, next, rows⟩
    | .error cause => .error (.transition t cause)
  | _, _ => .error (.missingFrame t)

/-- `row * width + column`, behind the terms already there. -/
def cellTerms (row column : Nat) : List Term :=
  [.plusProduct (.number row) (.number Screen.width), .plus (.number column)]

def screenCell (target : Target) (row column : Nat) : Expr :=
  ⟨.symbol target.screen, cellTerms row column⟩

def colorCell (target : Target) (row column : Nat) : Expr :=
  ⟨.address target.colorRam, cellTerms row column⟩

def charSource (frame : Frame) (row column : Nat) : Expr :=
  ⟨.symbol frame.name, .plus (.number Screen.headerSize) :: cellTerms row column⟩

def colorSource (frame : Frame) (row column : Nat) : Expr :=
  ⟨.symbol frame.name, .plus (.number Screen.headerSize) ::
    .plusProduct (.number Screen.width) (.number Screen.height) :: cellTerms row column⟩

/-- The code that copies the changed columns of a row. -/
def rowLines (target : Target) (next : Frame) (row : Nat) (columns : Columns) : List Line :=
  let first := columns.first
  let loop := "loop" ++ Nat.repr row
  if columns.single then
    [.instruction (.lda (charSource next row first)),
      .instruction (.sta (screenCell target row first)),
      .instruction (.lda (colorSource next row first)),
      .instruction (.sta (colorCell target row first))]
  else
    [.instruction (.ldx ((columns.last : Int) - first)),
      .label loop,
      .instruction (.ldaIndexed (charSource next row first)),
      .instruction (.staIndexed (screenCell target row first)),
      .instruction (.ldaIndexed (colorSource next row first)),
      .instruction (.staIndexed (colorCell target row first))] ++
      (Instruction.pastZero loop).map .instruction

/-- The code of a procedure up to its return. -/
def bodyLines (target : Target) (next : Frame) (rows : List (Option Columns)) : List Line :=
  rows.zipIdx.flatMap fun (columns, row) =>
    match columns with
    | none => []
    | some columns => rowLines target next row columns

def procLines (target : Target) (name : String) (next : Frame) (rows : List (Option Columns)) :
    List Line :=
  [.blank, .directive (.proc name)] ++ bodyLines target next rows ++
    [.instruction .rts, .directive .endproc]

/-- The changes whose names are new, and the names that came again, each in order; `used` are the names
taken before. -/
def distinct (used : List String) : List Change → List Change × List String
  | [] => ([], [])
  | c :: rest =>
    let name := procName c.prev c.next
    if name ∈ used then
      let (kept, again) := distinct used rest
      (kept, name :: again)
    else
      let (kept, again) := distinct (name :: used) rest
      (c :: kept, again)

/-- A script: its procedures' names, the names that were skipped, and its lines. -/
structure Script where
  names : List String
  skipped : List String
  lines : List Line

def indent : String := "\t "

def Script.text (s : Script) : String :=
  render indent s.lines

def Script.ofChanges (target : Target) (reel : Reel) (changes : List Change) : Script :=
  let (kept, skipped) := distinct [] changes
  let names := kept.map fun c => procName c.prev c.next
  { names, skipped
    lines :=
      [.comment s!"\twidth={reel.canvasWidth}, height={reel.canvasHeight}",
        .directive (.importSymbol target.screen)] ++
      reel.frames.map (fun f => .directive (.importSymbol f.name)) ++
      kept.flatMap (fun c => procLines target (procName c.prev c.next) c.next c.rows) ++
      .blank :: names.map fun name => .directive (.exportSymbol name) }

def script (target : Target) (pingPong : Bool) (reel : Reel) : Except Error Script :=
  if reel.frames = [] then .error .noFrames
  else do
    let changes ← (transitions reel.frames.length pingPong).mapM (compare reel.frames)
    return .ofChanges target reel changes

/-- Write a script to a sink and give its procedures' names. Nothing is written if there is no script, and no
names are given if it does not fit. -/
def publish (room : Option Nat) : Except Error Script → Bytes × Except Error (List String)
  | .error e => ([], .error e)
  | .ok s =>
    let delivery := Stream.deliver room (utf8 s.text)
    match delivery.outcome with
    | .ok () => (delivery.taken, .ok s.names)
    | .error e => (delivery.taken, .error (.stream e))

def write (room : Option Nat) (target : Target) (pingPong : Bool) (reel : Reel) :
    Bytes × Except Error (List String) :=
  publish room (script target pingPong reel)

end Patch

end Petscii

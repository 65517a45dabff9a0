import Petscii.Source.Token
import Petscii.Reel
import Petscii.Stream
/-!
# Writing a source text

A reel is written as one array for each frame, a screen row to a line, with the canvas size in a comment at
the end. The underscore that reading puts in front of a name is taken off again.
-/

namespace Petscii.Source

/-- Values on one line, with commas between them and one behind if `more` follow. -/
def valuesText (values : List Cell) (more : Bool) : String :=
  String.intercalate "," (values.map Cell.text) ++ (if more then ",\n" else "\n")

def bareName (name : String) : String :=
  match name.toList with
  | '_' :: rest => String.ofList rest
  | _ => name

def frameText (f : Frame) : Except Frame.Error String := do
  let chars ← f.rows .chars
  let colors ← f.rows .colors
  return "unsigned char " ++ bareName f.name ++ "[]=\x7b// border,bg,chars,colors\n" ++
    valuesText [f.border, f.background] true ++
    String.join (chars.map fun row => valuesText row true) ++
    String.join (colors.zipIdx.map fun (row, r) => valuesText row (decide ((r : Int) + 1 < f.height))) ++
    "\x7d;\n"

def print (reel : Reel) : Except Frame.Error String := do
  let frames ← reel.frames.mapM frameText
  return "// PETSCII memory image\n" ++ String.join frames ++
    if reel.hasCanvas then
      "// META: " ++ Int.repr reel.canvasWidth ++ " " ++ Int.repr reel.canvasHeight ++ "\n"
    else ""

inductive WriteError where
  | frame (cause : Frame.Error)
  | stream (e : Stream.Error)
  deriving DecidableEq, Repr

def WriteError.message : WriteError → String
  | .frame cause => cause.message
  | .stream e => e.message

def write (room : Option Nat) (reel : Reel) : Bytes × Except WriteError Unit :=
  match print reel with
  | .error e => ([], .error (.frame e))
  | .ok text =>
    let delivery := Stream.deliver room (utf8 text)
    (delivery.taken, delivery.outcome.mapError .stream)

end Petscii.Source

import Petscii.Reel
import Petscii.Session
import Petscii.Stream
import Petscii.Text.Numeral
/-!
# Binary images

The frames' images go into one file, back to back, or into a file each.

The one file may start with an address, low byte first. Its listing gives the offset of every image in the
file and its address behind a symbol that the including source defines.

Separate files are numbered. Their listing has a table of labels, ended by a zero, and includes each file
under its label. Images may be combined with those of the frame before, the first with that of the last,
so that a player shows the next frame by combining it with the screen.
-/

namespace Petscii.Image

structure Options where
  startAddress : Option UInt16 := none
  separate : Bool := false
  combined : Bool := false
  deriving DecidableEq, Repr

inductive Error where
  | combinedInOneFile
  | frame (index : Nat) (cause : Frame.Error)
  | writing (path : String) (cause : PathError)
  | stream (e : Stream.Error)
  deriving DecidableEq, Repr

def Error.message : Error → String
  | .combinedInOneFile => "xor with previous frame needs separate frame files"
  | .frame index cause => "frame " ++ Nat.repr index ++ ": " ++ cause.message
  | .writing path cause => "writing " ++ path ++ ": " ++ cause.message
  | .stream e => e.message

/-- The symbol of a file name: every character that no symbol can hold becomes an underscore. -/
def symbolBase (output : String) : String :=
  String.ofList (output.toList.map fun c => if c.isAlphanum then c else '_')

/-- The address in front of an image, low byte first. -/
def header : Option UInt16 → Bytes
  | none => []
  | some a => [a.toUInt8, (a >>> 8).toUInt8]

def file (start : Option UInt16) (frames : List Frame) : Bytes :=
  header start ++ frames.flatMap Frame.bytes

/-- The listing of frames whose images start at `offset`, and the end of the file. -/
def symbols (base : String) (offset : Nat) : List Frame → String
  | [] => base ++ "_end = " ++ Nat.repr offset ++ "\n"
  | f :: rest =>
    f.name ++ "_offset = " ++ Nat.repr offset ++ "\n" ++
    f.name ++ "_addr = " ++ base ++ "_base + " ++ f.name ++ "_offset\n" ++
    symbols base (offset + f.bytes.length) rest

def listing (output : String) (start : Option UInt16) (frames : List Frame) : String :=
  symbols (symbolBase output) (header start).length frames

def fileName (output : String) (index : Nat) : String :=
  output ++ "." ++ Numeral.padded 10 index

def fileLabel (output : String) (index : Nat) : String :=
  symbolBase output ++ "_" ++ Numeral.padded 10 index

def separateListing (output : String) (count : Nat) : String :=
  let indices := List.range count
  "\t.word\t" ++ String.intercalate ", " (indices.map (fileLabel output)) ++ "\n\t.word\t0\n" ++
    String.join (indices.map fun i =>
      fileLabel output i ++ ":\n\t.incbin\t" ++ Quoted.text (fileName output i) ++ "\n") ++ "\n"

/-- What the separate files hold: each frame's image, or its combination with the frame before. -/
def contents (combined : Bool) (frames : List Frame) : List (Except Frame.Error Bytes) :=
  if combined then
    List.zipWith (fun f prev => (f.xor prev).map Frame.bytes) frames
      (frames.getLast?.toList ++ frames.dropLast)
  else frames.map fun f => .ok f.bytes

variable {m : Type → Type} [Monad m] [Host m]

def writeFrame (output : String) (index : Nat) (data : Except Frame.Error Bytes) :
    Session m Error Unit := do
  let path := fileName output index
  Session.info "writing frame" [("frame", .number index), ("file", .text path)]
  let bytes ← Session.ofExcept (.frame index) data
  let written ← Session.writeFile path bytes
  Session.ofExcept (.writing path) written

def writeFrames (output : String) (index : Nat) : List (Except Frame.Error Bytes) → Session m Error Unit
  | [] => pure ()
  | data :: rest => do
    writeFrame output index data
    writeFrames output (index + 1) rest

/-- Write the images of a list of frames and give the listing. -/
def write (output : String) (options : Options) (frames : List Frame) : Session m Error String := do
  if let some a := options.startAddress then
    Session.info "start address specified" [("addr", .text (Numeral.address a))]
  if options.separate then
    if options.startAddress.isSome then
      Session.warn "start address is ignored for separate frame files"
    writeFrames output 0 (contents options.combined frames)
    return separateListing output frames.length
  else if options.combined then
    throw .combinedInOneFile
  else
    let written ← Session.writeFile output (file options.startAddress frames)
    Session.ofExcept (.writing output) written
    return listing output options.startAddress frames

def writeListing (room : Option Nat) (output : String) (options : Options) (frames : List Frame) :
    m (Bytes × Except Error Unit) := do
  let (outcome, _) ← Session.run (write output options frames)
  match outcome with
  | .error e => return ([], .error e)
  | .ok text =>
    let delivery := Stream.deliver room (utf8 text)
    return (delivery.taken, delivery.outcome.mapError .stream)

end Petscii.Image

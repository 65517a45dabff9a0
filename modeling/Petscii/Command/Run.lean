import Petscii.Command.Options
import Petscii.Image
import Petscii.Patch
import Petscii.Program.Builder
import Petscii.Source.Parse
import Petscii.Source.Print
/-!
# Running the command

The command reads a source text, keeps the frames asked for and writes one of four things: a patch script,
a compiled program, binary images with their listing, or the source text again. It ends with an exit code
that tells a rejected input and a selection out of range from other failures.
-/

namespace Petscii.Command

def banner : String :=
  "petsciiconvert - PETSCII animation compiler for the Commodore 64\n" ++
    "(c) 2024 - 2026 Zayn Otley\n" ++
    "https://github.com/intuitionamiga/petsciiconvert\n" ++
    "License: GPLv3 or later\n"

inductive ExitCode where
  | ok
  | error
  | input
  | range
  deriving DecidableEq, Repr

def ExitCode.number : ExitCode → Nat
  | .ok => 0
  | .error => 1
  | .input => 2
  | .range => 3

inductive ReadError where
  | file (e : PathError)
  | input (e : Stream.Error)

def ReadError.message : ReadError → String
  | .file e => e.message
  | .input e => e.message

inductive Failure where
  | usage (e : UsageError)
  | target (e : TargetError)
  | interactive
  | opening (e : PathError)
  | loading (origin : String) (e : Source.LoadError ReadError)
  | range (e : Reel.RangeError)
  | startAddress (e : Numeral.Error)
  | patch (e : Patch.Error)
  | program (e : Program.Error)
  | image (e : Image.Error)
  | source (e : Frame.Error)
  | output (e : PathError)
  | stdout (e : Stream.Error)

namespace Failure

def message : Failure → String
  | .usage e => e.message
  | .target e => e.message
  | .interactive => "no input file and standard input is a terminal"
  | .opening e => e.message
  | .loading origin e => origin ++ ":" ++ e.message ReadError.message
  | .range e => e.message
  | .startAddress e => "-start-addr: " ++ e.message
  | .patch e => e.message
  | .program e => e.message
  | .image e => e.message
  | .source e => e.message
  | .output e => e.message
  | .stdout e => e.message

def exitCode : Failure → ExitCode
  | .opening _ => .input
  | .loading _ _ => .input
  | .range _ => .range
  | _ => .error

def report (f : Failure) : String :=
  "Error: " ++ f.message ++ "\n" ++
    match f with
    | .usage _ | .interactive => Command.usage
    | _ => ""

end Failure

variable {m : Type → Type} [Monad m] [Host m]

/-- The bytes of the source: those of a file, or of the input if no file is named. Nobody is asked to type
them. -/
def sourceBytes (path : String) : Session m Failure (Except ReadError Bytes) := do
  if path = "" then
    if ← Session.isInteractive then throw .interactive
    Session.info "parsing" [("file", .text "<stdin>")]
    return (← Session.readInput).mapError .input
  else
    Session.info "parsing" [("file", .text path)]
    match ← Session.readFile path with
    | .ok bytes => return .ok bytes
    | .error e =>
      match e.action with
      | .opening => throw (.opening e)
      | .reading => return .error (.file e)

def readReel (d : Source.Decoders) (path : String) : Session m Failure Reel := do
  let bytes ← sourceBytes path
  let parsed ← Session.ofExcept (.loading (if path = "" then "<stdin>" else path)) (Source.load d bytes)
  Session.debug "parsed frame source"
    [("frames", .number parsed.reel.frames.length), ("canvas_width", .number parsed.reel.canvasWidth),
      ("canvas_height", .number parsed.reel.canvasHeight), ("memo_entries", .number parsed.memoEntries)]
  return parsed.reel

/-- The reel with the frames that the options keep. -/
def selectReel (o : Options) (reel : Reel) : Session m Failure Reel := do
  let (kept, outcome) := reel.select o.first o.last
  Session.ofExcept .range outcome
  if 0 ≤ o.first ∨ 0 ≤ o.last then
    Session.info "selected frames"
      [("first", .number o.first), ("last", .number o.last), ("count", .number kept.frames.length)]
  return kept

def programText (target : Target) (reel : Reel) : Session m Failure String := do
  let (builder, runs) ← Session.ofExcept .program (Program.transitions target reel)
  for ((prev, next), count, i) in (reel.frames.zip (reel.frames.drop 1)).zip runs.zipIdx do
    Session.debug "compiled transition"
      [("frame", .number (i + 1 : Nat)), ("prev", .text prev.name), ("next", .text next.name),
        ("runs", .number count)]
  let closed := builder.close
  let stats := closed.stats
  Session.info "compiled animation"
    [("transitions", .number stats.transitions), ("loops", .number stats.loops),
      ("folded_runs", .number stats.foldedRuns), ("direct_stores", .number stats.directStores),
      ("data_bytes", .number stats.dataBytes)]
  return closed.text

/-- The listing of binary images, which are written. -/
def imageText (o : Options) (reel : Reel) : Session m Failure String := do
  let startAddress ←
    if o.startAddr = "" then pure none
    else some <$> Session.ofExcept .startAddress (Numeral.readAddress o.startAddr)
  let options : Image.Options :=
    { startAddress, separate := o.separateFrames, combined := o.xorPrevious }
  ExceptT.adapt .image (Image.write o.outputBin options reel.frames)

def patchText (target : Target) (pingPong : Bool) (reel : Reel) : Session m Failure String := do
  for t in Patch.transitions reel.frames.length pingPong do
    if let (some prev, some next) := (reel.frames[t.prev]?, reel.frames[t.next]?) then
      Session.debug "comparing frames"
        [("prev", .number t.prev), ("prev_name", .text prev.name), ("next", .number t.next),
          ("next_name", .text next.name)]
  let script ← Session.ofExcept .patch (Patch.script target pingPong reel)
  for name in script.skipped do
    Session.debug "skipping duplicate transition" [("proc", .text name)]
  Session.info "generated animation" [("procs", .number script.names.length)]
  return script.text

def makeText (o : Options) (target : Target) (reel : Reel) : Session m Failure String :=
  if o.generateCode then programText target reel
  else if o.outputBin ≠ "" then imageText o reel
  else if o.exportC then Session.ofExcept .source (Source.print reel)
  else patchText target o.pingPong reel

/-- Write the text to the file that the options name, or to the standard output. -/
def writeText (o : Options) (text : String) : Session m Failure Unit := do
  if o.output = "" ∨ o.output = "-" then
    Session.ofExcept .stdout (← Session.writeOutput (utf8 text))
  else
    Session.ofExcept .output (← Session.writeFile o.output (utf8 text))

def perform (d : Source.Decoders) (o : Options) (operands : List String) : Session m Failure Unit := do
  Session.ofExcept .usage (o.validate operands.length)
  let target ← Session.ofExcept .target o.target
  let reel ← readReel d (operands.headD "")
  Session.info "found frames"
    [("count", .number reel.frames.length), ("canvas_width", .number reel.canvasWidth),
      ("canvas_height", .number reel.canvasHeight)]
  let kept ← selectReel o reel
  let text ← makeText o target kept
  writeText o text

/-- How a run of the command ends, and what it says. -/
structure Report where
  exit : ExitCode
  stderr : String

def Options.verbosity (o : Options) : Log.Verbosity :=
  if o.quiet then .quiet else if o.verbose then .verbose else .normal

def run (d : Source.Decoders) (arguments : List String) : m Report := do
  match Options.read {} arguments with
  | .error .help => return { exit := .ok, stderr := usage }
  | .error (.error e) => return { exit := .error, stderr := usage ++ "Error: " ++ e.message ++ "\n" }
  | .ok (o, operands) =>
    let (outcome, records) ← Session.run (perform d o operands)
    let shown := records.filter fun r => o.verbosity.shows r.level
    let said := (if o.quiet then "" else banner) ++ String.join (shown.map Log.Record.line)
    match outcome with
    | .ok () => return { exit := .ok, stderr := said }
    | .error f => return { exit := f.exitCode, stderr := said ++ f.report }

end Petscii.Command

import Petscii.FileTree
import Petscii.Log
import Petscii.Stream
/-!
# Sessions

A session works on files, an input and an output, keeps a log and may fail. What it logged and wrote before a
failure stays. Files, input and output are those of a host: a desk here, or the machine that the command runs
on.
-/

namespace Petscii

/-- A place with files, an input and an output. -/
class Host (m : Type → Type) where
  readFile : String → m (Except PathError Bytes)
  writeFile : String → Bytes → m (Except PathError Unit)
  /-- Whether someone would have to type the input. -/
  isInteractive : m Bool
  /-- All that is left of the input. -/
  readInput : m (Except Stream.Error Bytes)
  writeOutput : Bytes → m (Except Stream.Error Unit)

/-- A file tree, an input, and an output with what it has taken and the room that it has left. -/
structure Desk where
  files : FileTree := {}
  input : Stream.Feed := { bytes := [] }
  interactive : Bool := false
  output : Bytes := []
  room : Option Nat := none

instance : Host (StateM Desk) where
  readFile path := fun d => (d.files.read path, d)
  writeFile path data := fun d =>
    let (files, outcome) := d.files.write path data
    (outcome, { d with files })
  isInteractive := fun d => (d.interactive, d)
  readInput := fun d => (d.input.readAll, { d with input := { d.input with bytes := [] } })
  writeOutput data := fun d =>
    let delivery := Stream.deliver d.room data
    (delivery.outcome,
      { d with output := d.output ++ delivery.taken, room := d.room.map (· - delivery.taken.length) })

/-- A computation on a host that keeps a log, last record first, and may fail. -/
abbrev Session (m : Type → Type) (ε α : Type) := ExceptT ε (StateT (List Log.Record) m) α

namespace Session

variable {m : Type → Type} [Monad m] {ε α : Type}

def log (r : Log.Record) : Session m ε Unit :=
  modify (r :: ·)

def debug (message : String) (fields : List (String × Log.Value)) : Session m ε Unit :=
  log ⟨.debug, message, fields⟩

def info (message : String) (fields : List (String × Log.Value)) : Session m ε Unit :=
  log ⟨.info, message, fields⟩

def warn (message : String) : Session m ε Unit :=
  log ⟨.warn, message, []⟩

def ofExcept {δ : Type} (failure : δ → ε) (x : Except δ α) : Session m ε α :=
  match x with
  | .ok a => pure a
  | .error e => throw (failure e)

variable [Host m]

def readFile (path : String) : Session m ε (Except PathError Bytes) :=
  ExceptT.lift (StateT.lift (Host.readFile path))

def writeFile (path : String) (data : Bytes) : Session m ε (Except PathError Unit) :=
  ExceptT.lift (StateT.lift (Host.writeFile path data))

def isInteractive : Session m ε Bool :=
  ExceptT.lift (StateT.lift Host.isInteractive)

def readInput : Session m ε (Except Stream.Error Bytes) :=
  ExceptT.lift (StateT.lift Host.readInput)

def writeOutput (data : Bytes) : Session m ε (Except Stream.Error Unit) :=
  ExceptT.lift (StateT.lift (Host.writeOutput data))

/-- Carry out a session. The log is given in order. -/
def run (s : Session m ε α) : m (Except ε α × List Log.Record) := do
  let (outcome, records) ← StateT.run (ExceptT.run s) []
  return (outcome, records.reverse)

end Session

end Petscii

import Petscii.Text.Quoted
/-!
# Log records

A record has a level, a message and named values, and is written as one line. Texts in it are quoted where
they are empty or hold something that would break the line into other fields.
-/

namespace Petscii.Log

inductive Level where
  | debug
  | info
  | warn
  deriving DecidableEq, Repr

def Level.text : Level → String
  | .debug => "DEBUG"
  | .info => "INFO"
  | .warn => "WARN"

inductive Value where
  | number (n : Int)
  | text (s : String)
  deriving DecidableEq, Repr

/-- A character that makes a text be quoted. Backslash and delete do not. -/
def needsQuoting (c : Char) : Bool :=
  c == ' ' || c == '"' || c == '=' || c.toNat < 0x20 || c.toNat == 0xFFFD ||
    (0x80 ≤ c.toNat && !isPrintable c)

/-- A text as a value, quoted if need be. -/
def textValue (s : String) : String :=
  if s = "" ∨ s.toList.any needsQuoting then Quoted.text s else s

def Value.write : Value → String
  | .number n => Int.repr n
  | .text s => textValue s

structure Record where
  level : Level
  message : String
  fields : List (String × Value) := []
  deriving DecidableEq, Repr

def Record.line (r : Record) : String :=
  "level=" ++ r.level.text ++ " msg=" ++ textValue r.message ++
    String.join (r.fields.map fun (key, value) => " " ++ key ++ "=" ++ value.write) ++ "\n"

inductive Verbosity where
  | quiet
  | normal
  | verbose
  deriving DecidableEq, Repr

def Verbosity.shows : Verbosity → Level → Bool
  | .quiet, _ => false
  | .normal, .debug => false
  | _, _ => true

end Petscii.Log

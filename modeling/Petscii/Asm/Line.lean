import Petscii.Asm.Instruction
import Petscii.Frame.Basic
/-!
# Lines of an assembler text

A module is a list of lines. Labels stand at the start of their line, directives behind a tab and
instructions behind an indentation that the module chooses. Tables of values are written 128 to a line,
behind an empty line.
-/

namespace Petscii.Asm

inductive Directive where
  | importSymbol (name : String)
  | exportSymbol (name : String)
  | rodata
  | code
  | proc (name : String)
  | endproc
  /-- Repeat the lines up to `endrepeat`, with `counter` counting from 0. -/
  | repeated (times : Nat) (counter : String)
  | endrepeat
  | byte (values : List Cell)
  deriving DecidableEq, Repr

def Directive.name : Directive → String
  | .importSymbol _ => ".import"
  | .exportSymbol _ => ".export"
  | .rodata => ".rodata"
  | .code => ".code"
  | .proc _ => ".proc"
  | .endproc => ".endproc"
  | .repeated _ _ => ".repeat"
  | .endrepeat => ".endrepeat"
  | .byte _ => ".byte"

def Directive.arguments : Directive → List String
  | .importSymbol name => [name]
  | .exportSymbol name => [name]
  | .proc name => [name]
  | .repeated times counter => [Nat.repr times, counter]
  | .byte values => values.map Cell.text
  | _ => []

def labelText (name : String) : String :=
  name ++ ":\n"

def directiveText (name : String) (arguments : List String) : String :=
  "\t" ++ name ++ (if arguments = [] then "" else "\t" ++ String.intercalate ", " arguments) ++ "\n"

def instructionText (indent text : String) : String :=
  indent ++ text ++ "\n"

inductive Line where
  | blank
  | comment (text : String)
  | label (name : String)
  | directive (d : Directive)
  | instruction (i : Instruction Expr)
  deriving DecidableEq, Repr

def Line.text (indent : String) : Line → String
  | .blank => "\n"
  | .comment text => ";" ++ text ++ "\n"
  | .label name => labelText name
  | .directive d => directiveText d.name d.arguments
  | .instruction i => instructionText indent (i.text Expr.text)

/-- The text of a list of lines whose instructions stand behind `indent`. -/
def render (indent : String) (lines : List Line) : String :=
  String.join (lines.map (Line.text indent))

def valuesPerLine : Nat := 128

def tableRows (values : List Cell) : List (List Cell) :=
  (List.range ((values.length + valuesPerLine - 1) / valuesPerLine)).map fun i =>
    (values.drop (valuesPerLine * i)).take valuesPerLine

def table (values : List Cell) : List Line :=
  .blank :: (tableRows values).map fun row => .directive (.byte row)

end Petscii.Asm

import Petscii.Asm.Line
import Petscii.Source.Token
/-!
# Reading an assembler text

An assembler reads a text line by line. What stands behind a semicolon is left out, and so are blanks at
both ends of a line. A line that ends in a colon places a label, a line that starts with a dot is a
directive, and any other line that is not empty is an instruction. Operands are sums of atoms and of
products of two atoms.
-/

namespace Petscii.Asm

def isGap (c : Char) : Bool :=
  c == ' ' || c == '\t'

def trim (cs : List Char) : List Char :=
  ((cs.dropWhile isGap).reverse.dropWhile isGap).reverse

/-- The pieces of a list between occurrences of `sep`. -/
def pieces (sep : Char) : List Char → List (List Char)
  | [] => [[]]
  | c :: rest =>
    match pieces sep rest with
    | [] => []
    | piece :: more => if c = sep then [] :: piece :: more else (c :: piece) :: more

def readNat (cs : List Char) : Option Nat :=
  if cs = [] ∨ cs.any (fun c => !c.isDigit) then none
  else some (Nat.ofDigitChars 10 cs 0)

def readInt : List Char → Option Int
  | '-' :: cs => (readNat cs).map fun n => -(n : Int)
  | cs => (readNat cs).map Int.ofNat

def readAtom (cs : List Char) : Option Atom :=
  match cs with
  | '$' :: digits =>
    match Numeral.value 16 0xFFFF false 0 digits with
    | .ok n => if digits = [] then none else some (.address n.toUInt16)
    | .error _ => none
  | _ =>
    if Source.isName (String.ofList cs) then some (.symbol (String.ofList cs))
    else (readNat cs).map fun n => .number n

inductive ExprToken where
  | atom (cs : List Char)
  | plus
  | minus
  | times

/-- Cut an expression at its operators. -/
def exprTokens : List Char → List ExprToken
  | [] => [.atom []]
  | c :: rest =>
    let later := exprTokens rest
    if c = '+' then .atom [] :: .plus :: later
    else if c = '-' then .atom [] :: .minus :: later
    else if c = '*' then .atom [] :: .times :: later
    else match later with
      | .atom cs :: more => .atom (c :: cs) :: more
      | more => .atom [c] :: more

/-- The terms behind the first atom. -/
def readTerms : List ExprToken → Option (List Term)
  | [] => some []
  | .plus :: .atom a :: .times :: .atom b :: rest => do
    return .plusProduct (← readAtom a) (← readAtom b) :: (← readTerms rest)
  | .plus :: .atom a :: rest => do return .plus (← readAtom a) :: (← readTerms rest)
  | .minus :: .atom a :: rest => do return .minus (← readAtom a) :: (← readTerms rest)
  | _ => none

def readExpr (cs : List Char) : Option Expr :=
  match exprTokens cs with
  | .atom a :: rest => do return ⟨← readAtom a, ← readTerms rest⟩
  | _ => none

def firstWord (cs : List Char) : List Char × List Char :=
  (cs.takeWhile (!isGap ·), trim (cs.dropWhile (!isGap ·)))

/-- An instruction with an address: plain, or indexed by X. -/
def readAddressed (plain indexed : Expr → Instruction Expr) (operand : List Char) :
    Option (Instruction Expr) :=
  match operand.reverse with
  | 'x' :: ',' :: base => (readExpr base.reverse).map indexed
  | _ => (readExpr operand).map plain

def readInstruction (cs : List Char) : Option (Instruction Expr) :=
  let (word, operand) := firstWord cs
  match String.ofList word, operand with
  | "lda", '#' :: value => (readInt value).map .ldaImmediate
  | "lda", _ => readAddressed .lda .ldaIndexed operand
  | "sta", _ => readAddressed .sta .staIndexed operand
  | "ldx", '#' :: value => (readInt value).map .ldx
  | "cpx", '#' :: value => (readInt value).map .cpx
  | "inx", [] => some .inx
  | "dex", [] => some .dex
  | "bne", label => some (.bne (String.ofList label))
  | "bpl", label => some (.bpl (String.ofList label))
  | "rts", [] => some .rts
  | _, _ => none

def readDirective (cs : List Char) : Option Directive :=
  let (word, rest) := firstWord cs
  let arguments := if rest = [] then [] else (pieces ',' rest).map trim
  match String.ofList word, arguments with
  | ".import", [name] => some (.importSymbol (String.ofList name))
  | ".export", [name] => some (.exportSymbol (String.ofList name))
  | ".rodata", [] => some .rodata
  | ".code", [] => some .code
  | ".proc", [name] => some (.proc (String.ofList name))
  | ".endproc", [] => some .endproc
  | ".repeat", [times, counter] => do return .repeated (← readNat times) (String.ofList counter)
  | ".endrepeat", [] => some .endrepeat
  | ".byte", values => do return .byte ((← values.mapM readInt).map Int64.ofInt)
  | _, _ => none

/-- One line. A comment is read as an empty line. -/
def readLine (cs : List Char) : Option Line :=
  match trim (cs.takeWhile (· != ';')) with
  | [] => some .blank
  | '.' :: rest => (readDirective ('.' :: rest)).map .directive
  | line =>
    match line.reverse with
    | ':' :: name => some (.label (String.ofList name.reverse))
    | _ => (readInstruction line).map .instruction

/-- The lines of a text, each ended by a line feed. -/
def read (text : String) : Option (List Line) :=
  (pieces '\n' text.toList).dropLast.mapM readLine

end Petscii.Asm

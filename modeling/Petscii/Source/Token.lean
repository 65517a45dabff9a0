import Petscii.Text.Quoted
import Petscii.Text.Utf8
/-!
# Tokens of the source language

A source text declares arrays of numbers, one for each frame:

    // PETSCII memory image
    unsigned char title[]={// border,bg,chars,colors
    0,0,
    32,32, ...
    };
    // META: 40 25

Two words and eight marks are spelled in one way only; a name and a number have many spellings. Letters,
digits, blanks and line ends are those of ASCII, so the classes below are classes of bytes.
-/

namespace Petscii.Source

inductive Keyword where
  | unsigned
  | char
  deriving DecidableEq, Repr

def Keyword.text : Keyword → String
  | .unsigned => "unsigned"
  | .char => "char"

inductive Mark where
  | slashes
  | leftBracket
  | rightBracket
  | equals
  | leftBrace
  | comma
  | rightBrace
  | semicolon
  deriving DecidableEq, Repr

def Mark.text : Mark → String
  | .slashes => "//"
  | .leftBracket => "["
  | .rightBracket => "]"
  | .equals => "="
  | .leftBrace => "\x7b"
  | .comma => ","
  | .rightBrace => "\x7d"
  | .semicolon => ";"

inductive Token where
  | keyword (k : Keyword)
  | mark (m : Mark)
  | name
  | number
  deriving DecidableEq, Repr

def Token.describe : Token → String
  | .keyword k => Quoted.text k.text
  | .mark m => Quoted.text m.text
  | .name => "frame name"
  | .number => "number"

/-- Alternatives in a sentence: commas between them and `or` before the last. -/
def alternatives : List String → String
  | [] => ""
  | [item] => item
  | items => String.intercalate ", " items.dropLast ++ " or " ++ items.getLastD ""

def newline : UInt8 := 10

def isBlank (b : UInt8) : Bool :=
  b == 32 || b == 9

def isSpace (b : UInt8) : Bool :=
  isBlank b || b == 13 || b == newline

def isDigit (b : UInt8) : Bool :=
  48 ≤ b && b ≤ 57

def isNameStart (b : UInt8) : Bool :=
  b == 95 || (97 ≤ b && b ≤ 122) || (65 ≤ b && b ≤ 90)

def isNameByte (b : UInt8) : Bool :=
  isNameStart b || isDigit b

/-- Whether a text is a name: an assembler accepts it as a symbol. -/
def isName (text : String) : Bool :=
  match utf8 text with
  | [] => false
  | b :: rest => isNameStart b && rest.all isNameByte

/-- The text of bytes that are characters by themselves. -/
def asciiText (bytes : Bytes) : String :=
  String.ofList (bytes.map fun b => Char.ofNat b.toNat)

def decimal (digits : Bytes) : Nat :=
  digits.foldl (fun n d => 10 * n + (d.toNat - 48)) 0

end Petscii.Source

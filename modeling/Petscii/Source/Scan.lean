import Petscii.Frame.Basic
import Petscii.Source.Token
/-!
# Scanning tokens

A cursor is a place in the source text. A terminal reads one token behind the white space at a cursor, or
fails and notes what it would have accepted and where. The number terminal also notes a numeral that is
too large for a cell, because that ends the whole parse.
-/

namespace Petscii.Source

/-- A place in the source text: the bytes from there on, and how many lie before. -/
structure Cursor where
  rest : Bytes
  offset : Nat

def Cursor.start (source : Bytes) : Cursor :=
  ⟨source, 0⟩

/-- The place `n` bytes on, or the end of the text. -/
def Cursor.advance (c : Cursor) (n : Nat) : Cursor :=
  ⟨c.rest.drop n, c.offset + (c.rest.take n).length⟩

/-- The first place whose byte is outside a class. -/
def Cursor.skip (c : Cursor) (within : UInt8 → Bool) : Cursor :=
  c.advance (c.rest.takeWhile within).length

/-- The start of the next line, or the end of the text. -/
def Cursor.nextLine (c : Cursor) : Cursor :=
  (c.skip (· != newline)).advance 1

inductive Note where
  /-- A token would have been accepted. -/
  | expected (offset : Nat) (token : Token)
  /-- A numeral is too large for a cell. -/
  | tooLarge (offset : Nat) (digits : Bytes)
  /-- The values of an array form no frame. -/
  | badFrame (offset : Nat) (cause : Frame.Error)
  deriving DecidableEq, Repr

/-- Read one thing at a cursor, or fail with notes. -/
abbrev Terminal (α : Type) := StateT Cursor (Except (List Note)) α

namespace Terminal

def space : Terminal Unit :=
  modify fun c => c.skip isSpace

def blanks : Terminal Unit :=
  modify fun c => c.skip isBlank

def mark (m : Mark) : Terminal Unit := do
  space
  let c ← get
  if (utf8 m.text).isPrefixOf c.rest then set (c.advance (utf8 m.text).length)
  else throw [.expected c.offset (.mark m)]

/-- A keyword that is not the beginning of a longer name. -/
def keyword (k : Keyword) : Terminal Unit := do
  space
  let c ← get
  let after := c.advance (utf8 k.text).length
  if (utf8 k.text).isPrefixOf c.rest && !(after.rest.head?.any isNameByte) then set after
  else throw [.expected c.offset (.keyword k)]

def name : Terminal String := do
  space
  let c ← get
  if c.rest.head?.any isNameStart then
    set (c.skip isNameByte)
    return asciiText (c.rest.takeWhile isNameByte)
  else throw [.expected c.offset .name]

/-- Numbers from here on are too large for a cell. -/
def numberLimit : Nat := 0x8000000000000000

/-- Digits at this very place, with a value that a cell can hold. -/
def digits : Terminal Nat := do
  let c ← get
  let found := c.rest.takeWhile isDigit
  if found = [] then throw []
  else if numberLimit ≤ decimal found then throw [.tooLarge c.offset found]
  else
    set (c.advance found.length)
    return decimal found

def number : Terminal Nat := do
  space
  let c ← get
  match digits c with
  | .ok (n, after) => set after; return n
  | .error notes => throw (notes ++ [.expected (c.skip isDigit).offset .number])

end Terminal

end Petscii.Source

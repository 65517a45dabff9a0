import Petscii.Proofs.Frame
import Petscii.Reel
import Petscii.Source.Rules

/-!
# The grammar of the source language

The rules of the language as relations between a text, what is read at its beginning and what follows:

    file    := comment* (frame comment*)+
    frame   := "unsigned" "char" name "[" "]" "=" "{" comment? numbers "}" ";"
    numbers := number ("," number)*
    comment := "//" ("META:" number number)? the rest of the line

White space may stand before every token and at the end of the file. Names and numbers are as long as they
can be, and a keyword is no part of a longer name. A comment ends with its line or with the text. Its tag
stands on this line, with blanks before and between its parts; a comment may also have the beginning of a
tag, with one number or none.
-/

namespace Petscii.Source

/-- The text does not begin with a byte of a class. -/
def Off (within : UInt8 → Bool) (text : Bytes) : Prop :=
  text.head?.any within = false

instance (within : UInt8 → Bool) (text : Bytes) : Decidable (Off within text) :=
  inferInstanceAs (Decidable (_ = _))

/-! ### Tokens -/

/-- White space, and then a given text. -/
def Spaced (text s t : Bytes) : Prop :=
  ∃ space, (∀ b ∈ space, isSpace b = true) ∧ s = space ++ text ++ t

def ReadsMark (m : Mark) (s t : Bytes) : Prop :=
  Spaced (utf8 m.text) s t

def ReadsKeyword (k : Keyword) (s t : Bytes) : Prop :=
  Spaced (utf8 k.text) s t ∧ Off isNameByte t

def NameText (name : Bytes) : Prop :=
  ∃ b rest, name = b :: rest ∧ isNameStart b = true ∧ ∀ c ∈ rest, isNameByte c = true

def ReadsName (name s t : Bytes) : Prop :=
  Spaced name s t ∧ NameText name ∧ Off isNameByte t

def NumberText (digits : Bytes) : Prop :=
  digits ≠ [] ∧ ∀ d ∈ digits, isDigit d = true

def ReadsNumber (n : Nat) (s t : Bytes) : Prop :=
  ∃ digits, Spaced digits s t ∧ NumberText digits ∧ decimal digits = n ∧ Off isDigit t

/-! ### Comments -/

def BlankText (blanks : Bytes) : Prop :=
  ∀ b ∈ blanks, isBlank b = true

def tagText : Bytes := utf8 "META:"

/-- The numbers of the tag at the beginning of a line. With fewer than two the line has no tag. -/
inductive ReadsTag : List Nat → Bytes → Prop where
  | two {a b c w h rest : Bytes} : BlankText a → BlankText b → BlankText c → c ≠ [] → NumberText w →
      NumberText h → Off isDigit rest →
      ReadsTag [decimal w, decimal h] (a ++ tagText ++ b ++ w ++ c ++ h ++ rest)
  | one {a b c w rest : Bytes} : BlankText a → BlankText b → BlankText c → NumberText w →
      Off isBlank rest → Off isDigit rest → ReadsTag [decimal w] (a ++ tagText ++ b ++ w ++ c ++ rest)
  | none {line : Bytes} : (∀ a b w rest, BlankText a → BlankText b → NumberText w →
      line ≠ a ++ tagText ++ b ++ w ++ rest) → ReadsTag [] line

/-- A comment, with the numbers of its tag. -/
inductive ReadsComment : List Nat → Bytes → Bytes → Prop where
  | line {numbers : List Nat} {s body t : Bytes} : ReadsMark .slashes s (body ++ newline :: t) →
      newline ∉ body → ReadsTag numbers body → ReadsComment numbers s t
  | last {numbers : List Nat} {s body : Bytes} : ReadsMark .slashes s body →
      newline ∉ body → ReadsTag numbers body → ReadsComment numbers s []

def canvasOf : List Nat → Option Canvas
  | [width, height] => some ⟨width, height⟩
  | _ => none

/-! ### Frames -/

/-- Numbers, each behind a comma. -/
inductive ReadsMore : List Nat → Bytes → Bytes → Prop where
  | done {s : Bytes} : ReadsMore [] s s
  | next {n : Nat} {ns : List Nat} {s t u v : Bytes} : ReadsMark .comma s t → ReadsNumber n t u →
      ReadsMore ns u v → ReadsMore (n :: ns) s v

def ReadsData (ns : List Nat) (s t : Bytes) : Prop :=
  ∃ n more u, ns = n :: more ∧ ReadsNumber n s u ∧ ReadsMore more u t

/-- A frame as it stands in the source: its name, the numbers of the comment behind its brace, if there is
one, and its data. -/
structure Production where
  name : Bytes
  remark : Option (List Nat)
  data : List Nat

inductive ReadsRemark : Option (List Nat) → Bytes → Bytes → Prop where
  | absent {s : Bytes} : ReadsRemark none s s
  | present {numbers : List Nat} {s t : Bytes} : ReadsComment numbers s t → ReadsRemark (some numbers) s t

def ReadsHead (name s t : Bytes) : Prop :=
  ∃ s₁ s₂ s₃ s₄ s₅ s₆, ReadsKeyword .unsigned s s₁ ∧ ReadsKeyword .char s₁ s₂ ∧ ReadsName name s₂ s₃ ∧
    ReadsMark .leftBracket s₃ s₄ ∧ ReadsMark .rightBracket s₄ s₅ ∧ ReadsMark .equals s₅ s₆ ∧
    ReadsMark .leftBrace s₆ t

def ReadsEnd (s t : Bytes) : Prop :=
  ∃ s₁, ReadsMark .rightBrace s s₁ ∧ ReadsMark .semicolon s₁ t

def ReadsFrame (f : Production) (s t : Bytes) : Prop :=
  ∃ s₁ s₂ s₃, ReadsHead f.name s s₁ ∧ ReadsRemark f.remark s₁ s₂ ∧ ReadsData f.data s₂ s₃ ∧ ReadsEnd s₃ t

/-! ### Files -/

inductive Item where
  | comment (numbers : List Nat)
  | frame (f : Production)

/-- Comments and frames up to the end of the text. -/
inductive ReadsItems : List Item → Bytes → Prop where
  | done {s : Bytes} : (∀ b ∈ s, isSpace b = true) → ReadsItems [] s
  | comment {numbers : List Nat} {items : List Item} {s t : Bytes} : ReadsComment numbers s t →
      ReadsItems items t → ReadsItems (.comment numbers :: items) s
  | frame {f : Production} {items : List Item} {s t : Bytes} : ReadsFrame f s t → ReadsItems items t →
      ReadsItems (.frame f :: items) s

def productions : List Item → List Production
  | [] => []
  | .comment _ :: items => productions items
  | .frame f :: items => f :: productions items

/-- A file has one frame at least. -/
def ReadsFile (items : List Item) (s : Bytes) : Prop :=
  ReadsItems items s ∧ productions items ≠ []

/-! ### What a file means -/

def Item.canvas : Item → Option Canvas
  | .comment numbers => canvasOf numbers
  | .frame f => f.remark.bind canvasOf

def Item.numbers : Item → List Nat
  | .comment numbers => numbers
  | .frame f => f.remark.getD [] ++ f.data

/-- Every number fits a cell, and every array is as long as a frame. -/
structure Fitting (items : List Item) : Prop where
  numbers : ∀ item ∈ items, ∀ n ∈ item.numbers, n < Terminal.numberLimit
  data : ∀ f ∈ productions items, f.data.length = Screen.headerSize + 2 * Screen.cells

/-- The canvas size that was declared last. -/
def lastCanvas (items : List Item) : Option Canvas :=
  (items.filterMap Item.canvas).getLast?

def declaredSize : Option Canvas → Int × Int
  | none => (-1, -1)
  | some size => (size.width, size.height)

/-- A reel has one frame for each production, in order, with an underscore before its name, and the canvas
size that was declared last. -/
structure Means (items : List Item) (reel : Reel) : Prop where
  full : ∀ f ∈ reel.frames, f.Full
  frames : reel.frames.map (fun f => (f.name, f.payload)) =
    (productions items).map fun f => ("_" ++ asciiText f.name, f.data.map Int64.ofNat)
  canvas : (reel.canvasWidth, reel.canvasHeight) = declaredSize (lastCanvas items)

end Petscii.Source

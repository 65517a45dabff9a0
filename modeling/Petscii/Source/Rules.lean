import Petscii.Source.Scan
import Std.Data.HashMap
/-!
# Rules of the source language

White space separates tokens and is otherwise free.

    file    := comment* (frame comment*)+
    frame   := "unsigned" "char" name "[" "]" "=" "{" comment? numbers "}" ";"
    numbers := number ("," number)*
    comment := "//" (blanks "META:" blanks digits blanks digits)? the rest of the line

A comment with a `META:` part declares the size of the canvas. A frame's name gets an underscore in front,
so that it is a label of its own in generated code.

A rule gives its outcome: what it read, if it succeeded, and the notes of what it tried on the way. The
rules for comments and frames are tried at the same places, so their results are kept in a memo by place
and read back from there.
-/

namespace Petscii.Source

structure Canvas where
  width : Nat
  height : Nat
  deriving DecidableEq, Repr

/-- What a rule read and where it stopped, if it succeeded, and the notes it took. -/
structure Outcome (α : Type) where
  result : Option (α × Cursor)
  notes : List Note

def canvas : Terminal Canvas := do
  Terminal.blanks
  let c ← get
  if (utf8 "META:").isPrefixOf c.rest then
    set (c.advance (utf8 "META:").length)
    Terminal.blanks
    let width ← Terminal.digits
    Terminal.blanks
    let height ← Terminal.digits
    return ⟨width, height⟩
  else throw []

def comment (c : Cursor) : Outcome (Option Canvas) :=
  match Terminal.mark .slashes c with
  | .error notes => ⟨none, notes⟩
  | .ok (_, body) =>
    match canvas body with
    | .ok (size, after) => ⟨some (some size, after.nextLine), []⟩
    | .error notes => ⟨some (none, body.nextLine), notes⟩

/-- The numbers after the ones in `values`, last first. Each round reads a comma and a number. -/
def moreNumbers : Nat → List Cell → Cursor → Outcome (List Cell)
  | 0, values, c => ⟨some (values.reverse, c), []⟩
  | rounds + 1, values, c =>
    match Terminal.mark .comma c with
    | .error notes => ⟨some (values.reverse, c), notes⟩
    | .ok (_, after) =>
      match Terminal.number after with
      | .error notes => ⟨none, notes⟩
      | .ok (n, next) => moreNumbers rounds (Int64.ofNat n :: values) next

def numbers (c : Cursor) : Outcome (List Cell) :=
  match Terminal.number c with
  | .error notes => ⟨none, notes⟩
  | .ok (n, next) => moreNumbers (next.rest.length + 1) [Int64.ofNat n] next

/-- A frame up to its opening brace. -/
def frameHead : Terminal String := do
  Terminal.keyword .unsigned
  Terminal.keyword .char
  let name ← Terminal.name
  Terminal.mark .leftBracket
  Terminal.mark .rightBracket
  Terminal.mark .equals
  Terminal.mark .leftBrace
  return "_" ++ name

def frameEnd : Terminal Unit := do
  Terminal.mark .rightBrace
  Terminal.mark .semicolon

/-- A frame from its first number on. -/
def frameBody (name : String) (c : Cursor) : Outcome Frame :=
  let c := c.skip isSpace
  match numbers c with
  | ⟨none, notes⟩ => ⟨none, notes⟩
  | ⟨some (values, after), notes⟩ =>
    match frameEnd after with
    | .error more => ⟨none, notes ++ more⟩
    | .ok (_, next) =>
      match Frame.ofPayload name values with
      | .error cause => ⟨none, notes ++ [.badFrame c.offset cause]⟩
      | .ok frame => ⟨some (frame, next), notes⟩

/-- A rule together with a record of its earlier applications. -/
abbrev Applied (σ α : Type) := σ → Cursor → Outcome α × σ

/-- A frame, and the canvas size that the comment behind its brace declares. -/
def frame {σ : Type} (comment : Applied σ (Option Canvas)) : Applied σ (Frame × Option Canvas) :=
  fun record c =>
    match frameHead c with
    | .error notes => (⟨none, notes⟩, record)
    | .ok (name, inside) =>
      let (remark, record) := comment record inside
      let (size, after) := remark.result.getD (none, inside)
      let body := frameBody name after
      (⟨body.result.map fun (f, next) => ((f, size), next), remark.notes ++ body.notes⟩, record)

structure Rules (σ : Type) where
  comment : Applied σ (Option Canvas)
  frame : Applied σ (Frame × Option Canvas)

/-- The rules applied afresh at every place. -/
def Rules.plain : Rules Unit where
  comment := fun _ c => (Source.comment c, ())
  frame := Source.frame fun _ c => (Source.comment c, ())

/-- The results of the rules, by the offset they were applied at. -/
structure Memo where
  comments : Std.HashMap Nat (Option (Option Canvas × Cursor)) := ∅
  frames : Std.HashMap Nat (Option ((Frame × Option Canvas) × Cursor)) := ∅

def Memo.size (m : Memo) : Nat :=
  m.comments.size + m.frames.size

/-- The comment rule, looked up first. A result that is looked up takes no new notes. -/
def Memo.comment : Applied Memo (Option Canvas) := fun memo c =>
  match memo.comments[c.offset]? with
  | some result => (⟨result, []⟩, memo)
  | none =>
    let outcome := Source.comment c
    (outcome, { memo with comments := memo.comments.insert c.offset outcome.result })

def Memo.frame : Applied Memo (Frame × Option Canvas) := fun memo c =>
  match memo.frames[c.offset]? with
  | some result => (⟨result, []⟩, memo)
  | none =>
    let (outcome, memo) := Source.frame Memo.comment memo c
    (outcome, { memo with frames := memo.frames.insert c.offset outcome.result })

def Rules.memoized : Rules Memo where
  comment := Memo.comment
  frame := Memo.frame

end Petscii.Source

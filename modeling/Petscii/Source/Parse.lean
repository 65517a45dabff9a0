import Petscii.Reel
import Petscii.Source.Encoding
import Petscii.Source.Rules
import Petscii.Stream
/-!
# Parsing a source text

A file is read comment by comment and frame by frame until neither rule applies; it is accepted if only
white space is left and there was a frame. Of several canvas declarations the last one counts.

A file that is not accepted is reported at the farthest place that any rule reached, with the tokens that
would have been accepted there. Two things are reported at their own place instead: a numeral that is too
large, unless something was reported before, and an array whose values form no frame.
-/

namespace Petscii.Source

inductive Problem where
  | unexpected (found : Option UInt8) (expected : List Token)
  | tooLarge (digits : Bytes)
  | badFrame (cause : Frame.Error)
  deriving DecidableEq, Repr

def Problem.summary : Problem → String
  | .unexpected found expected =>
    let unexpected := match found with
      | none => "end of input"
      | some b => Quoted.character (Char.ofNat b.toNat)
    "syntax error, unexpected " ++ unexpected ++
      if expected = [] then "" else ", expecting " ++ alternatives (expected.map Token.describe)
  | .tooLarge digits => "number " ++ asciiText digits ++ " out of range"
  | .badFrame _ => "invalid frame data"

def Problem.cause : Problem → Option Frame.Error
  | .badFrame cause => some cause
  | _ => none

/-- A problem and its place. Lines and columns count from 1, columns in bytes. -/
structure ParseError where
  line : Nat
  column : Nat
  problem : Problem
  deriving DecidableEq, Repr

def ParseError.message (e : ParseError) : String :=
  Nat.repr e.line ++ ":" ++ Nat.repr e.column ++ ": " ++ e.problem.summary ++
    match e.problem.cause with
    | none => ""
    | some cause => ": " ++ cause.message

def ParseError.at (source : Bytes) (offset : Nat) (problem : Problem) : ParseError :=
  let before := source.take offset
  { line := before.count newline + 1
    column := (before.reverse.takeWhile (· != newline)).length + 1
    problem }

/-- What has been noted so far: the farthest place with an expectation, what was expected there, and a
problem that ends the parse. -/
structure Journal where
  farthest : Nat := 0
  expected : List Token := []
  fatal : Option (Nat × Problem) := none

def Journal.add (j : Journal) : Note → Journal
  | .expected offset token =>
    if j.farthest < offset then { j with farthest := offset, expected := [token] }
    else if offset = j.farthest ∧ token ∉ j.expected then { j with expected := j.expected ++ [token] }
    else j
  | .tooLarge offset digits =>
    if j.fatal.isSome then j else { j with fatal := some (offset, .tooLarge digits) }
  | .badFrame offset cause => { j with fatal := some (offset, .badFrame cause) }

def Journal.addAll (j : Journal) (notes : List Note) : Journal :=
  notes.foldl Journal.add j

/-- A parse under way: the frames read, last first, the canvas declared last, and the journal. -/
structure Progress where
  frames : List Frame := []
  canvas : Option Canvas := none
  journal : Journal := {}

def Progress.note (p : Progress) (notes : List Note) : Progress :=
  { p with journal := p.journal.addAll notes }

def Progress.declare (p : Progress) (size : Option Canvas) : Progress :=
  { p with canvas := size.or p.canvas }

/-- Read comments and frames from a cursor until no rule applies or a problem ends the parse. The record
that the rules keep is handed on from each to the next. -/
def items {σ : Type} (rules : Rules σ) : Nat → Progress → σ → Cursor → Progress × Cursor × σ
  | 0, p, record, c => (p, c, record)
  | rounds + 1, p, record, c =>
    let (remark, record) := rules.comment record c
    let p := p.note remark.notes
    match remark.result with
    | some (size, next) => items rules rounds (p.declare size) record next
    | none =>
      if p.journal.fatal.isSome then (p, c, record)
      else
        let (outcome, record) := rules.frame record c
        let p := p.note outcome.notes
        match outcome.result with
        | some ((frame, size), next) =>
          items rules rounds ({ p with frames := frame :: p.frames }.declare size) record next
        | none => (p, c, record)

def Progress.reel (p : Progress) : Reel :=
  match p.canvas with
  | none => { frames := p.frames.reverse }
  | some size => { frames := p.frames.reverse, canvasWidth := size.width, canvasHeight := size.height }

/-- Parse a source text with the given rules. The record of the rules is returned too. -/
def parseWith {σ : Type} (rules : Rules σ) (record : σ) (source : Bytes) :
    Except ParseError Reel × σ :=
  let (p, c, record) := items rules (source.length + 1) {} record (Cursor.start source)
  let answer := match p.journal.fatal with
    | some (offset, problem) => .error (ParseError.at source offset problem)
    | none =>
      if (c.skip isSpace).rest = [] ∧ p.frames ≠ [] then .ok p.reel
      else
        let problem := .unexpected source[p.journal.farthest]? p.journal.expected
        .error (ParseError.at source p.journal.farthest problem)
  (answer, record)

/-- An accepted source text: its frames, and how many results the memo held in the end. -/
structure Parsed where
  reel : Reel
  memoEntries : Nat

def parseMemoized (source : Bytes) : Except ParseError Parsed :=
  match parseWith .memoized {} source with
  | (.ok reel, memo) => .ok ⟨reel, memo.size⟩
  | (.error e, _) => .error e

def parse (source : Bytes) : Except ParseError Reel :=
  (parseMemoized source).map Parsed.reel

inductive LoadError (ε : Type) where
  | unreadable (cause : ε)
  | rejected (error : ParseError)

def LoadError.message {ε : Type} (causeMessage : ε → String) : LoadError ε → String
  | .unreadable cause => "reading frame source: " ++ causeMessage cause
  | .rejected error => error.message

/-- The frames of a source in any of its encodings, when reading it may fail. -/
def load {ε : Type} (d : Decoders) (source : Except ε Bytes) : Except (LoadError ε) Parsed :=
  match source with
  | .error cause => .error (.unreadable cause)
  | .ok bytes => (parseMemoized (d.normalize bytes)).mapError .rejected

end Petscii.Source

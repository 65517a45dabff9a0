import Petscii.Asm.Expr
/-!
# Instructions

Generated code needs a dozen 6502 instructions: the accumulator carries the data and X counts loops. The
operands of loads and stores are of any type that has a text. Three tails close the loops: counting X down
to zero, counting it down to zero inclusive, and counting it up to a limit.
-/

namespace Petscii.Asm

inductive Instruction (α : Type) where
  | ldaImmediate (value : Int)
  | lda (address : α)
  | ldaIndexed (base : α)
  | sta (address : α)
  | staIndexed (base : α)
  | ldx (value : Int)
  | inx
  | dex
  | cpx (value : Int)
  | bne (label : String)
  | bpl (label : String)
  | rts
  deriving DecidableEq, Repr

namespace Instruction

def text {α : Type} (operand : α → String) : Instruction α → String
  | .ldaImmediate value => "lda\t#" ++ Int.repr value
  | .lda address => "lda\t" ++ operand address
  | .ldaIndexed base => "lda\t" ++ operand base ++ ",x"
  | .sta address => "sta\t" ++ operand address
  | .staIndexed base => "sta\t" ++ operand base ++ ",x"
  | .ldx value => "ldx\t#" ++ Int.repr value
  | .inx => "inx"
  | .dex => "dex"
  | .cpx value => "cpx\t#" ++ Int.repr value
  | .bne label => "bne\t" ++ label
  | .bpl label => "bpl\t" ++ label
  | .rts => "rts"

/-- Count X down and go on until it is zero. -/
def untilZero {α : Type} (label : String) : List (Instruction α) :=
  [.dex, .bne label]

/-- Count X down and go on until it has passed zero. -/
def pastZero {α : Type} (label : String) : List (Instruction α) :=
  [.dex, .bpl label]

/-- Count X up and go on until it is `limit`. -/
def upTo {α : Type} (limit : Int) (label : String) : List (Instruction α) :=
  [.inx, .cpx limit, .bne label]

end Instruction

end Petscii.Asm

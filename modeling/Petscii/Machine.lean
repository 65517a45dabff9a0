import Petscii.Asm.Assemble
/-!
# The machine

The part of a 6502 that generated code uses: the accumulator, the index register X, the zero and the
negative flag, and 64K of memory. Loads and the counting of X set the flags; a comparison sets them from
the difference; a store leaves them alone.

Code is run from one of its labels on. A branch goes on behind the label it names. Running ends at a
return or behind the last line.
-/

namespace Petscii.Machine

open Asm

abbrev Memory := UInt16 → UInt8

def Memory.set (memory : Memory) (address : UInt16) (value : UInt8) : Memory := fun a =>
  if a = address then value else memory a

/-- The memory with bytes from an address on. -/
def Memory.place (memory : Memory) (origin : Nat) (bytes : Bytes) : Memory := fun a =>
  if origin ≤ a.toNat then (bytes[a.toNat - origin]?).getD (memory a) else memory a

structure State where
  a : UInt8 := 0
  x : UInt8 := 0
  zero : Bool := false
  negative : Bool := false
  memory : Memory
  /-- The addresses stored to so far, last first. -/
  stores : List UInt16 := []

def State.flag (s : State) (value : UInt8) : State :=
  { s with zero := value == 0, negative := 0x80 ≤ value }

def State.setA (s : State) (value : UInt8) : State :=
  { s with a := value }.flag value

def State.setX (s : State) (value : UInt8) : State :=
  { s with x := value }.flag value

def State.store (s : State) (address : UInt16) : State :=
  { s with memory := s.memory.set address s.a, stores := address :: s.stores }

def State.indexed (s : State) (base : UInt16) : UInt16 :=
  base + s.x.toUInt16

def State.step (s : State) : Instruction UInt16 → State
  | .ldaImmediate value => s.setA value.toNat.toUInt8
  | .lda address => s.setA (s.memory address)
  | .ldaIndexed base => s.setA (s.memory (s.indexed base))
  | .sta address => s.store address
  | .staIndexed base => s.store (s.indexed base)
  | .ldx value => s.setX value.toNat.toUInt8
  | .inx => s.setX (s.x + 1)
  | .dex => s.setX (s.x - 1)
  | .cpx value => s.flag (s.x - value.toNat.toUInt8)
  | .bne _ => s
  | .bpl _ => s
  | .rts => s

inductive Flow where
  | onward
  | branch (label : String)
  | leave

def State.flow (s : State) : Instruction UInt16 → Flow
  | .bne label => if s.zero then .onward else .branch label
  | .bpl label => if s.negative then .onward else .branch label
  | .rts => .leave
  | _ => .onward

def behind (name : String) : List Item → Option (List Item)
  | [] => none
  | .label l :: rest => if l = name then some rest else behind name rest
  | .instruction _ :: rest => behind name rest

inductive Outcome where
  /-- At a return. -/
  | returned (s : State)
  /-- Behind the last line. -/
  | ended (s : State)
  /-- At a branch to a label that is not there. -/
  | lost (label : String)
  /-- Not within the steps it was given. -/
  | running

/-- Run the code `here`, a part of `code`, for at most so many lines. -/
def run (code : List Item) : Nat → List Item → State → Outcome
  | 0, _, _ => .running
  | _ + 1, [], s => .ended s
  | steps + 1, .label _ :: rest, s => run code steps rest s
  | steps + 1, .instruction i :: rest, s =>
    let next := s.step i
    match s.flow i with
    | .onward => run code steps rest next
    | .leave => .returned next
    | .branch name =>
      match behind name code with
      | none => .lost name
      | some there => run code steps there next

def call (code : List Item) (steps : Nat) (name : String) (s : State) : Outcome :=
  match behind name code with
  | none => .lost name
  | some there => run code steps there s

/-- Whether a routine, called from a state, returns in another one. -/
def Returns (code : List Item) (name : String) (s t : State) : Prop :=
  ∃ steps, call code steps name s = .returned t

end Petscii.Machine

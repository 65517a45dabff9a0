import Petscii.Asm.Line
/-!
# Assembling

A module is assembled against the addresses of the symbols it imports and the place of its data. Repeated
lines are copied out with their counter bound. Labels of the data get addresses, and labels of the code
stay in the code, where branches look for them; a label inside a procedure is known only there. Every
symbol of a module is defined once, every imported one must have an address and every exported one must be
a label of the code. A value in an operand or in the data must be a byte. An address is taken modulo 64K.
-/

namespace Petscii.Asm

/-- A line, and the values of the counters it stands under. -/
structure BoundLine where
  line : Line
  counters : List (String × Int) := []

/-- Lines under repetition, last first. -/
structure Repetition where
  times : Nat
  counter : String
  body : List Line

def Repetition.copies (r : Repetition) : List BoundLine :=
  (List.range r.times).flatMap fun (i : Nat) => r.body.reverse.map fun line => ⟨line, [(r.counter, (i : Int))]⟩

/-- Copy out repeated lines. Repetitions do not nest. -/
def expandFrom : Option Repetition → List Line → Option (List BoundLine)
  | none, [] => some []
  | some _, [] => none
  | none, .directive (.repeated times counter) :: rest => expandFrom (some ⟨times, counter, []⟩) rest
  | none, .directive .endrepeat :: _ => none
  | none, line :: rest => (expandFrom none rest).map (⟨line, []⟩ :: ·)
  | some _, .directive (.repeated _ _) :: _ => none
  | some r, .directive .endrepeat :: rest => (expandFrom none rest).map (r.copies ++ ·)
  | some r, line :: rest => expandFrom (some { r with body := line :: r.body }) rest

def expand (lines : List Line) : Option (List BoundLine) :=
  expandFrom none lines

/-- A line of the code before its operands have values: a label, or an instruction with its counters. The
procedure it stands in is given by name. -/
inductive Draft where
  | label (scope : Option String) (name : String)
  | instruction (scope : Option String) (counters : List (String × Int)) (i : Instruction Expr)

structure Layout where
  imports : List String := []
  exports : List String := []
  code : List Draft := []
  /-- Labels of the data, by their offset in it. -/
  labels : List (String × Nat) := []
  data : List Cell := []

/-- Where a line stands: in the data or in the code, the procedure, and the size of the data before. -/
structure Position where
  inData : Bool := false
  scope : Option String := none
  offset : Nat := 0

def layoutFrom (p : Position) : List BoundLine → Option Layout
  | [] => if p.scope.isSome then none else some {}
  | ⟨line, counters⟩ :: rest =>
    match line with
    | .blank => layoutFrom p rest
    | .comment _ => layoutFrom p rest
    | .label name =>
      if p.inData then do
        let l ← layoutFrom p rest
        return { l with labels := (name, p.offset) :: l.labels }
      else do
        let l ← layoutFrom p rest
        return { l with code := .label p.scope name :: l.code }
    | .instruction i =>
      if p.inData then none
      else do
        let l ← layoutFrom p rest
        return { l with code := .instruction p.scope counters i :: l.code }
    | .directive (.importSymbol name) => do
      let l ← layoutFrom p rest
      return { l with imports := name :: l.imports }
    | .directive (.exportSymbol name) => do
      let l ← layoutFrom p rest
      return { l with exports := name :: l.exports }
    | .directive .rodata => layoutFrom { p with inData := true } rest
    | .directive .code => layoutFrom { p with inData := false } rest
    | .directive (.proc name) =>
      if p.scope.isSome ∨ p.inData then none
      else do
        let l ← layoutFrom { p with scope := some name } rest
        return { l with code := .label none name :: l.code }
    | .directive .endproc =>
      if p.scope.isNone then none else layoutFrom { p with scope := none } rest
    | .directive (.byte values) => do
      let l ← layoutFrom { p with offset := p.offset + values.length } rest
      return { l with data := values ++ l.data }
    | .directive (.repeated _ _) => none
    | .directive .endrepeat => none

/-- The code labels known in a scope and nowhere else. -/
def Layout.labelsIn (l : Layout) (scope : Option String) : List String :=
  l.code.filterMap fun d =>
    match d with
    | .label s name => if s = scope then some name else none
    | .instruction _ _ _ => none

def Layout.scopes (l : Layout) : List String :=
  l.code.filterMap fun d =>
    match d with
    | .label (some s) _ => some s
    | _ => none

def Layout.globals (l : Layout) : List String :=
  l.imports ++ l.labels.map Prod.fst ++ l.labelsIn none

/-- Whether every symbol is defined once, every imported one has an address and every exported one is a
label of the code. -/
def Layout.isSound (l : Layout) (imports : Symbols) : Bool :=
  decide l.globals.Nodup &&
    l.scopes.all (fun s => decide (l.labelsIn (some s)).Nodup) &&
    l.imports.all (fun name => (imports name).isSome) &&
    l.exports.all fun name => decide (name ∈ l.labelsIn none)

/-- The values of the symbols in an operand: counters first, then the data's labels and the imports.
Labels of the code have no value, and inside a procedure its own labels hide others of their name. -/
def Layout.symbols (l : Layout) (imports : Symbols) (origin : Nat) (scope : Option String)
    (counters : List (String × Int)) : Symbols := fun name =>
  match counters.lookup name with
  | some value => some value
  | none =>
    if scope.isSome ∧ name ∈ l.labelsIn scope then none
    else match l.labels.lookup name with
      | some offset => some (origin + offset : Nat)
      | none => if name ∈ l.imports then imports name else none

def readByte (value : Int) : Option Int :=
  if 0 ≤ value ∧ value ≤ 0xFF then some value else none

/-- The name under which a label is placed and looked for: inside a procedure, the procedure's own label
if it has one. -/
def Layout.qualify (l : Layout) (scope : Option String) (name : String) : String :=
  match scope with
  | none => name
  | some s => if name ∈ l.labelsIn scope then s ++ "::" ++ name else name

def Layout.resolve (l : Layout) (symbols : Symbols) (scope : Option String) :
    Instruction Expr → Option (Instruction UInt16)
  | .ldaImmediate value => (readByte value).map .ldaImmediate
  | .lda address => (address.eval symbols).map fun value => .lda (.ofInt value)
  | .ldaIndexed base => (base.eval symbols).map fun value => .ldaIndexed (.ofInt value)
  | .sta address => (address.eval symbols).map fun value => .sta (.ofInt value)
  | .staIndexed base => (base.eval symbols).map fun value => .staIndexed (.ofInt value)
  | .ldx value => (readByte value).map .ldx
  | .inx => some .inx
  | .dex => some .dex
  | .cpx value => (readByte value).map .cpx
  | .bne label => some (.bne (l.qualify scope label))
  | .bpl label => some (.bpl (l.qualify scope label))
  | .rts => some .rts

inductive Item where
  | label (name : String)
  | instruction (i : Instruction UInt16)
  deriving DecidableEq, Repr

def Layout.link (l : Layout) (imports : Symbols) (origin : Nat) : Draft → Option Item
  | .label scope name => some (.label (l.qualify scope name))
  | .instruction scope counters i =>
    (l.resolve (l.symbols imports origin scope counters) scope i).map .instruction

structure Assembly where
  code : List Item
  data : Bytes
  exports : List String

/-- Assemble a module whose data starts at `origin`. -/
def assemble (imports : Symbols) (origin : Nat) (lines : List Line) : Option Assembly := do
  let bound ← expand lines
  let l ← layoutFrom {} bound
  if !l.isSound imports then none
  let code ← l.code.mapM (l.link imports origin)
  let data ← l.data.mapM fun c => (readByte c.toInt).map fun _ => c.byte
  return { code, data, exports := l.exports }

end Petscii.Asm

import Petscii.Proofs.Program.Stage

/-!
# Reducing values to bytes

A value of a frame need not be a byte, and code that has such a value for an operand is not assembled. What
the code does apart from its values can still be told from the code with every operand and every value of
its data reduced to the low byte. This is the code for the frame with its values reduced, and where all
values are bytes nothing changes.
-/

namespace Petscii

namespace Asm

/-- A line with its operand, or its values, reduced to bytes. -/
def Line.low : Line → Line
  | .directive (.byte values) => .directive (.byte (values.map Cell.low))
  | .instruction (.ldaImmediate value) => .instruction (.ldaImmediate (value % 256))
  | .instruction (.ldx value) => .instruction (.ldx (value % 256))
  | .instruction (.cpx value) => .instruction (.cpx (value % 256))
  | line => line

theorem labelsOf_low (lines : List Line) : labelsOf (lines.map Line.low) = labelsOf lines := by
  induction lines with
  | nil => rfl
  | cons line lines ih =>
    cases line with
    | label name => exact congrArg (name :: ·) ih
    | directive d => cases d <;> exact ih
    | instruction i => cases i <;> exact ih
    | _ => exact ih

theorem tableRows_map (f : Cell → Cell) (values : List Cell) :
    tableRows (values.map f) = (tableRows values).map (List.map f) := by
  simp only [tableRows, List.length_map, List.map_map, Function.comp_def, List.map_take, List.map_drop]

end Asm

namespace Program

open Asm

def Block.low (block : Block) : Block :=
  { block with
    code := block.code.map Line.low
    data := block.data.map Line.low }

theorem Block.low_append (a b : Block) : (a.append b).low = a.low.append b.low := by
  simp only [Block.low, Block.append, List.map_append]

theorem low_tablesLines (tables : List Table) :
    (tablesLines tables).map Line.low = tablesLines (tables.map fun t => (t.1, t.2.map Cell.low)) := by
  have htable : ∀ t : Table, (tableLines t.1 t.2).map Line.low = tableLines t.1 (t.2.map Cell.low) := by
    intro t
    simp only [tableLines, table, tableRows_map, List.map_cons, List.map_map]
    rfl
  simp only [tablesLines, List.map_flatMap, List.flatMap_map, htable]

theorem low_writesLines (writes : Writes) :
    (writesLines writes).map Line.low = writesLines (writes.map fun w => (w.1, w.2.low)) := by
  have hregister : ∀ w : UInt16 × Cell,
      (Builder.registerLines w.2 w.1).map Line.low = Builder.registerLines w.2.low w.1 := by
    intro w
    simp only [Builder.registerLines, List.map_cons, List.map_nil, Line.low, Cell.toInt_low]
  simp only [writesLines, List.map_flatMap, List.flatMap_map, hregister]

section Blocks

variable (target : Target) {next : Frame} {first count : Nat}

theorem low_loopLines (n : Nat) (runs : List Run) :
    (loopLines target first n runs).map Line.low = loopLines target first n runs := by
  induction runs generalizing n with
  | nil => rfl
  | cons r runs ih =>
    rw [loopLines, List.map_append, ih]
    rfl

theorem loopTables_low (n : Nat) (runs : List Run) :
    loopTables target next.low first count n runs =
      (loopTables target next first count n runs).map fun t => (t.1, t.2.map Cell.low) := by
  induction runs generalizing n with
  | nil => rfl
  | cons r runs ih =>
    rw [loopTables, loopTables, ih, List.map_cons, Frame.plane_low, List.map_take, List.map_drop]

/-- The code for the reduced frame is the reduced code. -/
theorem stepBlock_low (hnext : next.Full) (n : Nat) {step : Run.Step} (hwalks : step.Walks first count)
    (hone : ∀ r, step = .store r → count = 1) :
    ∃ block, stepBlock target next n step = .ok block ∧ stepBlock target next.low n step = .ok block.low := by
  have hspan := hwalks.span
  have hinside := hwalks.inside
  cases step with
  | store r =>
    obtain ⟨span, p⟩ := r
    cases hone _ rfl
    simp only [Run.Step.span] at hspan
    subst hspan
    refine ⟨_, storeBlock_eq target hnext p (by omega) _, ?_⟩
    rw [stepBlock, storeBlock_eq target hnext.low p (by omega), Frame.cellAt_low, Cell.toInt_low]
    rfl
  | loop anchor riders =>
    have hpos := hwalks.pos
    have hshort := hwalks.short
    refine ⟨_, by rw [stepBlock, hspan, loopBlock_eq hnext hpos hshort hinside], ?_⟩
    rw [stepBlock, hspan, loopBlock_eq hnext.low hpos hshort hinside]
    have hcount : (count : Int) % 256 = count := Int.emod_eq_of_lt (by omega) (by omega)
    simp only [Block.low, List.map_append, low_loopLines, low_tablesLines, loopTables_low, Frame.plane_low,
      List.map_cons, List.map_nil, Line.low, hcount, List.length_flatten, List.map_map, Function.comp_def,
      List.length_take, List.length_drop, List.length_map]

theorem stepsBlock_low (hnext : next.Full) {steps : List Run.Step}
    (hsteps : ∀ step ∈ steps, ∃ first count, step.Walks first count ∧ ∀ r, step = .store r → count = 1)
    (n : Nat) :
    ∃ block, stepsBlock target next n steps = (block, .ok ()) ∧
      stepsBlock target next.low n steps = (block.low, .ok ()) := by
  induction steps generalizing n with
  | nil => exact ⟨{}, rfl, rfl⟩
  | cons step steps ih =>
    obtain ⟨first, count, hwalks, hone⟩ := hsteps step List.mem_cons_self
    obtain ⟨block, hblock, hlow⟩ := stepBlock_low target hnext n hwalks hone
    obtain ⟨more, hmore, hlowMore⟩ :=
      ih (fun step' hstep' => hsteps step' (List.mem_cons_of_mem step hstep')) (n + block.labels)
    refine ⟨block.append more, ?_, ?_⟩
    · rw [stepsBlock, hblock]
      simp only [hmore]
    · have hlabels : block.low.labels = block.labels := rfl
      rw [stepsBlock, hlow]
      simp only [hlabels, hlowMore, Block.low_append]

end Blocks

end Program

end Petscii

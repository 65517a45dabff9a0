import Mathlib.Algebra.GroupWithZero.Nat
import Petscii.Proofs.Program.Module

/-!
# The books of a builder

A builder counts its routines, its labels and what it has written, beside the lines themselves. The counts
agree with the lines in every state that calls can lead to, in whatever order the calls come and whether
they succeed or fail: a block keeps its own books, a builder that takes a block adds them to its own, and a
call adds blocks or leaves the builder alone. The numbers of the labels and the names of the routines then
tell all labels apart.
-/

namespace Petscii.Asm

/-! ### What a line refers to -/

def Line.branches : Line → List String
  | .instruction (.bne name) => [name]
  | .instruction (.bpl name) => [name]
  | _ => []

def Line.tables : Line → List String
  | .instruction (.lda ⟨.symbol name, _⟩) => [name]
  | .instruction (.ldaIndexed ⟨.symbol name, _⟩) => [name]
  | _ => []

def Line.values : Line → List Cell
  | .directive (.byte values) => values
  | _ => []

def Atom.symbols : Atom → List String
  | .symbol name => [name]
  | _ => []

def Term.symbols : Term → List String
  | .plus a => a.symbols
  | .plusProduct a b => a.symbols ++ b.symbols
  | .minus a => a.symbols

def Expr.symbols (e : Expr) : List String :=
  e.base.symbols ++ e.terms.flatMap Term.symbols

def Line.symbols : Line → List String
  | .instruction (.lda e) => e.symbols
  | .instruction (.ldaIndexed e) => e.symbols
  | .instruction (.sta e) => e.symbols
  | .instruction (.staIndexed e) => e.symbols
  | _ => []

end Petscii.Asm

namespace Petscii.Program

open Asm

/-! ### Blocks -/

/-- A symbol that no block defines: the screen, or the counter of repeated lines. -/
def Outside (target : Target) (name : String) : Prop :=
  name = target.screen ∨ name = Builder.counter

/-- The references of code are to labels that are there: tables in the data, branches in the code. -/
structure Refers (target : Target) (code data : List Line) : Prop where
  tables : ∀ name ∈ code.flatMap Line.tables, name ∈ labelsOf data
  branches : ∀ name ∈ code.flatMap Line.branches, name ∈ labelsOf code
  symbols : ∀ name ∈ code.flatMap Line.symbols, name ∈ labelsOf data ∨ Outside target name

theorem Refers.append {target : Target} {code data code' data' : List Line} (h : Refers target code data)
    (h' : Refers target code' data') : Refers target (code ++ code') (data ++ data') where
  tables name hname := by
    rw [labelsOf_append, List.mem_append]
    rw [List.flatMap_append, List.mem_append] at hname
    exact hname.imp (h.tables name) (h'.tables name)
  branches name hname := by
    rw [labelsOf_append, List.mem_append]
    rw [List.flatMap_append, List.mem_append] at hname
    exact hname.imp (h.branches name) (h'.branches name)
  symbols name hname := by
    rw [labelsOf_append, List.mem_append]
    rw [List.flatMap_append, List.mem_append] at hname
    rcases hname with hname | hname
    · exact (h.symbols name hname).imp_left Or.inl
    · exact (h'.symbols name hname).imp_left Or.inr

theorem Refers.of_nil {target : Target} {code : List Line} (htables : code.flatMap Line.tables = [])
    (hbranches : code.flatMap Line.branches = []) (hsymbols : code.flatMap Line.symbols = []) :
    Refers target code [] := by
  constructor
  · simp [htables]
  · simp [hbranches]
  · simp [hsymbols]

/-- The labels of a block are numbered from `n` on, its references are to labels that are there, and its
values are counted. -/
structure Filed (target : Target) (n : Nat) (block : Block) : Prop where
  labels : (labelsOf block.code ++ labelsOf block.data).Perm
    ((List.range' n block.labels).map (label target))
  refers : Refers target block.code block.data
  bytes : block.stats.dataBytes = (block.data.flatMap Line.values).length

/-- A block that writes so many runs, with labels for its loops and nothing else. -/
structure Booked (target : Target) (n : Nat) (block : Block) (runs : Nat) : Prop extends
    Filed target n block where
  numbered : block.labels = 2 * block.stats.loops + block.stats.foldedRuns
  written : block.stats.directStores + block.stats.loops + block.stats.foldedRuns = runs
  unnamed : block.stats.transitions = 0

section Blocks

variable {target : Target} {n : Nat}

theorem Filed.append {a b : Block} (ha : Filed target n a) (hb : Filed target (n + a.labels) b) :
    Filed target n (a.append b) where
  labels := by
    have hboth := ha.labels.append hb.labels
    rw [← List.map_append, List.range'_append_1] at hboth
    rw [Block.append, labelsOf_append, labelsOf_append]
    exact (perm_append_shuffle _ _ _ _).trans hboth
  refers := ha.refers.append hb.refers
  bytes := by
    have hsum : (a.append b).stats.dataBytes = a.stats.dataBytes + b.stats.dataBytes := rfl
    rw [hsum, ha.bytes, hb.bytes, Block.append, List.flatMap_append, List.length_append]

/-- Code without labels and operands that name a symbol can stand around a block. -/
theorem Filed.around {block : Block} (h : Filed target n block) {front back : List Line}
    (hfront : Refers target front []) (hback : Refers target back []) (hlabels : labelsOf front = [])
    (hlabels' : labelsOf back = []) : Filed target n { block with code := front ++ block.code ++ back } where
  labels := by
    rw [labelsOf_append, labelsOf_append, hlabels, hlabels', List.append_nil, List.nil_append]
    exact h.labels
  refers := by
    have hall := (hfront.append h.refers).append hback
    rwa [List.append_nil] at hall
  bytes := h.bytes

theorem Booked.empty (n : Nat) : Booked target n {} 0 where
  labels := List.Perm.refl _
  refers := Refers.of_nil rfl rfl rfl
  bytes := rfl
  numbered := rfl
  written := rfl
  unnamed := rfl

theorem Booked.append {a b : Block} {runs runs' : Nat} (ha : Booked target n a runs)
    (hb : Booked target (n + a.labels) b runs') : Booked target n (a.append b) (runs + runs') where
  toFiled := ha.toFiled.append hb.toFiled
  numbered := by
    have ha := ha.numbered
    have hb := hb.numbered
    simp only [Block.append, Stats.add]
    omega
  written := by
    have ha := ha.written
    have hb := hb.written
    simp only [Block.append, Stats.add]
    omega
  unnamed := by
    have hsum : (a.append b).stats.transitions = a.stats.transitions + b.stats.transitions := rfl
    rw [hsum, ha.unnamed, hb.unnamed]

end Blocks

theorem symbols_destination {target : Target} (p : Plane) :
    ∀ name ∈ (destination target p).symbols, Outside target name := by
  intro name hname
  cases p with
  | colors => cases hname
  | _ => exact .inl (List.mem_singleton.1 hname)

section Steps

variable (target : Target) {next : Frame}

theorem storeBlock_booked (hnext : next.Full) (n : Nat) (p : Plane) {i : Nat} (hi : i < Screen.cells)
    (last : Int) : ∃ block, storeBlock target next ⟨⟨i, last⟩, p⟩ = .ok block ∧ Booked target n block 1 := by
  refine ⟨_, storeBlock_eq target hnext p hi last, ⟨List.Perm.refl _, ⟨?_, ?_, ?_⟩, rfl⟩, rfl, rfl, rfl⟩
  · simp [Line.tables]
  · simp [Line.branches]
  · intro name hname
    simp only [List.flatMap_cons, List.flatMap_nil, Line.symbols, Expr.symbols, Term.symbols, Atom.symbols,
      List.append_nil, List.nil_append] at hname
    exact .inr (symbols_destination p name hname)

theorem flatMap_tables_loopLines (first n : Nat) (runs : List Run) :
    (loopLines target first n runs).flatMap Line.tables = (List.range' n runs.length).map (label target) := by
  induction runs generalizing n with
  | nil => rfl
  | cons r runs ih =>
    rw [loopLines, List.flatMap_append, ih, List.length_cons, List.range'_succ, List.map_cons]
    rfl

theorem flatMap_branches_loopLines (first n : Nat) (runs : List Run) :
    (loopLines target first n runs).flatMap Line.branches = [] := by
  induction runs generalizing n with
  | nil => rfl
  | cons r runs ih =>
    rw [loopLines, List.flatMap_append, ih]
    rfl

theorem symbols_loopLines (first n : Nat) (runs : List Run) :
    ∀ name ∈ (loopLines target first n runs).flatMap Line.symbols,
      name ∈ (List.range' n runs.length).map (label target) ∨ Outside target name := by
  induction runs generalizing n with
  | nil => simp [loopLines]
  | cons r runs ih =>
    intro name hname
    rw [loopLines, List.flatMap_append, List.mem_append] at hname
    rw [List.length_cons, List.range'_succ, List.map_cons]
    rcases hname with hname | hname
    · simp only [copyLines, List.flatMap_cons, List.flatMap_nil, Line.symbols, Expr.symbols, Term.symbols,
        Atom.symbols, List.append_nil, List.mem_append, List.mem_singleton] at hname
      rcases hname with rfl | hname
      · exact .inl List.mem_cons_self
      · exact .inr (symbols_destination r.plane name hname)
    · exact (ih (n + 1) name hname).imp_left (List.mem_cons_of_mem _)

theorem flatMap_values_tablesLines (tables : List Table) :
    (tablesLines tables).flatMap Line.values = tables.flatMap Prod.snd := by
  have hrows : ∀ rows : List (List Cell),
      (rows.map fun row => Line.directive (.byte row)).flatMap Line.values = rows.flatten := by
    intro rows
    induction rows with
    | nil => rfl
    | cons row rows ih => rw [List.map_cons, List.flatMap_cons, ih, List.flatten_cons, Line.values]
  have htable : ∀ t : Table, (tableLines t.1 t.2).flatMap Line.values = t.2 := by
    intro t
    rw [tableLines, table, List.flatMap_cons, List.flatMap_cons, List.flatMap_cons, hrows, flatten_tableRows]
    rfl
  rw [tablesLines, List.flatMap_assoc]
  exact congrArg (List.flatMap · tables) (funext htable)

theorem loopBlock_booked (hnext : next.Full) {first count : Nat} (hpos : 0 < count) (hshort : count ≤ 255)
    (hinside : first + count ≤ Screen.cells) (n : Nat) (anchor : Run) (riders : List Run) :
    ∃ block, loopBlock target next n ⟨first, (first : Int) + count - 1⟩ (anchor :: riders) = .ok block ∧
      Booked target n block (riders.length + 1) := by
  have hlabels : labelsOf (tablesLines (loopTables target next first count n (anchor :: riders))) =
      (List.range' n (riders.length + 1)).map (label target) := by
    rw [labelsOf_tablesLines, map_fst_loopTables]
    rfl
  refine ⟨_, loopBlock_eq hnext hpos hshort hinside n (anchor :: riders), ⟨?_, ⟨?_, ?_, ?_⟩, ?_⟩, ?_, ?_, rfl⟩
  · rw [hlabels, labelsOf_append, labelsOf_append, labelsOf_loopLines, List.length_cons,
      List.range'_concat (s := n) (n := riders.length + 1), List.map_append, Nat.one_mul]
    exact List.perm_append_comm
  · intro name hname
    rw [hlabels]
    simp only [List.flatMap_append, flatMap_tables_loopLines, List.flatMap_cons, List.flatMap_nil, Line.tables,
      List.append_nil, List.nil_append] at hname
    exact hname
  · intro name hname
    simp only [List.flatMap_append, flatMap_branches_loopLines, List.flatMap_cons, List.flatMap_nil,
      Line.branches, List.append_nil, List.nil_append, List.mem_singleton] at hname
    rw [hname, labelsOf_append, labelsOf_append]
    exact List.mem_append_left _ (List.mem_append_left _ List.mem_cons_self)
  · intro name hname
    rw [hlabels]
    simp only [List.flatMap_append, List.flatMap_cons, List.flatMap_nil, Line.symbols, List.append_nil,
      List.nil_append] at hname
    exact symbols_loopLines target first n (anchor :: riders) name hname
  · rw [flatMap_values_tablesLines, List.flatMap_def, map_snd_loopTables]
  · simp only [List.length_cons]
    omega
  · simp only [List.length_cons]
    omega

theorem stepBlock_booked (hnext : next.Full) (n : Nat) {step : Run.Step} {first count : Nat}
    (hwalks : step.Walks first count) :
    ∃ block, stepBlock target next n step = .ok block ∧ Booked target n block step.runs.length := by
  have hspan := hwalks.span
  have hinside := hwalks.inside
  have hpos := hwalks.pos
  cases step with
  | store r =>
    obtain ⟨span, p⟩ := r
    simp only [Run.Step.span] at hspan
    subst hspan
    exact storeBlock_booked target hnext n p (by omega) _
  | loop anchor riders =>
    rw [stepBlock, hspan]
    exact loopBlock_booked target hnext hpos hwalks.short hinside n anchor riders

/-- The steps of a schedule become one block, and its books count all their runs. -/
theorem stepsBlock_booked (hnext : next.Full) {steps : List Run.Step}
    (hsteps : ∀ step ∈ steps, ∃ first count, step.Walks first count) (n : Nat) :
    ∃ block, stepsBlock target next n steps = (block, .ok ()) ∧
      Booked target n block (steps.flatMap Run.Step.runs).length := by
  refine stepsBlock_ok target (P := fun n step block => Booked target n block step.runs.length)
    (Q := fun n steps block => Booked target n block (steps.flatMap Run.Step.runs).length)
    (fun step hstep n => ?_) Booked.empty (fun n step steps block more hbooked hbooked' => ?_) n
  · obtain ⟨first, count, hwalks⟩ := hsteps step hstep
    exact stepBlock_booked target hnext n hwalks
  · rw [List.flatMap_cons, List.length_append]
    exact hbooked.append hbooked'

end Steps

/-! ### Builders -/

/-- The exports, the references and the data of a builder are in order, and its labels are its routines and
the numbered ones. -/
structure Kept (target : Target) (b : Builder) : Prop where
  aims : b.target = target
  labels : (labelsOf b.code ++ labelsOf b.data).Perm
    (b.exports ++ (List.range' 0 b.labels).map (label target))
  exported : ∀ name ∈ b.exports, name ∈ labelsOf b.code
  refers : Refers target b.code b.data
  bytes : b.stats.dataBytes = (b.data.flatMap Line.values).length

/-- A builder that goes on by a routine and what belongs to it stays in order. -/
theorem Kept.add {target : Target} {b b' : Builder} (h : Kept target b) {name : String} {block : Block}
    (hblock : Filed target b.labels block) (htarget : b'.target = b.target)
    (hcode : b'.code = b.code ++ ([.blank, .label name] ++ block.code))
    (hdata : b'.data = b.data ++ block.data) (hexports : b'.exports = b.exports ++ [name])
    (hlabels : b'.labels = b.labels + block.labels)
    (hbytes : b'.stats.dataBytes = b.stats.dataBytes + block.stats.dataBytes) : Kept target b' where
  aims := htarget.trans h.aims
  labels := by
    have hrange := List.range'_append_1 (s := 0) (m := b.labels) (n := block.labels)
    rw [Nat.zero_add] at hrange
    rw [hcode, hdata, hexports, hlabels, ← hrange, labelsOf_append, labelsOf_append, labelsOf_append,
      List.map_append]
    -- the new name stands in the code and among the exports, the rest is added to both sides
    have hname : (labelsOf b.code ++ ([name] ++ labelsOf block.code)).Perm
        ([name] ++ (labelsOf b.code ++ labelsOf block.code)) := by
      rw [← List.append_assoc, ← List.append_assoc]
      exact List.perm_append_comm.append_right _
    have hboth := (perm_append_shuffle _ _ _ _).trans (h.labels.append hblock.labels)
    have hexport : (b.exports ++ [name] ++ ((List.range' 0 b.labels).map (label target) ++
        (List.range' b.labels block.labels).map (label target))).Perm
        ([name] ++ (b.exports ++ (List.range' 0 b.labels).map (label target) ++
          (List.range' b.labels block.labels).map (label target))) := by
      rw [List.append_assoc b.exports ((List.range' 0 b.labels).map (label target)), ← List.append_assoc [name]]
      exact List.perm_append_comm.append_right _
    refine (hname.append_right _).trans (List.Perm.trans ?_ hexport.symm)
    rw [List.append_assoc]
    exact hboth.append_left _
  exported := by
    intro exported hexported
    rw [hcode, labelsOf_append, labelsOf_append, List.mem_append]
    rw [hexports, List.mem_append, List.mem_singleton] at hexported
    rcases hexported with hexported | rfl
    · exact .inl (h.exported exported hexported)
    · exact .inr (List.mem_append_left _ List.mem_cons_self)
  refers := by
    have hname : Refers target [.blank, .label name] [] := Refers.of_nil rfl rfl rfl
    rw [hcode, hdata]
    exact h.refers.append (hname.append hblock.refers)
  bytes := by rw [hbytes, h.bytes, hblock.bytes, hdata, List.flatMap_append, List.length_append]

def runsBetween (prev next : Frame) : Nat :=
  match prev.xor next with
  | .ok delta => (Builder.changedRuns delta).length
  | .error _ => 0

/-- A builder that has added transitions of so many runs each, and its counts. -/
structure Books (target : Target) (b : Builder) (runs : List Nat) : Prop extends Kept target b where
  exports : b.exports = (List.range' 1 runs.length).map (frameRoutine target) ++
    if b.finished then [initRoutine target] else []
  frames : b.frames = runs.length
  transitions : b.stats.transitions = runs.length
  numbered : b.labels = 2 * b.stats.loops + b.stats.foldedRuns + if b.finished then 3 else 0
  written : b.stats.directStores + b.stats.loops + b.stats.foldedRuns = runs.sum

section Calls

variable {target : Target} {b : Builder} {runs : List Nat}

theorem Books.begin (target : Target) (initial : Frame) : Books target { target, initial } [] where
  aims := rfl
  labels := List.Perm.refl _
  exported := by simp
  refers := Refers.of_nil rfl rfl rfl
  bytes := rfl
  exports := rfl
  frames := rfl
  transitions := rfl
  numbered := rfl
  written := rfl

theorem refers_writesLines (writes : Writes) : Refers target (writesLines writes) [] := by
  apply Refers.of_nil
  all_goals
    rw [writesLines, List.flatMap_assoc]
    exact List.flatMap_eq_nil_iff.2 fun w _ => rfl

/-- The changes between frames that fill the screen become a block, whatever labels are free. -/
theorem exists_transitionBlock (target : Target) {prev next : Frame} (hprev : prev.Full) (hnext : next.Full)
    (n : Nat) :
    ∃ delta block, prev.xor next = .ok delta ∧
      stepsBlock target next n (Run.schedule (Builder.changedRuns delta)) = (block, .ok ()) ∧
      (Builder.changedRuns delta).length = runsBetween prev next ∧
      Booked target n block (runsBetween prev next) := by
  obtain ⟨delta, hxor, hdelta, _⟩ := hprev.xor_eq hnext
  obtain ⟨block, hblock, hbooked⟩ := stepsBlock_booked target hnext (fun step hstep => by
    obtain ⟨first, count, hwalks, _⟩ := Run.schedule_walks (changedRuns_fits hdelta) hstep
    exact ⟨first, count, hwalks⟩) n
  have hruns : (Builder.changedRuns delta).length = runsBetween prev next := by rw [runsBetween, hxor]
  rw [Run.flatMap_schedule, hruns] at hbooked
  exact ⟨delta, block, hxor, hblock, hruns, hbooked⟩

theorem Books.addTransition (h : Books target b runs) (hopen : b.finished = false) {prev next : Frame}
    (hprev : prev.Full) (hnext : next.Full) :
    ∃ b', b.addTransition prev next = (b', .ok (runsBetween prev next)) ∧
      Books target b' (runs ++ [runsBetween prev next]) ∧ b'.finished = false := by
  obtain ⟨delta, block, hxor, hblock, hruns, hbooked⟩ :=
    exists_transitionBlock b.target hprev hnext b.labels
  have hadd := addTransition_eq hopen hxor hblock
  rw [hruns] at hadd
  rw [h.aims] at hbooked
  refine ⟨_, hadd, ?_, hopen⟩
  have hrts : Refers target [.instruction .rts] [] := Refers.of_nil rfl rfl rfl
  have hfiled := hbooked.toFiled.around (refers_writesLines (changedRegisters b.target delta next)) hrts
    (labelsOf_writesLines _) rfl
  have hnumbered := hbooked.numbered
  have hwritten := hbooked.written
  have hbefore := h.numbered
  have hbefore' := h.written
  constructor
  case toKept =>
    refine h.toKept.add hfiled rfl ?_ rfl rfl rfl ?_
    · simp only [transitionRoutine, Routine.lines, List.append_assoc]
    · simp [Stats.add]
  case exports =>
    have hexports := h.exports
    rw [hopen, if_neg Bool.false_ne_true, List.append_nil] at hexports ⊢
    rw [List.length_append, List.length_singleton, List.range'_concat, List.map_append, ← hexports,
      ← h.frames, h.aims, Nat.one_mul, Nat.add_comm 1]
    rfl
  case frames => rw [List.length_append, h.frames, List.length_singleton]
  case transitions =>
    simp only [Stats.add, h.transitions, hbooked.unnamed, List.length_append, List.length_singleton]
  case numbered =>
    simp only [hopen, Stats.add, Bool.false_eq_true, if_false] at hbefore ⊢
    omega
  case written =>
    simp only [Stats.add, List.sum_append, List.sum_singleton]
    omega

theorem initialBlock_filed (target : Target) (b : Builder) (htarget : b.target = target) :
    Filed target b.labels b.initialBlock := by
  subst htarget
  have hdata : b.initialBlock.data = tablesLines (initialTables b) := by
    simp only [Builder.initialBlock, initialTables, tablesLines, List.flatMap_cons, List.flatMap_nil,
      List.append_nil]
  have hlabels : labelsOf b.initialBlock.data =
      [label b.target b.labels, label b.target (b.labels + 1)] := by
    rw [hdata, labelsOf_tablesLines]
    rfl
  constructor
  · rw [hlabels]
    exact @List.perm_append_comm _ [label b.target (b.labels + 2)] _
  · constructor
    · intro name hname
      rw [hlabels]
      exact hname
    · intro name hname
      exact hname
    · intro name hname
      rw [hlabels]
      change name ∈ [label b.target b.labels, Builder.counter, b.target.screen, Builder.counter,
        label b.target (b.labels + 1), Builder.counter, Builder.counter] at hname
      simp only [List.mem_cons, List.not_mem_nil, or_false] at hname ⊢
      rcases hname with hname | hname | hname | hname | hname | hname | hname
      · exact .inl (.inl hname)
      · exact .inr (.inr hname)
      · exact .inr (.inl hname)
      · exact .inr (.inr hname)
      · exact .inl (.inr hname)
      · exact .inr (.inr hname)
      · exact .inr (.inr hname)
  · rw [hdata, flatMap_values_tablesLines]
    simp [Builder.initialBlock, initialTables]

/-- Closing a builder adds the first routine, three labels and two tables. -/
theorem Books.close (h : Books target b runs) (hopen : b.finished = false) : Books target b.close runs where
  toKept := h.toKept.add (initialBlock_filed target b h.aims) rfl
    (by
      simp only [Builder.close, Builder.extend, Builder.openRoutine, List.append_assoc]
      rfl) rfl rfl rfl rfl
  exports := by
    have hexports := h.exports
    rw [hopen, if_neg Bool.false_ne_true, List.append_nil] at hexports
    have hclosed : b.close.exports = b.exports ++ [initRoutine b.target] := rfl
    rw [hclosed, hexports, h.aims]
    rfl
  frames := h.frames
  transitions := h.transitions
  numbered := by
    have hnumbered := h.numbered
    rw [hopen, if_neg Bool.false_ne_true] at hnumbered
    change b.labels + 3 = 2 * (b.stats.loops + 0) + (b.stats.foldedRuns + 0) + 3
    omega
  written := h.written

end Calls

/-! ### Sequences of calls -/

inductive Call where
  | add (prev next : Frame)
  | finish (room : Option Nat)

def Call.Full : Call → Prop
  | .add prev next => prev.Full ∧ next.Full
  | .finish _ => True

/-- The builder after a call, whatever its outcome. -/
def Builder.perform (b : Builder) : Call → Builder
  | .add prev next => (b.addTransition prev next).1
  | .finish room => (b.finish room).1

def Builder.performAll (b : Builder) (calls : List Call) : Builder :=
  calls.foldl Builder.perform b

/-- The transitions that calls add: those before the builder is finished. -/
def added : List Call → List (Frame × Frame)
  | [] => []
  | .add prev next :: calls => (prev, next) :: added calls
  | .finish _ :: _ => []

def finishes : List Call → Bool
  | [] => false
  | .add _ _ :: calls => finishes calls
  | .finish _ :: _ => true

section Runs

variable {target : Target} {b : Builder} {runs : List Nat}

theorem performAll_of_finished (hdone : b.finished = true) (calls : List Call) : b.performAll calls = b := by
  have hcall : ∀ call, b.perform call = b := by
    intro call
    cases call with
    | add prev next => rw [Builder.perform, Builder.addTransition, if_pos hdone]
    | finish room => rw [Builder.perform, Builder.finish, if_pos hdone]
  induction calls with
  | nil => rfl
  | cons call calls ih =>
    rw [Builder.performAll, List.foldl_cons, hcall]
    exact ih

theorem perform_finish (hopen : b.finished = false) (room : Option Nat) :
    b.perform (.finish room) = b.close := by
  rw [Builder.perform, Builder.finish, hopen]
  rfl

theorem Books.performAll (h : Books target b runs) (hopen : b.finished = false) {calls : List Call}
    (hfull : ∀ call ∈ calls, call.Full) :
    Books target (b.performAll calls) (runs ++ (added calls).map fun t => runsBetween t.1 t.2) ∧
      (b.performAll calls).finished = finishes calls := by
  induction calls generalizing b runs with
  | nil =>
    rw [added, List.map_nil, List.append_nil]
    exact ⟨h, hopen⟩
  | cons call calls ih =>
    cases call with
    | add prev next =>
      obtain ⟨hprev, hnext⟩ := hfull _ List.mem_cons_self
      obtain ⟨b', hadd, hbooks, hopen'⟩ := h.addTransition hopen hprev hnext
      have hstep : b.performAll (.add prev next :: calls) = b'.performAll calls := by
        rw [Builder.performAll, List.foldl_cons, Builder.perform, hadd]
        rfl
      have hrest := ih hbooks hopen' fun call hcall => hfull call (List.mem_cons_of_mem _ hcall)
      rw [List.append_assoc] at hrest
      rw [hstep]
      exact hrest
    | finish room =>
      have hstep : b.performAll (.finish room :: calls) = b.close := by
        rw [Builder.performAll, List.foldl_cons, perform_finish hopen]
        exact performAll_of_finished rfl calls
      rw [hstep, added, List.map_nil, List.append_nil]
      exact ⟨h.close hopen, rfl⟩

end Runs

/-! ### What the books say -/

/-- The books of a builder with these transitions: every label is placed once, every reference leads to a
label in the right place, the exports are the routines, and the counts agree with the lines. -/
structure Balanced (target : Target) (added : List (Frame × Frame)) (done : Bool) (b : Builder) : Prop where
  finished : b.finished = done
  labels_nodup : (labelsOf b.code ++ labelsOf b.data).Nodup
  tables : ∀ name ∈ b.code.flatMap Line.tables,
    (labelsOf b.data).count name = 1 ∧ (labelsOf b.code).count name = 0
  branches : ∀ name ∈ b.code.flatMap Line.branches,
    (labelsOf b.code).count name = 1 ∧ (labelsOf b.data).count name = 0
  symbols : ∀ name ∈ b.code.flatMap Line.symbols, (labelsOf b.data).count name = 1 ∨ Outside target name
  exports : b.exports = (List.range' 1 added.length).map (frameRoutine target) ++
    if done then [initRoutine target] else []
  exported : ∀ name ∈ b.exports, (labelsOf b.code).count name = 1
  frames : b.frames = added.length
  transitions : b.stats.transitions = added.length
  dataBytes : b.stats.dataBytes = (b.data.flatMap Line.values).length
  labels : b.labels = 2 * b.stats.loops + b.stats.foldedRuns + if done then 3 else 0
  runs : b.stats.directStores + b.stats.loops + b.stats.foldedRuns =
    (added.map fun t => runsBetween t.1 t.2).sum

theorem Books.labels_nodup {target : Target} {b : Builder} {runs : List Nat} (h : Books target b runs) :
    (labelsOf b.code ++ labelsOf b.data).Nodup := by
  have hframes : ((List.range' 1 runs.length).map (frameRoutine target)).Nodup :=
    (List.nodup_range' 1).map fun _ _ => frameRoutine_injective
  have hnumbered : ((List.range' 0 b.labels).map (label target)).Nodup :=
    (List.nodup_range' 1).map fun _ _ => label_injective
  have hinit : ∀ name ∈ (if b.finished then [initRoutine target] else []), name = initRoutine target := by
    intro name hname
    split at hname
    · exact List.mem_singleton.1 hname
    · cases hname
  rw [h.labels.nodup_iff, h.exports, List.nodup_append, List.nodup_append]
  refine ⟨⟨hframes, by split <;> simp, ?_⟩, hnumbered, ?_⟩
  · intro name hname other hother heq
    obtain ⟨k, _, rfl⟩ := List.mem_map.1 hname
    rw [hinit other hother] at heq
    exact frameRoutine_ne_initRoutine target k heq
  · intro name hname other hother heq
    obtain ⟨n, _, rfl⟩ := List.mem_map.1 hother
    rcases List.mem_append.1 hname with hname | hname
    · obtain ⟨k, _, rfl⟩ := List.mem_map.1 hname
      exact label_ne_frameRoutine target n k heq.symm
    · rw [hinit name hname] at heq
      exact label_ne_initRoutine target n heq.symm

theorem count_of_nodup_append {a b : List String} (h : (a ++ b).Nodup) :
    ∀ name ∈ a, a.count name = 1 ∧ b.count name = 0 := by
  intro name hname
  obtain ⟨ha, _, hapart⟩ := List.nodup_append.1 h
  exact ⟨List.count_eq_one_of_mem ha hname,
    List.count_eq_zero_of_not_mem fun hmem => hapart name hname name hmem rfl⟩

theorem Books.balanced {target : Target} {b : Builder} {transitions : List (Frame × Frame)}
    (h : Books target b (transitions.map fun t => runsBetween t.1 t.2)) :
    Balanced target transitions b.finished b := by
  have hcode := count_of_nodup_append h.labels_nodup
  have hdata := count_of_nodup_append (List.perm_append_comm.nodup_iff.1 h.labels_nodup)
  constructor
  case finished => rfl
  case labels_nodup => exact h.labels_nodup
  case tables => exact fun name hname => hdata name (h.refers.tables name hname)
  case branches => exact fun name hname => hcode name (h.refers.branches name hname)
  case symbols => exact fun name hname => (h.refers.symbols name hname).imp_left fun hmem => (hdata name hmem).1
  case exports => rw [h.exports, List.length_map]
  case exported => exact fun name hname => (hcode name (h.exported name hname)).1
  case frames => rw [h.frames, List.length_map]
  case transitions => rw [h.transitions, List.length_map]
  case dataBytes => exact h.bytes
  case labels => exact h.numbered
  case runs => exact h.written

/-- Whatever calls are made of a new builder, in any order and with any outcome, its books are balanced. -/
theorem performAll_balanced (target : Target) (initial : Frame) {calls : List Call}
    (hfull : ∀ call ∈ calls, call.Full) :
    Balanced target (added calls) (finishes calls)
      (Builder.performAll { target, initial } calls) := by
  obtain ⟨hbooks, hfinished⟩ := (Books.begin target initial).performAll rfl hfull
  rw [← hfinished]
  exact Books.balanced hbooks

/-- A cloudy sky. -/
def clouds : Frame :=
  ⟨"_clouds", 6, 6, 40, 25, List.replicate 1000 32, List.replicate 1000 15⟩

/-- The first drop, and another colour for the whole sky. -/
def rain : Frame :=
  ⟨"_rain", 6, 6, 40, 25, 46 :: List.replicate 999 32, List.replicate 1000 14⟩

/-- Two transitions, a sink without room for the text, and calls that come too late. -/
def showers : List Call :=
  [.add clouds rain, .add rain clouds, .finish (some 3), .add clouds rain, .finish none]

theorem performAll_balanced_showers :
    (∀ call ∈ showers, call.Full) ∧
      Balanced {} [(clouds, rain), (rain, clouds)] true
        (Builder.performAll { target := {}, initial := clouds } showers) := by
  have hclouds : clouds.Full := ⟨rfl, rfl, List.length_replicate, List.length_replicate⟩
  have hrain : rain.Full := ⟨rfl, rfl, by rw [rain, List.length_cons, List.length_replicate]; rfl,
    List.length_replicate⟩
  have hfull : ∀ call ∈ showers, call.Full := by
    simp only [showers, List.forall_mem_cons]
    exact ⟨⟨hclouds, hrain⟩, ⟨hrain, hclouds⟩, trivial, ⟨hclouds, hrain⟩, trivial, by simp⟩
  exact ⟨hfull, performAll_balanced {} clouds hfull⟩

end Petscii.Program

import Petscii.Proofs.Asm.Capture
import Petscii.Proofs.Program.Ledger
import Petscii.Proofs.Program.Play

/-!
# The names that a program binds

Whatever values its frames hold, a builder has plain code and tables for data until it is closed, and the
first routine then adds the one repetition. So the module of a closed builder is laid out, and besides the
screen it binds its routines, its numbered labels and the counter of the repetition, each of them once.
-/

namespace Petscii.Program

open Asm

/-! ### The shape of a builder -/

/-- Plain code that can be read, and tables for data. -/
structure Shaped (target : Target) (code data : List Line) : Prop where
  formed : Formed target code
  tables : ∃ tables, data = tablesLines tables

theorem Shaped.nil (target : Target) : Shaped target [] [] where
  formed := ⟨by simp, by simp⟩
  tables := ⟨[], rfl⟩

theorem Shaped.append {target : Target} {code data code' data' : List Line} (h : Shaped target code data)
    (h' : Shaped target code' data') : Shaped target (code ++ code') (data ++ data') where
  formed := h.formed.append h'.formed
  tables := by
    obtain ⟨tables, rfl⟩ := h.tables
    obtain ⟨tables', rfl⟩ := h'.tables
    exact ⟨tables ++ tables', List.flatMap_append.symm⟩

theorem Shaped.of_formed {target : Target} {code : List Line} (h : Formed target code) :
    Shaped target code [] :=
  ⟨h, [], rfl⟩

section Steps

variable (target : Target) {next : Frame}

theorem stepBlock_shaped (hnext : next.Full) (n : Nat) {step : Run.Step} {first count : Nat}
    (hwalks : step.Walks first count) :
    ∃ block, stepBlock target next n step = .ok block ∧ Shaped target block.code block.data := by
  have hspan := hwalks.span
  have hinside := hwalks.inside
  have hpos := hwalks.pos
  cases step with
  | store r =>
    obtain ⟨span, p⟩ := r
    simp only [Run.Step.span] at hspan
    subst hspan
    exact ⟨_, storeBlock_eq target hnext p (by omega) _, .of_formed (formed_store target _ p first)⟩
  | loop anchor riders =>
    rw [stepBlock, hspan]
    exact ⟨_, loopBlock_eq hnext hpos hwalks.short hinside n (anchor :: riders),
      formed_loop target first count n (anchor :: riders), _, rfl⟩

theorem stepsBlock_shaped (hnext : next.Full) {steps : List Run.Step}
    (hsteps : ∀ step ∈ steps, ∃ first count, step.Walks first count) (n : Nat) :
    Shaped target (stepsBlock target next n steps).1.code (stepsBlock target next n steps).1.data := by
  induction steps generalizing n with
  | nil => exact .nil target
  | cons step steps ih =>
    obtain ⟨first, count, hwalks⟩ := hsteps step List.mem_cons_self
    obtain ⟨block, hblock, hshaped⟩ := stepBlock_shaped target hnext n hwalks
    have hrest := ih (fun step' hstep' => hsteps step' (List.mem_cons_of_mem step hstep')) (n + block.labels)
    rw [stepsBlock, hblock]
    exact hshaped.append hrest

end Steps

theorem formed_writesLines (target : Target) (writes : Writes) : Formed target (writesLines writes) :=
  ⟨plain_writesLines writes, fun _ => legible_writesLines writes⟩

theorem formed_routine {target : Target} {name : String} {body : List Line}
    (hname : Named target → Source.isName name = true) (hbody : Formed target body) :
    Formed target ([.blank, .label name] ++ body ++ [.instruction .rts]) := by
  refine Formed.append (Formed.append ⟨by simp [Line.Plain], fun hnamed => ?_⟩ hbody)
    ⟨by simp [Line.Plain], fun _ => by simp [Line.Legible, Instruction.Legible]⟩
  simp only [List.forall_mem_cons]
  exact ⟨trivial, hname hnamed, by simp⟩

theorem addTransition_shaped {target : Target} {b b' : Builder} {runs : Nat} (htarget : b.target = target)
    (h : Shaped target b.code b.data) (hopen : b.finished = false) {prev next : Frame} (hprev : prev.Full)
    (hnext : next.Full) (hadd : b.addTransition prev next = (b', .ok runs)) :
    Shaped target b'.code b'.data := by
  subst htarget
  obtain ⟨delta, hxor, hdelta, _⟩ := hprev.xor_eq hnext
  obtain ⟨_, block, hxor', hblock, _⟩ := exists_transitionBlock b.target hprev hnext b.labels
  cases hxor.symm.trans hxor'
  rw [addTransition_eq hopen hxor hblock] at hadd
  cases hadd
  have hsteps := stepsBlock_shaped b.target hnext (fun step hstep => by
    obtain ⟨first, count, hwalks, _⟩ := Run.schedule_walks (changedRuns_fits hdelta) hstep
    exact ⟨first, count, hwalks⟩) b.labels
  rw [hblock] at hsteps
  have hbody := (formed_writesLines b.target (changedRegisters b.target delta next)).append hsteps.formed
  have hroutine := formed_routine (fun hnamed => isName_frameRoutine hnamed (b.frames + 1)) hbody
  exact h.append ⟨hroutine, hsteps.tables⟩

theorem addAll_books {target : Target} {frames : List Frame} (hfull : ∀ f ∈ frames, f.Full) (i : Nat) {b : Builder}
    {runs : List Nat} (hbooks : Books target b runs) (hshaped : Shaped target b.code b.data)
    (hopen : b.finished = false) :
    ∃ b' counts, Builder.addAll i b frames = .ok (b', counts) ∧ Books target b' (runs ++ counts) ∧
      Shaped target b'.code b'.data ∧ b'.finished = false ∧ counts.length = frames.length - 1 := by
  induction frames generalizing i b runs with
  | nil =>
    refine ⟨b, [], rfl, ?_, hshaped, hopen, rfl⟩
    rwa [List.append_nil]
  | cons prev frames ih =>
    cases frames with
    | nil =>
      refine ⟨b, [], rfl, ?_, hshaped, hopen, rfl⟩
      rwa [List.append_nil]
    | cons next rest =>
      obtain ⟨hprev, hrest⟩ := List.forall_mem_cons.1 hfull
      have hnext := hrest next List.mem_cons_self
      obtain ⟨b₁, hadd, hbooks₁, hopen₁⟩ := hbooks.addTransition hopen hprev hnext
      have hshaped₁ := addTransition_shaped hbooks.aims hshaped hopen hprev hnext hadd
      obtain ⟨b', counts, hall, hbooks', hshaped', hopen', hlength⟩ := ih hrest (i + 1) hbooks₁ hshaped₁ hopen₁
      refine ⟨b', runsBetween prev next :: counts, ?_, ?_, hshaped', hopen', ?_⟩
      · rw [Builder.addAll, hadd]
        simp only [hall]
        rfl
      · rwa [List.append_assoc] at hbooks'
      · simp only [List.length_cons] at hlength ⊢
        omega

/-- Every reel of frames that fill the screen is compiled, but for the first routine. -/
theorem transitions_books (target : Target) {reel : Reel} (htwo : 2 ≤ reel.frames.length)
    (hfull : ∀ f ∈ reel.frames, f.Full) :
    ∃ b counts, transitions target reel = .ok (b, counts) ∧ Books target b counts ∧
      Shaped target b.code b.data ∧ b.finished = false ∧ counts.length = reel.frames.length - 1 := by
  rw [transitions]
  cases hreel : reel.frames with
  | nil => simp [hreel] at htwo
  | cons first frames =>
    rw [hreel] at hfull htwo
    cases frames with
    | nil => simp at htwo
    | cons second rest => exact addAll_books hfull 0 (Books.begin target first) (.nil target) rfl

/-! ### The module of a closed builder -/

/-- The names that the program of so many frames binds besides the screen: the counter of the repetition, the
routines and the labels of loops and tables. -/
def ownNames (target : Target) (frames : Nat) (stats : Stats) : List String :=
  Builder.counter :: initRoutine target :: (List.range' 1 (frames - 1)).map (frameRoutine target) ++
    (List.range (2 * stats.loops + stats.foldedRuns + 3)).map (label target)

/-- Every name of a program but the counter is told by its last character that is no digit. -/
theorem notMem_ownNames {name : String} (hcounter : name ≠ Builder.counter)
    (htip : tip name ∉ [some 't', some 'e', some 'l']) (target : Target) (frames : Nat) (stats : Stats) :
    name ∉ ownNames target frames stats := by
  simp only [List.mem_cons, List.not_mem_nil, or_false, not_or] at htip
  simp only [ownNames, List.cons_append, List.mem_cons, List.mem_append, List.mem_map]
  rintro (h | rfl | ⟨k, _, rfl⟩ | ⟨n, _, rfl⟩)
  · exact hcounter h
  · exact htip.1 (tip_initRoutine target)
  · exact htip.2.1 (tip_frameRoutine target k)
  · exact htip.2.2 (tip_label target n)

theorem bindings_tablesLines (tables : List Table) : bindings (tablesLines tables) = labelsOf (tablesLines tables) := by
  apply List.filterMap_congr
  intro line hline
  rcases tablesLines_cases hline with rfl | ⟨t, _, rfl⟩ | ⟨row, rfl⟩ <;> rfl

/-- The module of a builder binds the screen's symbol, and then what its data and its code bind. -/
theorem bindings_moduleLines (b : Builder) :
    bindings b.moduleLines = b.target.screen :: (bindings b.data ++ bindings b.code) := by
  rw [Builder.moduleLines]
  simp only [bindings_append, List.cons_append, bindings_importSymbol, bindings_exports, List.nil_append]
  change _ :: ([] ++ bindings b.data ++ [] ++ bindings b.code ++ []) = _
  rw [List.nil_append, List.append_nil, List.append_nil]

/-- What the module of a closed builder lays out: the code of the transitions and of the first routine, and the
tables of both. -/
def closedLayout (target : Target) (b : Builder) (tables : List Table) : Layout where
  imports := [target.screen]
  exports := b.close.exports
  code := drafts none (under [] b.code ++ (initialRoutine b).bound)
  labels := offsets 0 (tables ++ initialTables b)
  data := (tables ++ initialTables b).flatMap Prod.snd

theorem close_tables {b : Builder} {tables : List Table} (h : b.data = tablesLines tables) :
    b.close.data = tablesLines (tables ++ initialTables b) := by
  rw [close_data, h]
  exact List.flatMap_append.symm

section Closed

variable {target : Target} {b : Builder} {counts : List Nat} (hbooks : Books target b counts)
  (hopen : b.finished = false)
include hbooks hopen

theorem exports_close : b.close.exports = (List.range' 1 counts.length).map (frameRoutine target) ++
    [initRoutine target] :=
  (hbooks.close hopen).exports

/-- Every label of a closed builder is numbered or names a routine. -/
theorem label_closed_cases {name : String} (hname : name ∈ labelsOf b.close.code ++ labelsOf b.close.data) :
    (∃ n, name = label target n) ∨ (∃ k, name = frameRoutine target k) ∨ name = initRoutine target := by
  rw [(hbooks.close hopen).labels.mem_iff, exports_close hbooks hopen] at hname
  simp only [List.mem_append, List.mem_map, List.mem_singleton] at hname
  rcases hname with (⟨k, _, rfl⟩ | rfl) | ⟨n, _, rfl⟩
  · exact .inr (.inl ⟨k, rfl⟩)
  · exact .inr (.inr rfl)
  · exact .inl ⟨n, rfl⟩

theorem isName_closed (hnamed : Named target) :
    ∀ name ∈ labelsOf b.close.code ++ labelsOf b.close.data, Source.isName name = true := by
  intro name hname
  rcases label_closed_cases hbooks hopen hname with ⟨n, rfl⟩ | ⟨k, rfl⟩ | rfl
  · exact isName_label hnamed n
  · exact isName_frameRoutine hnamed k
  · exact isName_initRoutine hnamed

variable (hshaped : Shaped target b.code b.data)
include hshaped

/-- The module of a closed builder binds the screen and its own names. -/
theorem bindings_closed :
    (bindings b.close.moduleLines).Perm
      (target.screen :: ownNames target (counts.length + 1) b.close.stats) := by
  have hclosed := hbooks.close hopen
  obtain ⟨tables, hdata⟩ := hshaped.tables
  have hdata : bindings b.close.data = labelsOf b.close.data := by
    rw [close_data, hdata, bindings_append, labelsOf_append, bindings_tablesLines, bindings_tablesLines]
  have hcode : bindings b.close.code = labelsOf b.close.code ++ [Builder.counter] := by
    rw [close_code, bindings_append, labelsOf_append, bindings_of_plain hshaped.formed.plain, List.append_assoc]
    rfl
  have hnumbered : b.close.labels = 2 * b.close.stats.loops + b.close.stats.foldedRuns + 3 := hclosed.numbered
  have hlabels := hclosed.labels
  rw [exports_close hbooks hopen, hnumbered, ← List.range_eq_range'] at hlabels
  rw [bindings_moduleLines, hclosed.aims, hdata, hcode, ownNames, Nat.add_sub_cancel]
  apply List.Perm.cons
  -- the counter goes to the front, and the first routine in front of the others
  rw [← List.append_assoc]
  refine (List.perm_append_singleton _ _).trans (List.Perm.cons _ ?_)
  exact List.perm_append_comm.trans (hlabels.trans (List.perm_append_comm.append_right _))

omit hbooks hopen in
theorem plain_closed : ∀ c ∈ under [] b.code ++ (initialRoutine b).bound, c.line.Plain := by
  intro c hc
  rcases List.mem_append.1 hc with hc | hc
  · obtain ⟨line, hline, rfl⟩ := List.mem_map.1 hc
    exact hshaped.formed.plain line hline
  · exact initialRoutine_sound.plain_bound c hc

theorem layout_closed_eq :
    ∃ bound tables, b.data = tablesLines tables ∧ expand b.close.moduleLines = some bound ∧
      layoutFrom {} bound = some (closedLayout target b tables) := by
  obtain ⟨tables, hdata⟩ := hshaped.tables
  have hlines : b.close.moduleLines = frontLines target b.close.exports (tables ++ initialTables b) ++
      (b.code ++ (initialRoutine b).lines) ++ [.blank] := by
    rw [Builder.moduleLines, frontLines, close_code, close_tables hdata, (hbooks.close hopen).aims]
  have hcode : ∀ rest, expandFrom none (b.code ++ (initialRoutine b).lines ++ rest) =
      (expandFrom none rest).map (under [] b.code ++ (initialRoutine b).bound ++ ·) := by
    intro rest
    have hroutine := expandFrom_routines (List.forall_mem_singleton.2 (initialRoutine_sound (b := b))) rest
    rw [List.flatMap_singleton, List.flatMap_singleton] at hroutine
    rw [List.append_assoc, expandFrom_append fun line hline => (hshaped.formed.plain line hline).single, hroutine,
      Option.map_map]
    simp only [Function.comp_def, List.append_assoc]
  rw [hlines]
  exact ⟨_, tables, hdata, expand_module target _ _ hcode, layout_module target _ _ (plain_closed hshaped)⟩

theorem layout_closed :
    ∃ bound l, expand b.close.moduleLines = some bound ∧ layoutFrom {} bound = some l ∧
      l.imports = [target.screen] ∧ l.code = drafts none (under [] b.code ++ (initialRoutine b).bound) := by
  obtain ⟨bound, tables, _, hexpand, hlayout⟩ := layout_closed_eq hbooks hopen hshaped
  exact ⟨bound, _, hexpand, hlayout, rfl, rfl⟩

/-- The module of a closed builder captures the screen's symbol exactly if it is one of its own names. -/
theorem uncaptured_closed_iff :
    Uncaptured (b.close.moduleLines.map Line.bare) target.screen ↔
      target.screen ∉ ownNames target (counts.length + 1) b.close.stats := by
  obtain ⟨bound, l, hexpand, hlayout, himports, _⟩ := layout_closed hbooks hopen hshaped
  exact uncaptured_bare_iff hexpand hlayout (himports ▸ List.mem_singleton_self _)
    (bindings_closed hbooks hopen hshaped)

theorem legible_closed (hnamed : Named target) : ∀ line ∈ b.close.moduleLines, line.Legible := by
  have hclosed := hbooks.close hopen
  have hname := isName_closed hbooks hopen hnamed
  have hdata : ∀ line ∈ b.close.data, line.Legible := by
    obtain ⟨tables, htables⟩ := hshaped.tables
    rw [close_tables htables]
    refine legible_tablesLines fun t ht => hname _ (List.mem_append_right _ ?_)
    rw [close_tables htables, labelsOf_tablesLines]
    exact List.mem_map_of_mem ht
  have hcode : ∀ line ∈ b.close.code, line.Legible := by
    have htarget : Named b.target := hbooks.aims ▸ hnamed
    rw [close_code, Routine.lines]
    intro line hline
    simp only [List.mem_append, List.mem_cons, List.not_mem_nil, or_false] at hline
    rcases hline with hline | ((rfl | rfl) | hline) | rfl
    · exact hshaped.formed.legible hnamed line hline
    · trivial
    · exact isName_initRoutine htarget
    · exact legible_initialRoutine htarget line hline
    · trivial
  intro line hline
  simp only [Builder.moduleLines, List.mem_append, List.mem_cons, List.mem_map, List.not_mem_nil, or_false] at hline
  rcases hline with (((((rfl | ⟨name, hmem, rfl⟩) | rfl) | hline) | rfl | rfl) | hline) | rfl
  · exact hclosed.aims ▸ hnamed.screen
  · exact hname name (List.mem_append_left _ (hclosed.exported name hmem))
  · trivial
  · exact hdata line hline
  · trivial
  · trivial
  · exact hcode line hline
  · trivial

end Closed

end Petscii.Program

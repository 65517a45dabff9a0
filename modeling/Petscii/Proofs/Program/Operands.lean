import Petscii.Proofs.Program.Bound
import Petscii.Proofs.Program.Change
import Petscii.Proofs.Source.RoundTrip

/-!
# Operands of a program

A value of a frame becomes an operand or an entry of a table as it was read, and nothing reduces it to a byte.
So the operands of a program are bytes exactly if all values of its frames are: the first routine has every
value of the first frame, and a transition has every value that changes. A program with a larger value is
written all the same, but no assembler takes it.
-/

namespace Petscii.Asm

/-! ### Operands of lines -/

/-- The operands and values of a line that have to be bytes. -/
def Line.operands : Line → List Int
  | .directive (.byte values) => values.map Int64.toInt
  | .instruction (.ldaImmediate value) => [value]
  | .instruction (.ldx value) => [value]
  | .instruction (.cpx value) => [value]
  | _ => []

def Bytewise (lines : List Line) : Prop :=
  ∀ v ∈ lines.flatMap Line.operands, 0 ≤ v ∧ v ≤ 0xFF

theorem bytewise_append {a b : List Line} : Bytewise (a ++ b) ↔ Bytewise a ∧ Bytewise b := by
  rw [Bytewise, List.flatMap_append]
  exact List.forall_mem_append

theorem bytewise_of_eq_nil {lines : List Line} (h : lines.flatMap Line.operands = []) : Bytewise lines := by
  simp [Bytewise, h]

section Links

variable {l : Layout} {imports : Symbols} {origin : Nat} {scope : Option String}

theorem bytewise_of_resolve {symbols : Symbols} {i : Instruction Expr} {j : Instruction UInt16}
    (h : l.resolve symbols scope i = some j) : Bytewise [.instruction i] := by
  have hread : ∀ {value : Int} {f : Int → Instruction UInt16}, (readByte value).map f = some j →
      ∀ v ∈ [value], 0 ≤ v ∧ v ≤ 0xFF := by
    intro value f h
    obtain ⟨_, hvalue, _⟩ := Option.map_eq_some_iff.1 h
    rw [readByte] at hvalue
    split at hvalue
    · next hbyte => exact List.forall_mem_singleton.2 hbyte
    · cases hvalue
  cases i with
  | ldaImmediate value => exact hread h
  | ldx value => exact hread h
  | cpx value => exact hread h
  | _ => exact bytewise_of_eq_nil rfl

theorem Links.bytewise {lines : List BoundLine} {items : List Item} (hplain : ∀ c ∈ lines, c.line.Plain)
    (h : Links l imports origin (drafts scope lines) items) : Bytewise (lines.map BoundLine.line) := by
  induction lines generalizing items with
  | nil => exact bytewise_of_eq_nil rfl
  | cons c lines ih =>
    obtain ⟨hc, hplain⟩ := List.forall_mem_cons.1 hplain
    rw [← List.singleton_append, drafts_append] at h
    obtain ⟨as, bs, _, hfirst, hrest⟩ := h.of_append
    refine (@bytewise_append [c.line] _).2 ⟨?_, ih hplain hrest⟩
    obtain ⟨line, counters⟩ := c
    cases line with
    | directive d => exact hc.elim
    | instruction i =>
      obtain ⟨item, hitem, _⟩ := Option.bind_eq_some_iff.1 (List.mapM_cons.symm.trans hfirst)
      obtain ⟨j, hj, _⟩ := Option.map_eq_some_iff.1 hitem
      exact bytewise_of_resolve hj
    | _ => exact bytewise_of_eq_nil rfl

end Links

end Petscii.Asm

namespace Petscii.Program

open Asm

/-! ### Operands of blocks -/

def Block.Bytewise (block : Block) : Prop :=
  Asm.Bytewise (block.code ++ block.data)

theorem Block.bytewise_append {a b : Block} : (a.append b).Bytewise ↔ a.Bytewise ∧ b.Bytewise := by
  simp only [Block.Bytewise, Block.append, Asm.bytewise_append]
  tauto

theorem bytewise_tablesLines {tables : List Table} :
    Bytewise (tablesLines tables) ↔ ∀ t ∈ tables, ∀ v ∈ t.2, 0 ≤ v.toInt ∧ v.toInt ≤ 0xFF := by
  have hlines : (tablesLines tables).flatMap Line.operands =
      ((tablesLines tables).flatMap Line.values).map Int64.toInt := by
    rw [List.map_flatMap]
    apply List.flatMap_congr
    intro line hline
    rcases tablesLines_cases hline with rfl | ⟨t, _, rfl⟩ | ⟨row, rfl⟩ <;> rfl
  rw [Bytewise, hlines, flatMap_values_tablesLines, List.forall_mem_map, List.forall_mem_flatMap]

theorem bytewise_writesLines {writes : Writes} :
    Bytewise (writesLines writes) ↔ ∀ w ∈ writes, 0 ≤ w.2.toInt ∧ w.2.toInt ≤ 0xFF := by
  rw [Bytewise, writesLines, List.flatMap_assoc, List.forall_mem_flatMap]
  exact forall₂_congr fun w _ => List.forall_mem_singleton

/-! ### Steps -/

section Steps

variable (target : Target) {next : Frame}

theorem flatMap_operands_loopLines (first n : Nat) (runs : List Run) :
    (loopLines target first n runs).flatMap Line.operands = [] := by
  induction runs generalizing n with
  | nil => rfl
  | cons r runs ih =>
    rw [loopLines, List.flatMap_append, ih]
    rfl

theorem forall_mem_loopTables (hnext : next.Full) {first count : Nat} (hinside : first + count ≤ Screen.cells)
    (n : Nat) (runs : List Run) {P : Cell → Prop} :
    (∀ t ∈ loopTables target next first count n runs, ∀ v ∈ t.2, P v) ↔
      ∀ p i, (∃ r ∈ runs, p = r.plane ∧ first ≤ i ∧ i < first + count) → P (next.cellAt p i) := by
  have hplane : ∀ p, (∀ v ∈ ((next.plane p).drop first).take count, P v) ↔
      ∀ i, first ≤ i → i < first + count → P (next.cellAt p i) := by
    intro p
    have hlength := hnext.length_plane p
    constructor
    · intro h i hlow hhigh
      refine h _ (List.mem_take_iff_getElem.2 ⟨i - first, ?_, ?_⟩)
      · rw [List.length_drop]
        omega
      · rw [Frame.cellAt_eq_getElem (by omega)]
        simp only [List.getElem_drop, Nat.add_sub_cancel' hlow]
    · intro h v hv
      obtain ⟨k, hk, rfl⟩ := List.mem_take_iff_getElem.1 hv
      rw [List.length_drop] at hk
      rw [List.getElem_drop, ← Frame.cellAt_eq_getElem]
      exact h _ (by omega) (by omega)
  induction runs generalizing n with
  | nil => simp [loopTables]
  | cons r runs ih =>
    rw [loopTables, List.forall_mem_cons, hplane]
    refine (and_congr_right' (ih (n + 1))).trans ⟨?_, ?_⟩
    · rintro ⟨hfirst, hrest⟩ p i ⟨q, hq, rfl, hlow, hhigh⟩
      rcases List.mem_cons.1 hq with rfl | hq
      · exact hfirst i hlow hhigh
      · exact hrest _ i ⟨q, hq, rfl, hlow, hhigh⟩
    · intro h
      refine ⟨fun i hlow hhigh => h _ i ⟨r, List.mem_cons_self, rfl, hlow, hhigh⟩, ?_⟩
      rintro p i ⟨q, hq, hrest⟩
      exact h p i ⟨q, List.mem_cons_of_mem r hq, hrest⟩

/-- A step has bytes for operands exactly if the cells that it walks have bytes for values. -/
theorem stepBlock_bytewise (hnext : next.Full) (n : Nat) {step : Run.Step} {first count : Nat}
    (hwalks : step.Walks first count) (hone : ∀ r, step = .store r → count = 1) :
    ∃ block, stepBlock target next n step = .ok block ∧ (block.Bytewise ↔
      ∀ p i, stepCells step p i → 0 ≤ (next.cellAt p i).toInt ∧ (next.cellAt p i).toInt ≤ 0xFF) := by
  have hspan := hwalks.span
  have hinside := hwalks.inside
  cases step with
  | store r =>
    obtain ⟨span, p⟩ := r
    cases hone _ rfl
    simp only [Run.Step.span] at hspan
    subst hspan
    refine ⟨_, storeBlock_eq target hnext p (by omega) _, ?_⟩
    simp only [stepCells_store]
    constructor
    · rintro h q i ⟨rfl, rfl⟩
      exact h _ List.mem_cons_self
    · intro h
      exact List.forall_mem_singleton.2 (h p first ⟨rfl, rfl⟩)
  | loop anchor riders =>
    have hshort := hwalks.short
    refine ⟨_, by rw [stepBlock, hspan, loopBlock_eq hnext hwalks.pos hshort hinside], ?_⟩
    have hcode : Bytewise ([.instruction (.ldx count), .label (label target (n + (anchor :: riders).length))] ++
        loopLines target first n (anchor :: riders) ++
        [.instruction .dex, .instruction (.bne (label target (n + (anchor :: riders).length)))]) := by
      simp only [bytewise_append]
      refine ⟨⟨?_, bytewise_of_eq_nil (flatMap_operands_loopLines target first n _)⟩, bytewise_of_eq_nil rfl⟩
      exact List.forall_mem_singleton.2 ⟨by omega, by omega⟩
    rw [Block.Bytewise, bytewise_append, and_iff_right hcode, bytewise_tablesLines,
      forall_mem_loopTables target hnext hinside]
    simp only [stepCells_loop hspan]

theorem stepsBlock_bytewise (hnext : next.Full) {steps : List Run.Step}
    (hsteps : ∀ step ∈ steps, ∃ first count, step.Walks first count ∧ ∀ r, step = .store r → count = 1)
    (n : Nat) :
    ∃ block, stepsBlock target next n steps = (block, .ok ()) ∧ (block.Bytewise ↔
      ∀ step ∈ steps, ∀ p i, stepCells step p i →
        0 ≤ (next.cellAt p i).toInt ∧ (next.cellAt p i).toInt ≤ 0xFF) := by
  refine stepsBlock_ok target
    (P := fun _ step block => block.Bytewise ↔
      ∀ p i, stepCells step p i → 0 ≤ (next.cellAt p i).toInt ∧ (next.cellAt p i).toInt ≤ 0xFF)
    (Q := fun _ steps block => block.Bytewise ↔ ∀ step ∈ steps,
      ∀ p i, stepCells step p i → 0 ≤ (next.cellAt p i).toInt ∧ (next.cellAt p i).toInt ≤ 0xFF)
    (fun step hstep n => ?_) (fun _ => by simp [Block.Bytewise, Bytewise])
    (fun _ _ _ _ _ hbytewise hrest => ?_) n
  · obtain ⟨first, count, hwalks, hone⟩ := hsteps step hstep
    exact stepBlock_bytewise target hnext n hwalks hone
  · rw [Block.bytewise_append, hbytewise, hrest, List.forall_mem_cons]

end Steps

/-! ### Transitions -/

def Builder.body (b : Builder) : Block where
  code := b.code
  data := b.data

/-- A builder goes on by the routines behind `prev`. Where the values of `prev` are bytes, the new operands
are bytes exactly if the values of the other frames are. -/
structure Grows (b b' : Builder) (prev : Frame) (frames : List Frame) : Prop where
  target : b'.target = b.target
  initial : b'.initial = b.initial
  finished : b'.finished = b.finished
  before : b'.body.Bytewise → b.body.Bytewise
  bytewise_iff : prev.Narrow → (b'.body.Bytewise ↔ b.body.Bytewise ∧ ∀ f ∈ frames, f.Narrow)
  linkable : (∀ f ∈ frames, f.Narrow) → Linkable b.target b.body → Linkable b.target b'.body

theorem Grows.refl (b : Builder) (prev : Frame) : Grows b b prev [] where
  target := rfl
  initial := rfl
  finished := rfl
  before h := h
  bytewise_iff _ := by simp
  linkable _ h := h

theorem Grows.trans {b b₁ b' : Builder} {prev next : Frame} {frames : List Frame} (h : Grows b b₁ prev [next])
    (h' : Grows b₁ b' next frames) : Grows b b' prev (next :: frames) where
  target := h'.target.trans h.target
  initial := h'.initial.trans h.initial
  finished := h'.finished.trans h.finished
  before hbytes := h.before (h'.before hbytes)
  bytewise_iff hprev := by
    rw [List.forall_mem_cons]
    constructor
    · intro hbytes
      obtain ⟨hbefore, hnext⟩ := (h.bytewise_iff hprev).1 (h'.before hbytes)
      have hnext := List.forall_mem_singleton.1 hnext
      exact ⟨hbefore, hnext, ((h'.bytewise_iff hnext).1 hbytes).2⟩
    · rintro ⟨hbefore, hnext, hframes⟩
      have hmiddle := (h.bytewise_iff hprev).2 ⟨hbefore, List.forall_mem_singleton.2 hnext⟩
      exact (h'.bytewise_iff hnext).2 ⟨hmiddle, hframes⟩
  linkable hnarrow hbefore := by
    obtain ⟨hnext, hframes⟩ := List.forall_mem_cons.1 hnarrow
    have hmiddle := h.linkable (List.forall_mem_singleton.2 hnext) hbefore
    rw [← h.target] at hmiddle ⊢
    exact h'.linkable hframes hmiddle

theorem transitionBlock_bytewise {b : Builder} {delta next : Frame} {block : Block} :
    (transitionBlock b delta next block).Bytewise ↔
      (∀ w ∈ changedRegisters b.target delta next, 0 ≤ w.2.toInt ∧ w.2.toInt ≤ 0xFF) ∧ block.Bytewise := by
  have hfront : Bytewise [.blank, .label (frameRoutine b.target (b.frames + 1))] := bytewise_of_eq_nil rfl
  have hback : Bytewise [.instruction .rts] := bytewise_of_eq_nil rfl
  simp only [Block.Bytewise, transitionBlock, transitionRoutine, Routine.lines, bytewise_append, bytewise_writesLines,
    hfront, hback, true_and, and_true, and_assoc]

/-- A value is a byte if the one before it is and it is one where they differ. -/
theorem byte_of_xor {old new delta : Cell} (hdelta : delta = old ^^^ new) (hold : 0 ≤ old.toInt ∧ old.toInt ≤ 0xFF)
    (hnew : delta ≠ 0 → 0 ≤ new.toInt ∧ new.toInt ≤ 0xFF) : 0 ≤ new.toInt ∧ new.toInt ≤ 0xFF := by
  by_cases hsame : delta = 0
  · rw [hdelta, Int64.xor_eq_zero_iff] at hsame
    rwa [← hsame]
  · exact hnew hsame

section Transition

variable {prev next delta : Frame} (hprev : prev.Full) (hnext : next.Full)
include hprev hnext

/-- Behind a frame of bytes, the values that a transition writes are bytes exactly if all values of the next
frame are: those that do not change are values of the frame before. -/
theorem changes_narrow_iff (target : Target) (hnarrow : prev.Narrow) (hdelta : delta.Full)
    (hborder : delta.border = prev.border ^^^ next.border)
    (hbackground : delta.background = prev.background ^^^ next.background)
    (hcell : ∀ p i, delta.cellAt p i = prev.cellAt p i ^^^ next.cellAt p i) :
    ((∀ w ∈ changedRegisters target delta next, 0 ≤ w.2.toInt ∧ w.2.toInt ≤ 0xFF) ∧
      ∀ step ∈ Run.schedule (Builder.changedRuns delta), ∀ p i, stepCells step p i →
        0 ≤ (next.cellAt p i).toInt ∧ (next.cellAt p i).toInt ≤ 0xFF) ↔ next.Narrow := by
  constructor
  · rintro ⟨hregisters, hcells⟩
    have hplane : ∀ p, p = .chars ∨ p = .colors → ∀ v ∈ next.plane p, 0 ≤ v.toInt ∧ v.toInt ≤ 0xFF := by
      intro p hp v hv
      obtain ⟨i, hi, rfl⟩ := List.getElem_of_mem hv
      rw [← Frame.cellAt_eq_getElem hi]
      rw [hnext.length_plane] at hi
      refine byte_of_xor (hcell p i) (hnarrow.plane (hprev.cellAt_mem p hi)) fun hne => ?_
      obtain ⟨step, hstep, hwritten⟩ := exists_stepCells hdelta hp hne
      exact hcells step hstep p i hwritten
    obtain ⟨hprevBorder, hprevBackground, _⟩ := Frame.narrow_iff.1 hnarrow
    refine Frame.narrow_iff.2 ⟨byte_of_xor hborder hprevBorder fun hne => ?_,
      byte_of_xor hbackground hprevBackground fun hne => ?_, hplane .chars (Or.inl rfl), hplane .colors (Or.inr rfl)⟩
    · exact hregisters (target.borderRegister, next.border) (by simp [changedRegisters, hne])
    · exact hregisters (target.backgroundRegister, next.background) (by simp [changedRegisters, hne])
  · intro h
    refine ⟨(changedRegisters_of target delta next).narrow h, fun step hstep p i hcells => ?_⟩
    exact h.plane (hnext.cellAt_mem p (stepCells_changed hdelta hstep hcells).2.1)

theorem addTransition_grows {b b' : Builder} {runs : Nat} (hopen : b.finished = false)
    (hadd : b.addTransition prev next = (b', .ok runs)) : Grows b b' prev [next] := by
  obtain ⟨delta, hxor, hdelta, hborder, hbackground, hcell⟩ := hprev.xor_eq hnext
  have hwalks := fun step hstep => @Run.schedule_walks _ (changedRuns_fits hdelta) step hstep
  obtain ⟨block, hblock, hbytewise⟩ := stepsBlock_bytewise b.target hnext hwalks b.labels
  rw [addTransition_eq hopen hxor hblock] at hadd
  cases hadd
  have hbody := @Block.bytewise_append b.body (transitionBlock b delta next block)
  refine ⟨rfl, rfl, rfl, fun hbytes => (hbody.1 hbytes).1, fun hnarrow => ?_, fun hnarrow hbefore => ?_⟩
  · refine hbody.trans (and_congr_right' ?_)
    rw [transitionBlock_bytewise, hbytewise, List.forall_mem_singleton]
    exact changes_narrow_iff hprev hnext b.target hnarrow hdelta hborder hbackground hcell
  · have hnarrow := List.forall_mem_singleton.1 hnarrow
    obtain ⟨_, hblock', htouches⟩ := stepsBlock_touches b.target hnext hnarrow hwalks b.labels
    cases hblock.symm.trans hblock'
    exact hbefore.append (transitionBlock_linkable delta hnarrow htouches)

end Transition

theorem addAll_grows {frames : List Frame} (i : Nat) {b b' : Builder} {counts : List Nat} {prev : Frame}
    (hfull : ∀ f ∈ prev :: frames, f.Full) (hopen : b.finished = false)
    (hall : Builder.addAll i b (prev :: frames) = .ok (b', counts)) : Grows b b' prev frames := by
  induction frames generalizing i b prev counts with
  | nil =>
    cases hall
    exact .refl _ prev
  | cons next rest ih =>
    obtain ⟨hprev, hrest⟩ := List.forall_mem_cons.1 hfull
    rw [Builder.addAll] at hall
    split at hall
    · cases hall
    · next b₁ runs hadd =>
      have hgrows := addTransition_grows hprev (hrest next List.mem_cons_self) hopen hadd
      cases hmore : Builder.addAll (i + 1) b₁ (next :: rest) with
      | error e =>
        rw [hmore] at hall
        cases hall
      | ok more =>
        rw [hmore] at hall
        cases hall
        exact hgrows.trans (ih (i + 1) hrest (hgrows.finished.trans hopen) hmore)

theorem transitions_grows {target : Target} {reel : Reel} {b : Builder} {counts : List Nat}
    (hfull : ∀ f ∈ reel.frames, f.Full) (hbuilt : transitions target reel = .ok (b, counts)) :
    ∃ first rest, reel.frames = first :: rest ∧ Grows { target, initial := first } b first rest := by
  rw [transitions] at hbuilt
  split at hbuilt
  · next first second rest hreel =>
    rw [hreel] at hfull
    exact ⟨first, second :: rest, hreel, addAll_grows 0 hfull rfl hbuilt⟩
  · cases hbuilt

/-! ### The module of a closed builder -/

section Close

variable {b : Builder}

/-- The first routine has the registers of its frame for operands, and counts that are bytes. -/
theorem bytewise_initialRoutine (hframes : b.frames < 0x10000) :
    Bytewise (initialRoutine b).lines ↔ Bytewise (writesLines (initialWrites b)) := by
  have hlines : (initialRoutine b).lines = [.blank, .label (initRoutine b.target)] ++ writesLines (initialWrites b) ++
      ([.instruction (.ldx 0), .label (initialLoop b), .directive (.repeated Builder.chunks Builder.counter)] ++
        initialChunk b ++ .directive .endrepeat :: initialTail b ++ [.instruction .rts]) := by
    simp only [Routine.lines, initialRoutine, initialHead, List.append_assoc, List.cons_append, List.nil_append]
  have hfront : Bytewise [.blank, .label (initRoutine b.target)] := bytewise_of_eq_nil rfl
  have hrest : Bytewise ([.instruction (.ldx 0), .label (initialLoop b),
      .directive (.repeated Builder.chunks Builder.counter)] ++ initialChunk b ++
        .directive .endrepeat :: initialTail b ++ [.instruction .rts]) := by
    change ∀ v ∈ [0, (Builder.chunkSize : Int), (b.frames % 256 : Nat), (b.frames / 256 : Nat)], 0 ≤ v ∧ v ≤ 0xFF
    simp only [List.forall_mem_cons]
    exact ⟨by decide, by decide, by omega, by omega, by simp⟩
  rw [hlines, bytewise_append, bytewise_append, and_iff_right hfront, and_iff_left hrest]

theorem bytewise_moduleLines (b : Builder) : Bytewise b.moduleLines ↔ Bytewise b.data ∧ Bytewise b.code := by
  have hfront : Bytewise (.directive (.importSymbol b.target.screen) ::
      b.exports.map (fun name => .directive (.exportSymbol name)) ++ [.directive .rodata]) := by
    apply bytewise_of_eq_nil
    simp [Line.operands]
  have hcode : Bytewise [.blank, .directive .code] := bytewise_of_eq_nil rfl
  have hback : Bytewise [.blank] := bytewise_of_eq_nil rfl
  rw [Builder.moduleLines]
  simp only [bytewise_append, hfront, hcode, hback, true_and, and_true]

/-- The operands of a closed builder's module are those of its transitions and the values of its first frame. -/
theorem bytewise_close_iff (hframes : b.frames < 0x10000) :
    Bytewise b.close.moduleLines ↔ b.body.Bytewise ∧ b.initial.Narrow := by
  have hinitial : (Bytewise (tablesLines (initialTables b)) ∧ Bytewise (writesLines (initialWrites b))) ↔
      b.initial.Narrow := by
    simp only [bytewise_tablesLines, bytewise_writesLines, initialTables, initialWrites, List.forall_mem_cons,
      List.not_mem_nil, false_imp_iff, implies_true, and_true, Frame.narrow_iff]
    tauto
  rw [bytewise_moduleLines, close_code, close_data, bytewise_append, bytewise_append, ← hinitial,
    bytewise_initialRoutine hframes, Block.Bytewise, Builder.body, bytewise_append]
  tauto

theorem map_line_bound : (initialRoutine b).bound.map BoundLine.line = [.blank, .label (initRoutine b.target)] ++
    (initialHead b ++ ((List.range Builder.chunks).flatMap (fun _ => initialChunk b) ++ initialTail b)) ++
      [.instruction .rts] := by
  simp only [Routine.bound, initialRoutine, List.map_append, map_line_under, List.map_flatMap, List.append_assoc]

/-- The repeated lines link wherever the tables have addresses, also if the counter has the screen's name. -/
theorem exists_links_initialChunk (ground : Ground b.target)
    (hnames : ∀ t ∈ initialTables b, ∃ address, ground.Names t.1 address) :
    ∃ items, Asm.Links ground.layout ground.imports ground.origin
      (drafts none ((List.range Builder.chunks).flatMap fun (i : Nat) =>
        under [(Builder.counter, (i : Int))] (initialChunk b))) items := by
  rw [drafts, List.filterMap_flatMap]
  apply Asm.Links.exists_flatMap
  intro i _
  have heval : ∀ {a : Atom} {value : Int},
      a.eval (ground.layout.symbols ground.imports ground.origin none []) = some value →
      ∃ address, Expr.eval (ground.layout.symbols ground.imports ground.origin none [(Builder.counter, (i : Int))])
        ⟨a, [.plusProduct (.symbol Builder.counter) (.number Builder.chunkSize)]⟩ = some address := by
    intro a value ha
    have hcounter : ground.layout.symbols ground.imports ground.origin none [(Builder.counter, (i : Int))]
        Builder.counter = some (i : Int) := Layout.symbols_of_counter List.lookup_cons_self
    cases a with
    | symbol name =>
      rcases eq_or_ne name Builder.counter with rfl | hname
      · exact ⟨_, eval_chunk hcounter hcounter⟩
      · exact ⟨_, eval_chunk ((symbols_under_counter hname _).trans ha) hcounter⟩
    | _ => exact ⟨_, eval_chunk ha hcounter⟩
  obtain ⟨chars, hchars⟩ := hnames _ List.mem_cons_self
  obtain ⟨colors, hcolors⟩ := hnames _ (List.mem_cons_of_mem _ List.mem_cons_self)
  obtain ⟨_, hloadChars⟩ := @heval (.symbol (label b.target b.labels)) _ hchars
  obtain ⟨_, hstoreChars⟩ := heval (ground.reaches .chars)
  obtain ⟨_, hloadColors⟩ := @heval (.symbol (label b.target (b.labels + 1))) _ hcolors
  obtain ⟨_, hstoreColors⟩ := heval (ground.reaches .colors)
  exact ⟨_, Asm.Links.cons (link_ldaIndexed hloadChars) (Asm.Links.cons (link_staIndexed hstoreChars)
    (Asm.Links.cons (link_ldaIndexed hloadColors) (Asm.Links.cons (link_staIndexed hstoreColors) Asm.Links.nil)))⟩

theorem exists_links_initial (ground : Ground b.target)
    (hnames : ∀ t ∈ initialTables b, ∃ address, ground.Names t.1 address)
    (hwrites : ∀ w ∈ initialWrites b, 0 ≤ w.2.toInt ∧ w.2.toInt ≤ 0xFF) (hframes : b.frames < 0x10000) :
    ∃ items, Asm.Links ground.layout ground.imports ground.origin (drafts none (initialRoutine b).bound) items := by
  obtain ⟨items, hchunk⟩ := exists_links_initialChunk ground hnames
  have hhead := links_initialHead ground hwrites
  have htail := links_initialTail ground hframes
  have hfront : ground.Links [.blank, .label (initRoutine b.target)] [.label (initRoutine b.target)] := rfl
  have hback : ground.Links [.instruction .rts] [.instruction .rts] := rfl
  simp only [Routine.bound, initialRoutine, drafts_append]
  exact ⟨_, Asm.Links.append hfront (Asm.Links.append (Asm.Links.append hhead (Asm.Links.append hchunk htail)) hback)⟩

end Close

theorem map_fst_close_tables {b : Builder} {tables : List Table} (h : b.data = tablesLines tables) :
    (tables ++ initialTables b).map Prod.fst = labelsOf b.close.data := by
  rw [close_tables h, labelsOf_tablesLines]

section Closed

variable {target : Target} {b : Builder} {counts : List Nat} (hbooks : Books target b counts)
  (hopen : b.finished = false)
include hbooks hopen

theorem isSound_closed_iff {tables : List Table} (hdata : b.data = tablesLines tables) {imports : Symbols}
    (himport : (imports target.screen).isSome = true) :
    (closedLayout target b tables).isSound imports = true ↔ target.screen ∉ labelsOf b.close.moduleLines := by
  have hclosed := hbooks.close hopen
  have hnames := map_fst_close_tables hdata
  have hcode : labelsOf ((under [] b.code ++ (initialRoutine b).bound).map BoundLine.line) =
      labelsOf b.close.code := by
    rw [List.map_append, map_line_under, close_code, labelsOf_append, labelsOf_append, map_line_bound]
    rfl
  have hdistinct := List.perm_append_comm.nodup_iff.1 hclosed.labels_nodup
  rw [Builder.labelsOf_moduleLines, ← hnames, ← hcode]
  rw [← hnames, ← hcode] at hdistinct
  exact isSound_drafts_iff rfl rfl rfl hdistinct (fun name hname => hcode ▸ hclosed.exported name hname) himport

variable (hshaped : Shaped target b.code b.data) (hframes : b.frames < 0x10000)
include hshaped hframes

theorem bytewise_of_assemble_closed {imports : Symbols} {origin : Nat} {assembly : Assembly}
    (h : assemble imports origin b.close.moduleLines = some assembly) : Bytewise b.close.moduleLines := by
  obtain ⟨bound, tables, hdata, hexpand, hlayout⟩ := layout_closed_eq hbooks hopen hshaped
  obtain ⟨_, hlinks, hnarrow, _⟩ := of_assemble_eq hexpand hlayout h
  refine (bytewise_moduleLines b.close).2 ⟨?_, ?_⟩
  · rw [close_tables hdata, bytewise_tablesLines]
    exact fun t ht v hv => hnarrow v (List.mem_flatMap.2 ⟨t, ht, hv⟩)
  · have hlines := hlinks.bytewise (plain_closed hshaped)
    rw [List.map_append, map_line_under, map_line_bound, initialHead] at hlines
    simp only [bytewise_append] at hlines
    obtain ⟨hcode, ⟨_, ⟨hwrites, _⟩, _⟩, _⟩ := hlines
    rw [close_code, bytewise_append, bytewise_initialRoutine hframes]
    exact ⟨hcode, hwrites⟩

/-- A module of bytes whose screen symbol is none of its labels is assembled, wherever its data is put. -/
theorem exists_assemble_closed (hlinkable : Linkable target b.body) (hbytes : Bytewise b.close.moduleLines)
    (hhidden : target.screen ∉ labelsOf b.close.moduleLines) {imports : Symbols} (origin : Nat) {screen : Nat}
    (himport : imports target.screen = some (screen : Int)) :
    ∃ assembly, assemble imports origin b.close.moduleLines = some assembly := by
  obtain ⟨bound, tables, hdata, hexpand, hlayout⟩ := layout_closed_eq hbooks hopen hshaped
  have himported : (imports target.screen).isSome = true := by rw [himport, Option.isSome_some]
  have hsound := (isSound_closed_iff hbooks hopen hdata himported).2 hhidden
  have haims := hbooks.aims
  subst haims
  have hnames := map_fst_close_tables hdata
  rw [Builder.labelsOf_moduleLines, List.mem_append, not_or, ← hnames] at hhidden
  have hdistinct := (List.nodup_append.1 (hbooks.close hopen).labels_nodup).2.1
  rw [← hnames] at hdistinct
  have hground := names_moduleGround (l := closedLayout b.target b tables) rfl rfl hhidden.1 hdistinct origin himport
  rw [bytewise_moduleLines, close_tables hdata, close_code, bytewise_append, bytewise_initialRoutine hframes,
    bytewise_tablesLines, bytewise_writesLines] at hbytes
  obtain ⟨hnarrow, _, hwrites⟩ := hbytes
  obtain ⟨items, hitems⟩ := hlinkable _ fun name hname => by
    rw [Builder.body, hdata, labelsOf_tablesLines] at hname
    obtain ⟨t, ht, rfl⟩ := List.mem_map.1 hname
    exact hground t (List.mem_append_left _ ht)
  obtain ⟨more, hmore⟩ := exists_links_initial _ (fun t ht => hground t (List.mem_append_right _ ht)) hwrites hframes
  have hlinks : Asm.Links (closedLayout b.target b tables) imports origin
      (drafts none (under [] b.code ++ (initialRoutine b).bound)) (items ++ more) := by
    rw [drafts_append]
    exact Asm.Links.append hitems hmore
  refine ⟨_, assemble_eq hexpand hlayout hsound hlinks fun c hc => ?_⟩
  obtain ⟨t, ht, hc⟩ := List.mem_flatMap.1 hc
  exact hnarrow t ht c hc

/-- Where the screen has an address, the module is assembled exactly if its operands are bytes and the screen's
symbol is none of its labels. -/
theorem exists_assemble_closed_iff (hlinkable : Bytewise b.close.moduleLines → Linkable target b.body)
    {imports : Symbols} (origin : Nat) {screen : Nat} (himport : imports target.screen = some (screen : Int)) :
    (∃ assembly, assemble imports origin b.close.moduleLines = some assembly) ↔
      Bytewise b.close.moduleLines ∧ Line.label target.screen ∉ b.close.moduleLines := by
  rw [← mem_labelsOf]
  constructor
  · rintro ⟨assembly, hassembly⟩
    refine ⟨bytewise_of_assemble_closed hbooks hopen hshaped hframes hassembly, ?_⟩
    obtain ⟨bound, tables, hdata, hexpand, hlayout⟩ := layout_closed_eq hbooks hopen hshaped
    obtain ⟨hsound, _⟩ := of_assemble_eq hexpand hlayout hassembly
    exact (isSound_closed_iff hbooks hopen hdata (by rw [himport, Option.isSome_some])).1 hsound
  · rintro ⟨hbytes, hhidden⟩
    exact exists_assemble_closed hbooks hopen hshaped hframes (hlinkable hbytes) hbytes hhidden origin himport

end Closed

/-! ### Programs from the source on -/

/-- The operands of a reel's program are bytes exactly if all its values are, and then the code of the
transitions links. -/
theorem transitions_bytewise {target : Target} {reel : Reel} {b : Builder} {counts : List Nat}
    (hfull : ∀ f ∈ reel.frames, f.Full) (hbuilt : transitions target reel = .ok (b, counts))
    (hframes : b.frames < 0x10000) :
    (Bytewise b.close.moduleLines ↔ ∀ f ∈ reel.frames, f.Narrow) ∧
      ((∀ f ∈ reel.frames, f.Narrow) → Linkable target b.body) := by
  obtain ⟨first, rest, hreel, hgrows⟩ := transitions_grows hfull hbuilt
  rw [bytewise_close_iff hframes, hgrows.initial, hreel, List.forall_mem_cons]
  refine ⟨⟨?_, ?_⟩, ?_⟩
  · rintro ⟨hbody, hfirst⟩
    exact ⟨hfirst, ((hgrows.bytewise_iff hfirst).1 hbody).2⟩
  · rintro ⟨hfirst, hrest⟩
    exact ⟨(hgrows.bytewise_iff hfirst).2 ⟨bytewise_of_eq_nil rfl, hrest⟩, hfirst⟩
  · rintro ⟨_, hrest⟩
    exact hgrows.linkable hrest fun _ _ => ⟨[], Asm.Links.nil⟩

/-- Every source of 2 to 65536 frames is compiled. Operands and values of its program are bytes exactly if all
values of the frames are, and exactly then it is assembled, if the screen's symbol is none of its labels. What
it assembles to plays the reel. -/
theorem write_bytewise_iff {source : Bytes} {reel : Reel} (target : Target) (hparse : Source.parse source = .ok reel)
    (htwo : 2 ≤ reel.frames.length) (hmany : reel.frames.length ≤ 65536) :
    ∃ lines stats, write none target reel = (utf8 (render Builder.indent lines), .ok stats) ∧
      (Named target → read (render Builder.indent lines) = some (lines.map Line.bare)) ∧
      (∀ name, Line.label name ∈ lines → (∃ n, name = label target n) ∨
        (∃ k, name = frameRoutine target k) ∨ name = initRoutine target) ∧
      (Bytewise lines ↔ ∀ f ∈ reel.frames, f.Narrow) ∧
      ∀ (imports : Symbols) (screen origin : Nat), imports target.screen = some (screen : Int) →
        ((∃ assembly, assemble imports origin lines = some assembly) ↔
          Bytewise lines ∧ Line.label target.screen ∉ lines) ∧
        ∀ assembly, assemble imports origin lines = some assembly → target.screen ≠ Builder.counter →
          Separate target screen ⟨origin, stats.dataBytes⟩ → Plays target screen origin reel.frames assembly := by
  have hfull : ∀ f ∈ reel.frames, f.Full := fun f hf => ((Source.readable_of_parse hparse).frames f hf).full
  obtain ⟨b, counts, hbuilt, hbooks, hshaped, hopen, hlength⟩ := transitions_books target htwo hfull
  have hframes : b.frames < 0x10000 := by
    rw [hbooks.frames, hlength]
    omega
  obtain ⟨hbytes, hlinkable⟩ := transitions_bytewise hfull hbuilt hframes
  refine ⟨b.close.moduleLines, b.close.stats, write_eq hbuilt hopen, fun hnamed => ?_, fun name hname => ?_, hbytes,
    fun imports screen origin himport => ⟨?_, fun assembly hassembly hcounter hsep => ?_⟩⟩
  · exact read_render (List.all_eq_true.1 (by decide)) (legible_closed hbooks hopen hshaped hnamed)
  · rw [← mem_labelsOf, Builder.labelsOf_moduleLines, List.mem_append, or_comm, ← List.mem_append] at hname
    exact label_closed_cases hbooks hopen hname
  · exact exists_assemble_closed_iff hbooks hopen hshaped hframes (fun h => hlinkable (hbytes.1 h)) origin himport
  · have hnarrow := hbytes.1 (bytewise_of_assemble_closed hbooks hopen hshaped hframes hassembly)
    obtain ⟨b', runs, routines, tables, hbuilt', _, hcompiled⟩ :=
      transitions_compiled htwo hmany (fun f hf => ⟨hfull f hf, hnarrow f hf⟩) hcounter
    cases hbuilt.symm.trans hbuilt'
    have hhidden := ((exists_assemble_closed_iff hbooks hopen hshaped hframes (fun h => hlinkable (hbytes.1 h)) origin
      himport).1 ⟨assembly, hassembly⟩).2
    obtain ⟨assembly', hassembly', _, hplays⟩ :=
      hcompiled.assemble_plays (List.ne_nil_of_length_pos (by omega)) hhidden himport hsep
    cases hassembly.symm.trans hassembly'
    exact hplays

/-- The background changes and nothing else does. -/
def flash (background : Cell) : Reel where
  frames := [Source.uniform "_low" 0 6 32 14, Source.uniform "_high" 0 background 32 14]

theorem readable_flash {background : Cell} (h : 0 ≤ background.toInt) : Source.Readable (flash background) := by
  have hlow : Source.ReadableFrame (Source.uniform "_low" 0 6 32 14) :=
    @Source.readable_uniform (utf8 "low") ⟨108, utf8 "ow", rfl, rfl, List.all_eq_true.1 (by decide)⟩ _ _ _ _
      (by decide)
  have hhigh : Source.ReadableFrame (Source.uniform "_high" 0 background 32 14) :=
    @Source.readable_uniform (utf8 "high") ⟨104, utf8 "igh", rfl, rfl, List.all_eq_true.1 (by decide)⟩ _ _ _ _
      (by simp [h])
  refine ⟨?_, List.cons_ne_nil _ _, none, rfl, by simp [Source.canvasItems]⟩
  simp only [flash, List.forall_mem_cons]
  exact ⟨hlow, hhigh, by simp⟩

theorem changedRuns_flash (background : Cell) :
    Builder.changedRuns ⟨"_low", 0, background, 40, 25, List.replicate 1000 0, List.replicate 1000 0⟩ = [] := by
  have hspans : Span.split maxLoop (Span.changed (List.replicate 1000 0)) = [] := by decide +kernel
  simp only [Builder.changedRuns, hspans]
  simp [Run.merge]

theorem dataBytes_flash : (write none {} (flash 255)).2.map Stats.dataBytes = .ok 2000 := by
  have hdelta : (Source.uniform "_low" 0 6 32 14).xor (Source.uniform "_high" 0 255 32 14) =
      .ok ⟨"_low", 0, 249, 40, 25, List.replicate 1000 0, List.replicate 1000 0⟩ := by decide +kernel
  simp only [write, transitions, flash, Builder.addAll, Builder.addTransition, hdelta, changedRuns_flash]
  decide +kernel

theorem write_bytewise_iff_flash :
    Source.parse (Source.write none (flash 255)).1 = .ok (flash 255) ∧ 2 ≤ (flash 255).frames.length ∧
      (flash 255).frames.length ≤ 65536 ∧ ∃ lines stats assembly,
        write none {} (flash 255) = (utf8 (render Builder.indent lines), .ok stats) ∧ Bytewise lines ∧
        assemble (fun _ => some 0x0400) 0x1000 lines = some assembly ∧
        Plays {} 0x0400 0x1000 (flash 255).frames assembly := by
  have hparse := (@readable_flash 255 (by decide)).parse_write
  have htwo : 2 ≤ (flash 255).frames.length := Nat.le_refl 2
  have hmany : (flash 255).frames.length ≤ 65536 := by decide
  obtain ⟨lines, stats, hwrite, _, hlabels, hiff, hassemble⟩ := write_bytewise_iff {} hparse htwo hmany
  have hbytes : Bytewise lines := by
    rw [hiff]
    intro f hf v hv
    simp only [flash, List.mem_cons, List.not_mem_nil, or_false] at hf
    rcases hf with rfl | rfl <;>
      simp only [Source.uniform, Frame.payload, List.mem_cons, List.mem_append, List.mem_replicate] at hv <;>
      rcases hv with rfl | rfl | ⟨_, rfl⟩ | ⟨_, rfl⟩ <;> decide
  have hsep : Separate {} 0x0400 ⟨0x1000, stats.dataBytes⟩ := by
    have hsize := dataBytes_flash
    rw [hwrite] at hsize
    rw [Except.ok.inj hsize]
    constructor
    · simp [drawn, Machine.Region.Fits, Screen.cells, Screen.width, Screen.height]
    · simp [drawn, Machine.Region.Apart, Screen.cells, Screen.width, Screen.height]
  have hhidden : Line.label "ANIMATIONSCREEN" ∉ lines := by
    intro hmem
    rcases hlabels _ hmem with ⟨n, h⟩ | ⟨k, h⟩ | h
    · exact absurd (congrArg tip h) (by rw [tip_label]; decide)
    · exact absurd (congrArg tip h) (by rw [tip_frameRoutine]; decide)
    · exact absurd (congrArg tip h) (by rw [tip_initRoutine]; decide)
  obtain ⟨hexists, hplays⟩ := hassemble (fun _ => some 0x0400) 0x0400 0x1000 rfl
  obtain ⟨assembly, hassembly⟩ := hexists.2 ⟨hbytes, hhidden⟩
  exact ⟨hparse, htwo, hmany, lines, stats, assembly, hwrite, hbytes, hassembly,
    hplays assembly hassembly (by decide) hsep⟩

theorem mem_code_flash :
    (transitions {} (flash 300)).map (fun r => decide (.instruction (.ldaImmediate 300) ∈ r.1.code)) = .ok true := by
  have hdelta : (Source.uniform "_low" 0 6 32 14).xor (Source.uniform "_high" 0 300 32 14) =
      .ok ⟨"_low", 0, 298, 40, 25, List.replicate 1000 0, List.replicate 1000 0⟩ := by decide +kernel
  simp only [transitions, flash, Builder.addAll, Builder.addTransition, hdelta, changedRuns_flash]
  decide +kernel

-- the background is read as 300 and loaded as 300, and not as the 44 of its low byte
theorem write_flash_unassembled :
    Source.parse (Source.write none (flash 300)).1 = .ok (flash 300) ∧
      ∃ lines stats, write none {} (flash 300) = (utf8 (render Builder.indent lines), .ok stats) ∧
        read (render Builder.indent lines) = some (lines.map Line.bare) ∧
        .instruction (.ldaImmediate 300) ∈ lines ∧ ∀ imports origin, assemble imports origin lines = none := by
  have hreadable := @readable_flash 300 (by decide)
  have hfull : ∀ f ∈ (flash 300).frames, f.Full := fun f hf => (hreadable.frames f hf).full
  have htwo : 2 ≤ (flash 300).frames.length := Nat.le_refl 2
  obtain ⟨b, counts, hbuilt, hbooks, hshaped, hopen, hlength⟩ := transitions_books {} htwo hfull
  have hframes : b.frames < 0x10000 := by
    rw [hbooks.frames, hlength]
    decide
  have hmem : .instruction (.ldaImmediate 300) ∈ b.close.moduleLines := by
    have hcode := mem_code_flash
    rw [hbuilt] at hcode
    have hcode := of_decide_eq_true (Except.ok.inj hcode)
    simp only [Builder.moduleLines, close_code, List.mem_append]
    exact .inl (.inr (.inl hcode))
  refine ⟨hreadable.parse_write, _, _, write_eq hbuilt hopen, read_render (List.all_eq_true.1 (by decide))
    (legible_closed hbooks hopen hshaped ⟨by decide, by decide⟩), hmem, fun imports origin => ?_⟩
  rw [Option.eq_none_iff_forall_ne_some]
  intro assembly hassembly
  have hbytes := bytewise_of_assemble_closed hbooks hopen hshaped hframes hassembly
  exact absurd (hbytes 300 (List.mem_flatMap.2 ⟨_, hmem, List.mem_singleton_self _⟩)) (by decide)

end Petscii.Program

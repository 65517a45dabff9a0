import Petscii.Proofs.Program.Fragment
import Petscii.Proofs.Program.LowByte
import Petscii.Proofs.Program.Renew

/-!
# A transition stores only to what changes

The routine between two frames stores to a register exactly if it changes, and to every cell that changes. A
loop with a rider also stores to cells of one plane that change only on the other one, because it walks the
longer of its two runs on both planes; it never stores to a position where neither plane changes. All this
holds whatever the values of the frames are, and wherever the screen and the data are put.
-/

namespace Petscii.Program

open Asm Machine

/-- Two frames differ at a position, in the character or in the colour. -/
def Differ (prev next : Frame) (i : Nat) : Prop :=
  prev.cellAt .chars i ≠ next.cellAt .chars i ∨ prev.cellAt .colors i ≠ next.cellAt .colors i

/-! ### Cells of a schedule -/

/-- A step walks cells that change on one of the planes. -/
theorem stepCells_changed {delta : Frame} (hdelta : delta.Full) {step : Run.Step}
    (hstep : step ∈ Run.schedule (Builder.changedRuns delta)) {p : Plane} {i : Nat} (h : stepCells step p i) :
    (p = .chars ∨ p = .colors) ∧ i < Screen.cells ∧ (delta.cellAt .chars i ≠ 0 ∨ delta.cellAt .colors i ≠ 0) := by
  have hfits := changedRuns_fits hdelta
  obtain ⟨q, hq, rfl, hlow, hhigh⟩ := h
  obtain ⟨⟨r, hr, hspan⟩, _⟩ := Run.schedule_span (fun r hr => (hfits r hr).onScreen) hstep
  have hr := Run.mem_of_mem_schedule hstep hr
  rw [hspan] at hlow hhigh
  have hinside := (hfits r hr).small.high
  have hchanged := (exists_changedRun_iff hdelta (hfits r hr).plane i).1 ⟨r, hr, rfl, hlow, hhigh⟩
  refine ⟨(hfits q (Run.mem_of_mem_schedule hstep hq)).plane, by omega, ?_⟩
  rcases (hfits r hr).plane with hplane | hplane
  · exact Or.inl (hplane ▸ hchanged)
  · exact Or.inr (hplane ▸ hchanged)

/-! ### The routine -/

def transitionBlock (b : Builder) (delta next : Frame) (block : Block) : Block where
  code := (transitionRoutine b delta next block).lines
  data := block.data

theorem changedRegisters_low (target : Target) (delta next : Frame) :
    (changedRegisters target delta next).map (fun w => (w.1, w.2.low)) = changedRegisters target delta next.low := by
  simp only [changedRegisters, List.map_append, apply_ite (List.map _), List.map_cons, List.map_nil]
  rfl

theorem transitionBlock_low (b : Builder) (delta next : Frame) (block : Block) :
    (transitionBlock b delta next block).low = transitionBlock b delta next.low block.low := by
  simp only [transitionBlock, transitionRoutine, Routine.lines, Block.low, List.map_append, low_writesLines,
    changedRegisters_low]
  rfl

theorem mem_changedRegisters {target : Target} {delta next : Frame} {a : UInt16} :
    a ∈ (changedRegisters target delta next).map Prod.fst ↔
      delta.background ≠ 0 ∧ a = target.backgroundRegister ∨ delta.border ≠ 0 ∧ a = target.borderRegister := by
  have hif : ∀ {value : Cell} {register : UInt16} {v : Cell},
      a ∈ (if v = 0 then [] else [(register, value)]).map Prod.fst ↔ v ≠ 0 ∧ a = register := by
    intro value register v
    split
    · next hzero => simp [hzero]
    · next hne => simp [hne]
  rw [changedRegisters, List.map_append, List.mem_append, hif, hif]

section Routine

variable {b : Builder} {next : Frame} {block : Block} {tables : List Table} {cells : Plane → Nat → Prop}

theorem transitionBlock_fragment (delta : Frame) (h : Emits b.target next b.labels block tables cells) :
    Fragment (transitionBlock b delta next block) tables where
  data := h.data
  plain line hline := by
    simp only [transitionBlock, transitionRoutine, Routine.lines, List.mem_append, List.mem_cons, List.not_mem_nil,
      or_false] at hline
    rcases hline with ((rfl | rfl) | hline | hline) | rfl
    · trivial
    · trivial
    · exact plain_writesLines _ line hline
    · exact h.plain line hline
    · trivial
  distinct := by
    have hlabels : labelsOf (transitionBlock b delta next block).code =
        frameRoutine b.target (b.frames + 1) :: labelsOf block.code := by
      simp only [transitionBlock, transitionRoutine, Routine.lines, labelsOf_append, labelsOf_writesLines,
        List.nil_append]
      exact List.append_nil _
    rw [hlabels, List.nodup_middle, List.nodup_cons, (List.perm_append_comm.trans h.labels).nodup_iff,
      (List.perm_append_comm.trans h.labels).mem_iff]
    refine ⟨fun hmem => ?_, (List.nodup_range' 1).map fun _ _ => label_injective⟩
    obtain ⟨n, _, heq⟩ := List.mem_map.1 hmem
    exact label_ne_frameRoutine b.target n (b.frames + 1) heq
  narrow := h.narrow

/-- The routine links to a body that stores to the registers that change and to the cells of its steps. -/
theorem transitionBlock_links (delta : Frame) (hnarrow : next.Narrow) (h : Touches b.target block cells)
    (ground : Ground b.target) (hnames : ∀ name ∈ labelsOf block.data, ∃ address, ground.Names name address) :
    ∃ items, ground.Links (transitionBlock b delta next block).code
        (.label (frameRoutine b.target (b.frames + 1)) :: (items ++ [.instruction .rts])) ∧
      ∀ s₀, Performs items (· = s₀) (Touched (fun a =>
        a ∈ (changedRegisters b.target delta next).map Prod.fst ∨ ground.display.Addresses cells a) s₀) := by
  have hof := (changedRegisters_of b.target delta next).narrow hnarrow
  obtain ⟨items, hlinks, hperforms⟩ := h ground hnames
  have hhead : ground.Links [.blank, .label (frameRoutine b.target (b.frames + 1))]
      [.label (frameRoutine b.target (b.frames + 1))] := rfl
  have hlast : ground.Links [.instruction .rts] [.instruction .rts] := rfl
  refine ⟨_, (hhead.append ((links_writesLines ground hof).append hlinks)).append hlast, fun s₀ => ?_⟩
  refine ((performs_writes hof s₀).mono (fun _ hs => hs) fun t ht => ?_).append (hperforms _ s₀)
  exact ⟨_, ht.2, fun a => List.mem_reverse⟩

theorem transitionBlock_linkable (delta : Frame) (hnarrow : next.Narrow) (h : Touches b.target block cells) :
    Linkable b.target (transitionBlock b delta next block) := by
  intro ground hnames
  obtain ⟨items, hlinks, _⟩ := transitionBlock_links delta hnarrow h ground hnames
  exact ⟨_, hlinks⟩

theorem transitionBlock_returns {delta : Frame} (hnarrow : next.Narrow)
    (hemits : Emits b.target next b.labels block tables cells) (htouches : Touches b.target block cells)
    {imports : Symbols} {origin screen : Nat} {assembly : Assembly}
    (himport : imports b.target.screen = some (screen : Int))
    (hassembly : assemble imports origin ((transitionBlock b delta next block).moduleLines b.target) = some assembly)
    (s : State) :
    ∃ t, Returns assembly.code (frameRoutine b.target (b.frames + 1)) s t ∧ Touched (fun a =>
      a ∈ (changedRegisters b.target delta next).map Prod.fst ∨
        (display b.target screen).Addresses cells a) s t := by
  have hfragment := transitionBlock_fragment delta hemits
  obtain ⟨hhidden, hlinks, _, hplaced⟩ := hfragment.of_assemble himport hassembly
  obtain ⟨items, hitems, hperforms⟩ := transitionBlock_links delta hnarrow htouches _
    (hfragment.names origin hhidden himport)
  have hcode := Asm.Links.unique hlinks hitems
  rw [hcode] at hplaced ⊢
  exact @Performs.returns items (· = s) _ _ [] [] (hperforms s) hplaced s rfl

end Routine

/-! ### What is stored to -/

/-- The stores of a transition: the registers that change, the cells that change, and beside these at most
cells at positions where the frames differ. -/
structure StoresChanges (target : Target) (screen : Nat) (prev next : Frame) (log : List UInt16) : Prop where
  only : ∀ a ∈ log, (a = target.backgroundRegister ∧ prev.background ≠ next.background) ∨
    (a = target.borderRegister ∧ prev.border ≠ next.border) ∨
    ∃ p i, (p = .chars ∨ p = .colors) ∧ i < Screen.cells ∧ Differ prev next i ∧
      a = (display target screen).address p i
  cells : ∀ p i, p = .chars ∨ p = .colors → prev.cellAt p i ≠ next.cellAt p i →
    (display target screen).address p i ∈ log
  background : prev.background ≠ next.background → target.backgroundRegister ∈ log
  border : prev.border ≠ next.border → target.borderRegister ∈ log

/-- Where the planes and the registers lie apart, an address tells what is stored to. -/
structure StoresExactly (target : Target) (screen : Nat) (prev next : Frame) (log : List UInt16) : Prop where
  cells : ∀ p i, p = .chars ∨ p = .colors → i < Screen.cells → (display target screen).address p i ∈ log →
    Differ prev next i
  background : target.backgroundRegister ∈ log ↔ prev.background ≠ next.background
  border : target.borderRegister ∈ log ↔ prev.border ≠ next.border

theorem StoresChanges.exactly {target : Target} {screen : Nat} {prev next : Frame} {log : List UInt16}
    {data : Region} (h : StoresChanges target screen prev next log) (hsep : Separate target screen data) :
    StoresExactly target screen prev next log := by
  have hclear := hsep.clear
  have hdisplay : ∀ {register : UInt16}, register = target.borderRegister ∨ register = target.backgroundRegister →
      ∀ p i, i < Screen.cells → register ≠ (display target screen).address p i := by
    rintro register hregister p i hi rfl
    exact hsep.display_notContains p hregister (hclear.contains p hi)
  refine ⟨fun p i hp hi hmem => ?_, ⟨fun hmem => ?_, h.background⟩, ⟨fun hmem => ?_, h.border⟩⟩
  · rcases h.only _ hmem with ⟨heq, _⟩ | ⟨heq, _⟩ | ⟨q, j, _, hj, hdiffer, heq⟩
    · exact absurd heq.symm (hdisplay (Or.inr rfl) p i hi)
    · exact absurd heq.symm (hdisplay (Or.inl rfl) p i hi)
    · rwa [(hclear.eq_of_address_eq prev hi hj heq).1]
  · rcases h.only _ hmem with ⟨_, hne⟩ | ⟨heq, _⟩ | ⟨q, j, _, hj, _, heq⟩
    · exact hne
    · exact absurd heq.symm hsep.border_ne_background
    · exact absurd heq (hdisplay (Or.inr rfl) q j hj)
  · rcases h.only _ hmem with ⟨heq, _⟩ | ⟨_, hne⟩ | ⟨q, j, _, hj, _, heq⟩
    · exact absurd heq hsep.border_ne_background
    · exact hne
    · exact absurd heq (hdisplay (Or.inl rfl) q j hj)

theorem xor_ne_zero {a b : Cell} : a ^^^ b ≠ 0 ↔ a ≠ b :=
  not_congr Int64.xor_eq_zero_iff

theorem storesChanges_of_mem {target : Target} {screen : Nat} {prev next delta f : Frame} {log : List UInt16}
    (hdelta : delta.Full) (hborder : delta.border = prev.border ^^^ next.border)
    (hbackground : delta.background = prev.background ^^^ next.background)
    (hcell : ∀ p i, delta.cellAt p i = prev.cellAt p i ^^^ next.cellAt p i)
    (hmem : ∀ a, a ∈ log ↔ a ∈ (changedRegisters target delta f).map Prod.fst ∨
      (display target screen).Addresses
        (fun p i => ∃ step ∈ Run.schedule (Builder.changedRuns delta), stepCells step p i) a) :
    StoresChanges target screen prev next log := by
  simp only [mem_changedRegisters, hborder, hbackground, xor_ne_zero] at hmem
  refine ⟨fun a ha => ?_, fun p i hp hne => ?_, fun hne => ?_, fun hne => ?_⟩
  · rcases (hmem a).1 ha with (⟨hne, heq⟩ | ⟨hne, heq⟩) | ⟨p, i, ⟨step, hstep, hcells⟩, heq⟩
    · exact Or.inl ⟨heq, hne⟩
    · exact Or.inr (Or.inl ⟨heq, hne⟩)
    · obtain ⟨hp, hi, hchanged⟩ := stepCells_changed hdelta hstep hcells
      simp only [hcell, xor_ne_zero] at hchanged
      exact Or.inr (Or.inr ⟨p, i, hp, hi, hchanged, heq⟩)
  · have hchanged : delta.cellAt p i ≠ 0 := by
      rw [hcell, xor_ne_zero]
      exact hne
    exact (hmem _).2 (Or.inr ⟨p, i, exists_stepCells hdelta hp hchanged, rfl⟩)
  · exact (hmem _).2 (Or.inl (Or.inl ⟨hne, rfl⟩))
  · exact (hmem _).2 (Or.inl (Or.inr ⟨hne, rfl⟩))

/-- The routine between two frames of any values is added, and assembled with its values reduced to bytes
exactly if the screen's symbol is none of its labels. It returns from any state and stores only to what
changes. -/
theorem addTransition_stores {b : Builder} {prev next : Frame} (hopen : b.finished = false) (hprev : prev.Full)
    (hnext : next.Full) :
    ∃ (b' : Builder) (runs : Nat) (block : Block), b.addTransition prev next = (b', .ok runs) ∧
      b'.code = b.code ++ block.code ∧ b'.data = b.data ++ block.data ∧ (next.Narrow → block.low = block) ∧
      ∀ (imports : Symbols) (screen origin : Nat), imports b.target.screen = some (screen : Int) →
        ((∃ assembly, assemble imports origin (block.low.moduleLines b.target) = some assembly) ↔
          b.target.screen ∉ labelsOf (block.moduleLines b.target)) ∧
        ∀ assembly, assemble imports origin (block.low.moduleLines b.target) = some assembly →
          ∀ s, ∃ t log, Returns assembly.code (frameRoutine b.target (b.frames + 1)) s t ∧
            t.stores = log ++ s.stores ∧ StoresChanges b.target screen prev next log ∧
            (Separate b.target screen ⟨origin, assembly.data.length⟩ →
              StoresExactly b.target screen prev next log) := by
  obtain ⟨delta, hxor, hdelta, hborder, hbackground, hcell⟩ := hprev.xor_eq hnext
  have hwalks := fun step hstep => @Run.schedule_walks _ (changedRuns_fits hdelta) step hstep
  obtain ⟨block, hblock, hlow⟩ := stepsBlock_low b.target hnext hwalks b.labels
  obtain ⟨_, tables, hsteps, hemits⟩ := stepsBlock_emits b.target hnext.low next.narrow_low hwalks b.labels
  obtain ⟨_, hsteps', htouches⟩ := stepsBlock_touches b.target hnext.low next.narrow_low hwalks b.labels
  rw [hlow] at hsteps hsteps'
  cases hsteps
  cases hsteps'
  have hfragment := transitionBlock_fragment delta hemits
  refine ⟨_, _, transitionBlock b delta next block, addTransition_eq hopen hxor hblock, rfl, rfl, ?_, ?_⟩
  · intro hnarrow
    rw [transitionBlock_low, hnarrow.low_eq]
    rw [hnarrow.low_eq, hblock] at hlow
    have hsame : block = block.low := congrArg Prod.fst hlow
    rw [← hsame]
  · intro imports screen origin himport
    have hlabels : labelsOf ((transitionBlock b delta next block).low.moduleLines b.target) =
        labelsOf ((transitionBlock b delta next block).moduleLines b.target) := by
      simp only [Block.labelsOf_moduleLines, Block.low, labelsOf_low]
    rw [← hlabels, transitionBlock_low]
    have hlinks := transitionBlock_linkable delta next.narrow_low htouches
    refine ⟨hfragment.exists_assemble_iff hlinks himport, fun assembly hassembly s => ?_⟩
    obtain ⟨t, hreturns, log, hlog, hmem⟩ :=
      transitionBlock_returns next.narrow_low hemits htouches himport hassembly s
    have hstores := storesChanges_of_mem hdelta hborder hbackground hcell hmem
    exact ⟨t, log, hreturns, hlog, hstores, hstores.exactly⟩

/-- A comet that is longer in colour than in characters and ends with the first loop, on a sky that is no
byte. -/
def comet : Frame :=
  ⟨"_comet", 0, 300, 40, 25, List.replicate 280 42 ++ List.replicate 75 46 ++ List.replicate 645 42,
    List.replicate 100 7 ++ List.replicate 400 1 ++ List.replicate 500 7⟩

/-- The module of the routine to the comet, with its values reduced to bytes. -/
def cometModule : List Line :=
  let b := (starry.addTransition stars comet).1
  Block.moduleLines {} (Block.low { code := b.code, data := b.data })

/-- The screen's symbol is no label of it, and it has two tables for the first loop and one for the second. -/
theorem layout_cometModule :
    "ANIMATIONSCREEN" ∉ labelsOf cometModule ∧
      ((expand cometModule).bind (layoutFrom {})).map (fun l => l.data.length) = some (255 + 255 + 145) := by
  have hdelta : stars.xor comet = .ok ⟨"_stars", 0, 300, 40, 25,
      List.replicate 280 0 ++ List.replicate 75 4 ++ List.replicate 645 0,
      List.replicate 100 0 ++ List.replicate 400 6 ++ List.replicate 500 0⟩ := by decide +kernel
  have hchars : Span.split maxLoop (Span.changed (List.replicate 280 0 ++ List.replicate 75 4 ++
      List.replicate 645 0)) = [⟨280, 354⟩] := by
    decide +kernel
  have hcolors : Span.split maxLoop (Span.changed (List.replicate 100 0 ++ List.replicate 400 6 ++
      List.replicate 500 0)) = [⟨100, 354⟩, ⟨355, 499⟩] := by
    decide +kernel
  have hruns : Run.merge [⟨280, 354⟩] [⟨100, 354⟩, ⟨355, 499⟩] =
      [⟨⟨100, 354⟩, .colors⟩, ⟨⟨280, 354⟩, .chars⟩, ⟨⟨355, 499⟩, .colors⟩] := by
    simp [Run.merge]
  simp only [cometModule, Builder.addTransition, hdelta, Builder.changedRuns, hchars, hcolors, hruns]
  decide +kernel

theorem addTransition_stores_comet :
    starry.finished = false ∧ stars.Full ∧ comet.Full ∧
      ∃ (b' : Builder) (runs : Nat) (block : Block) (assembly : Assembly),
        starry.addTransition stars comet = (b', .ok runs) ∧ b'.code = block.code ∧ b'.data = block.data ∧
        assemble (fun _ => some 0x0400) 0x1000 (block.low.moduleLines {}) = some assembly ∧
        Separate {} 0x0400 ⟨0x1000, assembly.data.length⟩ ∧
        ∀ s, ∃ t log, Returns assembly.code (frameRoutine {} 1) s t ∧ t.stores = log ++ s.stores ∧
          StoresChanges {} 0x0400 stars comet log ∧ StoresExactly {} 0x0400 stars comet log := by
  have hstars : stars.Full := ⟨rfl, rfl, List.length_replicate, List.length_replicate⟩
  have hcomet : comet.Full := ⟨rfl, rfl, by decide +kernel, by decide +kernel⟩
  obtain ⟨b', runs, block, hadd, hcode, hdata, _, hblock⟩ := @addTransition_stores starry stars comet rfl hstars hcomet
  obtain ⟨hassemble, hstores⟩ := hblock (fun _ => some 0x0400) 0x0400 0x1000 rfl
  have hmodule : cometModule = block.low.moduleLines {} := by
    rw [cometModule, hadd]
    simp only [hcode, hdata]
    rfl
  obtain ⟨hhidden, hsize⟩ := layout_cometModule
  rw [hmodule] at hhidden hsize
  rw [Block.labelsOf_moduleLines, Block.low, labelsOf_low, labelsOf_low, ← Block.labelsOf_moduleLines {}] at hhidden
  obtain ⟨assembly, hassembly⟩ := hassemble.2 hhidden
  have hsep : Separate {} 0x0400 ⟨0x1000, assembly.data.length⟩ := by
    rw [length_of_assemble hsize hassembly]
    constructor
    · simp [drawn, Region.Fits, Screen.cells, Screen.width, Screen.height]
    · simp [drawn, Region.Apart, Screen.cells, Screen.width, Screen.height]
  refine ⟨rfl, hstars, hcomet, b', runs, block, assembly, hadd, hcode, hdata, hassembly, hsep, fun s => ?_⟩
  obtain ⟨t, log, hreturns, hlog, hchanges, hexactly⟩ := hstores assembly hassembly s
  exact ⟨t, log, hreturns, hlog, hchanges, hexactly hsep⟩

end Petscii.Program

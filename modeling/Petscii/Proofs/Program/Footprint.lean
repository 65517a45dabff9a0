import Mathlib.Tactic.Choose
import Petscii.Proofs.Machine.Touch
import Petscii.Proofs.Program.Emit

/-!
# What the steps of a schedule store to

The code of a block stores to the cells of its steps and to nothing else, wherever the display and the
tables are and whatever is in memory. For this its tables need addresses, but their values do not matter.
-/

namespace Petscii.Program

open Asm Machine

/-- Linked wherever its tables have addresses, the code of a block stores to `cells` and to nothing else. -/
def Touches (target : Target) (block : Block) (cells : Plane → Nat → Prop) : Prop :=
  ∀ ground : Ground target, (∀ name ∈ labelsOf block.data, ∃ address, ground.Names name address) →
    ∃ items, ground.Links block.code items ∧ ∀ P s₀, Performs items (Touched P s₀)
      (Touched (fun a => P a ∨ ground.display.Addresses cells a) s₀)

/-- The code of a block links wherever its tables have addresses. -/
def Linkable (target : Target) (block : Block) : Prop :=
  ∀ ground : Ground target, (∀ name ∈ labelsOf block.data, ∃ address, ground.Names name address) →
    ∃ items, ground.Links block.code items

theorem Touches.linkable {target : Target} {block : Block} {cells : Plane → Nat → Prop}
    (h : Touches target block cells) : Linkable target block := by
  intro ground hnames
  obtain ⟨items, hlinks, _⟩ := h ground hnames
  exact ⟨items, hlinks⟩

theorem Linkable.append {target : Target} {a b : Block} (ha : Linkable target a) (hb : Linkable target b) :
    Linkable target (a.append b) := by
  intro ground hnames
  rw [Block.append, labelsOf_append] at hnames
  obtain ⟨as, has⟩ := ha ground fun name h => hnames name (List.mem_append_left _ h)
  obtain ⟨bs, hbs⟩ := hb ground fun name h => hnames name (List.mem_append_right _ h)
  exact ⟨as ++ bs, has.append hbs⟩

namespace Touches

variable {target : Target} {a b : Block} {cells more : Plane → Nat → Prop}

theorem empty (target : Target) : Touches target {} fun _ _ => False := by
  intro ground _
  refine ⟨[], Asm.Links.nil, fun P s₀ => Performs.nil fun s hs => ?_⟩
  exact hs.congr rfl fun a => by simp [Display.Addresses]

theorem append (ha : Touches target a cells) (hb : Touches target b more) :
    Touches target (a.append b) fun p j => cells p j ∨ more p j := by
  intro ground hnames
  rw [Block.append, labelsOf_append] at hnames
  obtain ⟨as, halinks, haperforms⟩ := ha ground fun name h => hnames name (List.mem_append_left _ h)
  obtain ⟨bs, hblinks, hbperforms⟩ := hb ground fun name h => hnames name (List.mem_append_right _ h)
  refine ⟨as ++ bs, halinks.append hblinks, fun P s₀ => ?_⟩
  refine ((haperforms P s₀).append (hbperforms _ s₀)).mono (fun _ h => h) fun t ht => ht.congr rfl fun a => ?_
  rw [Display.addresses_or, or_assoc]

theorem congr (h : Touches target a cells) (hcells : ∀ p j, more p j ↔ cells p j) : Touches target a more := by
  have heq : more = cells := funext fun p => funext fun j => propext (hcells p j)
  rw [heq]
  exact h

end Touches

section Steps

variable (target : Target) {next : Frame}

theorem storeBlock_touches (hnext : next.Full) (hnarrow : next.Narrow) (p : Plane) {i : Nat} (hi : i < Screen.cells)
    (last : Int) :
    ∃ block, storeBlock target next ⟨⟨i, last⟩, p⟩ = .ok block ∧
      Touches target block fun q j => q = p ∧ j = i := by
  have hbyte := hnarrow.plane (hnext.cellAt_mem p hi)
  refine ⟨_, storeBlock_eq target hnext p hi last, fun ground _ => ?_⟩
  refine ⟨_, links_store ground hbyte.1 hbyte.2 p i, fun P s₀ before after hdistinct s hs => ?_⟩
  obtain ⟨t, hreach, _, ht⟩ := performs_touch (a := ground.display.address p i)
    (.ldaImmediate (next.cellAt p i).toInt) (.sta (.ofInt ((ground.display.start p : Int) + i)))
    (fun _ => ⟨rfl, rfl⟩) (fun _ => ⟨_, rfl⟩)
    (fun t _ => by rw [State.step, Display.address, ← ofInt_natCast]; rfl) before after hdistinct s ⟨rfl, hs⟩
  refine ⟨t, hreach, ht.congr rfl fun a => or_congr_right ⟨?_, fun h => ⟨_, _, ⟨rfl, rfl⟩, h⟩⟩⟩
  rintro ⟨_, _, ⟨rfl, rfl⟩, h⟩
  exact h

theorem loopBlock_touches (hnext : next.Full) {first count : Nat} (hpos : 0 < count) (hshort : count ≤ 255)
    (hinside : first + count ≤ Screen.cells) (n : Nat) (runs : List Run) :
    ∃ block, loopBlock target next n ⟨first, (first : Int) + count - 1⟩ runs = .ok block ∧
      Touches target block fun p j => ∃ r ∈ runs, p = r.plane ∧ first ≤ j ∧ j < first + count := by
  refine ⟨_, loopBlock_eq hnext hpos hshort hinside n runs, fun ground hnames => ?_⟩
  rw [labelsOf_tablesLines, map_fst_loopTables] at hnames
  choose! address haddress using hnames
  refine ⟨_, links_loop ground address hshort n runs haddress, fun P s₀ => ?_⟩
  have hloop := @performs_touchLoop s₀ ground.display (loopCopies target first address n runs) _ hpos
    (Nat.lt_succ_of_le hshort) (label target (n + runs.length)) P
  refine Performs.append (a := [_]) (Performs.instruction (fun _ => rfl) fun s hs => ⟨rfl, hs⟩)
    (hloop.mono (fun s hs => hs) fun t ht => ht.congr rfl fun a => ?_)
  simp only [Display.Addresses, cells_loopCopies]

theorem stepBlock_touches (hnext : next.Full) (hnarrow : next.Narrow) (n : Nat) {step : Run.Step}
    {first count : Nat} (hwalks : step.Walks first count) (hone : ∀ r, step = .store r → count = 1) :
    ∃ block, stepBlock target next n step = .ok block ∧ Touches target block (stepCells step) := by
  have hspan := hwalks.span
  have hinside := hwalks.inside
  cases step with
  | store r =>
    obtain ⟨span, p⟩ := r
    cases hone _ rfl
    simp only [Run.Step.span] at hspan
    subst hspan
    obtain ⟨block, hblock, htouches⟩ := storeBlock_touches target hnext hnarrow p (i := first) (by omega) _
    exact ⟨block, hblock, htouches.congr fun q j => stepCells_store first p q j⟩
  | loop anchor riders =>
    obtain ⟨block, hblock, htouches⟩ := loopBlock_touches target hnext hwalks.pos hwalks.short hinside n
      (anchor :: riders)
    exact ⟨block, by rw [stepBlock, hspan, hblock], htouches.congr fun q j => stepCells_loop hspan q j⟩

theorem stepsBlock_touches (hnext : next.Full) (hnarrow : next.Narrow) {steps : List Run.Step}
    (hsteps : ∀ step ∈ steps, ∃ first count, step.Walks first count ∧ ∀ r, step = .store r → count = 1)
    (n : Nat) :
    ∃ block, stepsBlock target next n steps = (block, .ok ()) ∧
      Touches target block fun p j => ∃ step ∈ steps, stepCells step p j := by
  refine stepsBlock_ok target (P := fun _ step block => Touches target block (stepCells step))
    (Q := fun _ steps block => Touches target block fun p j => ∃ step ∈ steps, stepCells step p j)
    (fun step hstep n => ?_) (fun _ => (Touches.empty target).congr fun p j => by simp)
    (fun _ _ _ _ _ htouches htouches' => (htouches.append htouches').congr fun p j => by simp) n
  obtain ⟨first, count, hwalks, hone⟩ := hsteps step hstep
  exact stepBlock_touches target hnext hnarrow n hwalks hone

end Steps

end Petscii.Program

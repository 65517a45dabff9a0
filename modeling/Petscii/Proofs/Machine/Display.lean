import Petscii.Proofs.Frame
import Petscii.Proofs.Machine.Memory

/-!
# Painting a display

The two planes of a screen are regions of memory. Generated code stores values of one frame to cells of
these planes and nothing else, in whatever order and as often as it likes: `Painted` says which cells, and
that is all that is needed to know what the screen shows afterwards. A piece that loads a value and stores
it to its cell adds this cell to those painted before.
-/

namespace Petscii.Machine

open Asm

structure Display where
  screen : Nat
  colors : Nat
  deriving DecidableEq, Repr

namespace Display

def start (d : Display) : Plane → Nat
  | .colors => d.colors
  | _ => d.screen

def address (d : Display) (p : Plane) (i : Nat) : UInt16 :=
  .ofNat (d.start p + i)

def region (d : Display) (p : Plane) : Region :=
  ⟨d.start p, Screen.cells⟩

/-- The planes lie inside the address space and apart. -/
structure Clear (d : Display) : Prop where
  screenFits : (d.region .chars).Fits
  colorsFit : (d.region .colors).Fits
  apart : (d.region .chars).Apart (d.region .colors)

variable {d : Display}

theorem Clear.fits (hd : d.Clear) (p : Plane) : (d.region p).Fits := by
  cases p with
  | chars => exact hd.screenFits
  | colors => exact hd.colorsFit
  | other number => exact hd.screenFits

theorem Clear.contains (hd : d.Clear) (p : Plane) {i : Nat} (hi : i < Screen.cells) :
    (d.region p).Contains (d.address p i) :=
  Region.contains_ofNat (hd.fits p) hi

theorem Clear.toNat_address (hd : d.Clear) (p : Plane) {i : Nat} (hi : i < Screen.cells) :
    (d.address p i).toNat = d.start p + i := by
  have hfits := hd.fits p
  simp only [Region.Fits, region] at hfits
  exact Region.toNat_ofNat (by omega)

theorem Clear.apart_or_eq (hd : d.Clear) (f : Frame) (p q : Plane) :
    (d.region p).Apart (d.region q) ∨ d.start p = d.start q ∧ f.plane p = f.plane q := by
  cases p with
  | colors =>
    cases q with
    | colors => exact Or.inr ⟨rfl, rfl⟩
    | chars => exact Or.inl hd.apart.symm
    | other number => exact Or.inl hd.apart.symm
  | chars =>
    cases q with
    | colors => exact Or.inl hd.apart
    | chars => exact Or.inr ⟨rfl, rfl⟩
    | other number => exact Or.inr ⟨rfl, rfl⟩
  | other number =>
    cases q with
    | colors => exact Or.inl hd.apart
    | chars => exact Or.inr ⟨rfl, rfl⟩
    | other number => exact Or.inr ⟨rfl, rfl⟩

/-- The address of a cell determines its position and its plane in a frame. -/
theorem Clear.eq_of_address_eq (hd : d.Clear) (f : Frame) {p q : Plane} {i j : Nat}
    (hi : i < Screen.cells) (hj : j < Screen.cells) (h : d.address p i = d.address q j) :
    i = j ∧ f.plane p = f.plane q := by
  rcases hd.apart_or_eq f p q with hapart | ⟨hstart, hplane⟩
  · have hp := hd.contains p hi
    rw [h] at hp
    exact absurd (hd.contains q hj) (hapart.not_contains hp)
  · have heq := congrArg UInt16.toNat h
    rw [hd.toNat_address p hi, hd.toNat_address q hj] at heq
    exact ⟨by omega, hplane⟩

theorem Clear.cellAt_eq_of_address_eq (hd : d.Clear) (f : Frame) {p q : Plane} {i j : Nat}
    (hi : i < Screen.cells) (hj : j < Screen.cells) (h : d.address p i = d.address q j) :
    f.cellAt p i = f.cellAt q j := by
  obtain ⟨hij, hplane⟩ := hd.eq_of_address_eq f hi hj h
  rw [Frame.cellAt, Frame.cellAt, hplane, hij]

end Display

theorem holds_plane {f : Frame} (hf : f.Full) {memory : Memory} {start : Nat} (p : Plane) :
    memory.Holds start ((f.plane p).map Cell.byte) ↔
      ∀ i, i < Screen.cells → memory (.ofNat (start + i)) = (f.cellAt p i).byte := by
  have hlength := hf.length_plane p
  have hbyte : ∀ i (hi : i < ((f.plane p).map Cell.byte).length),
      ((f.plane p).map Cell.byte)[i] = (f.cellAt p i).byte := by
    intro i hi
    rw [List.length_map] at hi
    rw [List.getElem_map, Frame.cellAt_eq_getElem hi]
  constructor
  · intro h i hi
    have hlt : i < ((f.plane p).map Cell.byte).length := by rw [List.length_map, hlength]; exact hi
    rw [h i hlt, hbyte i hlt]
  · intro h i hi
    rw [hbyte i hi]
    exact h i (by rw [List.length_map, hlength] at hi; exact hi)

/-- From `s` to `t` the values of a frame were stored to `cells`, and nothing else was stored. -/
structure Painted (d : Display) (f : Frame) (cells : Plane → Nat → Prop) (s t : State) : Prop where
  inside : ∀ p i, cells p i → i < Screen.cells
  shown : ∀ p i, cells p i → t.memory (d.address p i) = (f.cellAt p i).byte
  kept : ∀ a, (∀ p i, cells p i → a ≠ d.address p i) → t.memory a = s.memory a
  logged : ∃ log, t.stores = log ++ s.stores ∧ ∀ a, a ∈ log ↔ ∃ p i, cells p i ∧ a = d.address p i

namespace Painted

variable {d : Display} {f : Frame} {cells more : Plane → Nat → Prop} {s t u : State}

theorem refl (d : Display) (f : Frame) (s : State) : Painted d f (fun _ _ => False) s s where
  inside _ _ h := h.elim
  shown _ _ h := h.elim
  kept _ _ := rfl
  logged := ⟨[], rfl, fun a => by simp⟩

/-- Only the memory and the record of stores matter, and cells may be named differently. -/
theorem congr (h : Painted d f cells s t) (hmemory : u.memory = t.memory) (hstores : u.stores = t.stores)
    (hcells : ∀ p i, more p i ↔ cells p i) : Painted d f more s u := by
  obtain ⟨hinside, hshown, hkept, log, hlog, hmem⟩ := h
  refine ⟨fun p i hc => hinside p i ((hcells p i).1 hc), fun p i hc => ?_, fun a ha => ?_, log, ?_, ?_⟩
  · rw [hmemory]
    exact hshown p i ((hcells p i).1 hc)
  · rw [hmemory]
    exact hkept a fun p i hc => ha p i ((hcells p i).2 hc)
  · rw [hstores, hlog]
  · intro a
    simp only [hmem, hcells]

/-- A cell shows its value if it was painted or showed it before. -/
theorem cell (h : Painted d f cells s t) (hd : d.Clear) {p : Plane} {i : Nat} (hi : i < Screen.cells)
    (hvalue : cells p i ∨ s.memory (d.address p i) = (f.cellAt p i).byte) :
    t.memory (d.address p i) = (f.cellAt p i).byte := by
  by_cases hpainted : ∃ q j, cells q j ∧ d.address p i = d.address q j
  · obtain ⟨q, j, hcell, heq⟩ := hpainted
    rw [heq, h.shown q j hcell, hd.cellAt_eq_of_address_eq f hi (h.inside q j hcell) heq]
  · rcases hvalue with hcell | hvalue
    · exact absurd ⟨p, i, hcell, rfl⟩ hpainted
    · rw [h.kept _ fun q j hcell heq => hpainted ⟨q, j, hcell, heq⟩]
      exact hvalue

/-- Painting twice paints the cells of both, whether or not they overlap. -/
theorem trans (hd : d.Clear) (hfirst : Painted d f cells s t) (hsecond : Painted d f more t u) :
    Painted d f (fun p i => cells p i ∨ more p i) s u := by
  obtain ⟨log, hlog, hmem⟩ := hfirst.logged
  obtain ⟨log', hlog', hmem'⟩ := hsecond.logged
  refine ⟨fun p i h => h.elim (hfirst.inside p i) (hsecond.inside p i), fun p i h => ?_, fun a ha => ?_,
    log' ++ log, by rw [hlog', hlog, List.append_assoc], fun a => ?_⟩
  · have hi : i < Screen.cells := h.elim (hfirst.inside p i) (hsecond.inside p i)
    exact hsecond.cell hd hi (h.symm.imp_right (hfirst.shown p i))
  · rw [hsecond.kept a fun p i h => ha p i (Or.inr h), hfirst.kept a fun p i h => ha p i (Or.inl h)]
  · simp only [List.mem_append, hmem, hmem', or_and_right, exists_or]
    exact Or.comm

theorem single {p : Plane} {i : Nat} (hi : i < Screen.cells)
    (hmemory : t.memory = s.memory.set (d.address p i) (f.cellAt p i).byte)
    (hstores : t.stores = d.address p i :: s.stores) :
    Painted d f (fun q j => q = p ∧ j = i) s t := by
  refine ⟨?_, ?_, ?_, [d.address p i], hstores, ?_⟩
  · rintro q j ⟨rfl, rfl⟩
    exact hi
  · rintro q j ⟨rfl, rfl⟩
    rw [hmemory, Memory.set_self]
  · intro a ha
    rw [hmemory, Memory.set_of_ne _ _ (ha p i ⟨rfl, rfl⟩)]
  · intro a
    rw [List.mem_singleton]
    constructor
    · rintro rfl
      exact ⟨p, i, ⟨rfl, rfl⟩, rfl⟩
    · rintro ⟨q, j, ⟨rfl, rfl⟩, rfl⟩
      rfl

theorem outside (h : Painted d f cells s t) (hd : d.Clear) {a : UInt16}
    (hscreen : ¬ (d.region .chars).Contains a) (hcolors : ¬ (d.region .colors).Contains a) :
    t.memory a = s.memory a := by
  apply h.kept
  rintro p i hc rfl
  have hcontains := hd.contains p (h.inside p i hc)
  cases p with
  | chars => exact hscreen hcontains
  | colors => exact hcolors hcontains
  | other number => exact hscreen hcontains

end Painted

/-! ### Pieces that paint one cell -/

section Pieces

variable {d : Display} {f : Frame} {cells : Plane → Nat → Prop} {s₀ : State} {x : UInt8}

/-- Load the value of a cell in any way and store it there in any way. -/
theorem performs_put (hd : d.Clear) (load store : Instruction UInt16) {p : Plane} {i : Nat}
    (hi : i < Screen.cells) (honward : ∀ s : State, s.flow load = .onward ∧ s.flow store = .onward)
    (hload : ∀ s, s.x = x → Painted d f cells s₀ s → s.step load = s.setA (f.cellAt p i).byte)
    (hstore : ∀ s : State, s.x = x → s.step store = s.store (d.address p i)) :
    Performs [.instruction load, .instruction store] (fun s => s.x = x ∧ Painted d f cells s₀ s)
      fun t => t.x = x ∧ Painted d f (fun q j => cells q j ∨ q = p ∧ j = i) s₀ t := by
  apply Performs.append (a := [_]) (b := [_])
    (Q := fun t => t.x = x ∧ t.a = (f.cellAt p i).byte ∧ Painted d f cells s₀ t)
  · apply Performs.instruction (fun s => (honward s).1)
    rintro s ⟨hx, hpainted⟩
    rw [hload s hx hpainted]
    exact ⟨hx, rfl, hpainted.congr rfl rfl fun _ _ => Iff.rfl⟩
  · apply Performs.instruction (fun s => (honward s).2)
    rintro s ⟨hx, ha, hpainted⟩
    rw [hstore s hx]
    refine ⟨hx, hpainted.trans hd (Painted.single hi ?_ rfl)⟩
    rw [State.store_memory, ha]

end Pieces

end Petscii.Machine

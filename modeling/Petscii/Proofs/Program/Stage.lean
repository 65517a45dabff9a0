import Petscii.Proofs.Program.Emit

/-!
# The stage of a compiled program

A program draws on the two planes of the screen and on the two colour registers. `Shows` says that a frame
is there to be seen, and `Draws` that it was drawn and nothing else was changed. Registers are written one
by one and the planes are painted; both together draw a frame if what is left out was right before.
-/

namespace Petscii.Program

open Asm Machine

/-- The memory that a program draws on, with the screen at a given address. -/
def drawn (target : Target) (screen : Nat) : List Region :=
  [⟨screen, Screen.cells⟩, ⟨target.colorRam.toNat, Screen.cells⟩, ⟨target.borderRegister.toNat, 1⟩,
    ⟨target.backgroundRegister.toNat, 1⟩]

/-- The program's data and all that it draws on lie inside the address space, each apart from the
others. -/
structure Separate (target : Target) (screen : Nat) (data : Region) : Prop where
  fits : ∀ r ∈ data :: drawn target screen, r.Fits
  apart : (data :: drawn target screen).Pairwise Region.Apart

/-- A frame is on the screen and in the registers. -/
structure Shows (target : Target) (screen : Nat) (f : Frame) (memory : Memory) : Prop where
  chars : memory.Holds screen (f.chars.map Cell.byte)
  colors : memory.Holds target.colorRam.toNat (f.colors.map Cell.byte)
  border : memory target.borderRegister = f.border.byte
  background : memory target.backgroundRegister = f.background.byte

/-- From `s` to `t` a frame was drawn, and no other memory was changed. -/
structure Draws (target : Target) (screen : Nat) (f : Frame) (s t : State) : Prop where
  shows : Shows target screen f t.memory
  kept : ∀ a, (∀ r ∈ drawn target screen, ¬ r.Contains a) → t.memory a = s.memory a

def display (target : Target) (screen : Nat) : Display :=
  ⟨screen, target.colorRam.toNat⟩

/-! ### Separate regions -/

namespace Separate

variable {target : Target} {screen : Nat} {data : Region} (h : Separate target screen data)
include h

theorem clear : (display target screen).Clear := by
  obtain ⟨hfits, hapart⟩ := h
  simp only [drawn, List.forall_mem_cons] at hfits
  simp only [drawn, List.pairwise_cons, List.forall_mem_cons] at hapart
  exact ⟨hfits.2.1, hfits.2.2.1, hapart.2.1.1⟩

theorem data_fits : data.Fits :=
  h.fits data List.mem_cons_self

theorem data_apart (p : Plane) : data.Apart ((display target screen).region p) := by
  have hapart := h.apart
  simp only [drawn, List.pairwise_cons, List.forall_mem_cons] at hapart
  cases p with
  | colors => exact hapart.1.2.1
  | _ => exact hapart.1.1

theorem data_notContains {register : UInt16}
    (hregister : register = target.borderRegister ∨ register = target.backgroundRegister) :
    ¬ data.Contains register := by
  have hapart := h.apart
  simp only [drawn, List.pairwise_cons, List.forall_mem_cons, Region.Apart] at hapart
  rcases hregister with rfl | rfl <;> simp only [Region.Contains] <;> omega

theorem display_notContains (p : Plane) {register : UInt16}
    (hregister : register = target.borderRegister ∨ register = target.backgroundRegister) :
    ¬ ((display target screen).region p).Contains register := by
  have hapart := h.apart
  simp only [drawn, List.pairwise_cons, List.forall_mem_cons, Region.Apart] at hapart
  cases p with
  | colors =>
    simp only [Region.Contains, Display.region, Display.start, display]
    rcases hregister with rfl | rfl <;> omega
  | _ =>
    simp only [Region.Contains, Display.region, Display.start, display]
    rcases hregister with rfl | rfl <;> omega

theorem border_ne_background : target.borderRegister ≠ target.backgroundRegister := by
  have hapart := h.apart
  simp only [drawn, List.pairwise_cons, List.forall_mem_cons, Region.Apart] at hapart
  intro heq
  rw [heq] at hapart
  omega

end Separate

/-! ### Registers -/

/-- Registers to write in turn, each with its value. -/
abbrev Writes := List (UInt16 × Cell)

/-- The memory after registers were written. -/
def tint (memory : Memory) (writes : Writes) : Memory :=
  writes.foldl (fun memory w => memory.set w.1 w.2.byte) memory

theorem tint_of_notMem {writes : Writes} {a : UInt16} (ha : a ∉ writes.map Prod.fst) (memory : Memory) :
    tint memory writes a = memory a := by
  induction writes generalizing memory with
  | nil => rfl
  | cons w writes ih =>
    rw [List.map_cons, List.mem_cons, not_or] at ha
    rw [tint, List.foldl_cons]
    exact (ih ha.2 _).trans (Memory.set_of_ne memory w.2.byte ha.1)

/-- A register has a value afterwards if it had it before or was given it, and was given no other. -/
theorem tint_eq {writes : Writes} {a : UInt16} {value : UInt8}
    (hsame : ∀ w ∈ writes, w.1 = a → w.2.byte = value) {memory : Memory}
    (hvalue : a ∈ writes.map Prod.fst ∨ memory a = value) : tint memory writes a = value := by
  induction writes generalizing memory with
  | nil => simpa [tint] using hvalue
  | cons w writes ih =>
    rw [tint, List.foldl_cons]
    apply ih fun v hv => hsame v (List.mem_cons_of_mem w hv)
    by_cases hw : a = w.1
    · right
      rw [hw, Memory.set_self, hsame w List.mem_cons_self hw.symm]
    · rw [Memory.set_of_ne _ _ hw]
      simpa [hw] using hvalue

def writesLines (writes : Writes) : List Line :=
  writes.flatMap fun w => Builder.registerLines w.2 w.1

def writesItems (writes : Writes) : List Item :=
  writes.flatMap fun w => [.instruction (.ldaImmediate w.2.toInt), .instruction (.sta w.1)]

theorem plain_writesLines (writes : Writes) : ∀ line ∈ writesLines writes, line.Plain := by
  intro line hline
  obtain ⟨w, _, hline⟩ := List.mem_flatMap.1 hline
  simp only [Builder.registerLines, List.mem_cons, List.not_mem_nil, or_false] at hline
  rcases hline with rfl | rfl <;> trivial

theorem legible_writesLines (writes : Writes) : ∀ line ∈ writesLines writes, line.Legible := by
  intro line hline
  obtain ⟨w, _, hline⟩ := List.mem_flatMap.1 hline
  simp only [Builder.registerLines, List.mem_cons, List.not_mem_nil, or_false] at hline
  rcases hline with rfl | rfl
  · trivial
  · exact ⟨trivial, by simp⟩

theorem labelsOf_writesLines (writes : Writes) : labelsOf (writesLines writes) = [] := by
  induction writes with
  | nil => rfl
  | cons w writes ih => exact ih

theorem links_writesLines {target : Target} (ground : Ground target) {writes : Writes}
    (hnarrow : ∀ w ∈ writes, 0 ≤ w.2.toInt ∧ w.2.toInt ≤ 0xFF) :
    ground.Links (writesLines writes) (writesItems writes) := by
  induction writes with
  | nil => exact Asm.Links.nil
  | cons w writes ih =>
    have hw := hnarrow w List.mem_cons_self
    refine Ground.Links.append (Asm.Links.cons (link_ldaImmediate hw.1 hw.2)
      (Asm.Links.cons ?_ Asm.Links.nil)) (ih fun v hv => hnarrow v (List.mem_cons_of_mem w hv))
    rw [link_sta (eval_eq_termsEval rfl _), ofInt_natCast, UInt16.ofNat_toNat]

theorem performs_writes {writes : Writes} (hnarrow : ∀ w ∈ writes, 0 ≤ w.2.toInt ∧ w.2.toInt ≤ 0xFF)
    (s₀ : State) :
    Performs (writesItems writes) (fun s => s = s₀) fun t =>
      t.memory = tint s₀.memory writes ∧ t.stores = (writes.map Prod.fst).reverse ++ s₀.stores := by
  induction writes generalizing s₀ with
  | nil =>
    apply Performs.nil
    rintro s rfl
    exact ⟨rfl, rfl⟩
  | cons w writes ih =>
    have hw := Frame.byte_of_narrow (hnarrow w List.mem_cons_self)
    have hrest := ih fun v hv => hnarrow v (List.mem_cons_of_mem w hv)
    refine Performs.append (a := [_, _]) (Q := fun t => t = (s₀.setA w.2.byte).store w.1)
      (Performs.append (a := [_]) (b := [_]) (Q := fun t => t = s₀.setA w.2.byte)
        (Performs.instruction (fun _ => rfl) ?_) (Performs.instruction (fun _ => rfl) ?_))
      ((hrest _).mono (fun s hs => hs) ?_)
    · rintro s rfl
      rw [State.step, hw]
    · rintro s rfl
      rfl
    · rintro t ⟨hmemory, hstores⟩
      refine ⟨hmemory, ?_⟩
      rw [hstores, List.map_cons, List.reverse_cons, List.append_assoc]
      rfl

/-! ### Drawing -/

/-- Every value written to a register is the frame's value for it. -/
def Writes.Of (writes : Writes) (target : Target) (f : Frame) : Prop :=
  ∀ w ∈ writes, w = (target.backgroundRegister, f.background) ∨ w = (target.borderRegister, f.border)

section Drawing

variable {target : Target} {screen : Nat} {data : Region} {f : Frame} {writes : Writes}
  {cells : Plane → Nat → Prop} {s₀ s t : State}

theorem Writes.Of.register (hwrites : writes.Of target f) {a : UInt16} (ha : a ∈ writes.map Prod.fst) :
    a = target.borderRegister ∨ a = target.backgroundRegister := by
  obtain ⟨w, hw, rfl⟩ := List.mem_map.1 ha
  rcases hwrites w hw with rfl | rfl
  · exact Or.inr rfl
  · exact Or.inl rfl

/-- A frame is drawn when registers are written and cells are painted, if all the rest showed it
already. -/
theorem draws (hsep : Separate target screen data) (hf : f.Full) (hwrites : writes.Of target f)
    (hmemory : s.memory = tint s₀.memory writes) (hpainted : Painted (display target screen) f cells s t)
    (hbackground : target.backgroundRegister ∈ writes.map Prod.fst ∨
      s₀.memory target.backgroundRegister = f.background.byte)
    (hborder : target.borderRegister ∈ writes.map Prod.fst ∨
      s₀.memory target.borderRegister = f.border.byte)
    (hcells : ∀ p i, p = .chars ∨ p = .colors → i < Screen.cells → cells p i ∨
      s₀.memory ((display target screen).address p i) = (f.cellAt p i).byte) :
    Draws target screen f s₀ t := by
  have hclear := hsep.clear
  have hcell : ∀ p i, p = .chars ∨ p = .colors → i < Screen.cells →
      t.memory ((display target screen).address p i) = (f.cellAt p i).byte := by
    intro p i hp hi
    refine hpainted.cell hclear hi ((hcells p i hp hi).imp_right fun hvalue => ?_)
    rw [hmemory, tint_of_notMem _ _, hvalue]
    intro hmem
    exact hsep.display_notContains p (hwrites.register hmem) (hclear.contains p hi)
  have hregister : ∀ a, a = target.borderRegister ∨ a = target.backgroundRegister →
      t.memory a = tint s₀.memory writes a := by
    intro a ha
    rw [← hmemory, hpainted.outside hclear (hsep.display_notContains .chars ha)
      (hsep.display_notContains .colors ha)]
  refine ⟨⟨?_, ?_, ?_, ?_⟩, fun a ha => ?_⟩
  · exact (holds_plane hf .chars).2 fun i hi => hcell .chars i (Or.inl rfl) hi
  · exact (holds_plane hf .colors).2 fun i hi => hcell .colors i (Or.inr rfl) hi
  · rw [hregister _ (Or.inl rfl)]
    refine tint_eq (fun w hw heq => ?_) hborder
    rcases hwrites w hw with rfl | rfl
    · exact absurd heq hsep.border_ne_background.symm
    · rfl
  · rw [hregister _ (Or.inr rfl)]
    refine tint_eq (fun w hw heq => ?_) hbackground
    rcases hwrites w hw with rfl | rfl
    · rfl
    · exact absurd heq hsep.border_ne_background
  · simp only [drawn, List.forall_mem_cons] at ha
    rw [hpainted.outside hclear ha.1 ha.2.1, hmemory, tint_of_notMem]
    intro hmem
    rcases hwrites.register hmem with rfl | rfl
    · exact ha.2.2.1 ⟨Nat.le_refl _, Nat.lt_succ_self _⟩
    · exact ha.2.2.2.1 ⟨Nat.le_refl _, Nat.lt_succ_self _⟩

end Drawing

end Petscii.Program

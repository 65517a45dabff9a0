import Petscii.Proofs.Machine.Copy

/-!
# What code stores to

`Touched` says to which addresses there were stores between two states. What code stores to does not depend
on what is in memory or where the display lies, so these rules ask nothing of either: a piece that loads
something and stores it adds one address, and a loop adds the addresses of the cells it walks.
-/

namespace Petscii.Machine

open Asm

/-- From `s` to `t` there were stores to the addresses with `P`, and to no others. -/
def Touched (P : UInt16 → Prop) (s t : State) : Prop :=
  ∃ log, t.stores = log ++ s.stores ∧ ∀ a, a ∈ log ↔ P a

def Display.Addresses (d : Display) (cells : Plane → Nat → Prop) (a : UInt16) : Prop :=
  ∃ p i, cells p i ∧ a = d.address p i

theorem Display.addresses_or (d : Display) (cells more : Plane → Nat → Prop) (a : UInt16) :
    d.Addresses (fun p i => cells p i ∨ more p i) a ↔ d.Addresses cells a ∨ d.Addresses more a := by
  simp only [Addresses, or_and_right, exists_or]

namespace Touched

variable {P Q : UInt16 → Prop} {s t u : State}

theorem congr (h : Touched P s t) (hstores : u.stores = t.stores) (hsame : ∀ a, Q a ↔ P a) : Touched Q s u := by
  obtain ⟨log, hlog, hmem⟩ := h
  exact ⟨log, by rw [hstores, hlog], fun a => by rw [hmem, hsame]⟩

theorem store (h : Touched P s t) (a : UInt16) : Touched (fun b => P b ∨ b = a) s (t.store a) := by
  obtain ⟨log, hlog, hmem⟩ := h
  refine ⟨a :: log, by rw [State.store_stores, hlog, List.cons_append], fun b => ?_⟩
  rw [List.mem_cons, hmem]
  exact Or.comm

end Touched

section Pieces

variable {P : UInt16 → Prop} {s₀ : State} {x : UInt8}

theorem performs_touch (load store : Instruction UInt16) {a : UInt16}
    (honward : ∀ s : State, s.flow load = .onward ∧ s.flow store = .onward)
    (hload : ∀ s : State, ∃ value, s.step load = s.setA value)
    (hstore : ∀ s : State, s.x = x → s.step store = s.store a) :
    Performs [.instruction load, .instruction store] (fun s => s.x = x ∧ Touched P s₀ s)
      fun t => t.x = x ∧ Touched (fun b => P b ∨ b = a) s₀ t := by
  apply Performs.append (a := [_]) (b := [_]) (Q := fun t => t.x = x ∧ Touched P s₀ t)
  · apply Performs.instruction (fun s => (honward s).1)
    rintro s ⟨hx, hs⟩
    obtain ⟨value, hvalue⟩ := hload s
    rw [hvalue]
    exact ⟨hx, hs⟩
  · apply Performs.instruction (fun s => (honward s).2)
    rintro s ⟨hx, hs⟩
    rw [hstore s hx]
    exact ⟨hx, hs.store a⟩

theorem Copy.addresses_cons (d : Display) (c : Copy) (copies : List Copy) (i : Nat) (a : UInt16) :
    d.Addresses (Copy.cells (c :: copies) i (i + 1)) a ↔
      a = d.address c.plane (c.first + i) ∨ d.Addresses (Copy.cells copies i (i + 1)) a := by
  have hsplit : ∀ p j, Copy.cells (c :: copies) i (i + 1) p j ↔
      (p = c.plane ∧ j = c.first + i) ∨ Copy.cells copies i (i + 1) p j := by
    intro p j
    have hhere : c.first + i ≤ j ∧ j < c.first + (i + 1) ↔ j = c.first + i := by omega
    simp only [Copy.cells, List.mem_cons, exists_eq_or_imp, hhere]
  simp only [Display.Addresses, hsplit, or_and_right, exists_or]
  refine or_congr_left ⟨?_, fun h => ⟨_, _, ⟨rfl, rfl⟩, h⟩⟩
  rintro ⟨_, _, ⟨rfl, rfl⟩, h⟩
  exact h

theorem performs_touchRound (d : Display) (copies : List Copy) (shift : Int) {i : Nat}
    (hx : (x.toNat : Int) + shift = i) (P : UInt16 → Prop) :
    Performs (copies.flatMap (Copy.items d shift)) (fun s => s.x = x ∧ Touched P s₀ s)
      fun t => t.x = x ∧ Touched (fun a => P a ∨ d.Addresses (Copy.cells copies i (i + 1)) a) s₀ t := by
  induction copies generalizing P with
  | nil =>
    apply Performs.nil
    rintro s ⟨hsx, hs⟩
    exact ⟨hsx, hs.congr rfl fun a => by simp [Display.Addresses, Copy.cells]⟩
  | cons c copies ih =>
    rw [List.flatMap_cons]
    have hput : Performs (Copy.items d shift c) (fun s => s.x = x ∧ Touched P s₀ s)
        fun t => t.x = x ∧ Touched (fun a => P a ∨ a = d.address c.plane (c.first + i)) s₀ t := by
      refine performs_touch _ _ (fun _ => ⟨rfl, rfl⟩) (fun s => ⟨_, rfl⟩) fun s hsx => ?_
      rw [State.step, State.indexed, hsx, Display.address,
        ofInt_add_index (n := d.start c.plane + (c.first + i)) (by push_cast; omega)]
    refine hput.append ((ih _).mono (fun _ h => h) fun t ht => ⟨ht.1, ht.2.congr rfl fun a => ?_⟩)
    rw [Copy.addresses_cons, or_assoc]

/-- A loop that counts X down to zero stores to the cells of its stretches. -/
theorem performs_touchLoop (d : Display) (copies : List Copy) {count : Nat} (hpos : 0 < count) (hcount : count < 256)
    (name : String) (P : UInt16 → Prop) :
    Performs (.label name :: (copies.flatMap (Copy.items d (-1)) ++ [.instruction .dex]) ++
        [.instruction (.bne name)])
      (fun s => s.x = .ofNat count ∧ Touched P s₀ s)
      (Touched (fun a => P a ∨ d.Addresses (Copy.cells copies 0 count) a) s₀) := by
  -- With k rounds left there were stores to the cells from distance k on.
  let J (k : Nat) (s : State) : Prop :=
    Touched (fun a => P a ∨ d.Addresses (Copy.cells copies k count) a) s₀ s
  refine (performs_countdown (J := J) hpos hcount name (fun k s x hs => hs) fun k hk => ?_).mono ?_ fun t ht => ht
  · have hround := @performs_touchRound s₀ (.ofNat (k + 1)) d copies (-1) k
      (by rw [toNat_ofNat_byte (by omega)]; omega)
      (fun a => P a ∨ d.Addresses (Copy.cells copies (k + 1) count) a)
    refine hround.mono (fun _ hs => hs) fun t ht => ⟨ht.1, ht.2.congr rfl fun a => ?_⟩
    simp only [Display.Addresses, Copy.cells_step (k + 1) (Nat.le_succ k) hk, or_and_right, exists_or, or_assoc]
  · rintro s ⟨hx, hs⟩
    exact ⟨hx, hs.congr rfl fun a => by simp [Display.Addresses, Copy.not_cells_self]⟩

end Pieces

end Petscii.Machine

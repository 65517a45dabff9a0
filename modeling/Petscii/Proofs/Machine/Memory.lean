import Petscii.Proofs.Machine.Piece

/-!
# Regions of memory

A region is a number of addresses in a row. Regions inside the address space that lie apart share no
address, so what is stored to one leaves the bytes in the other alone.
-/

namespace Petscii.Machine

open Asm

structure Region where
  start : Nat
  size : Nat
  deriving DecidableEq, Repr

namespace Region

def Fits (r : Region) : Prop :=
  r.start + r.size ≤ 0x10000

instance (r : Region) : Decidable r.Fits :=
  inferInstanceAs (Decidable (_ ≤ _))

/-- One region ends before the other starts. -/
def Apart (r q : Region) : Prop :=
  r.start + r.size ≤ q.start ∨ q.start + q.size ≤ r.start

instance (r q : Region) : Decidable (r.Apart q) :=
  inferInstanceAs (Decidable (_ ∨ _))

def Contains (r : Region) (a : UInt16) : Prop :=
  r.start ≤ a.toNat ∧ a.toNat < r.start + r.size

theorem Apart.symm {r q : Region} (h : r.Apart q) : q.Apart r :=
  Or.symm h

theorem Apart.not_contains {r q : Region} (h : r.Apart q) {a : UInt16} (hr : r.Contains a) :
    ¬ q.Contains a := by
  simp only [Apart, Contains] at *
  omega

theorem Apart.part {r q : Region} (h : r.Apart q) {start size : Nat} (hstart : r.start ≤ start)
    (hend : start + size ≤ r.start + r.size) : (⟨start, size⟩ : Region).Apart q := by
  simp only [Apart] at *
  omega

theorem toNat_ofNat {n : Nat} (h : n < 0x10000) : (UInt16.ofNat n).toNat = n :=
  UInt16.toNat_ofNat_of_lt' h

theorem contains_ofNat {r : Region} (hfits : r.Fits) {i : Nat} (hi : i < r.size) :
    r.Contains (.ofNat (r.start + i)) := by
  simp only [Fits] at hfits
  rw [Contains, toNat_ofNat (by omega)]
  omega

end Region

/-- Bytes stand in memory from an address on. -/
def Memory.Holds (memory : Memory) (start : Nat) (bytes : Bytes) : Prop :=
  ∀ (i : Nat) (h : i < bytes.length), memory (.ofNat (start + i)) = bytes[i]

namespace Memory

theorem Holds.slice {memory : Memory} {start : Nat} {before bytes after : Bytes}
    (h : memory.Holds start (before ++ bytes ++ after)) : memory.Holds (start + before.length) bytes := by
  intro i hi
  have hbyte := h (before.length + i) (by simp only [List.length_append]; omega)
  rw [List.getElem_append_left (by simp only [List.length_append]; omega),
    List.getElem_append_right (by omega)] at hbyte
  simpa only [Nat.add_assoc, Nat.add_sub_cancel_left] using hbyte

theorem Holds.congr {memory memory' : Memory} {start : Nat} {bytes : Bytes} (h : memory.Holds start bytes)
    (hfits : (⟨start, bytes.length⟩ : Region).Fits)
    (hsame : ∀ a, (⟨start, bytes.length⟩ : Region).Contains a → memory' a = memory a) :
    memory'.Holds start bytes := by
  intro i hi
  rw [hsame _ (Region.contains_ofNat hfits hi)]
  exact h i hi

theorem holds_place (memory : Memory) {origin : Nat} {bytes : Bytes}
    (hfits : (⟨origin, bytes.length⟩ : Region).Fits) : (memory.place origin bytes).Holds origin bytes := by
  intro i hi
  simp only [Region.Fits] at hfits
  have haddress : (UInt16.ofNat (origin + i)).toNat = origin + i := Region.toNat_ofNat (by omega)
  rw [place, haddress, if_pos (Nat.le_add_right origin i), Nat.add_sub_cancel_left,
    List.getElem?_eq_getElem hi, Option.getD_some]

@[simp] theorem set_self (memory : Memory) (a : UInt16) (value : UInt8) : memory.set a value a = value :=
  if_pos rfl

theorem set_of_ne (memory : Memory) {a b : UInt16} (value : UInt8) (h : b ≠ a) :
    memory.set a value b = memory b :=
  if_neg h

end Memory

theorem ofInt_natCast (n : Nat) : UInt16.ofInt n = UInt16.ofNat n := by
  have hmod : ((n : Int) % 2 ^ 16).toNat = n % 2 ^ 16 := by omega
  rw [UInt16.ofInt, hmod, UInt16.ofNat_mod_size]

theorem ofInt_add_index {value : Int} {x : UInt8} {n : Nat} (h : value + x.toNat = n) :
    UInt16.ofInt value + x.toUInt16 = UInt16.ofNat n := by
  calc UInt16.ofInt value + x.toUInt16
      = UInt16.ofInt value + UInt16.ofInt x.toNat := by
        rw [ofInt_natCast, UInt16.ofNat_uInt8ToNat]
    _ = UInt16.ofInt (value + x.toNat) := (UInt16.ofInt_add _ _).symm
    _ = UInt16.ofNat n := by rw [h, ofInt_natCast]

/-! ### What the registers and the memory are after an instruction -/

namespace State

variable (s : State) (value : UInt8) (a : UInt16)

@[simp] theorem setA_a : (s.setA value).a = value := rfl

@[simp] theorem setA_x : (s.setA value).x = s.x := rfl

@[simp] theorem setA_memory : (s.setA value).memory = s.memory := rfl

@[simp] theorem setA_stores : (s.setA value).stores = s.stores := rfl

@[simp] theorem setX_a : (s.setX value).a = s.a := rfl

@[simp] theorem setX_x : (s.setX value).x = value := rfl

@[simp] theorem setX_zero : (s.setX value).zero = (value == 0) := rfl

@[simp] theorem setX_negative : (s.setX value).negative = decide (0x80 ≤ value) := rfl

@[simp] theorem setX_memory : (s.setX value).memory = s.memory := rfl

@[simp] theorem setX_stores : (s.setX value).stores = s.stores := rfl

@[simp] theorem flag_x : (s.flag value).x = s.x := rfl

@[simp] theorem flag_zero : (s.flag value).zero = (value == 0) := rfl

@[simp] theorem flag_memory : (s.flag value).memory = s.memory := rfl

@[simp] theorem flag_stores : (s.flag value).stores = s.stores := rfl

@[simp] theorem store_x : (s.store a).x = s.x := rfl

@[simp] theorem store_memory : (s.store a).memory = s.memory.set a s.a := rfl

@[simp] theorem store_stores : (s.store a).stores = a :: s.stores := rfl

end State

end Petscii.Machine

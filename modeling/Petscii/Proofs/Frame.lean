import Mathlib.Data.List.Forall2
import Petscii.Frame.Basic

/-!
# Frames that fill the screen

A flat list of values is a frame exactly when it has the two registers and both planes, and then the frame
gives the list back. Everything generated from frames rests on the sizes this leaves: 40 by 25 cells and a
thousand values in each plane. The combination of two such frames is zero exactly where they agree. A frame with
values beyond a byte has another with all of them modulo 256, which is what its bytes hold.
-/

namespace Petscii.Frame

/-- A frame with the size of the screen and both planes filled. -/
structure Full (f : Frame) : Prop where
  width : f.width = Screen.width
  height : f.height = Screen.height
  chars : f.chars.length = Screen.cells
  colors : f.colors.length = Screen.cells

theorem Full.length_plane {f : Frame} (hf : f.Full) (p : Plane) : (f.plane p).length = Screen.cells := by
  cases p with
  | chars => exact hf.chars
  | colors => exact hf.colors
  | other number => exact hf.chars

theorem Full.length_payload {f : Frame} (hf : f.Full) : f.payload.length = 2 + 2 * Screen.cells := by
  simp only [payload, List.length_cons, List.length_append, hf.chars, hf.colors]
  omega

theorem Full.length_bytes {f : Frame} (hf : f.Full) : f.bytes.length = 2 + 2 * Screen.cells := by
  rw [bytes, List.length_map, hf.length_payload]

/-- Values form a frame exactly when they are the values of a frame that fills the screen. -/
theorem ofPayload_eq_ok {name : String} {values : List Cell} {f : Frame} :
    ofPayload name values = .ok f ↔ f.Full ∧ f.name = name ∧ f.payload = values := by
  constructor
  · intro h
    cases values with
    | nil => cases h
    | cons border values =>
      cases values with
      | nil => cases h
      | cons background cells =>
        rw [ofPayload] at h
        split at h
        · cases h
        · split at h
          · cases h
          · next hodd hcount =>
            have hlength : cells.length = 2 * Screen.cells := by omega
            cases h
            refine ⟨⟨rfl, rfl, ?_, ?_⟩, rfl, ?_⟩
            · rw [List.length_take]
              omega
            · rw [List.length_drop]
              omega
            · simp only [payload, List.take_append_drop]
  · rintro ⟨hf, rfl, rfl⟩
    have hlength : (f.chars ++ f.colors).length = 2 * Screen.cells := by
      rw [List.length_append, hf.chars, hf.colors]
      omega
    rw [payload, ofPayload, if_neg (by omega), if_neg (by omega), List.take_left' hf.chars,
      List.drop_left' hf.chars, ← hf.width, ← hf.height]

theorem exists_ofPayload_iff {name : String} {values : List Cell} :
    (∃ f, ofPayload name values = .ok f) ↔ values.length = Screen.headerSize + 2 * Screen.cells := by
  constructor
  · rintro ⟨f, h⟩
    obtain ⟨hfull, _, rfl⟩ := ofPayload_eq_ok.1 h
    exact hfull.length_payload
  · intro hlength
    simp only [Screen.headerSize] at hlength
    cases values with
    | nil => simp only [List.length_nil] at hlength; omega
    | cons border values =>
      cases values with
      | nil => simp only [List.length_cons, List.length_nil] at hlength; omega
      | cons background cells =>
        simp only [List.length_cons] at hlength
        rw [ofPayload, if_neg (by omega), if_neg (by omega)]
        exact ⟨_, rfl⟩

def cellAt (f : Frame) (p : Plane) (i : Nat) : Cell :=
  (f.plane p).getD i 0

theorem cellAt_eq_getElem {f : Frame} {p : Plane} {i : Nat} (hi : i < (f.plane p).length) :
    f.cellAt p i = (f.plane p)[i] := by
  rw [cellAt, List.getD_eq_getElem?_getD, List.getElem?_eq_getElem hi, Option.getD_some]

/-- All values are bytes. -/
def Narrow (f : Frame) : Prop :=
  ∀ v ∈ f.payload, 0 ≤ v.toInt ∧ v.toInt ≤ 0xFF

theorem Narrow.plane {f : Frame} (hf : f.Narrow) {p : Plane} {v : Cell} (hv : v ∈ f.plane p) :
    0 ≤ v.toInt ∧ v.toInt ≤ 0xFF := by
  apply hf v
  cases p with
  | colors =>
    exact List.mem_cons_of_mem _ (List.mem_cons_of_mem _ (List.mem_append_right _ hv))
  | _ => exact List.mem_cons_of_mem _ (List.mem_cons_of_mem _ (List.mem_append_left _ hv))

theorem narrow_iff {f : Frame} :
    f.Narrow ↔ (0 ≤ f.border.toInt ∧ f.border.toInt ≤ 0xFF) ∧
      (0 ≤ f.background.toInt ∧ f.background.toInt ≤ 0xFF) ∧
      (∀ v ∈ f.chars, 0 ≤ v.toInt ∧ v.toInt ≤ 0xFF) ∧ ∀ v ∈ f.colors, 0 ≤ v.toInt ∧ v.toInt ≤ 0xFF := by
  rw [Narrow, payload, List.forall_mem_cons, List.forall_mem_cons, List.forall_mem_append]

theorem Full.cellAt_mem {f : Frame} (hf : f.Full) (p : Plane) {i : Nat} (hi : i < Screen.cells) :
    f.cellAt p i ∈ f.plane p := by
  have hlt : i < (f.plane p).length := by rw [hf.length_plane]; exact hi
  rw [cellAt_eq_getElem hlt]
  exact List.getElem_mem hlt

theorem byte_of_narrow {v : Cell} (h : 0 ≤ v.toInt ∧ v.toInt ≤ 0xFF) : v.toInt.toNat.toUInt8 = v.byte := by
  apply UInt8.toNat_inj.1
  have hword : v.toUInt64.toNat = v.toInt.toNat := by
    rw [← Int64.toNat_toBitVec, Int64.toInt] at *
    have := v.toBitVec.isLt
    have htoInt := BitVec.toInt_eq_toNat_cond v.toBitVec
    omega
  rw [Cell.byte, UInt64.toNat_toUInt8, hword, Nat.toUInt8, UInt8.toNat_ofNat']

theorem slice_inside {f : Frame} {p : Plane} {first count : Nat} (hinside : first + count ≤ (f.plane p).length) :
    f.slice p first ((first : Int) + count - 1) = .ok (((f.plane p).drop first).take count) := by
  rw [slice, if_pos (by omega)]
  congr 2
  omega

theorem Full.slice_eq {f : Frame} (hf : f.Full) (p : Plane) (first count : Nat)
    (hinside : first + count ≤ Screen.cells) :
    f.slice p first ((first : Int) + count - 1) = .ok (((f.plane p).drop first).take count) :=
  slice_inside (hf.length_plane p ▸ hinside)

/-! ### Rows -/

/-- A row that lies within its plane is cut out of it, where every cell has a position. -/
theorem row_inside {f : Frame} {p : Plane} {width r : Nat} (hwidth : f.width = width) (hr : (r : Int) < f.height)
    (hinside : (r + 1) * width ≤ (f.plane p).length) (hlength : (f.plane p).length < 0x8000000000000000) :
    f.row p r = .ok (((f.plane p).drop (r * width)).take width) := by
  rw [Nat.succ_mul] at hinside
  have hstart : f.rowStart r = (r * width : Nat) := by
    rw [rowStart, hwidth, ← Int.natCast_mul]
    exact wrap_eq_self (by omega) (by omega)
  rw [row, if_neg (by omega), hstart, hwidth, wrap_eq_self (by omega) (by omega)]
  exact slice_inside hinside

theorem Full.row_eq {f : Frame} (hf : f.Full) (p : Plane) {r : Nat} (hr : r < Screen.height) :
    f.row p r = .ok (((f.plane p).drop (r * Screen.width)).take Screen.width) := by
  have hlength := hf.length_plane p
  apply row_inside hf.width
  · rw [hf.height]
    exact Int.ofNat_lt.2 hr
  · rw [hlength, Screen.cells, Nat.mul_comm Screen.width]
    exact Nat.mul_le_mul_right _ hr
  · rw [hlength]
    decide

theorem mapM_ok {ε α β : Type} {f : α → Except ε β} {P : α → β → Prop} {l : List α}
    (h : ∀ x ∈ l, ∃ y, f x = .ok y ∧ P x y) : ∃ ys, l.mapM f = .ok ys ∧ List.Forall₂ P l ys := by
  induction l with
  | nil => exact ⟨[], rfl, List.Forall₂.nil⟩
  | cons x l ih =>
    obtain ⟨y, hy, hP⟩ := h x List.mem_cons_self
    obtain ⟨ys, hys, hall⟩ := ih fun x' hx' => h x' (List.mem_cons_of_mem x hx')
    refine ⟨y :: ys, ?_, List.Forall₂.cons hP hall⟩
    rw [List.mapM_cons, hy, hys]
    rfl

theorem mapM_eq_ok {ε α β : Type} {f : α → Except ε β} {g : α → β} {l : List α}
    (h : ∀ x ∈ l, f x = .ok (g x)) : l.mapM f = .ok (l.map g) := by
  obtain ⟨ys, hys, hall⟩ := mapM_ok (P := fun x y => g x = y) fun x hx => ⟨g x, h x hx, rfl⟩
  rw [← List.forall₂_map_left_iff, List.forall₂_eq_eq_eq] at hall
  rw [hall]
  exact hys

theorem mapM_eq_error {ε α β : Type} {f : α → Except ε β} {l : List α} {e : ε}
    (h : l.mapM f = .error e) : ∃ x ∈ l, f x = .error e := by
  induction l with
  | nil => cases h
  | cons x l ih =>
    rw [List.mapM_cons] at h
    cases hx : f x with
    | error e' =>
      rw [hx] at h
      cases h
      exact ⟨x, List.mem_cons_self, hx⟩
    | ok y =>
      rw [hx] at h
      cases hl : l.mapM f with
      | error e' =>
        rw [hl] at h
        cases h
        obtain ⟨x', hx', he⟩ := ih hl
        exact ⟨x', List.mem_cons_of_mem x hx', he⟩
      | ok ys =>
        rw [hl] at h
        cases h

theorem length_of_mapM_eq_ok {ε α β : Type} {f : α → Except ε β} {l : List α} {ys : List β}
    (h : l.mapM f = .ok ys) : ys.length = l.length := by
  induction l generalizing ys with
  | nil =>
    cases h
    rfl
  | cons x l ih =>
    rw [List.mapM_cons] at h
    cases hx : f x with
    | error e =>
      rw [hx] at h
      cases h
    | ok y =>
      rw [hx] at h
      cases hl : l.mapM f with
      | error e =>
        rw [hl] at h
        cases h
      | ok rest =>
        rw [hl] at h
        cases h
        rw [List.length_cons, List.length_cons, ih hl]

theorem flatten_pieces {α : Type} (values : List α) (width count : Nat) :
    ((List.range count).map fun i => (values.drop (i * width)).take width).flatten =
      values.take (count * width) := by
  induction count with
  | zero => simp
  | succ count ih =>
    rw [List.range_succ, List.map_append, List.flatten_append, ih, List.map_singleton,
      List.flatten_singleton, ← List.take_add, Nat.succ_mul]

theorem Full.rows_eq {f : Frame} (hf : f.Full) (p : Plane) :
    ∃ rows, f.rows p = .ok rows ∧ rows.length = Screen.height ∧ rows.flatten = f.plane p ∧
      ∀ row ∈ rows, row ≠ [] := by
  refine ⟨(List.range Screen.height).map fun r => ((f.plane p).drop (r * Screen.width)).take Screen.width,
    ?_, by simp, ?_, ?_⟩
  · rw [Frame.rows, hf.height]
    exact mapM_eq_ok fun r hr => hf.row_eq p (List.mem_range.1 hr)
  · have hlength : (f.plane p).length = Screen.height * Screen.width := hf.length_plane p
    rw [flatten_pieces, List.take_of_length_le (Nat.le_of_eq hlength)]
  · intro row hrow
    obtain ⟨r, hr, rfl⟩ := List.mem_map.1 hrow
    have hlength := hf.length_plane p
    have hr := List.mem_range.1 hr
    rw [← List.length_pos_iff, List.length_take, List.length_drop, hlength]
    simp only [Screen.height, Screen.width, Screen.cells] at *
    omega

/-! ### Combining frames -/

theorem getD_zipWith_xor {xs ys : List Cell} (hlength : xs.length = ys.length) (i : Nat) :
    (List.zipWith (· ^^^ ·) xs ys).getD i 0 = xs.getD i 0 ^^^ ys.getD i 0 := by
  simp only [List.getD_eq_getElem?_getD, List.getElem?_zipWith]
  rcases Nat.lt_or_ge i xs.length with hi | hi
  · rw [List.getElem?_eq_getElem hi, List.getElem?_eq_getElem (by omega)]
    rfl
  · rw [List.getElem?_eq_none hi, List.getElem?_eq_none (by omega)]
    rfl

/-- Two frames that fill the screen can be combined, value by value. -/
theorem Full.xor_eq {a b : Frame} (ha : a.Full) (hb : b.Full) :
    ∃ delta, a.xor b = .ok delta ∧ delta.Full ∧ delta.border = a.border ^^^ b.border ∧
      delta.background = a.background ^^^ b.background ∧
      ∀ p i, delta.cellAt p i = a.cellAt p i ^^^ b.cellAt p i := by
  have hsame : ¬ (a.width ≠ b.width ∨ a.height ≠ b.height ∨ a.chars.length ≠ b.chars.length ∨
      a.colors.length ≠ b.colors.length) := by
    simp [ha.width, hb.width, ha.height, hb.height, ha.chars, hb.chars, ha.colors, hb.colors]
  refine ⟨_, by rw [xor, if_neg hsame, if_neg (by rw [ha.colors, ha.chars]; omega)], ?_, rfl, rfl, ?_⟩
  · refine ⟨ha.width, ha.height, ?_, ?_⟩
    · simp [ha.chars, hb.chars]
    · simp [ha.chars, ha.colors, hb.colors]
  · intro p i
    cases p with
    | colors =>
      simp only [cellAt, plane, ha.chars, ha.colors, Nat.sub_self, List.replicate_zero, List.append_nil]
      rw [List.take_of_length_le (Nat.le_of_eq ha.colors), List.take_of_length_le (Nat.le_of_eq hb.colors)]
      exact getD_zipWith_xor (by rw [ha.colors, hb.colors]) i
    | _ => exact getD_zipWith_xor (by rw [ha.chars, hb.chars]) i

end Petscii.Frame

namespace Petscii

/-! ### Values modulo 256 -/

def Cell.ofByte (b : UInt8) : Cell :=
  Int64.ofNat b.toNat

def Cell.low (v : Cell) : Cell :=
  Int64.ofInt (v.toInt % 256)

theorem Cell.toInt_low (v : Cell) : v.low.toInt = v.toInt % 256 := by
  rw [Cell.low, Int64.toInt_ofInt_of_le (by omega) (by omega)]

theorem Cell.ofByte_byte (v : Cell) : ofByte v.byte = v.low := by
  have hbyte : v.byte.toNat = v.toBitVec.toNat % 256 := by
    rw [Cell.byte, UInt64.toNat_toUInt8]
    rfl
  have hcond := BitVec.toInt_eq_toNat_cond v.toBitVec
  have hlow : (v.byte.toNat : Int) = v.toInt % 256 := by
    rw [hbyte, Int64.toInt]
    omega
  rw [Cell.ofByte, Cell.low, ← hlow, Int64.ofInt_eq_ofNat]

theorem Cell.low_of_narrow {v : Cell} (h : 0 ≤ v.toInt ∧ v.toInt ≤ 0xFF) : v.low = v := by
  apply Int64.toInt_inj.1
  rw [Cell.toInt_low, Int.emod_eq_of_lt h.1 (by omega)]

namespace Frame

def low (f : Frame) : Frame :=
  { f with
    border := f.border.low
    background := f.background.low
    chars := f.chars.map Cell.low
    colors := f.colors.map Cell.low }

theorem plane_low (f : Frame) (p : Plane) : f.low.plane p = (f.plane p).map Cell.low := by
  cases p <;> rfl

theorem cellAt_low (f : Frame) (p : Plane) (i : Nat) : f.low.cellAt p i = (f.cellAt p i).low := by
  rw [cellAt, plane_low, cellAt, List.getD_eq_getElem?_getD, List.getD_eq_getElem?_getD, List.getElem?_map]
  cases (f.plane p)[i]? with
  | none => rfl
  | some v => rfl

theorem Full.low {f : Frame} (hf : f.Full) : f.low.Full where
  width := hf.width
  height := hf.height
  chars := (List.length_map _).trans hf.chars
  colors := (List.length_map _).trans hf.colors

theorem payload_low (f : Frame) : f.low.payload = f.payload.map Cell.low := by
  simp only [payload, low, List.map_cons, List.map_append]

theorem narrow_low (f : Frame) : f.low.Narrow := by
  intro v hv
  rw [payload_low] at hv
  obtain ⟨u, _, rfl⟩ := List.mem_map.1 hv
  rw [Cell.toInt_low]
  omega

theorem Narrow.low_eq {f : Frame} (hf : f.Narrow) : f.low = f := by
  have hplane : ∀ p, (f.plane p).map Cell.low = f.plane p := fun p =>
    (List.map_congr_left fun v hv => Cell.low_of_narrow (hf.plane (p := p) hv)).trans (List.map_id _)
  have hborder : f.border.low = f.border := Cell.low_of_narrow (hf _ List.mem_cons_self)
  have hbackground : f.background.low = f.background :=
    Cell.low_of_narrow (hf _ (List.mem_cons_of_mem _ List.mem_cons_self))
  have hchars : f.chars.map Cell.low = f.chars := hplane .chars
  have hcolors : f.colors.map Cell.low = f.colors := hplane .colors
  rw [low, hborder, hbackground, hchars, hcolors]

end Frame

end Petscii

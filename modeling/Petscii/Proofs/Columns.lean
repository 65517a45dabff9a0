import Mathlib.Order.Bounds.Basic
import Petscii.Frame.Rows
import Petscii.Proofs.Frame

/-!
# Changed columns

A row is scanned from both ends at once. After some rounds the scan knows the least differing column of those
seen from the left and the greatest of those seen from the right, and after a round for every column both sides
have seen the same ones, so that they agree on whether the row changed. So every row of two frames of one size has
changed columns exactly if its characters differ somewhere, and they begin and end where these do. This holds
for any size, with no column at all or with only one, and whatever the names and colours are.
-/

namespace Petscii.Frame

/-! ### The scan from both ends -/

/-- What is found among some columns in an order: nothing if there are none, and else the one before all
others. -/
def First (before : Nat → Nat → Prop) (columns : Nat → Prop) : Option Nat → Prop
  | none => ∀ c, ¬ columns c
  | some c => columns c ∧ ∀ j, columns j → before c j

/-- Two rows have different values in one of the first `width` columns. -/
def DifferAt (width : Nat) (a b : List Cell) (c : Nat) : Prop :=
  c < width ∧ a[c]? ≠ b[c]?

def between (width : Nat) (a b : List Cell) : Option Columns :=
  match (Scan.rounds width a b width).left, (Scan.rounds width a b width).right with
  | some first, some last => some ⟨first, last⟩
  | _, _ => none

namespace Scan

variable {width : Nat} {a b : List Cell}

/-- A column behind all others is found only if there are none. -/
theorem first_look {before : Nat → Nat → Prop} {columns : Nat → Prop} {found : Option Nat} {c : Nat}
    (h : First before columns found) (hrefl : before c c) (hbehind : ∀ j, columns j → before j c) :
    First before (fun j => columns j ∨ j = c ∧ a[c]? ≠ b[c]?) (look a b found c) := by
  cases found with
  | none =>
    by_cases hdiffer : a[c]? = b[c]?
    · rw [look, if_neg (by simp [hdiffer])]
      rintro j (hj | ⟨_, hne⟩)
      · exact h j hj
      · exact hne hdiffer
    · rw [look, if_pos ⟨rfl, hdiffer⟩]
      refine ⟨Or.inr ⟨rfl, hdiffer⟩, ?_⟩
      rintro j (hj | ⟨rfl, _⟩)
      · exact absurd hj (h j)
      · exact hrefl
  | some d =>
    rw [look, if_neg (by simp)]
    refine ⟨Or.inl h.1, ?_⟩
    rintro j (hj | ⟨rfl, _⟩)
    · exact h.2 j hj
    · exact hbehind d h.1

/-- After `n` rounds the scan has the least of the first `n` columns that differ and the greatest of the last
`n`. -/
structure Seen (width : Nat) (a b : List Cell) (n : Nat) (s : Scan) : Prop where
  left : First (· ≤ ·) (fun c => c < n ∧ a[c]? ≠ b[c]?) s.left
  right : First (· ≥ ·) (fun c => width ≤ c + n ∧ DifferAt width a b c) s.right

theorem Seen.step {n : Nat} {s : Scan} (h : Seen width a b n s) (hn : n < width) :
    Seen width a b (n + 1) (s.step width a b n) where
  left := by
    have hlook := @first_look a b _ _ _ n h.left (Nat.le_refl _) fun j hj => Nat.le_of_lt hj.1
    have hcolumns : (fun c => c < n + 1 ∧ a[c]? ≠ b[c]?) =
        fun c => (c < n ∧ a[c]? ≠ b[c]?) ∨ c = n ∧ a[n]? ≠ b[n]? := by
      funext c
      grind
    rw [hcolumns]
    exact hlook
  right := by
    have hlook := @first_look a b _ _ _ (width - n - 1) h.right (Nat.le_refl _) fun j hj => by omega
    have hcolumns : (fun c => width ≤ c + (n + 1) ∧ DifferAt width a b c) = fun c =>
        (width ≤ c + n ∧ DifferAt width a b c) ∨
          c = width - n - 1 ∧ a[width - n - 1]? ≠ b[width - n - 1]? := by
      funext c
      grind [DifferAt]
    rw [hcolumns]
    exact hlook

theorem seen_rounds (a b : List Cell) {n : Nat} (hn : n ≤ width) : Seen width a b n (rounds width a b n) := by
  induction n with
  | zero =>
    refine ⟨fun c hc => ?_, fun c hc => ?_⟩
    · exact absurd hc.1 (Nat.not_lt_zero c)
    · exact absurd hc.2.1 (Nat.not_lt.2 hc.1)
  | succ n ih =>
    rw [rounds, List.range_succ, List.foldl_append]
    exact (ih (by omega)).step (by omega)

/-- With a round for every column both ends know of all columns. -/
theorem first_rounds (width : Nat) (a b : List Cell) :
    First (· ≤ ·) (DifferAt width a b) (rounds width a b width).left ∧
      First (· ≥ ·) (DifferAt width a b) (rounds width a b width).right := by
  obtain ⟨hleft, hright⟩ := seen_rounds a b (Nat.le_refl width)
  refine ⟨hleft, ?_⟩
  have hcolumns : (fun c => width ≤ c + width ∧ DifferAt width a b c) = DifferAt width a b := by
    funext c
    simp
  rwa [hcolumns] at hright

end Scan

section Lists

variable {width : Nat} {a b : List Cell}

/-- Either end finds a column if the other does. -/
theorem ends_agree (width : Nat) (a b : List Cell) :
    (∀ c, ¬ DifferAt width a b c) ∧ (Scan.rounds width a b width).left = none ∧
        (Scan.rounds width a b width).right = none ∨
      ∃ first last, (Scan.rounds width a b width).left = some first ∧
        (Scan.rounds width a b width).right = some last ∧
        IsLeast {c | DifferAt width a b c} first ∧ IsGreatest {c | DifferAt width a b c} last := by
  obtain ⟨hleft, hright⟩ := Scan.first_rounds width a b
  cases hfirst : (Scan.rounds width a b width).left with
  | none =>
    rw [hfirst] at hleft
    cases hlast : (Scan.rounds width a b width).right with
    | none => exact Or.inl ⟨hleft, rfl, rfl⟩
    | some last =>
      rw [hlast] at hright
      exact absurd hright.1 (hleft last)
  | some first =>
    rw [hfirst] at hleft
    cases hlast : (Scan.rounds width a b width).right with
    | none =>
      rw [hlast] at hright
      exact absurd hleft.1 (hright first)
    | some last =>
      rw [hlast] at hright
      exact Or.inr ⟨first, last, rfl, rfl, hleft, hright⟩

theorem between_isSome : (between width a b).isSome ↔ ∃ c, DifferAt width a b c := by
  obtain ⟨hsame, hleft, hright⟩ | ⟨first, last, hleft, hright, hleast, _⟩ := ends_agree width a b
  · simp [between, hleft, hsame]
  · simp only [between, hleft, hright, Option.isSome_some, true_iff]
    exact ⟨first, hleast.1⟩

theorem between_eq_some {columns : Columns} (h : between width a b = some columns) :
    IsLeast {c | DifferAt width a b c} columns.first ∧ IsGreatest {c | DifferAt width a b c} columns.last := by
  obtain ⟨_, hleft, hright⟩ | ⟨first, last, hleft, hright, hends⟩ := ends_agree width a b
  · simp [between, hleft, hright] at h
  · simp only [between, hleft, hright, Option.some.injEq] at h
    subst h
    exact hends

end Lists

/-! ### Rows of any two frames -/

/-- A row is compared as soon as both frames have it. -/
theorem changedRow_eq_between (prev next : Frame) (r : Nat) :
    prev.changedRow next r = do
      let p ← prev.row .chars r
      let n ← next.row .chars r
      return between prev.width.toNat p n := by
  rw [changedRow]
  congr 1
  funext p
  congr 1
  funext n
  obtain ⟨_, hleft, hright⟩ | ⟨first, last, hleft, hright, _⟩ := ends_agree prev.width.toNat p n
  · simp only [between, hleft, hright]
    rfl
  · simp only [between, hleft, hright]
    rfl

theorem row_ne_oneSided (f : Frame) (p : Plane) (r : Int) (prev next : String) (row : Nat) :
    f.row p r ≠ .error (.oneSided prev next row) := by
  rw [Frame.row, slice]
  split
  · simp
  · split <;> simp

theorem changedRow_ne_oneSided (a b : Frame) (r : Nat) (prev next : String) (row : Nat) :
    a.changedRow b r ≠ .error (.oneSided prev next row) := by
  intro h
  rw [changedRow_eq_between] at h
  cases ha : a.row .chars r with
  | error e =>
    rw [ha] at h
    cases h
    exact row_ne_oneSided a .chars r prev next row ha
  | ok p =>
    rw [ha] at h
    cases hb : b.row .chars r with
    | error e =>
      rw [hb] at h
      cases h
      exact row_ne_oneSided b .chars r prev next row hb
    | ok n =>
      rw [hb] at h
      cases h

/-- The two scans never disagree, whatever frames are compared. -/
theorem changedRows_ne_oneSided (a b : Frame) (prev next : String) (row : Nat) :
    a.changedRows b ≠ .error (.oneSided prev next row) := by
  intro h
  rw [changedRows] at h
  split at h
  · cases h
  · obtain ⟨r, _, hrow⟩ := mapM_eq_error h
    exact changedRow_ne_oneSided a b r prev next row hrow

/-! ### Frames of any size -/

/-- A frame whose characters reach to the end of its last row. Positions are 64-bit integers, and all of its
characters have one. -/
structure Ample (f : Frame) : Prop where
  width : 0 ≤ f.width
  height : 0 ≤ f.height
  cells : f.width * f.height ≤ f.chars.length
  positions : f.chars.length < 0x8000000000000000

/-- Two frames of the width of the first have different characters in a column of a row. -/
def DiffersAt (prev next : Frame) (r c : Nat) : Prop :=
  c < prev.width.toNat ∧
    prev.cellAt .chars (r * prev.width.toNat + c) ≠ next.cellAt .chars (r * prev.width.toNat + c)

/-- What is found in a row is as narrow as can be: something exactly if there is a column in which the frames
differ, and then from the least such column to the greatest. -/
structure Tight (prev next : Frame) (r : Nat) (row : Option Columns) : Prop where
  changed : row.isSome ↔ ∃ c, prev.DiffersAt next r c
  first : ∀ columns, row = some columns → IsLeast {c | prev.DiffersAt next r c} columns.first
  last : ∀ columns, row = some columns → IsGreatest {c | prev.DiffersAt next r c} columns.last
  single : (∃ columns, row = some columns ∧ columns.single) ↔ ∃! c, prev.DiffersAt next r c

structure SameCharacters (f g : Frame) : Prop where
  width : f.width = g.width
  height : f.height = g.height
  chars : f.chars = g.chars

def rowChars (f : Frame) (r : Nat) : List Cell :=
  (f.chars.drop (r * f.width.toNat)).take f.width.toNat

section Ample

variable {f prev next : Frame} {r : Nat}

theorem Ample.inside (hf : f.Ample) (hr : (r : Int) < f.height) : (r + 1) * f.width.toNat ≤ f.chars.length := by
  have hcells := hf.cells
  have hwidth : (f.width.toNat : Int) = f.width := Int.toNat_of_nonneg hf.width
  have hrows : f.width * (r + 1) ≤ f.width * f.height := Int.mul_le_mul_of_nonneg_left (by omega) hf.width
  rw [← Int.ofNat_le]
  push_cast
  rw [hwidth, Int.mul_comm]
  omega

theorem Ample.row_eq (hf : f.Ample) (hr : (r : Int) < f.height) : f.row .chars r = .ok (f.rowChars r) :=
  row_inside (Int.toNat_of_nonneg hf.width).symm hr (hf.inside hr) hf.positions

theorem Ample.length_rowChars (hf : f.Ample) (hr : (r : Int) < f.height) :
    (f.rowChars r).length = f.width.toNat := by
  have hinside := hf.inside hr
  rw [Nat.succ_mul] at hinside
  rw [rowChars, List.length_take, List.length_drop]
  omega

theorem getElem_rowChars {c : Nat} (hc : c < (f.rowChars r).length) :
    (f.rowChars r)[c] = f.cellAt .chars (r * f.width.toNat + c) := by
  have hlt : r * f.width.toNat + c < (f.plane .chars).length := by
    rw [rowChars, List.length_take, List.length_drop] at hc
    show _ < f.chars.length
    omega
  rw [cellAt_eq_getElem hlt]
  simp only [rowChars, List.getElem_take, List.getElem_drop]
  rfl

theorem differAt_rowChars (hwidth : prev.width = next.width) (hheight : prev.height = next.height)
    (hprev : prev.Ample) (hnext : next.Ample) (hr : (r : Int) < prev.height) (c : Nat) :
    DifferAt prev.width.toNat (prev.rowChars r) (next.rowChars r) c ↔ prev.DiffersAt next r c := by
  have hlength := hprev.length_rowChars hr
  have hlength' := hnext.length_rowChars (hheight ▸ hr)
  rw [← hwidth] at hlength'
  rw [DifferAt, DiffersAt]
  refine and_congr_right fun hc => ?_
  rw [List.getElem?_eq_getElem (by omega), List.getElem?_eq_getElem (by omega), getElem_rowChars, getElem_rowChars,
    ← hwidth, ne_eq, Option.some.injEq]

/-- With both ends of a row's changed columns it is known whether they are one. -/
theorem Tight.of_ends {row : Option Columns} (hchanged : row.isSome ↔ ∃ c, prev.DiffersAt next r c)
    (hends : ∀ columns, row = some columns →
      IsLeast {c | prev.DiffersAt next r c} columns.first ∧ IsGreatest {c | prev.DiffersAt next r c} columns.last) :
    Tight prev next r row where
  changed := hchanged
  first columns hrow := (hends columns hrow).1
  last columns hrow := (hends columns hrow).2
  single := by
    simp only [Columns.single, beq_iff_eq]
    constructor
    · intro ⟨columns, hrow, hsame⟩
      obtain ⟨hleast, hgreatest⟩ := hends columns hrow
      refine ⟨columns.first, hleast.1, fun c hc => ?_⟩
      exact Nat.le_antisymm (hsame ▸ hgreatest.2 hc) (hleast.2 hc)
    · intro ⟨c, hc, hunique⟩
      obtain ⟨columns, hrow⟩ := Option.isSome_iff_exists.1 (hchanged.2 ⟨c, hc⟩)
      obtain ⟨hleast, hgreatest⟩ := hends columns hrow
      exact ⟨columns, hrow, (hunique _ hleast.1).trans (hunique _ hgreatest.1).symm⟩

section Compared

variable (hwidth : prev.width = next.width) (hheight : prev.height = next.height) (hprev : prev.Ample)
  (hnext : next.Ample)

include hwidth hheight hprev hnext

theorem tight_between (hr : (r : Int) < prev.height) :
    Tight prev next r (between prev.width.toNat (prev.rowChars r) (next.rowChars r)) := by
  have hdiffer := differAt_rowChars hwidth hheight hprev hnext hr
  apply Tight.of_ends
  · rw [between_isSome]
    exact exists_congr hdiffer
  · intro columns hcolumns
    have hends := between_eq_some hcolumns
    simpa only [hdiffer] using hends

theorem changedRows_eq_map :
    prev.changedRows next =
      .ok ((List.range prev.height.toNat).map fun r => between prev.width.toNat (prev.rowChars r) (next.rowChars r)) := by
  rw [changedRows, if_neg (by simp [hwidth, hheight])]
  apply mapM_eq_ok
  intro r hr
  have hr : (r : Int) < prev.height := by
    have hlt := List.mem_range.1 hr
    omega
  rw [changedRow_eq_between, hprev.row_eq hr, hnext.row_eq (hheight ▸ hr)]
  rfl

theorem changedRows_ok :
    ∃ rows, prev.changedRows next = .ok rows ∧ (rows.length : Int) = prev.height ∧
      ∀ r row, rows[r]? = some row → Tight prev next r row := by
  have hnonneg := hprev.height
  refine ⟨_, changedRows_eq_map hwidth hheight hprev hnext, by simp [hnonneg], fun r row hrow => ?_⟩
  simp only [List.getElem?_map, Option.map_eq_some_iff, List.getElem?_eq_some_iff, List.getElem_range,
    List.length_range] at hrow
  obtain ⟨_, ⟨hr, rfl⟩, rfl⟩ := hrow
  exact tight_between hwidth hheight hprev hnext (by omega)

end Compared

section SameCharacters

variable {g : Frame}

theorem SameCharacters.ample (h : SameCharacters f g) (hg : g.Ample) : f.Ample where
  width := h.width ▸ hg.width
  height := h.height ▸ hg.height
  cells := by
    rw [h.width, h.height, h.chars]
    exact hg.cells
  positions := h.chars ▸ hg.positions

theorem SameCharacters.rowChars_eq (h : SameCharacters f g) (r : Nat) : f.rowChars r = g.rowChars r := by
  rw [rowChars, rowChars, h.width, h.chars]

end SameCharacters

end Ample

/-- Two frames of one size are compared in every row, and what is found there is as narrow as can be. It
depends on nothing but the size and the characters, and no comparison ends with scans that disagree. -/
theorem changedRows_tight {prev next : Frame} (hwidth : prev.width = next.width)
    (hheight : prev.height = next.height) (hprev : prev.Ample) (hnext : next.Ample) :
    (∃ rows, prev.changedRows next = .ok rows ∧ (rows.length : Int) = prev.height ∧
      (∀ r row, rows[r]? = some row → Tight prev next r row) ∧
      ∀ prev' next', SameCharacters prev' prev → SameCharacters next' next →
        prev'.changedRows next' = .ok rows) ∧
      ∀ (a b : Frame) (x y : String) (r : Nat), a.changedRows b ≠ .error (.oneSided x y r) := by
  obtain ⟨rows, hrows, hlength, htight⟩ := changedRows_ok hwidth hheight hprev hnext
  refine ⟨⟨rows, hrows, hlength, htight, fun prev' next' hsame hsame' => ?_⟩, changedRows_ne_oneSided⟩
  rw [← hrows, changedRows_eq_map hwidth hheight hprev hnext,
    changedRows_eq_map (by rw [hsame.width, hsame'.width, hwidth]) (by rw [hsame.height, hsame'.height, hheight])
      (hsame.ample hprev) (hsame'.ample hnext), hsame.height]
  simp only [hsame.width, hsame.rowChars_eq, hsame'.rowChars_eq]

/-- Two rows of three cells, with a character behind them and no colours. -/
def reef : Frame := ⟨"_reef", 0, 6, 3, 2, [1, 2, 3, 4, 5, 6, 7], []⟩

/-- The reef with another character in the middle of its first row, at both ends of its second and behind. -/
def surf : Frame := ⟨"_surf", 1, 14, 3, 2, [1, 9, 3, 9, 5, 9, 9], [14]⟩

theorem changedRows_tight_reef :
    reef.Ample ∧ surf.Ample ∧ reef.changedRows surf = .ok [some ⟨1, 1⟩, some ⟨0, 2⟩] ∧
      Tight reef surf 0 (some ⟨1, 1⟩) ∧ Tight reef surf 1 (some ⟨0, 2⟩) ∧
      { reef with name := "_calm", colors := [5] }.changedRows surf = .ok [some ⟨1, 1⟩, some ⟨0, 2⟩] := by
  have hreef : reef.Ample := ⟨by decide, by decide, by decide, by decide⟩
  have hsurf : surf.Ample := ⟨by decide, by decide, by decide, by decide⟩
  have hrows : reef.changedRows surf = .ok [some ⟨1, 1⟩, some ⟨0, 2⟩] := by decide
  obtain ⟨⟨rows, hok, _, htight, hsame⟩, _⟩ := @changedRows_tight reef surf rfl rfl hreef hsurf
  cases hrows.symm.trans hok
  exact ⟨hreef, hsurf, hrows, htight 0 _ rfl, htight 1 _ rfl, hsame _ _ ⟨rfl, rfl, rfl⟩ ⟨rfl, rfl, rfl⟩⟩

end Petscii.Frame

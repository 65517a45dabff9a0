import Mathlib.Data.List.Nodup
import Petscii.Patch
import Petscii.Proofs.Asm.Link
import Petscii.Proofs.Machine.Copy
import Petscii.Proofs.Patch.Rows
import Petscii.Proofs.Text.Numeral

/-!
# The body of a patch script's procedure

The body of a procedure copies the changed columns of every row from the next frame's image to the screen
and to the colour memory. Wherever the image and the two planes lie apart, the body paints these cells and
nothing else, row by row. A screen that held the characters of the previous frame then holds those of the
next one.
-/

namespace Petscii.Patch

open Asm Machine

/-! ### Lines of rows -/

def rowsLines (target : Target) (next : Frame) (rows : List (Option Columns × Nat)) : List Line :=
  rows.flatMap fun (columns, row) =>
    match columns with
    | none => []
    | some columns => rowLines target next row columns

section Lines

variable (target : Target) (next : Frame)

@[simp] theorem rowsLines_nil : rowsLines target next [] = [] := rfl

@[simp] theorem rowsLines_none (row : Nat) (rows : List (Option Columns × Nat)) :
    rowsLines target next ((none, row) :: rows) = rowsLines target next rows := rfl

@[simp] theorem rowsLines_some (columns : Columns) (row : Nat) (rows : List (Option Columns × Nat)) :
    rowsLines target next ((some columns, row) :: rows) =
      rowLines target next row columns ++ rowsLines target next rows := rfl

theorem mem_rowsLines {line : Line} {rows : List (Option Columns × Nat)}
    (hline : line ∈ rowsLines target next rows) : ∃ columns row, line ∈ rowLines target next row columns := by
  obtain ⟨⟨columns, row⟩, _, hline⟩ := List.mem_flatMap.1 hline
  cases columns with
  | none => cases hline
  | some columns => exact ⟨columns, row, hline⟩

theorem plain_rowLines {row : Nat} {columns : Columns} {line : Line}
    (hline : line ∈ rowLines target next row columns) : line.Plain := by
  rw [rowLines] at hline
  split at hline
  · simp only [List.mem_cons, List.not_mem_nil, or_false] at hline
    rcases hline with rfl | rfl | rfl | rfl <;> trivial
  · simp only [Instruction.pastZero, List.map_cons, List.map_nil, List.cons_append, List.nil_append,
      List.mem_cons, List.not_mem_nil, or_false] at hline
    rcases hline with rfl | rfl | rfl | rfl | rfl | rfl | rfl | rfl <;> trivial

/-- Every row has at most one label, its own. -/
theorem labelsOf_rowLines (row : Nat) (columns : Columns) :
    labelsOf (rowLines target next row columns) =
      if columns.single then [] else ["loop" ++ Nat.repr row] := by
  rw [rowLines]
  split <;> rfl

theorem labelsOf_rowsLines_sublist (rows : List (Option Columns × Nat)) :
    (labelsOf (rowsLines target next rows)).Sublist (rows.map fun r => "loop" ++ Nat.repr r.2) := by
  induction rows with
  | nil => exact List.Sublist.refl _
  | cons head rows ih =>
    obtain ⟨columns, row⟩ := head
    cases columns with
    | none => exact ih.cons _
    | some columns =>
      rw [rowsLines_some, labelsOf_append, labelsOf_rowLines]
      split
      · exact ih.cons _
      · exact ih.cons_cons _

theorem nodup_labelsOf_bodyLines (rows : List (Option Columns)) :
    (labelsOf (bodyLines target next rows)).Nodup := by
  refine (labelsOf_rowsLines_sublist target next rows.zipIdx).nodup ?_
  have hnumbers : (rows.zipIdx.map fun r => "loop" ++ Nat.repr r.2) =
      (List.range' 0 rows.length).map fun n => "loop" ++ Nat.repr n := by
    rw [← List.zipIdx_map_snd, List.map_map]
    rfl
  rw [hnumbers]
  refine (List.nodup_range' 1).map fun m n h => ?_
  have hlist := congrArg String.toList h
  simp only [String.toList_append] at hlist
  exact repr_nat_injective (String.toList_inj.1 (List.append_cancel_left hlist))

end Lines

/-! ### Copying a row -/

/-- Where a procedure stands: the module it is part of and its scope, the display and the image of the frame
it leads to. -/
structure Spot (target : Target) (next : Frame) where
  layout : Layout
  imports : Symbols
  origin : Nat
  scope : Option String
  display : Display
  image : Nat
  clear : display.Clear
  full : next.Full
  fits : (⟨image, next.bytes.length⟩ : Region).Fits
  apart : ∀ p, (⟨image, next.bytes.length⟩ : Region).Apart (display.region p)
  colors_eq : target.colorRam.toNat = display.colors
  screen_eq : layout.symbols imports origin scope [] target.screen = some (display.screen : Int)
  image_eq : layout.symbols imports origin scope [] next.name = some (image : Int)

namespace Spot

variable {target : Target} {next : Frame} (spot : Spot target next)

def symbols : Symbols :=
  spot.layout.symbols spot.imports spot.origin spot.scope []

def Links (lines : List Line) (items : List Item) : Prop :=
  Asm.Links spot.layout spot.imports spot.origin (drafts spot.scope (under [] lines)) items

theorem Links.append {spot : Spot target next} {a b : List Line} {as bs : List Item} (ha : spot.Links a as)
    (hb : spot.Links b bs) : spot.Links (a ++ b) (as ++ bs) := by
  rw [Links, under_append, drafts_append]
  exact Asm.Links.append ha hb

/-- The address of a cell's value in the image. -/
def source : Plane → Nat → Nat
  | .colors, i => spot.image + (Screen.headerSize + Screen.cells + i)
  | _, i => spot.image + (Screen.headerSize + i)

theorem eval_cellTerms (sum : Int) (row column : Nat) :
    termsEval spot.symbols sum (cellTerms row column) =
      some (sum + row * Screen.width + column) := by
  rw [cellTerms, termsEval_product rfl rfl, termsEval_plus, termsEval_nil]

theorem eval_screenCell (row column : Nat) : (screenCell target row column).eval spot.symbols =
    some ((spot.display.start .chars + (row * Screen.width + column : Nat) : Nat) : Int) := by
  have hbase : (Atom.symbol target.screen).eval spot.symbols = some (spot.display.screen : Int) :=
    spot.screen_eq
  rw [screenCell, eval_eq_termsEval hbase, eval_cellTerms]
  push_cast [Display.start]
  rw [Int.add_assoc]

theorem eval_colorCell (row column : Nat) : (colorCell target row column).eval spot.symbols =
    some ((spot.display.start .colors + (row * Screen.width + column : Nat) : Nat) : Int) := by
  have hbase : (Atom.address target.colorRam).eval spot.symbols = some (spot.display.colors : Int) := by
    rw [← spot.colors_eq]
    rfl
  rw [colorCell, eval_eq_termsEval hbase, eval_cellTerms]
  push_cast [Display.start]
  rw [Int.add_assoc]

theorem eval_charSource (row column : Nat) : (charSource next row column).eval spot.symbols =
    some (spot.source .chars (row * Screen.width + column) : Int) := by
  have hbase : (Atom.symbol next.name).eval spot.symbols = some (spot.image : Int) := spot.image_eq
  rw [charSource, eval_eq_termsEval hbase, termsEval_plus, eval_cellTerms]
  push_cast [source]
  simp only [Int.add_assoc]

theorem eval_colorSource (row column : Nat) : (colorSource next row column).eval spot.symbols =
    some (spot.source .colors (row * Screen.width + column) : Int) := by
  have hbase : (Atom.symbol next.name).eval spot.symbols = some (spot.image : Int) := spot.image_eq
  rw [colorSource, eval_eq_termsEval hbase, termsEval_plus, termsEval_product rfl rfl, eval_cellTerms]
  push_cast [source, Screen.cells]
  simp only [Int.add_assoc]

theorem image_value {memory : Memory} (hmemory : memory.Holds spot.image next.bytes) {p : Plane}
    (hp : p = .chars ∨ p = .colors) {i : Nat} (hi : i < Screen.cells) :
    memory (.ofNat (spot.source p i)) = (next.cellAt p i).byte := by
  have hheader : next.bytes =
      [next.border.byte, next.background.byte] ++ next.chars.map Cell.byte ++ next.colors.map Cell.byte := by
    simp [Frame.bytes, Frame.payload]
  rw [hheader] at hmemory
  rcases hp with rfl | rfl
  · have hchars := (holds_plane spot.full .chars).1 hmemory.slice i hi
    rw [← hchars]
    congr 2
    simp only [source, Screen.headerSize, List.length_cons, List.length_nil]
    omega
  · rw [← List.append_nil (_ ++ _)] at hmemory
    have hcolors := (holds_plane spot.full .colors).1 hmemory.slice i hi
    rw [← hcolors]
    congr 2
    simp only [source, Screen.headerSize, List.length_append, List.length_map, spot.full.chars,
      List.length_cons, List.length_nil]
    omega

/-- The stretches of both planes that are copied together. -/
def copies (i : Nat) : List Copy :=
  [⟨.chars, i, spot.source .chars i⟩, ⟨.colors, i, spot.source .colors i⟩]

theorem ready_copies {memory : Memory} (hmemory : memory.Holds spot.image next.bytes) {i count : Nat}
    (hinside : i + count ≤ Screen.cells) :
    ∀ c ∈ spot.copies i, c.Ready spot.display next count memory := by
  have hlength : next.bytes.length = 2 + 2 * Screen.cells := spot.full.length_bytes
  have hready : ∀ p, p = .chars ∨ p = .colors →
      (⟨p, i, spot.source p i⟩ : Copy).Ready spot.display next count memory := by
    intro p hp
    have hfits := spot.fits
    have hlow : spot.image ≤ spot.source p i := by rcases hp with rfl | rfl <;> exact Nat.le_add_right _ _
    have hhigh : spot.source p i + count ≤ spot.image + next.bytes.length := by
      rcases hp with rfl | rfl <;> simp only [source, Screen.headerSize] <;> omega
    simp only [Region.Fits] at hfits
    refine ⟨by simp only [Region.Fits]; omega, fun q => (spot.apart q).part hlow hhigh, hinside, ?_⟩
    intro j hj
    have hvalue := spot.image_value hmemory hp (i := i + j) (by omega)
    rcases hp with rfl | rfl <;> simpa only [source, Nat.add_assoc] using hvalue
  intro c hc
  simp only [copies, List.mem_cons, List.not_mem_nil, or_false] at hc
  rcases hc with rfl | rfl
  · exact hready .chars (.inl rfl)
  · exact hready .colors (.inr rfl)

variable {spot}

/-- The copying of one cell of each stretch, as the lines of a loop say it. -/
theorem links_indexed (row column : Nat) :
    spot.Links
      [.instruction (.ldaIndexed (charSource next row column)),
        .instruction (.staIndexed (screenCell target row column)),
        .instruction (.ldaIndexed (colorSource next row column)),
        .instruction (.staIndexed (colorCell target row column))]
      ((spot.copies (row * Screen.width + column)).flatMap (Copy.items spot.display 0)) := by
  simp only [copies, Copy.items, List.flatMap_cons, List.flatMap_nil, List.append_nil, List.cons_append,
    List.nil_append, Int.add_zero]
  exact Asm.Links.cons (link_ldaIndexed (spot.eval_charSource row column))
    (Asm.Links.cons (link_staIndexed (spot.eval_screenCell row column))
      (Asm.Links.cons (link_ldaIndexed (spot.eval_colorSource row column))
        (Asm.Links.cons (link_staIndexed (spot.eval_colorCell row column)) Asm.Links.nil)))

section Performs

variable {s₀ : State} (hmemory : s₀.memory.Holds spot.image next.bytes)
include hmemory

theorem performs_single {i : Nat} (hi : i < Screen.cells) (painted : Plane → Nat → Prop) :
    Performs [.instruction (.lda (.ofInt (spot.source .chars i))),
        .instruction (.sta (.ofInt ((spot.display.start .chars + i : Nat) : Int))),
        .instruction (.lda (.ofInt (spot.source .colors i))),
        .instruction (.sta (.ofInt ((spot.display.start .colors + i : Nat) : Int)))]
      (fun s => Painted spot.display next painted s₀ s)
      fun t => Painted spot.display next
        (fun p j => (painted p j ∨ p = .chars ∧ j = i) ∨ p = .colors ∧ j = i) s₀ t := by
  have hput : ∀ (p : Plane) (_ : p = .chars ∨ p = .colors) (x : UInt8) (cells : Plane → Nat → Prop),
      Performs [.instruction (.lda (.ofInt (spot.source p i))),
          .instruction (.sta (.ofInt ((spot.display.start p + i : Nat) : Int)))]
        (fun s => s.x = x ∧ Painted spot.display next cells s₀ s)
        fun t => t.x = x ∧ Painted spot.display next (fun q j => cells q j ∨ q = p ∧ j = i) s₀ t := by
    intro p hp x cells
    apply performs_put spot.clear _ _ hi (fun _ => ⟨rfl, rfl⟩)
    · intro s _ hs
      have hready : (⟨p, i, spot.source p i⟩ : Copy).Ready spot.display next 1 s₀.memory := by
        rcases hp with rfl | rfl
        · exact spot.ready_copies hmemory (by omega) _ List.mem_cons_self
        · exact spot.ready_copies hmemory (by omega) _ (List.mem_cons_of_mem _ List.mem_cons_self)
      have hvalue := hready.value spot.clear hs Nat.one_pos
      rw [State.step, ofInt_natCast]
      exact congrArg s.setA hvalue
    · intro s _
      rw [State.step, ofInt_natCast]
      rfl
  intro before after hdistinct s hs
  obtain ⟨t, hreach, _, ht⟩ := ((hput .chars (.inl rfl) s.x painted).append
    (hput .colors (.inr rfl) s.x _)) before after hdistinct s ⟨rfl, hs⟩
  exact ⟨t, hreach, ht⟩

theorem performs_loop (i count : Nat) (hinside : i + count < Screen.cells) (hshort : count < 128)
    (name : String) (painted : Plane → Nat → Prop) :
    Performs (.instruction (.ldx count) :: (.label name ::
        ((spot.copies i).flatMap (Copy.items spot.display 0) ++ [.instruction .dex]) ++
          [.instruction (.bpl name)]))
      (fun s => Painted spot.display next painted s₀ s)
      fun t => Painted spot.display next
        (fun p j => painted p j ∨ (p = .chars ∨ p = .colors) ∧ i ≤ j ∧ j ≤ i + count) s₀ t := by
  have hready : ∀ c ∈ spot.copies i, c.Ready spot.display next (count + 1) s₀.memory :=
    spot.ready_copies hmemory (by omega)
  have hloop := performs_pastZero spot.clear hready (Nat.succ_pos _) (by omega) name painted
  refine Performs.append (a := [_]) (Performs.instruction (fun _ => rfl) fun s hs => ?_)
    (hloop.mono (fun s hs => hs) fun t ht => ht.congr rfl rfl fun p j => ?_)
  · exact ⟨rfl, hs.congr rfl rfl fun _ _ => Iff.rfl⟩
  · have hcells : Copy.cells (spot.copies i) 0 (count + 1) p j ↔
        (p = .chars ∨ p = .colors) ∧ i ≤ j ∧ j ≤ i + count := by
      simp only [Copy.cells, copies, List.mem_cons, List.not_mem_nil, or_false, exists_eq_or_imp,
        exists_eq_left]
      rw [← or_and_right]
      exact and_congr Iff.rfl (by omega)
    rw [hcells]

end Performs

/-- The lines of a row paint its changed columns on both planes. -/
theorem rowLines_performs {row : Nat} {columns : Columns} (hrow : row < Screen.height)
    (horder : columns.first ≤ columns.last) (hlast : columns.last < Screen.width) :
    ∃ items, spot.Links (rowLines target next row columns) items ∧
      ∀ (s₀ : State) (painted : Plane → Nat → Prop), s₀.memory.Holds spot.image next.bytes →
        Performs items (fun s => Painted spot.display next painted s₀ s) fun t =>
          Painted spot.display next (fun p j => painted p j ∨ (p = .chars ∨ p = .colors) ∧
            row * Screen.width + columns.first ≤ j ∧ j ≤ row * Screen.width + columns.last) s₀ t := by
  have hinside : row * Screen.width + columns.last < Screen.cells := by
    simp only [Screen.height, Screen.width, Screen.cells] at *
    omega
  have hshort : columns.last < 128 := by
    simp only [Screen.width] at hlast
    omega
  rw [rowLines]
  by_cases hsingle : columns.single = true
  · rw [if_pos hsingle]
    have hone : columns.first = columns.last := beq_iff_eq.1 hsingle
    refine ⟨_, Asm.Links.cons (link_lda (spot.eval_charSource row columns.first))
      (Asm.Links.cons (link_sta (spot.eval_screenCell row columns.first))
        (Asm.Links.cons (link_lda (spot.eval_colorSource row columns.first))
          (Asm.Links.cons (link_sta (spot.eval_colorCell row columns.first)) Asm.Links.nil))), ?_⟩
    intro s₀ painted hmemory
    refine (performs_single hmemory (by omega) painted).mono (fun _ h => h) fun t ht => ?_
    refine ht.congr rfl rfl fun p j => ?_
    have hcell : row * Screen.width + columns.first ≤ j ∧ j ≤ row * Screen.width + columns.last ↔
        j = row * Screen.width + columns.first := by omega
    rw [hcell, or_and_right, or_assoc]
  · rw [if_neg hsingle]
    obtain ⟨count, hcount⟩ := Nat.exists_eq_add_of_le horder
    have hlength : (columns.last : Int) - columns.first = count := by omega
    rw [hlength, hcount, ← Nat.add_assoc]
    refine ⟨_, ?_, fun s₀ painted hmemory => performs_loop hmemory (row * Screen.width + columns.first) count
      (by omega) (by omega) (spot.layout.qualify spot.scope ("loop" ++ Nat.repr row)) painted⟩
    have hhead : spot.Links [.instruction (.ldx count), .label ("loop" ++ Nat.repr row)]
        [.instruction (.ldx count), .label (spot.layout.qualify spot.scope ("loop" ++ Nat.repr row))] :=
      Asm.Links.cons (link_ldx (by omega) (by omega)) rfl
    have htail : spot.Links ((Instruction.pastZero ("loop" ++ Nat.repr row)).map .instruction)
        [.instruction .dex,
          .instruction (.bpl (spot.layout.qualify spot.scope ("loop" ++ Nat.repr row)))] := rfl
    have hall := (hhead.append (links_indexed row columns.first)).append htail
    simpa only [List.append_assoc, List.cons_append, List.nil_append] using hall

/-- The lines of some rows paint the changed columns of all of them. -/
theorem rowsLines_performs {rows : List (Option Columns × Nat)}
    (hrows : ∀ columns row, (some columns, row) ∈ rows →
      row < Screen.height ∧ columns.first ≤ columns.last ∧ columns.last < Screen.width) :
    ∃ items, spot.Links (rowsLines target next rows) items ∧
      ∀ (s₀ : State) (painted : Plane → Nat → Prop), s₀.memory.Holds spot.image next.bytes →
        Performs items (fun s => Painted spot.display next painted s₀ s) fun t =>
          Painted spot.display next (fun p j => painted p j ∨ (p = .chars ∨ p = .colors) ∧
            ∃ columns row, (some columns, row) ∈ rows ∧ row * Screen.width + columns.first ≤ j ∧
              j ≤ row * Screen.width + columns.last) s₀ t := by
  induction rows with
  | nil =>
    refine ⟨[], Asm.Links.nil, fun s₀ painted _ => Performs.nil fun s hs => ?_⟩
    exact hs.congr rfl rfl fun p j => by simp
  | cons head rows ih =>
    obtain ⟨items, hlinks, hperforms⟩ := ih fun columns row hmem =>
      hrows columns row (List.mem_cons_of_mem _ hmem)
    obtain ⟨columns, row⟩ := head
    cases columns with
    | none =>
      refine ⟨items, hlinks, fun s₀ painted hmemory => ?_⟩
      refine (hperforms s₀ painted hmemory).mono (fun _ h => h) fun t ht => ?_
      exact ht.congr rfl rfl fun p j => by simp
    | some columns =>
      obtain ⟨hrow, horder, hlast⟩ := hrows columns row List.mem_cons_self
      obtain ⟨first, hfirst, hpaints⟩ := rowLines_performs hrow horder hlast
      refine ⟨first ++ items, hfirst.append hlinks, fun s₀ painted hmemory => ?_⟩
      refine ((hpaints s₀ painted hmemory).append (hperforms s₀ _ hmemory)).mono (fun _ h => h) fun t ht => ?_
      refine ht.congr rfl rfl fun p j => ?_
      rw [or_assoc, ← and_or_left]
      simp [or_and_right, exists_or, and_assoc]

end Spot

/-! ### What a procedure does -/

/-- The cells of the changed columns. -/
def touched (rows : List (Option Columns)) (i : Nat) : Prop :=
  ∃ columns row, rows[row]? = some (some columns) ∧
    row * Screen.width + columns.first ≤ i ∧ i ≤ row * Screen.width + columns.last

/-- From `s` to `t` the characters of a frame came to the screen and its colours to the touched cells. No
other memory was changed. -/
structure Patches (target : Target) (screen : Nat) (next : Frame) (rows : List (Option Columns))
    (s t : State) : Prop where
  chars : t.memory.Holds screen (next.chars.map Cell.byte)
  colors : ∀ i, touched rows i →
    t.memory (.ofNat (target.colorRam.toNat + i)) = (next.cellAt .colors i).byte
  kept : ∀ a, ¬ (⟨screen, Screen.cells⟩ : Region).Contains a →
    (∀ i, touched rows i → a ≠ .ofNat (target.colorRam.toNat + i)) → t.memory a = s.memory a

/-- Painting the changed columns makes one frame of the other. -/
theorem patches_of_painted {target : Target} {screen : Nat} {prev next : Frame} (hprev : prev.Full)
    (hnext : next.Full) {rows : List (Option Columns)} (hlength : rows.length = Screen.height)
    (hrows : ∀ r columns, rows[r]? = some columns → Frame.RowChange prev next r columns) {d : Display}
    (hd : d.Clear) (hscreen : d.screen = screen) (hcolors : d.colors = target.colorRam.toNat) {s t : State}
    (hs : s.memory.Holds screen (prev.chars.map Cell.byte))
    (hpainted : Painted d next (fun p j => (p = .chars ∨ p = .colors) ∧ touched rows j) s t) :
    Patches target screen next rows s t := by
  subst hscreen
  constructor
  · refine (holds_plane hnext .chars).2 fun i hi => ?_
    refine hpainted.cell hd (p := .chars) hi ?_
    by_cases htouched : touched rows i
    · exact .inl ⟨.inl rfl, htouched⟩
    · -- outside the changed columns the frames agree
      refine .inr (((holds_plane hprev .chars).1 hs i hi).trans (congrArg Cell.byte ?_))
      have hrow : i / Screen.width < rows.length := by
        simp only [Screen.height, Screen.width, Screen.cells] at *
        omega
      have hcolumn : i % Screen.width < Screen.width := Nat.mod_lt _ (by decide)
      have hi' : i / Screen.width * Screen.width + i % Screen.width = i := Nat.div_add_mod' _ _
      have hchange := hrows _ _ (List.getElem?_eq_getElem hrow)
      cases hcolumns : rows[i / Screen.width] with
      | none =>
        rw [hcolumns] at hchange
        rw [← hi']
        exact hchange _ hcolumn
      | some columns =>
        rw [hcolumns] at hchange
        obtain ⟨_, _, _, _, hsame⟩ := hchange
        rw [← hi']
        refine hsame _ hcolumn ?_
        by_contra hinside
        exact htouched ⟨columns, i / Screen.width, by rw [List.getElem?_eq_getElem hrow, hcolumns],
          by omega, by omega⟩
  · intro i htouched
    rw [← hcolors]
    exact hpainted.shown .colors i ⟨.inr rfl, htouched⟩
  · intro a hscreen hother
    refine hpainted.kept a fun p i hcell heq => ?_
    have hcontains := hd.contains p (hpainted.inside p i hcell)
    rcases hcell with ⟨rfl | rfl, htouched⟩
    · rw [← heq] at hcontains
      exact hscreen hcontains
    · rw [Display.address, Display.start, hcolors] at heq
      exact hother i htouched heq

/-- The body of a procedure for two frames patches the screen, wherever it stands. -/
theorem Spot.body_patches {target : Target} {prev next : Frame} (spot : Spot target next) (hprev : prev.Full)
    {rows : List (Option Columns)} (hlength : rows.length = Screen.height)
    (hrows : ∀ r columns, rows[r]? = some columns → Frame.RowChange prev next r columns) :
    ∃ items, spot.Links (bodyLines target next rows) items ∧ ∀ s₀ : State,
      s₀.memory.Holds spot.image next.bytes →
      s₀.memory.Holds spot.display.screen (prev.chars.map Cell.byte) →
      Performs items (· = s₀) fun t => Patches target spot.display.screen next rows s₀ t := by
  have hbounds : ∀ columns row, (some columns, row) ∈ rows.zipIdx →
      row < Screen.height ∧ columns.first ≤ columns.last ∧ columns.last < Screen.width := by
    intro columns row hmem
    have hrow := List.mem_zipIdx_iff_getElem?.1 hmem
    have hchange := hrows row _ hrow
    exact ⟨hlength ▸ (List.getElem?_eq_some_iff.1 hrow).1, hchange.1, hchange.2.1⟩
  obtain ⟨items, hlinks, hperforms⟩ := spot.rowsLines_performs hbounds
  refine ⟨items, hlinks, fun s₀ himage hscreen => ?_⟩
  refine (hperforms s₀ (fun _ _ => False) himage).mono ?_ fun t ht => ?_
  · rintro s rfl
    exact Painted.refl _ _ _
  · refine patches_of_painted hprev spot.full hlength hrows spot.clear rfl spot.colors_eq.symm hscreen ?_
    refine ht.congr rfl rfl fun p j => ?_
    simp [touched, List.mem_zipIdx_iff_getElem?]

end Petscii.Patch

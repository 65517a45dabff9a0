import Mathlib.Algebra.Order.Floor.Div
import Petscii.Proofs.Asm.ReadBack
import Petscii.Proofs.Frame

/-!
# The text of a table

A table is written value by value, and the place of a value alone decides what stands in front of it: a new
line at every 128th place, a comma at any other. So the lines of a table are full but for the last, and
nothing of the values is lost. The line break in front of a table ends whatever stood there before, and an
empty line or the end of the text ends the table, so that it is read back with anything of that kind behind
it.
-/

namespace Petscii.Asm

/-! ### The lines of a table -/

def rowText (row : List Cell) : String :=
  "\t.byte\t" ++ String.intercalate ", " (row.map Cell.text)

def rowsText (rows : List (List Cell)) : String :=
  String.join (rows.map fun row => rowText row ++ "\n")

/-- Values cut into lines: as few as there can be, none empty and all but the last full. -/
structure Ruled (values : List Cell) (rows : List (List Cell)) : Prop where
  flatten : rows.flatten = values
  count : rows.length = values.length ⌈/⌉ 128
  sizes : ∀ row ∈ rows, 1 ≤ row.length ∧ row.length ≤ 128
  full : ∀ row ∈ rows.dropLast, row.length = 128

theorem Ruled.ne_nil {values row : List Cell} {rows : List (List Cell)} (h : Ruled values rows)
    (hrow : row ∈ rows) : row ≠ [] :=
  List.ne_nil_of_length_pos (h.sizes row hrow).1

theorem flatten_tableRows (values : List Cell) : (tableRows values).flatten = values := by
  have hpieces := Frame.flatten_pieces values valuesPerLine
  simp only [Nat.mul_comm _ valuesPerLine] at hpieces
  rw [tableRows, hpieces, List.take_of_length_le]
  simp only [valuesPerLine]
  omega

theorem length_tableRows (values : List Cell) : (tableRows values).length = values.length ⌈/⌉ 128 := by
  rw [tableRows, List.length_map, List.length_range]
  rfl

theorem ruled_tableRows (values : List Cell) : Ruled values (tableRows values) where
  flatten := flatten_tableRows values
  count := length_tableRows values
  sizes := by
    intro row hrow
    obtain ⟨i, hi, rfl⟩ := List.mem_map.1 hrow
    have hi := List.mem_range.1 hi
    rw [List.length_take, List.length_drop]
    simp only [valuesPerLine] at hi ⊢
    omega
  full := by
    intro row hrow
    obtain ⟨i, hi, rfl⟩ := List.mem_iff_getElem.1 hrow
    rw [List.length_dropLast, length_tableRows, Nat.ceilDiv_eq_add_pred_div] at hi
    simp only [List.getElem_dropLast, tableRows, List.getElem_map, List.getElem_range, List.length_take,
      List.length_drop, valuesPerLine]
    omega

/-! ### The text of a table -/

/-- What is written for the value at a place of a table. -/
def entryText (i : Nat) (c : Cell) : String :=
  (if i % 128 = 0 then "\n\t.byte\t" else ", ") ++ c.text

theorem entryText_add (i : Nat) (c : Cell) : entryText (i + 128) c = entryText i c := by
  rw [entryText, entryText, Nat.add_mod_right]

theorem intercalate_cons (sep text : String) (texts : List String) :
    String.intercalate sep (text :: texts) = text ++ String.join (texts.map (sep ++ ·)) := by
  induction texts generalizing text with
  | nil => simp
  | cons next texts ih =>
    rw [String.intercalate_cons_cons, ih, List.map_cons, String.join_cons, String.append_assoc,
      String.append_assoc]

theorem join_entries {row : List Cell} (hne : row ≠ []) (hshort : row.length ≤ 128) :
    String.join (row.mapIdx entryText) = "\n" ++ rowText row := by
  obtain ⟨c, rest, rfl⟩ := List.exists_cons_of_ne_nil hne
  have hcommas : rest.mapIdx (fun i => entryText (i + 1)) = (rest.map Cell.text).map (", " ++ ·) := by
    apply List.ext_getElem (by simp)
    intro i hi _
    rw [List.length_mapIdx] at hi
    rw [List.length_cons] at hshort
    simp only [List.getElem_mapIdx, List.getElem_map, entryText]
    rw [if_neg (by omega)]
  rw [List.mapIdx_cons, hcommas, String.join_cons, rowText, List.map_cons, intercalate_cons,
    ← String.append_assoc, ← String.append_assoc]
  rfl

/-- Every line that another follows is full, so places are counted from the start of each line. -/
theorem join_entries_flatten {rows : List (List Cell)}
    (hsizes : ∀ row ∈ rows, 1 ≤ row.length ∧ row.length ≤ 128)
    (hfull : ∀ row ∈ rows.dropLast, row.length = 128) :
    String.join (rows.flatten.mapIdx entryText) = String.join (rows.map fun row => "\n" ++ rowText row) := by
  induction rows with
  | nil => rfl
  | cons row rows ih =>
    have hrow := hsizes row List.mem_cons_self
    have hrest : String.join (rows.flatten.mapIdx fun i => entryText (i + row.length)) =
        String.join (rows.map fun row => "\n" ++ rowText row) := by
      cases rows with
      | nil => rfl
      | cons next rows =>
        rw [List.dropLast_cons_cons, List.forall_mem_cons] at hfull
        have hplaces : (fun i => entryText (i + 128)) = entryText := by
          funext i c
          exact entryText_add i c
        rw [hfull.1, hplaces]
        exact ih (fun row hrow => hsizes row (List.mem_cons_of_mem _ hrow)) hfull.2
    rw [List.flatten_cons, List.mapIdx_append, String.join_append, hrest, List.map_cons, String.join_cons,
      join_entries (List.ne_nil_of_length_pos hrow.1) hrow.2]

theorem join_lines (texts : List String) :
    String.join (texts.map ("\n" ++ ·)) ++ "\n" = "\n" ++ String.join (texts.map (· ++ "\n")) := by
  induction texts with
  | nil => rfl
  | cons text texts ih =>
    rw [List.map_cons, List.map_cons, String.join_cons, String.join_cons, String.append_assoc, ih]
    simp only [String.append_assoc]

theorem text_byte (indent : String) {row : List Cell} (hne : row ≠ []) :
    (Line.directive (.byte row)).text indent = rowText row ++ "\n" := by
  have harguments : (Directive.byte row).arguments ≠ [] := by simpa [Directive.arguments] using hne
  rw [Line.text, directiveText, if_neg harguments, rowText, ← String.append_assoc]
  rfl

theorem render_rows (indent : String) {rows : List (List Cell)} (hne : ∀ row ∈ rows, row ≠ []) :
    render indent (rows.map fun row => .directive (.byte row)) = rowsText rows := by
  rw [render, List.map_map]
  exact congrArg String.join (List.map_congr_left fun row hrow => text_byte indent (hne row hrow))

theorem render_table (indent : String) (values : List Cell) :
    render indent (table values) = "\n" ++ rowsText (tableRows values) := by
  rw [table, render_cons, render_rows indent fun row hrow => (ruled_tableRows values).ne_nil hrow]
  rfl

theorem render_table_eq_entries (indent : String) (values : List Cell) :
    render indent (table values) = String.join (values.mapIdx entryText) ++ "\n" := by
  have hruled := ruled_tableRows values
  have hlines := join_lines ((tableRows values).map rowText)
  rw [List.map_map, List.map_map] at hlines
  rw [render_table]
  nth_rewrite 2 [← hruled.flatten]
  rw [join_entries_flatten hruled.sizes hruled.full]
  exact hlines.symm

example : render "\t" (table [1, -2, 300]) = "\n\t.byte\t1, -2, 300\n" := by rfl

/-! ### Reading a table -/

theorem toList_rowsText_cons (row : List Cell) (rows : List (List Cell)) :
    (rowsText (row :: rows)).toList = (rowText row).toList ++ '\n' :: (rowsText rows).toList := by
  rw [rowsText, List.map_cons, String.join_cons, String.toList_append, String.toList_append, List.append_assoc]
  rfl

theorem toList_rowText {row : List Cell} (hne : row ≠ []) :
    (rowText row).toList = '\t' :: (Directive.byte row).body := by
  have htext := Directive.toList_directiveText (.byte row)
  have hline := text_byte "" hne
  rw [Line.text] at hline
  rw [hline, String.toList_append, ← List.cons_append] at htext
  exact List.append_cancel_right htext

theorem newline_notMem_rowText {row : List Cell} (hne : row ≠ []) : '\n' ∉ (rowText row).toList := by
  have hlegible : (Directive.byte row).Legible := trivial
  rw [toList_rowText hne, List.mem_cons, not_or]
  exact ⟨by decide, fun h => absurd (hlegible.isLineChar _ h) (by decide)⟩

theorem readLine_rowText {row : List Cell} (hne : row ≠ []) :
    readLine (rowText row).toList = some (.directive (.byte row)) := by
  rw [toList_rowText hne]
  exact readLine_directive (g := ['\t']) (List.all_eq_true.1 rfl) trivial

/-- An assembler that reads a table gets an empty line and the lines of the table. -/
theorem read_table (indent : String) (values : List Cell) :
    read (render indent (table values)) =
      some (.blank :: (tableRows values).map fun row => .directive (.byte row)) := by
  have hlegible : ∀ line ∈ table values, line.Legible := by
    intro line hline
    rcases List.mem_cons.1 hline with rfl | hline
    · trivial
    · obtain ⟨row, _, rfl⟩ := List.mem_map.1 hline
      trivial
  have hread := @read_render "" (List.all_eq_true.1 rfl) _ hlegible
  rw [render_table] at hread ⊢
  rw [hread, table, List.map_cons, List.map_map]
  rfl

/-- The table of `values` as a text: its lines, what is written for each value at its place, and what an
assembler reads. -/
structure Tabulates (values : List Cell) (rows : List (List Cell)) (text : String) : Prop extends
    Ruled values rows where
  lines : text = "\n" ++ rowsText rows
  entries : text = String.join (values.mapIdx entryText) ++ "\n"
  read : Asm.read text = some (.blank :: rows.map fun row => .directive (.byte row))

theorem tabulates_table (indent : String) (values : List Cell) :
    Tabulates values (tableRows values) (render indent (table values)) where
  toRuled := ruled_tableRows values
  lines := render_table indent values
  entries := render_table_eq_entries indent values
  read := read_table indent values

def readRow (cs : List Char) : Option (List Cell) :=
  match readLine cs with
  | some (.directive (.byte row)) => some row
  | _ => none

/-- Read a table: a line break, and the lines up to an empty one or to the end. What is behind them is
left. -/
def readTable : List Char → Option (List Cell × List Char)
  | '\n' :: cs => do
    let lines := (pieces '\n' cs).takeWhile (· ≠ [])
    let rows ← lines.mapM readRow
    return (rows.flatten, cs.drop (lines.map fun line => line.length + 1).sum)
  | _ => none

/-- A text that goes on where a table ends: it is empty or starts with an empty line. -/
def Ends (rest : List Char) : Prop :=
  rest = [] ∨ ∃ more, rest = '\n' :: more

theorem Ends.takeWhile_pieces {rest : List Char} (h : Ends rest) :
    (pieces '\n' rest).takeWhile (· ≠ []) = [] := by
  rcases h with rfl | ⟨more, rfl⟩
  · rfl
  · have hpieces := @pieces_append '\n' [] List.not_mem_nil more
    rw [List.nil_append] at hpieces
    rw [hpieces]
    rfl

section Rows

variable {rows : List (List Cell)} (hne : ∀ row ∈ rows, row ≠ [])
include hne

theorem pieces_rows (rest : List Char) :
    pieces '\n' ((rowsText rows).toList ++ rest) =
      rows.map (fun row => (rowText row).toList) ++ pieces '\n' rest := by
  induction rows with
  | nil => rfl
  | cons row rows ih =>
    rw [List.forall_mem_cons] at hne
    rw [toList_rowsText_cons, List.append_assoc, List.cons_append, pieces_append (newline_notMem_rowText hne.1),
      ih hne.2, List.map_cons, List.cons_append]

theorem takeWhile_pieces_rows {rest : List Char} (hrest : Ends rest) :
    (pieces '\n' ((rowsText rows).toList ++ rest)).takeWhile (· ≠ []) =
      rows.map fun row => (rowText row).toList := by
  have hlines : ∀ line ∈ rows.map (fun row => (rowText row).toList), decide (line ≠ []) = true := by
    intro line hline
    obtain ⟨row, hrow, rfl⟩ := List.mem_map.1 hline
    rw [toList_rowText (hne row hrow)]
    rfl
  rw [pieces_rows hne, List.takeWhile_append_of_pos hlines, hrest.takeWhile_pieces, List.append_nil]

theorem mapM_readRow : (rows.map fun row => (rowText row).toList).mapM readRow = some rows := by
  induction rows with
  | nil => rfl
  | cons row rows ih =>
    rw [List.forall_mem_cons] at hne
    rw [List.map_cons, List.mapM_cons, ih hne.2, readRow, readLine_rowText hne.1]
    rfl

end Rows

theorem length_rowsText (rows : List (List Cell)) :
    (rowsText rows).toList.length =
      ((rows.map fun row => (rowText row).toList).map fun line => line.length + 1).sum := by
  induction rows with
  | nil => rfl
  | cons row rows ih =>
    rw [toList_rowsText_cons, List.length_append, List.length_cons, ih, List.map_cons, List.map_cons, List.sum_cons]
    omega

/-- A table is read back, and what is behind it is left. -/
theorem readTable_append (indent : String) (values : List Cell) {rest : List Char} (hrest : Ends rest) :
    readTable ((render indent (table values)).toList ++ rest) = some (values, rest) := by
  have hruled := ruled_tableRows values
  have hne : ∀ row ∈ tableRows values, row ≠ [] := fun row => hruled.ne_nil
  have hlines := takeWhile_pieces_rows hne hrest
  rw [render_table, String.toList_append, List.append_assoc, show "\n".toList = ['\n'] from rfl,
    List.singleton_append, readTable]
  simp only [hlines, mapM_readRow hne, Option.bind_eq_bind, Option.bind_some, hruled.flatten, ← length_rowsText,
    List.drop_left]
  rfl

end Petscii.Asm

import Petscii.Proofs.Asm.Table
import Petscii.Proofs.Program.Ledger

/-!
# Tables in the text of a program

Tables one after the other are read back table by table, whatever their labels are. The data of a builder
consist of such tables: the steps of a schedule write them for their loops, and a call only adds to what is
there and counts the values that it adds.
-/

namespace Petscii.Program

open Asm

/-! ### Tables under labels -/

/-- Read tables one after the other, each behind its label. -/
def readTables : List String → List Char → Option (List (List Cell))
  | [], cs => if cs = [] then some [] else none
  | name :: names, cs => do
    let (values, rest) ← readTable (← cs.dropPrefix? ("\n" ++ labelText name).toList)
    return values :: (← readTables names rest)

theorem ends_tablesLines (indent : String) (tables : List Table) :
    Ends (render indent (tablesLines tables)).toList := by
  cases tables with
  | nil => exact .inl rfl
  | cons t tables =>
    rw [tablesLines, List.flatMap_cons, tableLines, List.cons_append, render_cons, Line.text,
      String.toList_append, show "\n".toList = ['\n'] from rfl, List.singleton_append]
    exact .inr ⟨_, rfl⟩

theorem dropPrefix_append (front rest : List Char) : (front ++ rest).dropPrefix? front = some rest := by
  rw [List.dropPrefix?_eq_some_iff]
  exact ⟨front, rfl, beq_self_eq_true front⟩

theorem readTables_tablesLines (indent : String) (tables : List Table) :
    readTables (tables.map Prod.fst) (render indent (tablesLines tables)).toList =
      some (tables.map Prod.snd) := by
  induction tables with
  | nil => rfl
  | cons t tables ih =>
    have hsplit : (render indent (tablesLines (t :: tables))).toList =
        ("\n" ++ labelText t.1).toList ++
          ((render indent (table t.2)).toList ++ (render indent (tablesLines tables)).toList) := by
      rw [tablesLines, List.flatMap_cons, render_append, tableLines, render_cons, render_cons]
      simp only [Line.text, String.toList_append, List.append_assoc]
      rfl
    rw [hsplit, List.map_cons, readTables, dropPrefix_append]
    simp only [Option.bind_eq_bind, Option.bind_some, readTable_append indent t.2 (ends_tablesLines indent tables),
      ih]
    rfl

/-! ### The tables of a block -/

/-- The data of a block are tables. Their labels are among those numbered from `n` on, in order, and their
values are counted. -/
structure Tabled (target : Target) (n : Nat) (block : Block) (tables : List Table) : Prop where
  data : block.data = tablesLines tables
  bytes : block.stats.dataBytes = (tables.flatMap Prod.snd).length
  labels : (tables.map Prod.fst).Sublist ((List.range' n block.labels).map (label target))

section Blocks

variable {target : Target} {n : Nat} {block more : Block}

theorem Tabled.of_nil (hdata : block.data = []) (hbytes : block.stats.dataBytes = 0) :
    Tabled target n block [] where
  data := hdata
  bytes := hbytes
  labels := List.nil_sublist _

theorem Tabled.append {tables rest : List Table} (h : Tabled target n block tables)
    (hmore : Tabled target (n + block.labels) more rest) :
    Tabled target n (block.append more) (tables ++ rest) where
  data := by rw [tablesLines_append, ← h.data, ← hmore.data, Block.append]
  bytes := by
    rw [List.flatMap_append, List.length_append, ← h.bytes, ← hmore.bytes]
    rfl
  labels := by
    rw [List.map_append, Block.append, ← List.range'_append_1, List.map_append]
    exact h.labels.append hmore.labels

/-- A loop has one table for each run, under labels that follow each other: the run's plane over all cells of
the loop. -/
theorem loopBlock_tabled {next : Frame} {span : Span} {runs : List Run}
    (h : loopBlock target next n span runs = .ok block) :
    ∃ tables : List Table, tables.map Prod.fst = (List.range' n runs.length).map (label target) ∧
      (runs.mapM fun r => next.slice r.plane span.first span.last) = .ok (tables.map Prod.snd) ∧
      Tabled target n block tables := by
  rw [loopBlock] at h
  split at h
  · cases h
  split at h
  · cases h
  next lists hlists =>
  have hlength : ((List.range' n runs.length).map (label target)).length = lists.length := by
    rw [List.length_map, List.length_range', Frame.length_of_mapM_eq_ok hlists]
  have hnames := List.map_fst_zip (Nat.le_of_eq hlength)
  have hvalues := List.map_snd_zip (Nat.le_of_eq hlength.symm)
  rw [← Except.ok.inj h]
  refine ⟨((List.range' n runs.length).map (label target)).zip lists, hnames, by rw [hvalues]; exact hlists,
    ?_, ?_, ?_⟩
  · simp only [labels_zip]
    rfl
  · have hcount : lists.flatten.length =
        ((((List.range' n runs.length).map (label target)).zip lists).flatMap Prod.snd).length := by
      rw [List.flatMap_def, hvalues]
    exact hcount
  · rw [hnames, List.range'_concat, List.map_append]
    exact List.sublist_append_left _ _

theorem stepBlock_tabled {next : Frame} {step : Run.Step} (h : stepBlock target next n step = .ok block) :
    ∃ tables, Tabled target n block tables := by
  cases step with
  | store run =>
    rw [stepBlock, storeBlock] at h
    split at h
    · rw [← Except.ok.inj h]
      exact ⟨[], Tabled.of_nil rfl rfl⟩
    · cases h
    · cases h
  | loop anchor riders =>
    obtain ⟨tables, _, _, htabled⟩ := loopBlock_tabled h
    exact ⟨tables, htabled⟩

/-- The steps of a schedule write tables, also where they break off. -/
theorem stepsBlock_tabled (target : Target) (next : Frame) (n : Nat) (steps : List Run.Step) :
    ∃ tables, Tabled target n (stepsBlock target next n steps).1 tables := by
  induction steps generalizing n with
  | nil => exact ⟨[], Tabled.of_nil rfl rfl⟩
  | cons step steps ih =>
    rw [stepsBlock]
    cases hstep : stepBlock target next n step with
    | error e => exact ⟨[], Tabled.of_nil rfl rfl⟩
    | ok block =>
      obtain ⟨tables, htabled⟩ := stepBlock_tabled hstep
      obtain ⟨rest, hrest⟩ := ih (n + block.labels)
      exact ⟨tables ++ rest, htabled.append hrest⟩

end Blocks

/-! ### The tables of a builder -/

/-- From `b` to `b'` tables were written behind the data, under labels that were free, in order, and their
values were counted. -/
structure Appends (b b' : Builder) (tables : List Table) : Prop where
  target : b'.target = b.target
  data : b'.data = b.data ++ tablesLines tables
  bytes : b'.stats.dataBytes = b.stats.dataBytes + (tables.flatMap Prod.snd).length
  labels : ∃ count, b'.labels = b.labels + count ∧
    (tables.map Prod.fst).Sublist ((List.range' b.labels count).map (label b.target))

section Builders

variable {a b c : Builder}

theorem Appends.refl (b : Builder) : Appends b b [] where
  target := rfl
  data := (List.append_nil b.data).symm
  bytes := rfl
  labels := ⟨0, rfl, List.Sublist.refl []⟩

theorem Appends.trans {tables more : List Table} (h : Appends a b tables) (h' : Appends b c more) :
    Appends a c (tables ++ more) where
  target := h'.target.trans h.target
  data := by rw [h'.data, h.data, List.append_assoc, tablesLines_append]
  bytes := by rw [h'.bytes, h.bytes, List.flatMap_append, List.length_append, Nat.add_assoc]
  labels := by
    obtain ⟨count, hcount, hlabels⟩ := h.labels
    obtain ⟨count', hcount', hlabels'⟩ := h'.labels
    rw [h.target, hcount] at hlabels'
    refine ⟨count + count', by rw [hcount', hcount, Nat.add_assoc], ?_⟩
    rw [List.map_append, ← List.range'_append_1, List.map_append]
    exact hlabels.append hlabels'

theorem Tabled.appends {block : Block} {tables : List Table} (h : Tabled b.target b.labels block tables) :
    Appends b (b.extend block) tables where
  target := rfl
  data := by rw [Builder.extend, h.data]
  bytes := by
    rw [← h.bytes]
    rfl
  labels := ⟨block.labels, rfl, h.labels⟩

theorem emitRuns_appends {b' : Builder} {runs : List Run} {next : Frame} {outcome : Except Error Unit}
    (h : b.emitRuns runs next = (b', outcome)) (hbegun : Appends a b []) : ∃ tables, Appends a b' tables := by
  obtain ⟨tables, htabled⟩ := stepsBlock_tabled b.target next b.labels (Run.schedule runs)
  have hb' : b.extend (stepsBlock b.target next b.labels (Run.schedule runs)).1 = b' := congrArg Prod.fst h
  rw [← hb']
  exact ⟨tables, hbegun.trans htabled.appends⟩

theorem addTransition_appends (b : Builder) (prev next : Frame) :
    ∃ tables, Appends b (b.addTransition prev next).1 tables := by
  rw [Builder.addTransition]
  split
  · exact ⟨[], Appends.refl b⟩
  split
  · exact ⟨[], Appends.refl b⟩
  simp only
  -- opening a routine and setting registers leave the data alone, and so does the return at the end
  split
  · next hemit => exact emitRuns_appends hemit ⟨rfl, rfl, rfl, 0, rfl, List.Sublist.refl []⟩
  · next b' hemit =>
    obtain ⟨tables, happends⟩ := emitRuns_appends (a := b) hemit ⟨rfl, rfl, rfl, 0, rfl, List.Sublist.refl []⟩
    have hreturn : Tabled b'.target b'.labels { code := [.instruction .rts] } [] := Tabled.of_nil rfl rfl
    exact ⟨tables ++ [], happends.trans hreturn.appends⟩

theorem close_appends (b : Builder) : Appends b b.close (initialTables b) where
  target := rfl
  data := close_data
  bytes := by
    simp only [initialTables, List.flatMap_cons, List.flatMap_nil, List.append_nil, List.length_append]
    rfl
  labels := by
    refine ⟨3, rfl, ?_⟩
    exact List.sublist_append_left [label b.target b.labels, label b.target (b.labels + 1)] _

/-- A call adds to the data at most, whatever its outcome. -/
theorem perform_appends (b : Builder) (call : Call) : ∃ tables, Appends b (b.perform call) tables := by
  cases call with
  | add prev next => exact addTransition_appends b prev next
  | finish room =>
    cases hfinished : b.finished with
    | true =>
      rw [Builder.perform, Builder.finish, if_pos hfinished]
      exact ⟨[], Appends.refl b⟩
    | false =>
      rw [perform_finish hfinished]
      exact ⟨_, close_appends b⟩

theorem performAll_appends (b : Builder) (calls : List Call) :
    ∃ tables, Appends b (b.performAll calls) tables := by
  induction calls generalizing b with
  | nil => exact ⟨[], Appends.refl b⟩
  | cons call calls ih =>
    obtain ⟨tables, hcall⟩ := perform_appends b call
    obtain ⟨more, hcalls⟩ := ih (b.perform call)
    exact ⟨tables ++ more, hcall.trans hcalls⟩

/-- What was written behind the data is read back, and as many values were counted as are read. -/
theorem Appends.readTables_eq {tables : List Table} (h : Appends a b tables) (indent : String) :
    ∃ text names lists, render indent b.data = render indent a.data ++ text ∧
      readTables names text.toList = some lists ∧
      b.stats.dataBytes = a.stats.dataBytes + lists.flatten.length ∧
      names.Sublist ((List.range' a.labels (b.labels - a.labels)).map (label a.target)) := by
  obtain ⟨count, hcount, hlabels⟩ := h.labels
  refine ⟨render indent (tablesLines tables), tables.map Prod.fst, tables.map Prod.snd, ?_,
    readTables_tablesLines indent tables, ?_, ?_⟩
  · rw [h.data, render_append]
  · rw [h.bytes, List.flatMap_def]
  · rwa [hcount, Nat.add_sub_cancel_left]

end Builders

/-! ### What is read -/

/-- Tables keep their values. A table is added to a text without a change to what is there, in lines of 128
decimal numbers at most; tables under labels are read back one by one, whatever they hold and whatever the
labels are; a loop's tables are read back as the cells of the loop; and whatever calls are made of a builder,
its data go on by tables under numbered labels, and the values are counted that are read from them. -/
theorem tables_read_back (indent : String) :
    (∀ (earlier : List Line) (values : List Cell), ∃ text rows,
      render indent (earlier ++ table values) = render indent earlier ++ text ∧
        Tabulates values rows text) ∧
    (∀ tables : List Table,
      readTables (tables.map Prod.fst) (render indent (tablesLines tables)).toList =
        some (tables.map Prod.snd)) ∧
    (∀ (target : Target) (next : Frame) (n : Nat) (span : Span) (runs : List Run) (block : Block),
      loopBlock target next n span runs = .ok block →
      ∃ lists, (runs.mapM fun r => next.slice r.plane span.first span.last) = .ok lists ∧
        readTables ((List.range' n runs.length).map (label target)) (render indent block.data).toList =
          some lists ∧
        block.stats.dataBytes = lists.flatten.length) ∧
    ∀ (b : Builder) (calls : List Call), ∃ text names lists,
      render indent (b.performAll calls).data = render indent b.data ++ text ∧
      readTables names text.toList = some lists ∧
      (b.performAll calls).stats.dataBytes = b.stats.dataBytes + lists.flatten.length ∧
      names.Sublist
        ((List.range' b.labels ((b.performAll calls).labels - b.labels)).map (label b.target)) := by
  refine ⟨?_, readTables_tablesLines indent, ?_, ?_⟩
  · intro earlier values
    exact ⟨render indent (table values), tableRows values, render_append indent earlier (table values),
      tabulates_table indent values⟩
  · intro target next n span runs block hblock
    obtain ⟨tables, hnames, hlists, htabled⟩ := loopBlock_tabled hblock
    refine ⟨tables.map Prod.snd, hlists, ?_, ?_⟩
    · rw [← hnames, htabled.data]
      exact readTables_tablesLines indent tables
    · rw [htabled.bytes, List.flatMap_def]
  · intro b calls
    obtain ⟨tables, happends⟩ := performAll_appends b calls
    exact happends.readTables_eq indent

/-- A screen of one row that is longer than a line of a table, with negative codes and a colour that is no
byte. -/
def frost : Frame :=
  ⟨"_frost", 0, 0, 129, 1, List.replicate 129 (-1), 300 :: List.replicate 128 14⟩

theorem tables_read_back_frost :
    ∃ block, loopBlock {} frost 9 ⟨0, 128⟩ [⟨⟨0, 128⟩, .chars⟩, ⟨⟨0, 128⟩, .colors⟩] = .ok block ∧
      readTables ["petscii_label0009", "petscii_label000A"] (render "\t" block.data).toList =
        some [frost.chars, frost.colors] ∧
      block.stats.dataBytes = 258 := by
  have hslices : ([⟨⟨0, 128⟩, .chars⟩, ⟨⟨0, 128⟩, .colors⟩] : List Run).mapM
      (fun r => frost.slice r.plane 0 128) = .ok [frost.chars, frost.colors] := by
    simp [Frame.slice, Frame.plane, frost]
    rfl
  have hloop : ∃ block, loopBlock {} frost 9 ⟨0, 128⟩ [⟨⟨0, 128⟩, .chars⟩, ⟨⟨0, 128⟩, .colors⟩] = .ok block := by
    rw [loopBlock, if_neg (by decide), hslices]
    exact ⟨_, rfl⟩
  have hlabels : (List.range' 9 2).map (label {}) = ["petscii_label0009", "petscii_label000A"] := rfl
  obtain ⟨block, hblock⟩ := hloop
  obtain ⟨lists, hlists, hread, hbytes⟩ := (tables_read_back "\t").2.2.1 {} frost 9 _ _ block hblock
  rw [hslices] at hlists
  rw [← Except.ok.inj hlists] at hread hbytes
  refine ⟨block, hblock, ?_, ?_⟩
  · rw [← hlabels]
    exact hread
  · rw [hbytes]
    simp only [frost, List.flatten_cons, List.flatten_nil, List.append_nil, List.length_append, List.length_cons,
      List.length_replicate]

end Petscii.Program

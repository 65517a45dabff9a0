import Petscii.Proofs.Asm.Link
import Petscii.Proofs.Asm.ReadBack
import Petscii.Proofs.Machine.Copy
import Petscii.Proofs.Program.Names
import Petscii.Proofs.Program.Runs

/-!
# What the steps of a schedule emit

A step becomes a block: code, tables of values and a few numbered labels. `Emits` says what is known of a
block, first of all that its code, linked into a module that provides the tables, paints the cells of the
step and touches nothing else. Blocks in a row paint the cells of all of them.
-/

namespace Petscii.Program

open Asm Machine

abbrev Table := String × List Cell

def tablesLines (tables : List Table) : List Line :=
  tables.flatMap fun t => tableLines t.1 t.2

theorem tablesLines_append (tables more : List Table) :
    tablesLines (tables ++ more) = tablesLines tables ++ tablesLines more :=
  List.flatMap_append

theorem tablesLines_cases {tables : List Table} {line : Line} (h : line ∈ tablesLines tables) :
    line = .blank ∨ (∃ t ∈ tables, line = .label t.1) ∨ ∃ row, line = .directive (.byte row) := by
  obtain ⟨t, ht, hline⟩ := List.mem_flatMap.1 h
  simp only [tableLines, table, List.mem_cons, List.mem_map] at hline
  rcases hline with rfl | rfl | rfl | ⟨row, _, rfl⟩
  · exact .inl rfl
  · exact .inr (.inl ⟨t, ht, rfl⟩)
  · exact .inl rfl
  · exact .inr (.inr ⟨row, rfl⟩)

theorem labelsOf_tablesLines (tables : List Table) : labelsOf (tablesLines tables) = tables.map Prod.fst := by
  have htable : ∀ t : Table, labelsOf (tableLines t.1 t.2) = [t.1] := by
    intro t
    have hrows : labelsOf ((tableRows t.2).map fun row => .directive (.byte row)) = [] := by
      rw [labelsOf, List.filterMap_eq_nil_iff]
      intro line hline
      obtain ⟨row, _, rfl⟩ := List.mem_map.1 hline
      rfl
    rw [tableLines, table, labelsOf_blank, labelsOf_label, labelsOf_blank, hrows]
  rw [tablesLines, labelsOf_flatMap, List.map_eq_flatMap]
  exact congrArg (List.flatMap · tables) (funext htable)

/-- What the symbols of a program mean: how its module was laid out and linked, and where that puts the
display. -/
structure Ground (target : Target) where
  layout : Layout
  imports : Symbols
  origin : Nat
  display : Display
  reaches : ∀ p, (destination target p).eval (layout.symbols imports origin none []) =
    some (display.start p : Int)

def Ground.Links {target : Target} (ground : Ground target) (lines : List Line) (items : List Item) : Prop :=
  Asm.Links ground.layout ground.imports ground.origin (drafts none (under [] lines)) items

theorem Ground.Links.append {target : Target} {ground : Ground target} {a b : List Line} {as bs : List Item}
    (ha : ground.Links a as) (hb : ground.Links b bs) : ground.Links (a ++ b) (as ++ bs) := by
  rw [Ground.Links, under_append, drafts_append]
  exact Asm.Links.append ha hb

def Ground.Names {target : Target} (ground : Ground target) (name : String) (address : Nat) : Prop :=
  (Atom.symbol name).eval (ground.layout.symbols ground.imports ground.origin none []) = some (address : Int)

/-- Where a program stands: how its module was laid out and linked, and where the display is. -/
structure Site (target : Target) where
  layout : Layout
  imports : Symbols
  origin : Nat
  display : Display
  clear : display.Clear
  reaches : ∀ p, (destination target p).eval (layout.symbols imports origin none []) =
    some (display.start p : Int)

namespace Site

variable {target : Target} (site : Site target)

def ground : Ground target where
  layout := site.layout
  imports := site.imports
  origin := site.origin
  display := site.display
  reaches := site.reaches

def symbols : Symbols :=
  site.layout.symbols site.imports site.origin none []

def address (name : String) : Nat :=
  ((site.symbols name).getD 0).toNat

/-- A table stands in memory under its label, away from the display. -/
structure Provides (memory : Memory) (t : Table) : Prop where
  named : site.symbols t.1 = some (site.address t.1 : Int)
  fits : (⟨site.address t.1, t.2.length⟩ : Region).Fits
  apart : ∀ p, (⟨site.address t.1, t.2.length⟩ : Region).Apart (site.display.region p)
  holds : memory.Holds (site.address t.1) (t.2.map Cell.byte)

theorem Provides.names {site : Site target} {memory : Memory} {t : Table} (h : site.Provides memory t) :
    site.ground.Names t.1 (site.address t.1) :=
  h.named

def Links (lines : List Line) (items : List Item) : Prop :=
  Asm.Links site.layout site.imports site.origin (drafts none (under [] lines)) items

theorem Links.append {site : Site target} {a b : List Line} {as bs : List Item} (ha : site.Links a as)
    (hb : site.Links b bs) : site.Links (a ++ b) (as ++ bs) :=
  @Ground.Links.append target site.ground a b as bs ha hb

end Site

/-- What is known of a block that uses `count` labels from number `n` on: its tables, its labels, and that
its code paints `cells`. -/
structure Emits (target : Target) (next : Frame) (n : Nat) (block : Block) (tables : List Table)
    (cells : Plane → Nat → Prop) : Prop where
  data : block.data = tablesLines tables
  plain : ∀ line ∈ block.code, line.Plain
  legible : Named target → ∀ line ∈ block.code, line.Legible
  labels : (labelsOf block.code ++ tables.map Prod.fst).Perm
    ((List.range' n block.labels).map (label target))
  narrow : ∀ t ∈ tables, ∀ v ∈ t.2, 0 ≤ v.toInt ∧ v.toInt ≤ 0xFF
  size : block.stats.dataBytes = (tables.flatMap Prod.snd).length
  performs : ∀ (site : Site target) (s₀ : State), (∀ t ∈ tables, site.Provides s₀.memory t) →
    ∃ items, site.Links block.code items ∧ ∀ painted,
      Performs items (fun s => Painted site.display next painted s₀ s) fun t =>
        Painted site.display next (fun p j => painted p j ∨ cells p j) s₀ t

theorem perm_append_shuffle {α : Type} (a b c d : List α) :
    ((a ++ b) ++ (c ++ d)).Perm ((a ++ c) ++ (b ++ d)) := by
  rw [List.append_assoc, List.append_assoc]
  apply List.Perm.append_left
  rw [← List.append_assoc, ← List.append_assoc]
  exact List.Perm.append_right _ List.perm_append_comm

namespace Emits

variable {target : Target} {next : Frame}

theorem empty (n : Nat) : Emits target next n {} [] fun _ _ => False where
  data := rfl
  plain := by simp
  legible _ := by simp
  labels := List.Perm.refl _
  narrow := by simp
  size := rfl
  performs site s₀ _ := by
    refine ⟨[], Asm.Links.nil, fun painted => Performs.nil fun s hs => ?_⟩
    exact hs.congr rfl rfl fun p j => by simp

theorem append {n : Nat} {a b : Block} {as bs : List Table} {acells bcells : Plane → Nat → Prop}
    (ha : Emits target next n a as acells) (hb : Emits target next (n + a.labels) b bs bcells) :
    Emits target next n (a.append b) (as ++ bs) fun p j => acells p j ∨ bcells p j where
  data := by
    rw [Block.append, ha.data, hb.data, tablesLines_append]
  plain line hline := (List.mem_append.1 hline).elim (ha.plain line) (hb.plain line)
  legible hnamed line hline :=
    (List.mem_append.1 hline).elim (ha.legible hnamed line) (hb.legible hnamed line)
  labels := by
    have hboth := ha.labels.append hb.labels
    rw [← List.map_append, List.range'_append_1] at hboth
    rw [Block.append, labelsOf_append, List.map_append]
    exact (perm_append_shuffle _ _ _ _).trans hboth
  narrow t ht := (List.mem_append.1 ht).elim (ha.narrow t) (hb.narrow t)
  size := by
    rw [List.flatMap_append, List.length_append, ← ha.size, ← hb.size]
    rfl
  performs site s₀ hprovides := by
    obtain ⟨aitems, halinks, haperforms⟩ := ha.performs site s₀ fun t ht =>
      hprovides t (List.mem_append_left _ ht)
    obtain ⟨bitems, hblinks, hbperforms⟩ := hb.performs site s₀ fun t ht =>
      hprovides t (List.mem_append_right _ ht)
    refine ⟨aitems ++ bitems, halinks.append hblinks, fun painted => ?_⟩
    refine ((haperforms painted).append (hbperforms _)).mono (fun _ h => h) fun t ht => ?_
    exact ht.congr rfl rfl fun p j => by rw [or_assoc]

theorem congr {n : Nat} {block : Block} {tables : List Table} {cells cells' : Plane → Nat → Prop}
    (h : Emits target next n block tables cells) (hcells : ∀ p j, cells' p j ↔ cells p j) :
    Emits target next n block tables cells' where
  data := h.data
  plain := h.plain
  legible := h.legible
  labels := h.labels
  narrow := h.narrow
  size := h.size
  performs site s₀ hprovides := by
    obtain ⟨items, hlinks, hperforms⟩ := h.performs site s₀ hprovides
    refine ⟨items, hlinks, fun painted => (hperforms painted).mono (fun _ hs => hs) fun t ht => ?_⟩
    exact ht.congr rfl rfl fun p j => by rw [hcells]

end Emits

theorem legible_destination {target : Target} (hnamed : Named target) (p : Plane) :
    (destination target p).Legible := by
  cases p with
  | colors => trivial
  | _ => exact hnamed.screen

/-- Code without directives that an assembler can read. -/
structure Formed (target : Target) (code : List Line) : Prop where
  plain : ∀ line ∈ code, line.Plain
  legible : Named target → ∀ line ∈ code, line.Legible

theorem Formed.append {target : Target} {a b : List Line} (ha : Formed target a) (hb : Formed target b) :
    Formed target (a ++ b) where
  plain line hline := (List.mem_append.1 hline).elim (ha.plain line) (hb.plain line)
  legible hnamed line hline :=
    (List.mem_append.1 hline).elim (ha.legible hnamed line) (hb.legible hnamed line)

/-! ### A store -/

section Store

variable {next : Frame}

theorem drop_take_one {f : Frame} (hf : f.Full) (p : Plane) {i : Nat} (hi : i < Screen.cells) :
    ((f.plane p).drop i).take 1 = [f.cellAt p i] := by
  have hlt : i < (f.plane p).length := by rw [hf.length_plane]; exact hi
  rw [List.drop_eq_getElem_cons hlt, List.take_succ_cons, List.take_zero, Frame.cellAt_eq_getElem hlt]

theorem storeBlock_eq (target : Target) (hnext : next.Full) (p : Plane) {i : Nat} (hi : i < Screen.cells)
    (last : Int) : storeBlock target next ⟨⟨i, last⟩, p⟩ = .ok {
      code := [
        .instruction (.ldaImmediate (next.cellAt p i).toInt),
        .instruction (.sta ⟨destination target p, [.plus (.number i)]⟩)]
      stats := { directStores := 1 } } := by
  have hslice := hnext.slice_eq p i 1 (by omega)
  rw [show ((i : Int) + (1 : Nat) - 1) = i by omega, drop_take_one hnext p hi] at hslice
  rw [storeBlock]
  simp only [hslice]

theorem formed_store (target : Target) (value : Int) (p : Plane) (i : Nat) :
    Formed target [.instruction (.ldaImmediate value),
      .instruction (.sta ⟨destination target p, [.plus (.number i)]⟩)] where
  plain := by simp [Line.Plain]
  legible hnamed line hline := by
    simp only [List.mem_cons, List.not_mem_nil, or_false] at hline
    rcases hline with rfl | rfl
    · trivial
    · refine ⟨legible_destination hnamed p, fun t ht => ?_⟩
      rw [List.mem_singleton.1 ht]
      exact Int.natCast_nonneg i

theorem links_store {target : Target} (ground : Ground target) {value : Int} (hlow : 0 ≤ value) (hhigh : value ≤ 0xFF)
    (p : Plane) (i : Nat) :
    ground.Links [.instruction (.ldaImmediate value),
        .instruction (.sta ⟨destination target p, [.plus (.number i)]⟩)]
      [.instruction (.ldaImmediate value), .instruction (.sta (.ofInt ((ground.display.start p : Int) + i)))] := by
  refine Asm.Links.cons (link_ldaImmediate hlow hhigh) (Asm.Links.cons (link_sta ?_) Asm.Links.nil)
  rw [eval_eq_termsEval (ground.reaches p)]
  rfl

theorem storeBlock_emits (target : Target) (hnext : next.Full) (hnarrow : next.Narrow) (n : Nat) (p : Plane) {i : Nat}
    (hi : i < Screen.cells) (last : Int) :
    ∃ block, storeBlock target next ⟨⟨i, last⟩, p⟩ = .ok block ∧
      Emits target next n block [] fun q j => q = p ∧ j = i := by
  have hbyte := hnarrow.plane (hnext.cellAt_mem p hi)
  have hformed := formed_store target (next.cellAt p i).toInt p i
  refine ⟨_, storeBlock_eq target hnext p hi last, rfl, hformed.plain, hformed.legible, List.Perm.refl _,
    by simp, rfl, ?_⟩
  · intro site s₀ _
    refine ⟨_, links_store site.ground hbyte.1 hbyte.2 p i, fun painted => ?_⟩
    intro before after hdistinct s hs
    obtain ⟨t, hreach, _, ht⟩ := performs_put site.clear (.ldaImmediate (next.cellAt p i).toInt)
      (.sta (.ofInt ((site.display.start p : Int) + i))) hi (fun _ => ⟨rfl, rfl⟩)
      (fun t _ _ => by rw [State.step, Frame.byte_of_narrow hbyte])
      (fun t _ => by rw [State.step, Display.address, ← ofInt_natCast]; rfl)
      before after hdistinct s ⟨rfl, hs⟩
    exact ⟨t, hreach, ht⟩

end Store

/-! ### A loop -/

section Loop

variable (target : Target) (next : Frame) (first count : Nat)

/-- The tables of a loop over `count` cells from `first` on, labelled from number `n` on. -/
def loopTables : Nat → List Run → List Table
  | _, [] => []
  | n, r :: rest => (label target n, ((next.plane r.plane).drop first).take count) :: loopTables (n + 1) rest

def loopCopies (address : String → Nat) : Nat → List Run → List Copy
  | _, [] => []
  | n, r :: rest => ⟨r.plane, first, address (label target n)⟩ :: loopCopies address (n + 1) rest

def loopLines : Nat → List Run → List Line
  | _, [] => []
  | n, r :: rest => copyLines target first (label target n) r.plane ++ loopLines (n + 1) rest

variable {target next first count}

theorem labels_zip (n : Nat) (runs : List Run) :
    ((List.range runs.length).map fun k => label target (n + k)) =
      (List.range' n runs.length).map (label target) := by
  rw [List.range'_eq_map_range, List.map_map]
  rfl

theorem zip_loopLines (n : Nat) (runs : List Run) :
    ((((List.range' n runs.length).map (label target)).zip runs).flatMap fun t =>
      copyLines target first t.1 t.2.plane) = loopLines target first n runs := by
  induction runs generalizing n with
  | nil => rfl
  | cons r runs ih =>
    rw [List.length_cons, List.range'_succ, List.map_cons, List.zip_cons_cons, List.flatMap_cons, ih]
    rfl

theorem zip_loopTables (n : Nat) (runs : List Run) :
    ((((List.range' n runs.length).map (label target)).zip
      (runs.map fun r => ((next.plane r.plane).drop first).take count)).flatMap fun t =>
        tableLines t.1 t.2) = tablesLines (loopTables target next first count n runs) := by
  induction runs generalizing n with
  | nil => rfl
  | cons r runs ih =>
    rw [List.length_cons, List.range'_succ, List.map_cons, List.map_cons, List.zip_cons_cons,
      List.flatMap_cons, ih]
    rfl

theorem mapM_slices (hnext : next.Full) (hinside : first + count ≤ Screen.cells) (runs : List Run) :
    (runs.mapM fun r => next.slice r.plane first ((first : Int) + count - 1)) =
      .ok (runs.map fun r => ((next.plane r.plane).drop first).take count) := by
  induction runs with
  | nil => rfl
  | cons r runs ih =>
    rw [List.mapM_cons, ih, hnext.slice_eq r.plane first count hinside]
    rfl

theorem loopBlock_eq (hnext : next.Full) (hpos : 0 < count) (hshort : count ≤ 255)
    (hinside : first + count ≤ Screen.cells) (n : Nat) (runs : List Run) :
    loopBlock target next n ⟨first, (first : Int) + count - 1⟩ runs = .ok {
      code :=
        [.instruction (.ldx count), .label (label target (n + runs.length))] ++
        loopLines target first n runs ++
        [.instruction .dex, .instruction (.bne (label target (n + runs.length)))]
      data := tablesLines (loopTables target next first count n runs)
      labels := runs.length + 1
      stats := {
        loops := 1
        foldedRuns := runs.length - 1
        dataBytes := (runs.map fun r => ((next.plane r.plane).drop first).take count).flatten.length } } := by
  have hlength : Span.length ⟨first, (first : Int) + count - 1⟩ = count := by
    have hsmall : (⟨first, (first : Int) + count - 1⟩ : Span).Small 255 Screen.cells := by
      constructor <;> simp only <;> omega
    rw [hsmall.length_eq (by decide)]
    simp only
    omega
  rw [loopBlock]
  simp only [hlength]
  rw [if_neg (by simp only [maxLoop]; omega), mapM_slices hnext hinside]
  simp only [labels_zip, zip_loopLines, zip_loopTables]
  rfl

theorem map_fst_loopTables (n : Nat) (runs : List Run) :
    (loopTables target next first count n runs).map Prod.fst =
      (List.range' n runs.length).map (label target) := by
  induction runs generalizing n with
  | nil => rfl
  | cons r runs ih => rw [loopTables, List.map_cons, ih, List.length_cons, List.range'_succ, List.map_cons]

theorem map_snd_loopTables (n : Nat) (runs : List Run) :
    (loopTables target next first count n runs).map Prod.snd =
      runs.map fun r => ((next.plane r.plane).drop first).take count := by
  induction runs generalizing n with
  | nil => rfl
  | cons r runs ih => rw [loopTables, List.map_cons, ih, List.map_cons]

theorem plain_loopLines (n : Nat) (runs : List Run) : ∀ line ∈ loopLines target first n runs, line.Plain := by
  induction runs generalizing n with
  | nil => simp [loopLines]
  | cons r runs ih =>
    intro line hline
    rcases List.mem_append.1 hline with hline | hline
    · simp only [copyLines, List.mem_cons, List.not_mem_nil, or_false] at hline
      rcases hline with rfl | rfl <;> trivial
    · exact ih (n + 1) line hline

theorem legible_loopLines (hnamed : Named target) (n : Nat) (runs : List Run) :
    ∀ line ∈ loopLines target first n runs, line.Legible := by
  induction runs generalizing n with
  | nil => simp [loopLines]
  | cons r runs ih =>
    intro line hline
    rcases List.mem_append.1 hline with hline | hline
    · simp only [copyLines, List.mem_cons, List.not_mem_nil, or_false] at hline
      rcases hline with rfl | rfl
      · refine ⟨isName_label hnamed n, fun t ht => ?_⟩
        rw [List.mem_singleton.1 ht]
        exact Int.one_nonneg
      · refine ⟨legible_destination hnamed r.plane, fun t ht => ?_⟩
        simp only [List.mem_cons, List.not_mem_nil, or_false] at ht
        rcases ht with rfl | rfl
        · exact Int.natCast_nonneg first
        · exact Int.one_nonneg
    · exact ih (n + 1) line hline

theorem labelsOf_loopLines (n : Nat) (runs : List Run) : labelsOf (loopLines target first n runs) = [] := by
  induction runs generalizing n with
  | nil => rfl
  | cons r runs ih =>
    rw [loopLines, labelsOf_append, ih]
    rfl

theorem links_loopLines (ground : Ground target) (address : String → Nat) (n : Nat) (runs : List Run)
    (hnames : ∀ name ∈ (List.range' n runs.length).map (label target), ground.Names name (address name)) :
    ground.Links (loopLines target first n runs)
      ((loopCopies target first address n runs).flatMap (Copy.items ground.display (-1))) := by
  induction runs generalizing n with
  | nil => exact Asm.Links.nil
  | cons r runs ih =>
    rw [List.length_cons, List.range'_succ, List.map_cons, List.forall_mem_cons] at hnames
    obtain ⟨hfirst, hrest⟩ := hnames
    rw [loopLines, loopCopies, List.flatMap_cons]
    refine Ground.Links.append (Asm.Links.cons (link_ldaIndexed ?_)
      (Asm.Links.cons (link_staIndexed ?_) Asm.Links.nil)) (ih (n + 1) hrest)
    · rw [eval_eq_termsEval hfirst]
      rfl
    · rw [eval_eq_termsEval (ground.reaches r.plane)]
      rfl

def loopItems (target : Target) (d : Display) (first count : Nat) (address : String → Nat) (n : Nat) (runs : List Run) :
    List Item :=
  .instruction (.ldx count) :: (.label (label target (n + runs.length)) ::
    ((loopCopies target first address n runs).flatMap (Copy.items d (-1)) ++ [.instruction .dex]) ++
    [.instruction (.bne (label target (n + runs.length)))])

theorem links_loop (ground : Ground target) (address : String → Nat) (hshort : count ≤ 255) (n : Nat) (runs : List Run)
    (hnames : ∀ name ∈ (List.range' n runs.length).map (label target), ground.Names name (address name)) :
    ground.Links ([.instruction (.ldx count), .label (label target (n + runs.length))] ++
        loopLines target first n runs ++
        [.instruction .dex, .instruction (.bne (label target (n + runs.length)))])
      (loopItems target ground.display first count address n runs) := by
  have hhead : ground.Links [.instruction (.ldx count), .label (label target (n + runs.length))]
      [.instruction (.ldx count), .label (label target (n + runs.length))] :=
    Asm.Links.cons (link_ldx (by omega) (by omega)) rfl
  have htail : ground.Links [.instruction .dex, .instruction (.bne (label target (n + runs.length)))]
      [.instruction .dex, .instruction (.bne (label target (n + runs.length)))] := rfl
  have hall := (hhead.append (@links_loopLines target first ground address n runs hnames)).append htail
  simpa only [loopItems, List.append_assoc, List.cons_append, List.nil_append] using hall

theorem Site.Provides.ready {site : Site target} {memory : Memory} {name : String} {p : Plane}
    (hnext : next.Full) (hinside : first + count ≤ Screen.cells)
    (h : site.Provides memory (name, ((next.plane p).drop first).take count)) :
    (⟨p, first, site.address name⟩ : Copy).Ready site.display next count memory := by
  have hlength : (((next.plane p).drop first).take count).length = count := by
    rw [List.length_take, List.length_drop, hnext.length_plane]
    omega
  obtain ⟨_, hfits, hapart, hholds⟩ := h
  simp only [hlength] at hfits hapart
  refine ⟨hfits, hapart, hinside, fun i hi => ?_⟩
  have hcell : first + i < (next.plane p).length := by
    rw [hnext.length_plane]
    omega
  have hbyte := hholds i (by rw [List.length_map, hlength]; exact hi)
  simp only at hbyte ⊢
  rw [hbyte, List.getElem_map, List.getElem_take, List.getElem_drop, Frame.cellAt_eq_getElem hcell]

theorem ready_loopCopies {site : Site target} {memory : Memory} (hnext : next.Full)
    (hinside : first + count ≤ Screen.cells) (n : Nat) (runs : List Run)
    (hprovides : ∀ t ∈ loopTables target next first count n runs, site.Provides memory t) :
    ∀ c ∈ loopCopies target first site.address n runs, c.Ready site.display next count memory := by
  induction runs generalizing n with
  | nil => simp [loopCopies]
  | cons r runs ih =>
    intro c hc
    rcases List.mem_cons.1 hc with rfl | hc
    · exact (hprovides _ List.mem_cons_self).ready hnext hinside
    · exact ih (n + 1) (fun t ht => hprovides t (List.mem_cons_of_mem _ ht)) c hc

theorem cells_loopCopies (address : String → Nat) (n : Nat) (runs : List Run) (p : Plane) (j : Nat) :
    Copy.cells (loopCopies target first address n runs) 0 count p j ↔
      ∃ r ∈ runs, p = r.plane ∧ first ≤ j ∧ j < first + count := by
  induction runs generalizing n with
  | nil => simp [loopCopies, Copy.cells]
  | cons r runs ih =>
    have hrest := ih (n + 1)
    simp only [Copy.cells, Nat.add_zero] at hrest ⊢
    simp only [loopCopies, List.mem_cons, exists_eq_or_imp, hrest]

theorem formed_loop (target : Target) (first : Nat) (count : Int) (n : Nat) (runs : List Run) :
    Formed target ([.instruction (.ldx count), .label (label target (n + runs.length))] ++
      loopLines target first n runs ++
      [.instruction .dex, .instruction (.bne (label target (n + runs.length)))]) := by
  refine Formed.append (Formed.append ⟨?_, fun hnamed => ?_⟩
    ⟨plain_loopLines n runs, fun hnamed => legible_loopLines hnamed n runs⟩) ⟨?_, fun hnamed => ?_⟩
  · simp [Line.Plain]
  · simp only [List.forall_mem_cons]
    exact ⟨trivial, isName_label hnamed _, by simp⟩
  · simp [Line.Plain]
  · simp only [List.forall_mem_cons]
    exact ⟨trivial, isName_label hnamed _, by simp⟩

theorem loopBlock_emits (target : Target) (hnext : next.Full) (hnarrow : next.Narrow) (hpos : 0 < count)
    (hshort : count ≤ 255) (hinside : first + count ≤ Screen.cells) (n : Nat) (runs : List Run) :
    ∃ block, loopBlock target next n ⟨first, (first : Int) + count - 1⟩ runs = .ok block ∧
      Emits target next n block (loopTables target next first count n runs) fun p j =>
        ∃ r ∈ runs, p = r.plane ∧ first ≤ j ∧ j < first + count := by
  have hformed := formed_loop target first count n runs
  refine ⟨_, loopBlock_eq hnext hpos hshort hinside n runs, rfl, hformed.plain, hformed.legible, ?_, ?_, ?_, ?_⟩
  · rw [map_fst_loopTables, labelsOf_append, labelsOf_append, labelsOf_loopLines, List.range'_concat,
      List.map_append]
    simp only [Nat.one_mul]
    exact List.perm_append_comm
  · intro t ht v hv
    obtain ⟨r, _, hr⟩ := List.mem_map.1 (map_snd_loopTables n runs ▸ List.mem_map_of_mem ht)
    rw [← hr] at hv
    exact hnarrow.plane (List.mem_of_mem_drop (List.mem_of_mem_take hv))
  · rw [List.flatMap_def, map_snd_loopTables]
  · intro site s₀ hprovides
    refine ⟨_, links_loop site.ground site.address hshort n runs fun name hname => ?_, fun painted => ?_⟩
    · rw [← map_fst_loopTables, List.mem_map] at hname
      obtain ⟨t, ht, rfl⟩ := hname
      exact (hprovides t ht).names
    · have hready := ready_loopCopies hnext hinside n runs hprovides
      have hloop := performs_untilZero site.clear hready hpos (by omega) (label target (n + runs.length))
        painted
      refine Performs.append (a := [_]) (Performs.instruction (fun _ => rfl) fun s hs => ?_)
        (hloop.mono (fun s hs => hs) fun t ht => ht.congr rfl rfl fun p j => ?_)
      · exact ⟨rfl, hs.congr rfl rfl fun _ _ => Iff.rfl⟩
      · rw [cells_loopCopies]

end Loop

/-! ### Steps -/

section Steps

variable (target : Target) {next : Frame}

/-- The cells that a step writes: the cells it walks, on the planes of its runs. -/
def stepCells (step : Run.Step) (p : Plane) (j : Nat) : Prop :=
  ∃ r ∈ step.runs, p = r.plane ∧ step.span.first ≤ j ∧ j ≤ step.span.last

theorem stepCells_store (first : Nat) (p q : Plane) (j : Nat) :
    stepCells (.store ⟨⟨first, (first : Int) + (1 : Nat) - 1⟩, p⟩) q j ↔ q = p ∧ j = first := by
  simp only [stepCells, Run.Step.runs, Run.Step.span, List.mem_singleton, exists_eq_left]
  exact and_congr Iff.rfl (by omega)

theorem stepCells_loop {anchor : Run} {riders : List Run} {first count : Nat}
    (hspan : (Run.Step.loop anchor riders).span = ⟨first, (first : Int) + count - 1⟩) (q : Plane) (j : Nat) :
    stepCells (.loop anchor riders) q j ↔
      ∃ r ∈ anchor :: riders, q = r.plane ∧ first ≤ j ∧ j < first + count := by
  simp only [stepCells, Run.Step.runs, hspan]
  constructor
  · rintro ⟨r, hr, hq, hlow, hhigh⟩
    exact ⟨r, hr, hq, by omega, by omega⟩
  · rintro ⟨r, hr, hq, hlow, hhigh⟩
    exact ⟨r, hr, hq, by omega, by omega⟩

theorem stepBlock_emits (hnext : next.Full) (hnarrow : next.Narrow) (n : Nat) {step : Run.Step}
    {first count : Nat} (hwalks : step.Walks first count) (hone : ∀ r, step = .store r → count = 1) :
    ∃ block tables, stepBlock target next n step = .ok block ∧
      Emits target next n block tables (stepCells step) := by
  have hspan := hwalks.span
  have hinside := hwalks.inside
  cases step with
  | store r =>
    obtain ⟨span, p⟩ := r
    cases hone _ rfl
    simp only [Run.Step.span] at hspan
    subst hspan
    obtain ⟨block, hblock, hemits⟩ := storeBlock_emits target hnext hnarrow n p
      (i := first) (by omega) _
    exact ⟨block, [], hblock, hemits.congr fun q j => stepCells_store first p q j⟩
  | loop anchor riders =>
    obtain ⟨block, hblock, hemits⟩ := loopBlock_emits target hnext hnarrow hwalks.pos
      hwalks.short hinside n (anchor :: riders)
    exact ⟨block, _, by rw [stepBlock, hspan, hblock], hemits.congr fun q j => stepCells_loop hspan q j⟩

/-- If every step becomes a block with `P`, the steps become one with `Q`, which holds of no steps and is kept
when a step is put in front. -/
theorem stepsBlock_ok {P : Nat → Run.Step → Block → Prop} {Q : Nat → List Run.Step → Block → Prop}
    {steps : List Run.Step}
    (hsteps : ∀ step ∈ steps, ∀ n, ∃ block, stepBlock target next n step = .ok block ∧ P n step block)
    (hnil : ∀ n, Q n [] {})
    (hcons : ∀ n step steps block more, P n step block → Q (n + block.labels) steps more →
      Q n (step :: steps) (block.append more)) (n : Nat) :
    ∃ block, stepsBlock target next n steps = (block, .ok ()) ∧ Q n steps block := by
  induction steps generalizing n with
  | nil => exact ⟨{}, rfl, hnil n⟩
  | cons step steps ih =>
    obtain ⟨block, hblock, hstep⟩ := hsteps step List.mem_cons_self n
    obtain ⟨more, hmore, hrest⟩ :=
      ih (fun step' hstep' => hsteps step' (List.mem_cons_of_mem step hstep')) (n + block.labels)
    refine ⟨block.append more, ?_, hcons n step steps block more hstep hrest⟩
    rw [stepsBlock, hblock]
    simp only [hmore]

/-- The steps of a schedule all become blocks, and together they paint the cells of every step. -/
theorem stepsBlock_emits (hnext : next.Full) (hnarrow : next.Narrow) {steps : List Run.Step}
    (hsteps : ∀ step ∈ steps, ∃ first count, step.Walks first count ∧ ∀ r, step = .store r → count = 1)
    (n : Nat) :
    ∃ block tables, stepsBlock target next n steps = (block, .ok ()) ∧
      Emits target next n block tables fun p j => ∃ step ∈ steps, stepCells step p j := by
  obtain ⟨block, hblock, tables, hemits⟩ := stepsBlock_ok target
    (P := fun n step block => ∃ tables, Emits target next n block tables (stepCells step))
    (Q := fun n steps block => ∃ tables, Emits target next n block tables fun p j => ∃ step ∈ steps, stepCells step p j)
    (fun step hstep n => by
      obtain ⟨first, count, hwalks, hone⟩ := hsteps step hstep
      obtain ⟨block, tables, hblock, hemits⟩ := stepBlock_emits target hnext hnarrow n hwalks hone
      exact ⟨block, hblock, tables, hemits⟩)
    (fun n => ⟨[], (Emits.empty n).congr fun p j => by simp⟩)
    (fun n step steps block more ⟨tables, hemits⟩ ⟨rest, hemits'⟩ =>
      ⟨tables ++ rest, (hemits.append hemits').congr fun p j => by simp⟩) n
  exact ⟨block, tables, hblock, hemits⟩

end Steps

end Petscii.Program

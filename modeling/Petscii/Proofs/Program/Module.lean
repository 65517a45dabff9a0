import Mathlib.Data.List.Nodup
import Petscii.Proofs.Asm.Table
import Petscii.Proofs.Program.Build

/-!
# The module of a program

The module of a built program is laid out routine by routine and table by table. Its symbols are all
different, so it assembles wherever its data and the screen are put, and from then on every routine finds
its tables. A routine called in a state whose memory holds the data does what its body does.
-/

namespace Petscii.Program

open Asm Machine

/-! ### Laying out tables -/

/-- The labels of tables in a row, each with the offset of its values. -/
def offsets (n : Nat) : List Table → List (String × Nat)
  | [] => []
  | t :: rest => (t.1, n) :: offsets (n + t.2.length) rest

theorem map_fst_offsets (n : Nat) (tables : List Table) :
    (offsets n tables).map Prod.fst = tables.map Prod.fst := by
  induction tables generalizing n with
  | nil => rfl
  | cons t tables ih => rw [offsets, List.map_cons, List.map_cons, ih]

theorem mem_offsets (n : Nat) (before : List Table) (t : Table) (after : List Table) :
    (t.1, n + (before.flatMap Prod.snd).length) ∈ offsets n (before ++ t :: after) := by
  induction before generalizing n with
  | nil => exact List.mem_cons_self
  | cons u before ih =>
    rw [List.cons_append, offsets, List.flatMap_cons, List.length_append, ← Nat.add_assoc]
    exact List.mem_cons_of_mem _ (ih _)

theorem lays_table {p : Position} (hdata : p.inData = true) (t : Table) :
    Lays p (under [] (tableLines t.1 t.2)) { labels := [(t.1, p.offset)], data := t.2 }
      { p with offset := p.offset + t.2.length } := by
  have hrows := lays_rows p (tableRows t.2)
  rw [flatten_tableRows] at hrows
  exact (Lays.blank p []).cons ((Lays.dataLabel hdata t.1 []).cons ((Lays.blank p []).cons hrows))

theorem lays_tables {p : Position} (hdata : p.inData = true) (tables : List Table) :
    Lays p (under [] (tablesLines tables)) { labels := offsets p.offset tables, data := tables.flatMap Prod.snd }
      { p with offset := p.offset + (tables.flatMap Prod.snd).length } := by
  induction tables generalizing p with
  | nil => exact Lays.nil p
  | cons t tables ih =>
    have hrest := ih (p := { p with offset := p.offset + t.2.length }) hdata
    rw [tablesLines, List.flatMap_cons, under_append, List.flatMap_cons, List.length_append,
      ← Nat.add_assoc]
    exact (lays_table hdata t).append hrest

theorem single_tablesLines (tables : List Table) : ∀ line ∈ tablesLines tables, line.Single := by
  intro line hline
  rcases tablesLines_cases hline with rfl | ⟨t, _, rfl⟩ | ⟨row, rfl⟩ <;> trivial

/-! ### Laying out a module -/

/-- The lines of a routine with repeated ones copied out. -/
def Routine.bound (r : Routine) : List BoundLine :=
  under [] [.blank, .label r.name] ++ (r.copied ++ under [] [.instruction .rts])

theorem expandFrom_routines {routines : List Routine} (hsound : ∀ r ∈ routines, r.Sound) (rest : List Line) :
    expandFrom none (routines.flatMap Routine.lines ++ rest) =
      (expandFrom none rest).map (routines.flatMap Routine.bound ++ ·) := by
  induction routines with
  | nil => simp
  | cons r routines ih =>
    have hhead : ∀ line ∈ [Line.blank, .label r.name], line.Single := by
      simp [Line.Single]
    have hlast : ∀ line ∈ [Line.instruction .rts], line.Single := by
      simp [Line.Single]
    rw [List.flatMap_cons, List.append_assoc, Routine.lines, List.append_assoc, List.append_assoc,
      expandFrom_append hhead, (hsound r List.mem_cons_self).expands, expandFrom_append hlast,
      ih fun q hq => hsound q (List.mem_cons_of_mem r hq)]
    simp only [Option.map_map, Function.comp_def, List.flatMap_cons, Routine.bound, List.append_assoc]

def moduleLayout (target : Target) (routines : List Routine) (tables : List Table) : Layout where
  imports := [target.screen]
  exports := routines.map Routine.name
  code := drafts none (routines.flatMap Routine.bound)
  labels := offsets 0 tables
  data := tables.flatMap Prod.snd

def frontLines (target : Target) (names : List String) (tables : List Table) : List Line :=
  .directive (.importSymbol target.screen) :: names.map (fun name => .directive (.exportSymbol name)) ++
    [.directive .rodata] ++ tablesLines tables ++ [.blank, .directive .code]

section Front

variable (target : Target) (names : List String) (tables : List Table) {code : List Line} {bound : List BoundLine}

theorem expand_module
    (hcode : ∀ rest, expandFrom none (code ++ rest) = (expandFrom none rest).map (bound ++ ·)) :
    expand (frontLines target names tables ++ code ++ [.blank]) =
      some (under [] (frontLines target names tables) ++ (bound ++ under [] [.blank])) := by
  have hfront : ∀ line ∈ frontLines target names tables, line.Single := by
    intro line hline
    simp only [frontLines, List.mem_append, List.mem_cons, List.mem_map, List.not_mem_nil, or_false] at hline
    rcases hline with (((rfl | ⟨name, _, rfl⟩) | rfl) | hline) | rfl | rfl
    · trivial
    · trivial
    · trivial
    · exact single_tablesLines tables line hline
    · trivial
    · trivial
  rw [expand, List.append_assoc, expandFrom_append hfront, hcode]
  rfl

theorem layout_module (hplain : ∀ c ∈ bound, c.line.Plain) :
    layoutFrom {} (under [] (frontLines target names tables) ++ (bound ++ under [] [.blank])) =
      some {
        imports := [target.screen]
        exports := names
        code := drafts none bound
        labels := offsets 0 tables
        data := tables.flatMap Prod.snd } := by
  have hcode : ∀ c ∈ bound ++ under [] [.blank], c.line.Plain := by
    intro c hc
    rcases List.mem_append.1 hc with hc | hc
    · exact hplain c hc
    · rw [List.mem_singleton.1 hc]
      trivial
  have hsymbols := (Lays.importSymbol {} target.screen []).cons (lays_exports {} names)
  have hdata := (hsymbols.append (Lays.rodata {} [])).append (lays_tables rfl tables)
  have hfront := (hdata.append (Lays.blank _ [])).append (Lays.code _ [])
  have hall := hfront.append (lays_plain rfl hcode)
  have hlines : under [] (frontLines target names tables) =
      ⟨.directive (.importSymbol target.screen), []⟩ ::
        under [] (names.map fun name => .directive (.exportSymbol name)) ++
        [⟨.directive .rodata, []⟩] ++ under [] (tablesLines tables) ++ [⟨.blank, []⟩] ++
        [⟨.directive .code, []⟩] := by
    simp only [frontLines, under_append, under_cons, under_nil, List.append_assoc, List.cons_append,
      List.nil_append]
  rw [hlines, hall.layoutFrom_eq rfl]
  simp [Layout.append]

end Front

section Layout

variable {target : Target} {b : Builder} {routines : List Routine} {tables : List Table}

theorem Built.moduleLines_eq (h : Built target b routines tables) :
    b.moduleLines =
      frontLines target (routines.map Routine.name) tables ++ routines.flatMap Routine.lines ++ [.blank] := by
  rw [Builder.moduleLines, frontLines, h.aims, h.exports, h.data, h.code]

theorem Built.expand_eq (h : Built target b routines tables) :
    expand b.moduleLines = some (under [] (frontLines target (routines.map Routine.name) tables) ++
      (routines.flatMap Routine.bound ++ under [] [.blank])) := by
  rw [h.moduleLines_eq]
  exact expand_module target _ tables (expandFrom_routines h.sound)

theorem Routine.Sound.plain_bound {r : Routine} (h : r.Sound) : ∀ c ∈ r.bound, c.line.Plain := by
  intro c hc
  simp only [Routine.bound, under, List.map_cons, List.map_nil, List.mem_append, List.mem_cons,
    List.not_mem_nil, or_false] at hc
  rcases hc with (rfl | rfl) | hc | rfl
  · trivial
  · trivial
  · exact h.plain c hc
  · trivial

theorem Built.layout_eq (h : Built target b routines tables) :
    layoutFrom {} (under [] (frontLines target (routines.map Routine.name) tables) ++
      (routines.flatMap Routine.bound ++ under [] [.blank])) =
        some (moduleLayout target routines tables) := by
  apply layout_module
  intro c hc
  obtain ⟨r, hr, hc⟩ := List.mem_flatMap.1 hc
  exact (h.sound r hr).plain_bound c hc

/-! ### Symbols of a module -/

theorem Built.labelsIn_eq (h : Built target b routines tables) :
    (moduleLayout target routines tables).labelsIn none =
      routines.flatMap fun r => r.name :: labelsOf r.body := by
  rw [Layout.labelsIn_eq, moduleLayout, filterMap_labelIn_drafts, List.map_flatMap]
  have hsound := h.sound
  clear h
  induction routines with
  | nil => rfl
  | cons r routines ih =>
    rw [List.flatMap_cons, List.flatMap_cons, labelsOf_append, ih fun q hq => hsound q
      (List.mem_cons_of_mem r hq), Routine.bound, List.map_append, List.map_append, labelsOf_append,
      labelsOf_append, (hsound r List.mem_cons_self).labels]
    simp [under, labelsOf]

theorem Builder.labelsOf_moduleLines (b : Builder) :
    labelsOf b.moduleLines = labelsOf b.data ++ labelsOf b.code := by
  have hexports : labelsOf (b.exports.map fun name => .directive (.exportSymbol name)) = [] := by
    rw [labelsOf, List.filterMap_eq_nil_iff]
    intro line hline
    obtain ⟨name, _, rfl⟩ := List.mem_map.1 hline
    rfl
  rw [Builder.moduleLines]
  simp only [labelsOf_append]
  change ((labelsOf (b.exports.map fun name => .directive (.exportSymbol name)) ++ []) ++ _ ++ []) ++ _ ++ [] = _
  rw [hexports, List.append_nil, List.append_nil, List.append_nil, List.nil_append]

theorem Built.labelsOf_moduleLines (h : Built target b routines tables) :
    labelsOf b.moduleLines =
      tables.map Prod.fst ++ routines.flatMap fun r => r.name :: labelsOf r.body := by
  have hroutine : ∀ r : Routine, labelsOf r.lines = r.name :: labelsOf r.body := by
    intro r
    rw [Routine.lines, labelsOf_append, labelsOf_append]
    simp [labelsOf]
  rw [b.labelsOf_moduleLines, h.data, h.code, labelsOf_tablesLines, labelsOf_flatMap]
  simp only [hroutine]

/-- If the routines' names are new, all labels of the module are different. -/
theorem Built.nodup_labels (h : Built target b routines tables) (hnames : (routines.map Routine.name).Nodup)
    (hfresh : ∀ name ∈ routines.map Routine.name, ∀ n, label target n ≠ name) :
    (tables.map Prod.fst ++ routines.flatMap fun r => r.name :: labelsOf r.body).Nodup := by
  have hapart : ∀ rs : List Routine, (rs.flatMap fun r => r.name :: labelsOf r.body).Perm
      (rs.map Routine.name ++ rs.flatMap fun r => labelsOf r.body) := by
    intro rs
    induction rs with
    | nil => exact List.Perm.refl _
    | cons r rs ih =>
      rw [List.flatMap_cons, List.map_cons, List.flatMap_cons]
      refine ((List.Perm.append_left _ ih)).trans ?_
      exact perm_append_shuffle [r.name] (labelsOf r.body) (rs.map Routine.name) _
  have hnumbered : ((List.range' 0 b.labels).map (label target)).Nodup :=
    (List.nodup_range' 1).map fun _ _ => label_injective
  have hall : (tables.map Prod.fst ++ routines.flatMap fun r => r.name :: labelsOf r.body).Perm
      (routines.map Routine.name ++ (List.range' 0 b.labels).map (label target)) := by
    refine List.perm_append_comm.trans (((hapart routines).append_right _).trans ?_)
    rw [List.append_assoc]
    exact List.Perm.append_left _ h.labels
  rw [hall.nodup_iff, List.nodup_append]
  refine ⟨hnames, hnumbered, fun name hname numbered hmem heq => ?_⟩
  obtain ⟨n, _, rfl⟩ := List.mem_map.1 hmem
  exact hfresh name hname n heq.symm

/-- A module whose labels are all different is sound exactly if the screen's symbol is none of them. -/
theorem isSound_drafts_iff {l : Layout} {lines : List BoundLine} (himports : l.imports = [target.screen])
    (hlabels : l.labels = offsets 0 tables) (hcode : l.code = drafts none lines)
    (hdistinct : (tables.map Prod.fst ++ labelsOf (lines.map BoundLine.line)).Nodup)
    (hexports : ∀ name ∈ l.exports, name ∈ labelsOf (lines.map BoundLine.line)) {imports : Symbols}
    (himport : (imports target.screen).isSome = true) :
    l.isSound imports = true ↔ target.screen ∉ tables.map Prod.fst ++ labelsOf (lines.map BoundLine.line) := by
  have hlabelsIn : l.labelsIn none = labelsOf (lines.map BoundLine.line) := by
    rw [Layout.labelsIn_eq, hcode, filterMap_labelIn_drafts]
  have hglobals : l.globals =
      target.screen :: (tables.map Prod.fst ++ labelsOf (lines.map BoundLine.line)) := by
    rw [Layout.globals, hlabelsIn, himports, hlabels, map_fst_offsets]
    rfl
  have hscopes : l.scopes = [] := by
    rw [List.eq_nil_iff_forall_not_mem]
    intro s hs
    obtain ⟨d, hd, hscope⟩ := Layout.exists_of_mem_scopes hs
    rw [hcode] at hd
    rw [scope_of_mem_drafts hd] at hscope
    cases hscope
  have hexported : l.exports.all (fun name => decide (name ∈ l.labelsIn none)) = true := by
    rw [List.all_eq_true, hlabelsIn]
    exact fun name hname => decide_eq_true (hexports name hname)
  rw [Layout.isSound, hglobals, hscopes, himports, hexported]
  simp only [List.nodup_cons, hdistinct, himport, List.all_cons, List.all_nil, and_true, Bool.and_true,
    decide_eq_true_eq]

theorem Built.isSound (h : Built target b routines tables)
    (hdistinct : (tables.map Prod.fst ++ routines.flatMap fun r => r.name :: labelsOf r.body).Nodup)
    (hscreen : target.screen ∉ labelsOf b.moduleLines) {imports : Symbols}
    (himport : (imports target.screen).isSome = true) :
    (moduleLayout target routines tables).isSound imports = true := by
  have hlabels := h.labelsIn_eq
  rw [Layout.labelsIn_eq, moduleLayout, filterMap_labelIn_drafts] at hlabels
  rw [h.labelsOf_moduleLines] at hscreen
  rw [← hlabels] at hdistinct hscreen
  have hcode : (moduleLayout target routines tables).code = drafts none (routines.flatMap Routine.bound) := rfl
  refine (isSound_drafts_iff rfl rfl hcode hdistinct ?_ himport).2 hscreen
  intro name hname
  obtain ⟨r, hr, rfl⟩ := List.mem_map.1 hname
  rw [hlabels]
  exact List.mem_flatMap.2 ⟨r, hr, List.mem_cons_self⟩

end Layout

/-! ### Finding tables -/

section Tables

variable {l : Layout} {tables : List Table}

theorem symbols_imported {name : String} (himports : l.imports = [name]) (hlabels : l.labels = offsets 0 tables)
    (hnew : name ∉ tables.map Prod.fst) (imports : Symbols) (origin : Nat) :
    l.symbols imports origin none [] name = imports name := by
  refine Layout.symbols_of_import rfl (by simp) (lookup_eq_none ?_) ?_
  · rw [hlabels, map_fst_offsets]
    exact hnew
  · rw [himports]
    exact List.mem_singleton_self name

theorem symbols_table (hlabels : l.labels = offsets 0 tables) (hdistinct : (tables.map Prod.fst).Nodup)
    (imports : Symbols) (origin : Nat) {before after : List Table} {t : Table}
    (htables : tables = before ++ t :: after) :
    l.symbols imports origin none [] t.1 = some ((origin + (before.flatMap Prod.snd).length : Nat) : Int) := by
  have hkeys : ((offsets 0 tables).map Prod.fst).Nodup := by
    rw [map_fst_offsets]
    exact hdistinct
  have hmem := mem_offsets 0 before t after
  rw [← htables, Nat.zero_add] at hmem
  exact Layout.symbols_of_label rfl (by simp) (hlabels ▸ lookup_of_mem hkeys hmem)

/-- What the symbols of a module mean, where the screen has an address. -/
def moduleGround {target : Target} (l : Layout) (himports : l.imports = [target.screen])
    (hlabels : l.labels = offsets 0 tables) (hhidden : target.screen ∉ tables.map Prod.fst) {imports : Symbols}
    (origin : Nat) {screen : Nat} (himport : imports target.screen = some (screen : Int)) : Ground target where
  layout := l
  imports := imports
  origin := origin
  display := display target screen
  reaches p := by
    cases p with
    | colors => rfl
    | _ => exact (symbols_imported himports hlabels hhidden imports origin).trans himport

theorem names_moduleGround {target : Target} (himports : l.imports = [target.screen])
    (hlabels : l.labels = offsets 0 tables) (hhidden : target.screen ∉ tables.map Prod.fst)
    (hdistinct : (tables.map Prod.fst).Nodup) {imports : Symbols} (origin : Nat) {screen : Nat}
    (himport : imports target.screen = some (screen : Int)) :
    ∀ t ∈ tables, ∃ address, (moduleGround l himports hlabels hhidden origin himport).Names t.1 address := by
  intro t ht
  obtain ⟨before, after, htables⟩ := List.append_of_mem ht
  exact ⟨_, symbols_table hlabels hdistinct imports origin htables⟩

/-- In memory that holds the data, away from the display, every table stands under its label. -/
theorem Site.stocked {target : Target} (site : Site target) (hlabels : site.layout.labels = offsets 0 tables)
    (hdistinct : (tables.map Prod.fst).Nodup)
    (hfits : (⟨site.origin, (tables.flatMap Prod.snd).length⟩ : Region).Fits)
    (hapart : ∀ p, (⟨site.origin, (tables.flatMap Prod.snd).length⟩ : Region).Apart (site.display.region p))
    {memory : Memory} (hmemory : memory.Holds site.origin ((tables.flatMap Prod.snd).map Cell.byte)) :
    site.Stocked ⟨site.origin, (tables.flatMap Prod.snd).length⟩ memory tables := by
  have htable : ∀ t ∈ tables, ∃ start : Nat, site.symbols t.1 = some (start : Int) ∧
      memory.Holds start (t.2.map Cell.byte) ∧ site.origin ≤ start ∧
      start + t.2.length ≤ site.origin + (tables.flatMap Prod.snd).length := by
    intro t ht
    obtain ⟨before, after, htables⟩ := List.append_of_mem ht
    refine ⟨_, symbols_table hlabels hdistinct site.imports site.origin htables, ?_, by omega, ?_⟩
    · rw [htables, List.flatMap_append, List.flatMap_cons, ← List.append_assoc, List.map_append,
        List.map_append] at hmemory
      simpa only [List.length_map] using hmemory.slice
    · rw [htables, List.flatMap_append, List.flatMap_cons, List.length_append, List.length_append]
      omega
  have haddress : ∀ {t : Table} {start : Nat}, site.symbols t.1 = some (start : Int) →
      site.address t.1 = start := by
    intro t start hsymbol
    rw [Site.address, hsymbol]
    rfl
  constructor
  · intro t ht
    obtain ⟨start, hsymbol, hholds, hlow, hhigh⟩ := htable t ht
    simp only [Region.Fits] at hfits
    constructor
    · rw [haddress hsymbol, hsymbol]
    · rw [haddress hsymbol, Region.Fits]
      simp only
      omega
    · intro p
      rw [haddress hsymbol]
      exact (hapart p).part hlow hhigh
    · rw [haddress hsymbol]
      exact hholds
  · intro t ht
    obtain ⟨start, hsymbol, _, hlow, hhigh⟩ := htable t ht
    rw [haddress hsymbol]
    exact ⟨hlow, hhigh⟩

end Tables

/-! ### A module in its place -/

/-- A built program in memory: its symbols are different, and the screen and the data have their places. -/
structure Installed (target : Target) (b : Builder) (routines : List Routine) (tables : List Table)
    (imports : Symbols) (origin screen : Nat) : Prop where
  built : Built target b routines tables
  names : (routines.map Routine.name).Nodup
  fresh : ∀ name ∈ routines.map Routine.name, ∀ n, label target n ≠ name
  hidden : target.screen ∉ labelsOf b.moduleLines
  import_eq : imports target.screen = some (screen : Int)
  separate : Separate target screen ⟨origin, (tables.flatMap Prod.snd).length⟩

namespace Installed

variable {target : Target} {b : Builder} {routines : List Routine} {tables : List Table} {imports : Symbols}
  {origin screen : Nat} (h : Installed target b routines tables imports origin screen)
include h

theorem nodup_labels :
    (tables.map Prod.fst ++ routines.flatMap fun r => r.name :: labelsOf r.body).Nodup :=
  h.built.nodup_labels h.names h.fresh

theorem symbols_screen :
    (moduleLayout target routines tables).symbols imports origin none [] target.screen = some (screen : Int) := by
  have hhidden := h.hidden
  rw [h.built.labelsOf_moduleLines, List.mem_append, not_or] at hhidden
  rw [symbols_imported rfl rfl hhidden.1, h.import_eq]

def site : Site target where
  layout := moduleLayout target routines tables
  imports := imports
  origin := origin
  display := display target screen
  clear := h.separate.clear
  reaches p := by
    cases p with
    | colors => rfl
    | _ => exact h.symbols_screen

theorem stocked {memory : Memory} (hmemory : memory.Holds origin ((tables.flatMap Prod.snd).map Cell.byte)) :
    h.site.Stocked ⟨origin, (tables.flatMap Prod.snd).length⟩ memory tables :=
  h.site.stocked rfl (List.nodup_append.1 h.nodup_labels).1 h.separate.data_fits h.separate.data_apart hmemory

theorem code_eq : h.site.layout.code = routines.flatMap fun r => drafts none r.bound :=
  List.filterMap_flatMap

theorem links_code (hdoes : ∀ r ∈ routines, ∃ P Q, r.Does target tables P Q) :
    ∃ code, Asm.Links h.site.layout imports origin h.site.layout.code code := by
  have hstocked := h.stocked (Memory.holds_place (fun _ => 0) (by
    rw [List.length_map]
    exact h.separate.data_fits))
  rw [h.code_eq]
  apply Links.exists_flatMap
  intro r hr
  obtain ⟨P, Q, hdoes⟩ := hdoes r hr
  obtain ⟨items, hlinks, _⟩ := hdoes h.site screen _ ⟨0, 0, false, false, _, []⟩ rfl h.separate hstocked
  have hhead : Asm.Links h.site.layout imports origin (drafts none (under [] [.blank, .label r.name]))
      [.label r.name] := rfl
  have hlast : Asm.Links h.site.layout imports origin (drafts none (under [] [.instruction .rts]))
      [.instruction .rts] := rfl
  rw [Routine.bound, drafts_append, drafts_append]
  exact ⟨_, hhead.append (Asm.Links.append hlinks hlast)⟩

theorem assemble_eq {code : List Item} (hcode : Asm.Links h.site.layout imports origin h.site.layout.code code) :
    assemble imports origin b.moduleLines =
      some ⟨code, (tables.flatMap Prod.snd).map Cell.byte, routines.map Routine.name⟩ := by
  refine Asm.assemble_eq h.built.expand_eq h.built.layout_eq ?_ hcode fun c hc => ?_
  · refine h.built.isSound h.nodup_labels h.hidden ?_
    rw [h.import_eq]
    rfl
  · obtain ⟨t, ht, hc⟩ := List.mem_flatMap.1 hc
    exact h.built.narrow t ht c hc

theorem placed_code {code : List Item}
    (hcode : Asm.Links h.site.layout imports origin h.site.layout.code code) : (placed code).Nodup := by
  have hlabels : placed code = h.site.layout.labelsIn none := by
    rw [Links.placed_drafts hcode, Layout.labelsIn_eq]
    exact (List.map_id _).trans (filterMap_labelIn_drafts none _).symm
  rw [hlabels]
  exact h.built.labelsIn_eq ▸ (List.nodup_append.1 h.nodup_labels).2.1

theorem returns {code : List Item}
    (hcode : Asm.Links h.site.layout imports origin h.site.layout.code code) {r : Routine}
    (hr : r ∈ routines) {P : Nat → State → Prop} {Q : Nat → State → State → Prop}
    (hdoes : r.Does target tables P Q) {s : State}
    (hmemory : s.memory.Holds origin ((tables.flatMap Prod.snd).map Cell.byte)) (hs : P screen s) :
    ∃ t, Returns code r.name s t ∧ Q screen s t := by
  obtain ⟨items, hlinks, hperforms⟩ := hdoes h.site screen _ s rfl h.separate (h.stocked hmemory)
  have hdistinct := h.placed_code hcode
  obtain ⟨before, after, hroutines⟩ := List.append_of_mem hr
  have hsplit : h.site.layout.code = (before.flatMap fun r => drafts none r.bound) ++
      (drafts none (under [] [.blank, .label r.name]) ++ (drafts none r.copied ++
        drafts none (under [] [.instruction .rts])) ++ after.flatMap fun r => drafts none r.bound) := by
    rw [← drafts_append, ← drafts_append]
    exact h.code_eq.trans (by rw [hroutines, List.flatMap_append, List.flatMap_cons]; rfl)
  rw [hsplit] at hcode
  obtain ⟨front, rest, rfl, _, hrest⟩ := hcode.of_append
  obtain ⟨routine, back, rfl, hroutine, _⟩ := hrest.of_append
  obtain ⟨head, body, rfl, hhead, hbody⟩ := hroutine.of_append
  obtain ⟨items', last, rfl, hitems, hlast⟩ := hbody.of_append
  cases hlinks.unique hitems
  cases hhead
  cases hlast
  simp only [List.append_assoc] at hdistinct ⊢
  exact (hperforms hs).returns hdistinct rfl

end Installed

end Petscii.Program

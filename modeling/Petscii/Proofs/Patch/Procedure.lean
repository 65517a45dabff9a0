import Petscii.Proofs.Asm.ReadBack
import Petscii.Proofs.Patch.Body

/-!
# Procedures of a patch script

A procedure, with the symbols it needs and its export, is a module of its own. Its loop labels are all
different and known only inside, so it assembles wherever the screen and the image of the next frame are,
and calling it turns one frame on the screen into the next.
-/

namespace Petscii.Patch

open Asm Machine

/-! ### A module of one procedure -/

/-- A procedure, the symbols it needs and its export. -/
def procModule (target : Target) (name : String) (next : Frame) (rows : List (Option Columns)) : List Line :=
  [.directive (.importSymbol target.screen), .directive (.importSymbol next.name)] ++
    procLines target name next rows ++ [.blank, .directive (.exportSymbol name)]

def procLayout (target : Target) (name : String) (next : Frame) (rows : List (Option Columns)) : Layout where
  imports := [target.screen, next.name]
  exports := [name]
  code := .label none name :: drafts (some name) (under [] (bodyLines target next rows ++ [.instruction .rts]))

section Module

variable {target : Target} {name : String} {next : Frame} {rows : List (Option Columns)}

theorem plain_body : ∀ line ∈ bodyLines target next rows ++ [.instruction .rts], line.Plain := by
  intro line hline
  rcases List.mem_append.1 hline with hline | hline
  · obtain ⟨columns, row, hline⟩ := mem_rowsLines target next hline
    exact plain_rowLines target next hline
  · rw [List.mem_singleton.1 hline]
    trivial

/-- A procedure lays out its label and its body, and nothing behind it is in its scope. -/
theorem lays_procLines : Lays {} (under [] (procLines target name next rows))
    { code := .label none name ::
        drafts (some name) (under [] (bodyLines target next rows ++ [.instruction .rts])) } {} := by
  have hbody : Lays { scope := some name } (under [] (bodyLines target next rows ++ [.instruction .rts]))
      { code := drafts (some name) (under [] (bodyLines target next rows ++ [.instruction .rts])) }
      { scope := some name } :=
    lays_plain rfl fun c hc => by
      obtain ⟨line, hline, rfl⟩ := List.mem_map.1 hc
      exact plain_body line hline
  have hproc := ((Lays.blank {} []).cons ((Lays.proc rfl rfl name []).cons hbody)).append (Lays.endproc rfl [])
  have hlines : under [] (procLines target name next rows) =
      ⟨.blank, []⟩ :: ⟨.directive (.proc name), []⟩ ::
        under [] (bodyLines target next rows ++ [.instruction .rts]) ++ [⟨.directive .endproc, []⟩] := by
    simp [procLines]
  rw [hlines]
  simpa [Layout.append] using hproc

theorem layout_procModule : layoutFrom {} (under [] (procModule target name next rows)) =
    some (procLayout target name next rows) := by
  have himports := lays_imports {} [target.screen, next.name]
  have hproc := @lays_procLines target name next rows
  have hall := (himports.append hproc).append ((Lays.blank {} []).cons (Lays.exportSymbol {} name []))
  have hlines : under [] (procModule target name next rows) = under []
      ([target.screen, next.name].map fun name => .directive (.importSymbol name)) ++
      under [] (procLines target name next rows) ++
      [⟨.blank, []⟩, ⟨.directive (.exportSymbol name), []⟩] := by
    simp [procModule]
  rw [hlines, hall.layoutFrom_eq rfl]
  simp [procLayout, Layout.append]

theorem single_procLines : ∀ line ∈ procLines target name next rows, line.Single := by
  intro line hline
  simp only [procLines, List.mem_append, List.mem_cons, List.not_mem_nil, or_false] at hline
  rcases hline with ((rfl | rfl) | hline) | rfl | rfl
  · trivial
  · trivial
  · exact (plain_body line (List.mem_append_left _ hline)).single
  · trivial
  · trivial

theorem expand_procModule :
    expand (procModule target name next rows) = some (under [] (procModule target name next rows)) := by
  have hsingle : ∀ line ∈ procModule target name next rows, line.Single := by
    intro line hline
    simp only [procModule, List.mem_append, List.mem_cons, List.not_mem_nil, or_false] at hline
    rcases hline with ((rfl | rfl) | hline) | rfl | rfl
    · trivial
    · trivial
    · exact single_procLines line hline
    · trivial
    · trivial
  exact expand_of_single hsingle

theorem labelsIn_procLayout :
    (procLayout target name next rows).labelsIn (some name) = labelsOf (bodyLines target next rows) := by
  rw [Layout.labelsIn_eq, procLayout, List.filterMap_cons, filterMap_labelIn_drafts, map_line_under,
    labelsOf_append]
  exact List.append_nil _

theorem globals_procLayout : (procLayout target name next rows).globals = [target.screen, next.name, name] := by
  rw [Layout.globals, Layout.labelsIn_eq, procLayout]
  simp only [List.filterMap_cons, Draft.labelIn, if_pos]
  rw [filterMap_labelIn_drafts_of_ne (by simp)]
  rfl

theorem isSound_procLayout {imports : Symbols} (hdistinct : [target.screen, next.name, name].Nodup)
    (hscreen : (imports target.screen).isSome = true) (himage : (imports next.name).isSome = true) :
    (procLayout target name next rows).isSound imports = true := by
  simp only [Layout.isSound, Bool.and_eq_true, decide_eq_true_eq, List.all_eq_true]
  refine ⟨⟨⟨?_, ?_⟩, ?_⟩, ?_⟩
  · rw [globals_procLayout]
    exact hdistinct
  · intro s hs
    obtain ⟨d, hd, hscope⟩ := Layout.exists_of_mem_scopes hs
    rcases List.mem_cons.1 hd with rfl | hd
    · cases hscope
    · rw [scope_of_mem_drafts hd] at hscope
      cases hscope
      rw [labelsIn_procLayout]
      exact nodup_labelsOf_bodyLines target next rows
  · intro symbol hsymbol
    simp only [procLayout, List.mem_cons, List.not_mem_nil, or_false] at hsymbol
    rcases hsymbol with rfl | rfl
    · exact hscreen
    · exact himage
  · intro symbol hsymbol
    rw [List.mem_singleton.1 hsymbol, Layout.labelsIn_eq]
    exact List.mem_filterMap.2 ⟨_, List.mem_cons_self, by rw [Draft.labelIn, if_pos rfl]⟩

section Legible

variable (hscreen : Source.isName target.screen = true) (hnext : Source.isName next.name = true)

theorem legible_cellTerms (row column : Nat) : ∀ t ∈ cellTerms row column, t.Legible := by
  intro t ht
  simp only [cellTerms, List.mem_cons, List.not_mem_nil, or_false] at ht
  rcases ht with rfl | rfl
  · exact ⟨Int.natCast_nonneg row, Int.natCast_nonneg Screen.width⟩
  · exact Int.natCast_nonneg column

theorem legible_colorCell (row column : Nat) : (colorCell target row column).Legible :=
  ⟨trivial, legible_cellTerms row column⟩

include hscreen in
theorem legible_screenCell (row column : Nat) : (screenCell target row column).Legible :=
  ⟨hscreen, legible_cellTerms row column⟩

include hnext in
theorem legible_charSource (row column : Nat) : (charSource next row column).Legible := by
  refine ⟨hnext, List.forall_mem_cons.2 ⟨?_, legible_cellTerms row column⟩⟩
  exact Int.natCast_nonneg Screen.headerSize

include hnext in
theorem legible_colorSource (row column : Nat) : (colorSource next row column).Legible := by
  refine ⟨hnext, List.forall_mem_cons.2 ⟨?_, List.forall_mem_cons.2 ⟨?_, legible_cellTerms row column⟩⟩⟩
  · exact Int.natCast_nonneg Screen.headerSize
  · exact ⟨Int.natCast_nonneg Screen.width, Int.natCast_nonneg Screen.height⟩

include hscreen hnext in
theorem legible_rowLines (row : Nat) (columns : Columns) :
    ∀ line ∈ rowLines target next row columns, line.Legible := by
  have hloop : Source.isName ("loop" ++ Nat.repr row) = true :=
    Source.isName_append (by decide) fun c hc => Source.isWordChar_of_isDigit (isDigit_of_mem_repr hc)
  intro line hline
  rw [rowLines] at hline
  split at hline
  · simp only [List.mem_cons, List.not_mem_nil, or_false] at hline
    rcases hline with rfl | rfl | rfl | rfl
    · exact legible_charSource hnext row columns.first
    · exact legible_screenCell hscreen row columns.first
    · exact legible_colorSource hnext row columns.first
    · exact legible_colorCell row columns.first
  · simp only [Instruction.pastZero, List.map_cons, List.map_nil, List.cons_append, List.nil_append,
      List.mem_cons, List.not_mem_nil, or_false] at hline
    rcases hline with rfl | rfl | rfl | rfl | rfl | rfl | rfl | rfl
    · trivial
    · exact hloop
    · exact legible_charSource hnext row columns.first
    · exact legible_screenCell hscreen row columns.first
    · exact legible_colorSource hnext row columns.first
    · exact legible_colorCell row columns.first
    · trivial
    · exact hloop

include hscreen hnext in
theorem legible_procLines (hname : Source.isName name = true) :
    ∀ line ∈ procLines target name next rows, line.Legible := by
  intro line hline
  simp only [procLines, List.mem_append, List.mem_cons, List.not_mem_nil, or_false] at hline
  rcases hline with ((rfl | rfl) | hline) | rfl | rfl
  · trivial
  · exact hname
  · obtain ⟨columns, row, hline⟩ := mem_rowsLines target next hline
    exact legible_rowLines hscreen hnext row columns line hline
  · trivial
  · trivial

include hscreen hnext in
theorem legible_procModule (hname : Source.isName name = true) :
    ∀ line ∈ procModule target name next rows, line.Legible := by
  intro line hline
  simp only [procModule, List.mem_append, List.mem_cons, List.not_mem_nil, or_false] at hline
  rcases hline with ((rfl | rfl) | hline) | rfl | rfl
  · exact hscreen
  · exact hnext
  · exact legible_procLines hscreen hnext hname line hline
  · trivial
  · exact hname

end Legible

end Module

/-- Labels that are placed under the name of their procedure differ from each other and from this name. -/
theorem nodup_qualified (name : String) {labels : List String} (hlabels : labels.Nodup) :
    (name :: labels.map (name ++ "::" ++ ·)).Nodup := by
  rw [List.nodup_cons]
  constructor
  · intro hmem
    obtain ⟨x, _, heq⟩ := List.mem_map.1 hmem
    have hlength := congrArg String.length heq
    simp only [String.length_append] at hlength
    have hcolons : "::".length = 2 := rfl
    omega
  · apply hlabels.map
    intro x y heq
    have hlist := congrArg String.toList heq
    simp only [String.toList_append] at hlist
    exact String.toList_inj.1 (List.append_cancel_left hlist)

theorem nodup_placed {target : Target} {name : String} {next : Frame} {rows : List (Option Columns)}
    {imports : Symbols} {origin : Nat} {items : List Item}
    (hlinks : Links (procLayout target name next rows) imports origin
      (drafts (some name) (under [] (bodyLines target next rows))) items) :
    (placed (.label name :: items)).Nodup := by
  have hqualify : ∀ x ∈ labelsOf (bodyLines target next rows),
      (procLayout target name next rows).qualify (some name) x = name ++ "::" ++ x := by
    intro x hx
    rw [Layout.qualify, labelsIn_procLayout]
    exact if_pos hx
  rw [placed_label, hlinks.placed_drafts, map_line_under, List.map_congr_left hqualify]
  exact nodup_qualified name (nodup_labelsOf_bodyLines target next rows)

/-! ### Calling a procedure -/

/-- The memory that a procedure reads and writes. -/
def regions (target : Target) (next : Frame) (screen image : Nat) : List Region :=
  [⟨screen, Screen.cells⟩, ⟨target.colorRam.toNat, Screen.cells⟩, ⟨image, next.bytes.length⟩]

/-- A procedure stands where its regions fit and lie apart, and where the symbols have their addresses. -/
def Spot.ofRegions {target : Target} {next : Frame} (layout : Layout) (imports : Symbols) (origin : Nat)
    (scope : Option String) {screen image : Nat} (hnext : next.Full)
    (hfits : ∀ r ∈ regions target next screen image, r.Fits)
    (hapart : (regions target next screen image).Pairwise Region.Apart)
    (hscreen : layout.symbols imports origin scope [] target.screen = some (screen : Int))
    (himage : layout.symbols imports origin scope [] next.name = some (image : Int)) : Spot target next where
  layout := layout
  imports := imports
  origin := origin
  scope := scope
  display := ⟨screen, target.colorRam.toNat⟩
  image := image
  clear := by
    simp only [regions, List.forall_mem_cons] at hfits
    simp only [regions, List.pairwise_cons, List.forall_mem_cons] at hapart
    exact ⟨hfits.1, hfits.2.1, hapart.1.1⟩
  full := hnext
  fits := hfits _ (by simp [regions])
  apart p := by
    simp only [regions, List.pairwise_cons, List.forall_mem_cons] at hapart
    cases p with
    | colors => exact hapart.2.1.1.symm
    | _ => exact hapart.1.2.1.symm
  colors_eq := rfl
  screen_eq := hscreen
  image_eq := himage

/-- The screen's symbol is not that of an image, which is somewhere else. -/
theorem screen_ne_image {target : Target} {next : Frame} {imports : Symbols} {screen image : Nat}
    (hscreen : imports target.screen = some (screen : Int)) (himage : imports next.name = some (image : Int))
    (hapart : (regions target next screen image).Pairwise Region.Apart) : target.screen ≠ next.name := by
  intro heq
  rw [heq, himage] at hscreen
  have himage : image = screen := Int.ofNat_inj.1 (Option.some.inj hscreen)
  simp only [regions, List.pairwise_cons, List.forall_mem_cons, Region.Apart, himage] at hapart
  have hlong : 0 < next.bytes.length := by simp [Frame.bytes, Frame.payload]
  simp only [Screen.cells, Screen.width, Screen.height] at hapart
  omega

/-- The symbols of a procedure have their addresses, no label of its own hides them, and the screen, the
colour memory and the image lie inside the address space and apart. -/
structure Stands (target : Target) (name : String) (next : Frame) (rows : List (Option Columns))
    (imports : Symbols) (screen image : Nat) : Prop where
  screen_eq : imports target.screen = some (screen : Int)
  image_eq : imports next.name = some (image : Int)
  fresh : ∀ symbol ∈ [target.screen, next.name], name ≠ symbol
  hidden : ∀ symbol ∈ [target.screen, next.name], Line.label symbol ∉ bodyLines target next rows
  fits : ∀ r ∈ regions target next screen image, r.Fits
  apart : (regions target next screen image).Pairwise Region.Apart

namespace Stands

variable {target : Target} {name : String} {next : Frame} {rows : List (Option Columns)} {imports : Symbols}
  {screen image : Nat} (h : Stands target name next rows imports screen image)
include h

theorem symbols_eq (origin : Nat) {symbol : String} (hsymbol : symbol ∈ [target.screen, next.name]) :
    (procLayout target name next rows).symbols imports origin (some name) [] symbol = imports symbol := by
  refine Layout.symbols_of_import rfl ?_ rfl hsymbol
  rw [labelsIn_procLayout, mem_labelsOf]
  exact fun hlocal => h.hidden symbol hsymbol hlocal.2

theorem screen_ne : target.screen ≠ next.name :=
  screen_ne_image h.screen_eq h.image_eq h.apart

theorem isSound : (procLayout target name next rows).isSound imports = true := by
  refine isSound_procLayout ?_ (by rw [h.screen_eq]; rfl) (by rw [h.image_eq]; rfl)
  have hname := h.fresh
  simp only [List.forall_mem_cons] at hname
  simp [h.screen_ne, hname.1.symm, hname.2.1.symm]

def spot (hnext : next.Full) (origin : Nat) : Spot target next :=
  .ofRegions (procLayout target name next rows) imports origin (some name) hnext h.fits h.apart
    ((h.symbols_eq origin (by simp)).trans h.screen_eq) ((h.symbols_eq origin (by simp)).trans h.image_eq)

/-- The module of the procedure is assembled, and the procedure does what its body does. -/
theorem assemble_patches {prev : Frame} (hprev : prev.Full) (hnext : next.Full)
    (hlength : rows.length = Screen.height)
    (hrows : ∀ r columns, rows[r]? = some columns → Frame.RowChange prev next r columns) (origin : Nat) :
    ∃ assembly, assemble imports origin (procModule target name next rows) = some assembly ∧
      ∀ s : State, s.memory.Holds screen (prev.chars.map Cell.byte) → s.memory.Holds image next.bytes →
        ∃ t, Returns assembly.code name s t ∧ Patches target screen next rows s t := by
  obtain ⟨items, hlinks, hperforms⟩ := (h.spot hnext origin).body_patches hprev hlength hrows
  have hcode : Links (procLayout target name next rows) imports origin
      (procLayout target name next rows).code (.label name :: (items ++ [.instruction .rts])) := by
    refine Links.cons rfl ?_
    rw [under_append, drafts_append]
    exact Links.append hlinks rfl
  refine ⟨_, assemble_eq expand_procModule layout_procModule h.isSound hcode (by simp [procLayout]), ?_⟩
  intro s hscreen himage
  have hdistinct : (placed ([] ++ .label name :: (items ++ .instruction .rts :: []))).Nodup := by
    rw [List.nil_append, placed_label, placed_append, placed_instruction, placed_nil, List.append_nil]
    exact nodup_placed hlinks
  exact (hperforms s himage hscreen).returns hdistinct rfl

end Stands

/-- Two frames can be compared, and the procedure for the outcome leads from one to the other: wherever it
stands, the procedure called on a screen with the characters of the previous frame returns with those of the
next one. Colours come with the changed columns of every row, and nothing else is changed. The module of the
procedure is assembled, from its lines and, where its symbols can be read, from its text. -/
theorem procedure_patches {target : Target} {name : String} {prev next : Frame} {before after : List Cell}
    (hprev : Frame.ofPayload prev.name before = .ok prev)
    (hnext : Frame.ofPayload next.name after = .ok next) :
    ∃ rows, prev.changedRows next = .ok rows ∧ ∀ (imports : Symbols) (origin screen image : Nat),
      Stands target name next rows imports screen image →
      ∃ assembly, assemble imports origin (procModule target name next rows) = some assembly ∧
        (Source.isName target.screen = true → Source.isName next.name = true → Source.isName name = true →
          ∃ lines, read (render indent (procModule target name next rows)) = some lines ∧
            assemble imports origin lines = some assembly) ∧
        ∀ s : State, s.memory.Holds screen (prev.chars.map Cell.byte) → s.memory.Holds image next.bytes →
          ∃ t, Returns assembly.code name s t ∧ Patches target screen next rows s t := by
  obtain ⟨hprev, _, _⟩ := Frame.ofPayload_eq_ok.1 hprev
  obtain ⟨hnext, _, _⟩ := Frame.ofPayload_eq_ok.1 hnext
  obtain ⟨rows, hrows, hlength, hchange⟩ := Frame.changedRows_eq hprev hnext
  refine ⟨rows, hrows, fun imports origin screen image hstands => ?_⟩
  obtain ⟨assembly, hassemble, hpatches⟩ := hstands.assemble_patches hprev hnext hlength hchange origin
  refine ⟨assembly, hassemble, fun hscreen himage hname => ?_, hpatches⟩
  exact ⟨_, read_render (List.all_eq_true.1 (by decide)) (legible_procModule hscreen himage hname), by
    rw [assemble_bare, hassemble]⟩

def sea : Frame := ⟨"_sea", 6, 6, 40, 25, List.replicate 1000 32, List.replicate 1000 14⟩

/-- The same with three sails in the first row and an anchor in the last cell. The values of the sails are
larger than a byte. -/
def boats : Frame :=
  ⟨"_boats", 6, 6, 40, 25, List.replicate 3 32 ++ [333, 32, 334] ++ List.replicate 993 32 ++ [81],
    List.replicate 1000 1⟩

theorem procedure_patches_sea_boats :
    ∃ rows lines assembly, sea.changedRows boats = .ok rows ∧ rows[0]? = some (some ⟨3, 5⟩) ∧
      rows[24]? = some (some ⟨39, 39⟩) ∧
      read (render indent (procModule {} (procName sea boats) boats rows)) = some lines ∧
      assemble (fun symbol => some (if symbol = "_boats" then 0x2000 else 0x0400)) 0 lines = some assembly ∧
      ∀ s : State, s.memory.Holds 0x0400 (sea.chars.map Cell.byte) → s.memory.Holds 0x2000 boats.bytes →
        ∃ t, Returns assembly.code (procName sea boats) s t ∧ Patches {} 0x0400 boats rows s t := by
  have hsea : sea.Full := ⟨rfl, rfl, List.length_replicate, List.length_replicate⟩
  have hboats : boats.Full := by
    refine ⟨rfl, rfl, ?_, List.length_replicate⟩
    simp only [boats, List.length_append, List.length_replicate]
    rfl
  have hchange : sea.changedRows boats =
      .ok (some ⟨3, 5⟩ :: (List.replicate 23 none ++ [some ⟨39, 39⟩])) := by decide +kernel
  obtain ⟨rows, hrows, hprocedure⟩ := @procedure_patches {} (procName sea boats) _ _ _ _
    (Frame.ofPayload_eq_ok.2 ⟨hsea, rfl, rfl⟩) (Frame.ofPayload_eq_ok.2 ⟨hboats, rfl, rfl⟩)
  cases hrows.symm.trans hchange
  obtain ⟨assembly, _, htext, hpatches⟩ :=
    hprocedure (fun symbol => some (if symbol = "_boats" then 0x2000 else 0x0400)) 0 0x0400 0x2000
      ⟨rfl, rfl, by decide +kernel, by decide +kernel, by decide +kernel, by decide +kernel⟩
  obtain ⟨lines, hread, hassemble⟩ := htext (by decide) (by decide) (by decide)
  exact ⟨_, lines, assembly, hchange, rfl, rfl, hread, hassemble, hpatches⟩

end Petscii.Patch

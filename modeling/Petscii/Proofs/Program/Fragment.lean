import Petscii.Proofs.Program.Footprint
import Petscii.Proofs.Program.Module

/-!
# A block as a module of its own

A block is code that reads tables and draws on the screen. With the screen imported and the tables in front
of the code it makes a module, which is assembled exactly if none of its labels is the screen's symbol. So
what a block does can be said without the program around it.
-/

namespace Petscii.Program

open Asm Machine

/-- The module of a block: it imports the screen, and its data stands in front of its code. -/
def Block.moduleLines (target : Target) (block : Block) : List Line :=
  [.directive (.importSymbol target.screen), .directive .rodata] ++ block.data ++
    [.blank, .directive .code] ++ block.code ++ [.blank]

theorem Block.labelsOf_moduleLines (target : Target) (block : Block) :
    labelsOf (block.moduleLines target) = labelsOf block.data ++ labelsOf block.code := by
  simp only [Block.moduleLines, labelsOf_append]
  change [] ++ labelsOf block.data ++ [] ++ labelsOf block.code ++ [] = _
  rw [List.nil_append, List.append_nil, List.append_nil]

/-- A block of plain code and tables of bytes, with labels that are all different. -/
structure Fragment (block : Block) (tables : List Table) : Prop where
  data : block.data = tablesLines tables
  plain : ∀ line ∈ block.code, line.Plain
  distinct : (tables.map Prod.fst ++ labelsOf block.code).Nodup
  narrow : ∀ t ∈ tables, ∀ v ∈ t.2, 0 ≤ v.toInt ∧ v.toInt ≤ 0xFF

theorem Emits.fragment {target : Target} {next : Frame} {n : Nat} {block : Block} {tables : List Table}
    {cells : Plane → Nat → Prop} (h : Emits target next n block tables cells) : Fragment block tables where
  data := h.data
  plain := h.plain
  distinct := by
    rw [(List.perm_append_comm.trans h.labels).nodup_iff]
    exact (List.nodup_range' 1).map fun _ _ => label_injective
  narrow := h.narrow

def fragmentLayout (target : Target) (block : Block) (tables : List Table) : Layout where
  imports := [target.screen]
  code := drafts none (under [] block.code)
  labels := offsets 0 tables
  data := tables.flatMap Prod.snd

/-- What the symbols of a block mean, where the screen has an address. -/
def fragmentGround {target : Target} (block : Block) {tables : List Table} {imports : Symbols} (origin : Nat)
    {screen : Nat} (hhidden : target.screen ∉ tables.map Prod.fst)
    (himport : imports target.screen = some (screen : Int)) : Ground target :=
  moduleGround (fragmentLayout target block tables) rfl rfl hhidden origin himport

namespace Fragment

variable {target : Target} {block : Block} {tables : List Table} {imports : Symbols} {origin screen : Nat}
  (h : Fragment block tables)
include h

theorem labelsOf_moduleLines :
    labelsOf (block.moduleLines target) = tables.map Prod.fst ++ labelsOf block.code := by
  rw [Block.labelsOf_moduleLines, h.data, labelsOf_tablesLines]

theorem expand_eq :
    expand (block.moduleLines target) =
      some (under [] (frontLines target [] tables) ++ (under [] block.code ++ under [] [.blank])) := by
  have hlines : block.moduleLines target = frontLines target [] tables ++ block.code ++ [.blank] := by
    rw [Block.moduleLines, h.data]
    rfl
  rw [hlines]
  exact expand_module target [] tables fun rest =>
    expandFrom_append (fun line hline => (h.plain line hline).single) rest

theorem layout_eq :
    layoutFrom {} (under [] (frontLines target [] tables) ++ (under [] block.code ++ under [] [.blank])) =
      some (fragmentLayout target block tables) := by
  apply layout_module
  intro c hc
  obtain ⟨line, hline, rfl⟩ := List.mem_map.1 hc
  exact h.plain line hline

theorem isSound_iff (himport : imports target.screen = some (screen : Int)) :
    (fragmentLayout target block tables).isSound imports = true ↔
      target.screen ∉ labelsOf (block.moduleLines target) := by
  have hlines : (under [] block.code).map BoundLine.line = block.code := map_line_under [] block.code
  have hcode : (fragmentLayout target block tables).code = drafts none (under [] block.code) := rfl
  have himported : (imports target.screen).isSome = true := by rw [himport, Option.isSome_some]
  have hiff := isSound_drafts_iff rfl rfl hcode (hlines.symm ▸ h.distinct) (by simp [fragmentLayout]) himported
  rwa [hlines, ← h.labelsOf_moduleLines] at hiff

theorem names (origin : Nat) (hhidden : target.screen ∉ tables.map Prod.fst)
    (himport : imports target.screen = some (screen : Int)) :
    ∀ name ∈ labelsOf block.data, ∃ address, (fragmentGround block origin hhidden himport).Names name address := by
  intro name hname
  rw [h.data, labelsOf_tablesLines, List.mem_map] at hname
  obtain ⟨t, ht, rfl⟩ := hname
  exact names_moduleGround rfl rfl hhidden (List.nodup_append.1 h.distinct).1 origin himport t ht

/-- The module of a block that links is assembled exactly if the screen's symbol is none of its labels. -/
theorem exists_assemble_iff (hlinks : Linkable target block)
    (himport : imports target.screen = some (screen : Int)) :
    (∃ assembly, assemble imports origin (block.moduleLines target) = some assembly) ↔
      target.screen ∉ labelsOf (block.moduleLines target) := by
  constructor
  · rintro ⟨assembly, hassembly⟩
    obtain ⟨hsound, _⟩ := of_assemble_eq h.expand_eq h.layout_eq hassembly
    exact (h.isSound_iff himport).1 hsound
  · intro hhidden
    have hsound := (h.isSound_iff himport).2 hhidden
    rw [h.labelsOf_moduleLines, List.mem_append, not_or] at hhidden
    obtain ⟨items, hlinks⟩ := hlinks _ (h.names origin hhidden.1 himport)
    refine ⟨_, assemble_eq h.expand_eq h.layout_eq hsound hlinks fun c hc => ?_⟩
    obtain ⟨t, ht, hc⟩ := List.mem_flatMap.1 hc
    exact h.narrow t ht c hc

theorem of_assemble {assembly : Assembly} (himport : imports target.screen = some (screen : Int))
    (hassembly : assemble imports origin (block.moduleLines target) = some assembly) :
    ∃ hhidden : target.screen ∉ tables.map Prod.fst,
      (fragmentGround block origin hhidden himport).Links block.code assembly.code ∧
      assembly.data = (tables.flatMap Prod.snd).map Cell.byte ∧ (placed assembly.code).Nodup := by
  obtain ⟨hsound, hlinks, _, hdata⟩ := of_assemble_eq h.expand_eq h.layout_eq hassembly
  have hhidden := (h.isSound_iff himport).1 hsound
  rw [h.labelsOf_moduleLines, List.mem_append, not_or] at hhidden
  refine ⟨hhidden.1, hlinks, hdata, ?_⟩
  rw [Links.placed_drafts hlinks, map_line_under]
  exact (List.map_id _).symm ▸ (List.nodup_append.1 h.distinct).2.1

end Fragment

end Petscii.Program

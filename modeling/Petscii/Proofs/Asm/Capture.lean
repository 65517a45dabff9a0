import Mathlib.Data.List.Basic
import Petscii.Proofs.Asm.Link
import Petscii.Proofs.Asm.ReadBack

/-!
# Names that a module binds

A module binds the symbols it imports, its labels, its procedures and the counters of its repetitions. Every
name in its layout and every counter above an instruction is bound by one of its lines. An imported symbol
that no other line binds therefore means what is imported, in every operand of the module.
-/

namespace Petscii.Asm

def Line.binds : Line → Option String
  | .label name => some name
  | .directive (.importSymbol name) => some name
  | .directive (.proc name) => some name
  | .directive (.repeated _ counter) => some counter
  | _ => none

/-- The names that lines bind, each as often as it is bound. -/
def bindings (lines : List Line) : List String :=
  lines.filterMap Line.binds

@[simp] theorem bindings_append (a b : List Line) : bindings (a ++ b) = bindings a ++ bindings b :=
  List.filterMap_append

@[simp] theorem bindings_importSymbol (name : String) (rest : List Line) :
    bindings (.directive (.importSymbol name) :: rest) = name :: bindings rest := rfl

theorem bindings_flatMap {α : Type} (f : α → List Line) (xs : List α) :
    bindings (xs.flatMap f) = xs.flatMap fun x => bindings (f x) :=
  List.filterMap_flatMap

theorem bindings_of_plain {lines : List Line} (hplain : ∀ line ∈ lines, line.Plain) :
    bindings lines = labelsOf lines := by
  apply List.filterMap_congr
  intro line hline
  cases line with
  | directive d => exact (hplain _ hline).elim
  | _ => rfl

theorem bindings_exports (names : List String) :
    bindings (names.map fun name => .directive (.exportSymbol name)) = [] := by
  rw [bindings, List.filterMap_eq_nil_iff]
  intro line hline
  obtain ⟨name, _, rfl⟩ := List.mem_map.1 hline
  rfl

theorem bindings_bare (lines : List Line) : bindings (lines.map Line.bare) = bindings lines := by
  rw [bindings, List.filterMap_map]
  apply List.filterMap_congr
  intro line _
  cases line <;> rfl

/-- A name that is bound once is bound by one line only. -/
theorem eq_of_binds {lines : List Line} {name : String} (hsole : (bindings lines).count name = 1)
    {line line' : Line} (hline : line ∈ lines) (hline' : line' ∈ lines) (hbinds : line.binds = some name)
    (hbinds' : line'.binds = some name) : line = line' := by
  obtain ⟨before, after, rfl⟩ := List.append_of_mem hline
  rw [bindings_append, List.count_append] at hsole
  have hafter : bindings (line :: after) = name :: bindings after := List.filterMap_cons_some hbinds
  rw [hafter, List.count_cons_self] at hsole
  have hother : ∀ part : List Line, (bindings part).count name = 0 → line' ∉ part := fun part hzero hmem =>
    List.count_eq_zero.1 hzero (List.mem_filterMap.2 ⟨line', hmem, hbinds'⟩)
  rcases List.mem_append.1 hline' with hmem | hmem
  · exact absurd hmem (hother before (by omega))
  · rcases List.mem_cons.1 hmem with rfl | hmem
    · rfl
    · exact absurd hmem (hother after (by omega))

/-! ### Where copies come from -/

/-- A copied line is one of the lines, and each of its counters is the counter of a repetition. -/
structure BoundLine.From (lines : List Line) (c : BoundLine) : Prop where
  line : c.line ∈ lines
  counters : ∀ entry ∈ c.counters, ∃ times, Line.directive (.repeated times entry.1) ∈ lines

structure Repetition.From (lines : List Line) (r : Repetition) : Prop where
  body : r.body ⊆ lines
  counter : ∃ times, Line.directive (.repeated times r.counter) ∈ lines

theorem Repetition.From.copies {lines : List Line} {r : Repetition} (h : r.From lines) :
    ∀ c ∈ r.copies, c.From lines := by
  intro c hc
  obtain ⟨i, _, hc⟩ := List.mem_flatMap.1 hc
  obtain ⟨line, hline, rfl⟩ := List.mem_map.1 hc
  refine ⟨h.body (List.mem_reverse.1 hline), fun entry hentry => ?_⟩
  rw [List.mem_singleton.1 hentry]
  exact h.counter

/-- One line of an expansion: it is copied at once, or it belongs to a repetition. -/
theorem expandFrom_from {all lines : List Line} (hsub : lines ⊆ all) {state : Option Repetition}
    (hstate : ∀ r ∈ state, r.From all) {bound : List BoundLine} (h : expandFrom state lines = some bound) :
    ∀ c ∈ bound, c.From all := by
  induction lines generalizing state bound with
  | nil =>
    cases state with
    | none =>
      cases h
      simp
    | some r => cases h
  | cons line lines ih =>
    obtain ⟨hline, hlines⟩ := List.cons_subset.1 hsub
    by_cases hsingle : line.Single
    · cases state with
      | none =>
        rw [expandFrom_none_cons hsingle] at h
        obtain ⟨rest, hrest, rfl⟩ := Option.map_eq_some_iff.1 h
        exact List.forall_mem_cons.2 ⟨⟨hline, by simp⟩, ih hlines (by simp) hrest⟩
      | some r =>
        rw [expandFrom_some_cons hsingle] at h
        obtain ⟨hbody, hcounter⟩ := hstate r rfl
        refine ih hlines (fun r' hr' => ?_) h
        cases hr'
        exact ⟨List.cons_subset.2 ⟨hline, hbody⟩, hcounter⟩
    · cases line with
      | directive d =>
        cases d with
        | repeated times counter =>
          cases state with
          | none =>
            refine ih hlines (fun r hr => ?_) h
            cases hr
            exact ⟨by simp, times, hline⟩
          | some r => cases h
        | endrepeat =>
          cases state with
          | none => cases h
          | some r =>
            obtain ⟨rest, hrest, rfl⟩ := Option.map_eq_some_iff.1 h
            intro c hc
            rcases List.mem_append.1 hc with hc | hc
            · exact (hstate r rfl).copies c hc
            · exact ih hlines (by simp) hrest c hc
        | _ => exact absurd trivial hsingle
      | _ => exact absurd trivial hsingle

/-! ### Where a layout comes from -/

structure Layout.From (lines : List BoundLine) (l : Layout) : Prop where
  imports : ∀ name ∈ l.imports, ∃ c ∈ lines, c.line = .directive (.importSymbol name)
  labels : ∀ entry ∈ l.labels, ∃ c ∈ lines, c.line = .label entry.1
  code : ∀ scope name, Draft.label scope name ∈ l.code →
    ∃ c ∈ lines, c.line = .label name ∨ c.line = .directive (.proc name)
  instructions : ∀ scope counters i, Draft.instruction scope counters i ∈ l.code →
    ⟨.instruction i, counters⟩ ∈ lines

theorem Layout.From.mono {l : Layout} {lines more : List BoundLine} (h : l.From lines) (hsub : lines ⊆ more) :
    l.From more where
  imports name hname := (h.imports name hname).imp fun _ hc => ⟨hsub hc.1, hc.2⟩
  labels entry hentry := (h.labels entry hentry).imp fun _ hc => ⟨hsub hc.1, hc.2⟩
  code scope name hname := (h.code scope name hname).imp fun _ hc => ⟨hsub hc.1, hc.2⟩
  instructions scope counters i hi := hsub (h.instructions scope counters i hi)

theorem Layout.From.append {a b : Layout} {lines : List BoundLine} (ha : a.From lines) (hb : b.From lines) :
    (a.append b).From lines where
  imports name hname := (List.mem_append.1 hname).elim (ha.imports name) (hb.imports name)
  labels entry hentry := (List.mem_append.1 hentry).elim (ha.labels entry) (hb.labels entry)
  code scope name hname := (List.mem_append.1 hname).elim (ha.code scope name) (hb.code scope name)
  instructions scope counters i hi :=
    (List.mem_append.1 hi).elim (ha.instructions scope counters i) (hb.instructions scope counters i)

/-- One line of a layout: it leads to a position, and adds what comes from it. -/
theorem layoutFrom_cons {p : Position} {c : BoundLine} {rest : List BoundLine} {l : Layout}
    (h : layoutFrom p (c :: rest) = some l) :
    ∃ (q : Position) (a l' : Layout), layoutFrom q rest = some l' ∧ l = a.append l' ∧ a.From [c] := by
  obtain ⟨line, counters⟩ := c
  -- a line that lays out `a` and leads to `q` whatever follows
  have hlays : ∀ {q : Position} {a : Layout}, Lays p [⟨line, counters⟩] a q → a.From [⟨line, counters⟩] →
      ∃ (q : Position) (a l' : Layout), layoutFrom q rest = some l' ∧ l = a.append l' ∧
        a.From [⟨line, counters⟩] := by
    intro q a hlays hfrom
    rw [← List.singleton_append, hlays rest] at h
    obtain ⟨l', hl', rfl⟩ := Option.map_eq_some_iff.1 h
    exact ⟨q, a, l', hl', rfl, hfrom⟩
  have hnothing : Layout.From [⟨line, counters⟩] {} := by
    constructor <;> simp
  cases line with
  | blank => exact hlays (Lays.blank p counters) hnothing
  | comment text => exact hlays (Lays.comment p text counters) hnothing
  | label name =>
    cases hdata : p.inData with
    | true => exact hlays (Lays.dataLabel hdata name counters) (by constructor <;> simp)
    | false => exact hlays (Lays.codeLabel hdata name counters) (by constructor <;> simp)
  | instruction i =>
    cases hdata : p.inData with
    | true => simp [layoutFrom, hdata] at h
    | false => exact hlays (Lays.instruction hdata i counters) (by constructor <;> simp +contextual)
  | directive d =>
    cases d with
    | importSymbol name => exact hlays (Lays.importSymbol p name counters) (by constructor <;> simp)
    | exportSymbol name => exact hlays (Lays.exportSymbol p name counters) (by constructor <;> simp)
    | rodata => exact hlays (Lays.rodata p counters) hnothing
    | code => exact hlays (Lays.code p counters) hnothing
    | proc name =>
      by_cases hinside : p.scope.isSome = true ∨ p.inData = true
      · simp [layoutFrom, hinside] at h
      · rw [not_or, Bool.not_eq_true, Bool.not_eq_true, Option.isSome_eq_false_iff, Option.isNone_iff_eq_none]
          at hinside
        exact hlays (Lays.proc hinside.2 hinside.1 name counters) (by constructor <;> simp)
    | endproc =>
      cases hscope : p.scope with
      | none => simp [layoutFrom, hscope] at h
      | some name => exact hlays (Lays.endproc hscope counters) hnothing
    | byte values => exact hlays (Lays.byte p values counters) (by constructor <;> simp)
    | repeated times counter => cases h
    | endrepeat => cases h

theorem layoutFrom_from {p : Position} {lines : List BoundLine} {l : Layout} (h : layoutFrom p lines = some l) :
    l.From lines := by
  induction lines generalizing p l with
  | nil =>
    rw [layoutFrom] at h
    split at h
    · cases h
    · cases h
      constructor <;> simp
  | cons c lines ih =>
    obtain ⟨q, a, l', hl', rfl, hfrom⟩ := layoutFrom_cons h
    exact (hfrom.mono (by simp)).append ((ih hl').mono (List.subset_cons_self c lines))

/-! ### Symbols that are not captured -/

theorem expand_bare {lines : List Line} {bound : List BoundLine} (h : expand lines = some bound) :
    expand (lines.map Line.bare) = some (bound.map BoundLine.bare) := by
  rw [expand, (expandFrom_bare lines).1]
  exact congrArg (Option.map _) h

/-- No other line of a module binds an imported name, and in every operand it means what is imported. -/
structure Uncaptured (lines : List Line) (name : String) : Prop where
  sole : (bindings lines).count name = 1
  means : ∃ bound l, expand lines = some bound ∧ layoutFrom {} bound = some l ∧ name ∈ l.imports ∧
    ∀ scope counters i, Draft.instruction scope counters i ∈ l.code → ∀ imports origin,
      l.symbols imports origin scope counters name = imports name

theorem uncaptured_of_sole {lines : List Line} {bound : List BoundLine} {l : Layout} {name : String}
    (hexpand : expand lines = some bound) (hlayout : layoutFrom {} bound = some l) (himport : name ∈ l.imports)
    (hsole : (bindings lines).count name = 1) : Uncaptured lines name := by
  refine ⟨hsole, bound, l, hexpand, hlayout, himport, fun scope counters i hi imports origin => ?_⟩
  have hbound := expandFrom_from (List.Subset.refl lines) (by simp) hexpand
  have hlaid := layoutFrom_from hlayout
  obtain ⟨c, hc, hline⟩ := hlaid.imports name himport
  have himported : Line.directive (.importSymbol name) ∈ lines := hline ▸ (hbound c hc).line
  -- whatever else bound the name would be the line that imports it
  have hother : ∀ line ∈ lines, line.binds = some name → line = .directive (.importSymbol name) :=
    fun line hline hbinds => eq_of_binds hsole hline himported hbinds rfl
  have hlabel : ∀ c ∈ bound, c.line ≠ .label name ∧ c.line ≠ .directive (.proc name) := by
    intro c hc
    constructor
    · intro heq
      cases (hother _ (hbound c hc).line (by rw [heq]; rfl)).symm.trans heq
    · intro heq
      cases (hother _ (hbound c hc).line (by rw [heq]; rfl)).symm.trans heq
  refine Layout.symbols_of_import (lookup_eq_none fun hmem => ?_) (fun hlocal => ?_)
    (lookup_eq_none fun hmem => ?_) himport
  · obtain ⟨entry, hentry, rfl⟩ := List.mem_map.1 hmem
    obtain ⟨times, hrepeated⟩ := (hbound _ (hlaid.instructions scope counters i hi)).counters entry hentry
    cases hother _ hrepeated rfl
  · rw [Layout.labelsIn_eq, List.mem_filterMap] at hlocal
    obtain ⟨_, d, hd, hname⟩ := hlocal
    cases d with
    | label s other =>
      simp only [Draft.labelIn, Option.ite_none_right_eq_some, Option.some.injEq] at hname
      obtain ⟨rfl, rfl⟩ := hname
      obtain ⟨c, hc, heq⟩ := hlaid.code s other hd
      exact heq.elim (hlabel c hc).1 (hlabel c hc).2
    | instruction _ _ _ => cases hname
  · obtain ⟨entry, hentry, rfl⟩ := List.mem_map.1 hmem
    obtain ⟨c, hc, heq⟩ := hlaid.labels entry hentry
    exact (hlabel c hc).1 heq

theorem Uncaptured.bare {lines : List Line} {name : String} (h : Uncaptured lines name) :
    Uncaptured (lines.map Line.bare) name := by
  obtain ⟨bound, l, hexpand, hlayout, hmeans⟩ := h.means
  exact ⟨bindings_bare lines ▸ h.sole, _, l, expand_bare hexpand, (layoutFrom_bare {} bound).trans hlayout, hmeans⟩

/-- A module that binds a name and others captures it exactly if it is one of the others. -/
theorem uncaptured_bare_iff {lines : List Line} {bound : List BoundLine} {l : Layout} {name : String}
    {others : List String} (hexpand : expand lines = some bound) (hlayout : layoutFrom {} bound = some l)
    (himport : name ∈ l.imports) (hbindings : (bindings lines).Perm (name :: others)) :
    Uncaptured (lines.map Line.bare) name ↔ name ∉ others := by
  have hcount : (bindings lines).count name = 1 ↔ name ∉ others := by
    rw [hbindings.count_eq, List.count_cons_self, Nat.add_eq_right, List.count_eq_zero]
  constructor
  · intro h
    exact hcount.1 (bindings_bare lines ▸ h.sole)
  · intro h
    exact (uncaptured_of_sole hexpand hlayout himport (hcount.2 h)).bare

end Petscii.Asm

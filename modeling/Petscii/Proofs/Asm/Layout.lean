import Petscii.Asm.Assemble

/-!
# Laying out a module

A module is laid out line by line, and every line adds to what the lines behind it lay out. `Lays` says
what a stretch of lines adds, and how it moves the position, whatever follows. Modules are understood by
cutting them into such stretches.
-/

namespace Petscii.Asm

/-! ### Copying out repeated lines -/

/-- A line that neither begins nor ends a repetition. -/
def Line.Single : Line → Prop
  | .directive (.repeated _ _) => False
  | .directive .endrepeat => False
  | _ => True

/-- Lines that stand under the same counters. -/
def under (counters : List (String × Int)) (lines : List Line) : List BoundLine :=
  lines.map (⟨·, counters⟩)

@[simp] theorem under_nil (counters : List (String × Int)) : under counters [] = [] := rfl

@[simp] theorem under_cons (counters : List (String × Int)) (line : Line) (lines : List Line) :
    under counters (line :: lines) = ⟨line, counters⟩ :: under counters lines := rfl

@[simp] theorem under_append (counters : List (String × Int)) (a b : List Line) :
    under counters (a ++ b) = under counters a ++ under counters b :=
  List.map_append

@[simp] theorem map_line_under (counters : List (String × Int)) (lines : List Line) :
    (under counters lines).map BoundLine.line = lines := by
  rw [under, List.map_map]
  exact List.map_id lines

theorem expandFrom_none_cons {line : Line} (hsingle : line.Single) (rest : List Line) :
    expandFrom none (line :: rest) = (expandFrom none rest).map (⟨line, []⟩ :: ·) := by
  cases line with
  | directive d =>
    cases d with
    | repeated times counter => exact hsingle.elim
    | endrepeat => exact hsingle.elim
    | _ => rfl
  | _ => rfl

theorem expandFrom_some_cons {line : Line} (hsingle : line.Single) (r : Repetition) (rest : List Line) :
    expandFrom (some r) (line :: rest) = expandFrom (some { r with body := line :: r.body }) rest := by
  cases line with
  | directive d =>
    cases d with
    | repeated times counter => exact hsingle.elim
    | endrepeat => exact hsingle.elim
    | _ => rfl
  | _ => rfl

theorem expandFrom_append {lines : List Line} (hsingle : ∀ line ∈ lines, line.Single)
    (rest : List Line) :
    expandFrom none (lines ++ rest) = (expandFrom none rest).map (under [] lines ++ ·) := by
  induction lines with
  | nil => simp
  | cons line lines ih =>
    rw [List.cons_append, expandFrom_none_cons (hsingle line List.mem_cons_self),
      ih fun l hl => hsingle l (List.mem_cons_of_mem line hl), Option.map_map]
    rfl

theorem expand_of_single {lines : List Line} (hsingle : ∀ line ∈ lines, line.Single) :
    expand lines = some (under [] lines) := by
  have hexpand := expandFrom_append hsingle []
  rw [List.append_nil, expandFrom, Option.map_some, List.append_nil] at hexpand
  exact hexpand

theorem expandFrom_body {body : List Line} (hsingle : ∀ line ∈ body, line.Single) (r : Repetition)
    (rest : List Line) :
    expandFrom (some r) (body ++ .directive .endrepeat :: rest) =
      (expandFrom none rest).map ({ r with body := body.reverse ++ r.body }.copies ++ ·) := by
  induction body generalizing r with
  | nil => simp [expandFrom]
  | cons line body ih =>
    rw [List.cons_append, expandFrom_some_cons (hsingle line List.mem_cons_self),
      ih fun l hl => hsingle l (List.mem_cons_of_mem line hl)]
    simp

/-- Repeated lines are copied with their counter counting up. -/
theorem expandFrom_repeated {body : List Line} (hsingle : ∀ line ∈ body, line.Single) (times : Nat)
    (counter : String) (rest : List Line) :
    expandFrom none (.directive (.repeated times counter) :: (body ++ .directive .endrepeat :: rest)) =
      (expandFrom none rest).map
        (((List.range times).flatMap fun (i : Nat) => under [(counter, (i : Int))] body) ++ ·) := by
  rw [expandFrom, expandFrom_body hsingle]
  simp [Repetition.copies, under]

/-! ### What lines lay out -/

def Layout.append (a b : Layout) : Layout where
  imports := a.imports ++ b.imports
  exports := a.exports ++ b.exports
  code := a.code ++ b.code
  labels := a.labels ++ b.labels
  data := a.data ++ b.data

theorem Layout.append_assoc (a b c : Layout) : (a.append b).append c = a.append (b.append c) := by
  simp [Layout.append]

@[simp] theorem Layout.empty_append (a : Layout) : ({} : Layout).append a = a := rfl

@[simp] theorem Layout.append_empty (a : Layout) : a.append {} = a := by
  simp [Layout.append]

/-- From position `p` the lines lay out `a` and lead to position `q`. -/
def Lays (p : Position) (lines : List BoundLine) (a : Layout) (q : Position) : Prop :=
  ∀ rest, layoutFrom p (lines ++ rest) = (layoutFrom q rest).map a.append

namespace Lays

variable {p q r : Position} {lines more : List BoundLine} {a b : Layout}

theorem nil (p : Position) : Lays p [] {} p := by
  intro rest
  cases h : layoutFrom p rest <;> simp [h]

theorem append (ha : Lays p lines a q) (hb : Lays q more b r) : Lays p (lines ++ more) (a.append b) r := by
  intro rest
  rw [List.append_assoc, ha, hb, Option.map_map]
  congr 1
  funext l
  exact (Layout.append_assoc a b l).symm

theorem cons {line : BoundLine} (ha : Lays p [line] a q) (hb : Lays q more b r) :
    Lays p (line :: more) (a.append b) r :=
  ha.append hb

theorem layoutFrom_eq (h : Lays p lines a q) (hend : q.scope = none) : layoutFrom p lines = some a := by
  have hrest := h []
  rw [List.append_nil, layoutFrom, hend] at hrest
  simpa using hrest

theorem blank (p : Position) (counters : List (String × Int)) : Lays p [⟨.blank, counters⟩] {} p := by
  intro rest
  exact (nil p) rest

theorem comment (p : Position) (text : String) (counters : List (String × Int)) :
    Lays p [⟨.comment text, counters⟩] {} p := by
  intro rest
  exact (nil p) rest

theorem codeLabel (hcode : p.inData = false) (name : String) (counters : List (String × Int)) :
    Lays p [⟨.label name, counters⟩] { code := [.label p.scope name] } p := by
  intro rest
  change (if p.inData then _ else (layoutFrom p rest).bind _) = _
  rw [hcode]
  cases layoutFrom p rest <;> rfl

theorem dataLabel (hdata : p.inData = true) (name : String) (counters : List (String × Int)) :
    Lays p [⟨.label name, counters⟩] { labels := [(name, p.offset)] } p := by
  intro rest
  change (if p.inData then (layoutFrom p rest).bind _ else _) = _
  rw [hdata]
  cases layoutFrom p rest <;> rfl

theorem instruction (hcode : p.inData = false) (i : Instruction Expr) (counters : List (String × Int)) :
    Lays p [⟨.instruction i, counters⟩] { code := [.instruction p.scope counters i] } p := by
  intro rest
  change (if p.inData then _ else (layoutFrom p rest).bind _) = _
  rw [hcode]
  cases layoutFrom p rest <;> rfl

theorem importSymbol (p : Position) (name : String) (counters : List (String × Int)) :
    Lays p [⟨.directive (.importSymbol name), counters⟩] { imports := [name] } p := by
  intro rest
  change (layoutFrom p rest).bind _ = _
  cases layoutFrom p rest <;> rfl

theorem exportSymbol (p : Position) (name : String) (counters : List (String × Int)) :
    Lays p [⟨.directive (.exportSymbol name), counters⟩] { exports := [name] } p := by
  intro rest
  change (layoutFrom p rest).bind _ = _
  cases layoutFrom p rest <;> rfl

theorem rodata (p : Position) (counters : List (String × Int)) :
    Lays p [⟨.directive .rodata, counters⟩] {} { p with inData := true } := by
  intro rest
  exact (nil { p with inData := true }) rest

theorem code (p : Position) (counters : List (String × Int)) :
    Lays p [⟨.directive .code, counters⟩] {} { p with inData := false } := by
  intro rest
  exact (nil { p with inData := false }) rest

theorem proc (hcode : p.inData = false) (hscope : p.scope = none) (name : String)
    (counters : List (String × Int)) :
    Lays p [⟨.directive (.proc name), counters⟩] { code := [.label none name] }
      { p with scope := some name } := by
  obtain ⟨inData, scope, offset⟩ := p
  cases hcode
  cases hscope
  intro rest
  change (layoutFrom ⟨false, some name, offset⟩ rest).bind _ = _
  cases layoutFrom ⟨false, some name, offset⟩ rest <;> rfl

theorem endproc {name : String} (hscope : p.scope = some name) (counters : List (String × Int)) :
    Lays p [⟨.directive .endproc, counters⟩] {} { p with scope := none } := by
  intro rest
  change (if p.scope.isNone then _ else layoutFrom { p with scope := none } rest) = _
  rw [hscope]
  exact (nil { p with scope := none }) rest

theorem byte (p : Position) (values : List Cell) (counters : List (String × Int)) :
    Lays p [⟨.directive (.byte values), counters⟩] { data := values }
      { p with offset := p.offset + values.length } := by
  intro rest
  change (layoutFrom { p with offset := p.offset + values.length } rest).bind _ = _
  cases layoutFrom { p with offset := p.offset + values.length } rest <;> rfl

end Lays

/-! ### Stretches of one kind -/

theorem lays_imports (p : Position) (names : List String) :
    Lays p (under [] (names.map fun name => .directive (.importSymbol name))) { imports := names } p := by
  induction names with
  | nil => exact Lays.nil p
  | cons name names ih => exact (Lays.importSymbol p name []).cons ih

theorem lays_exports (p : Position) (names : List String) :
    Lays p (under [] (names.map fun name => .directive (.exportSymbol name))) { exports := names } p := by
  induction names with
  | nil => exact Lays.nil p
  | cons name names ih => exact (Lays.exportSymbol p name []).cons ih

/-- A line of code: no directive. -/
def Line.Plain : Line → Prop
  | .directive _ => False
  | _ => True

theorem Line.Plain.single {line : Line} (h : line.Plain) : line.Single := by
  cases line with
  | directive d => exact h.elim
  | _ => trivial

def drafts (scope : Option String) (lines : List BoundLine) : List Draft :=
  lines.filterMap fun b =>
    match b.line with
    | .label name => some (.label scope name)
    | .instruction i => some (.instruction scope b.counters i)
    | _ => none

@[simp] theorem drafts_nil (scope : Option String) : drafts scope [] = [] := rfl

@[simp] theorem drafts_append (scope : Option String) (a b : List BoundLine) :
    drafts scope (a ++ b) = drafts scope a ++ drafts scope b :=
  List.filterMap_append

@[simp] theorem drafts_blank (scope : Option String) (counters : List (String × Int))
    (rest : List BoundLine) : drafts scope (⟨.blank, counters⟩ :: rest) = drafts scope rest := rfl

@[simp] theorem drafts_label (scope : Option String) (counters : List (String × Int)) (name : String)
    (rest : List BoundLine) :
    drafts scope (⟨.label name, counters⟩ :: rest) = .label scope name :: drafts scope rest := rfl

@[simp] theorem drafts_instruction (scope : Option String) (counters : List (String × Int))
    (i : Instruction Expr) (rest : List BoundLine) :
    drafts scope (⟨.instruction i, counters⟩ :: rest) =
      .instruction scope counters i :: drafts scope rest := rfl

theorem lays_plain {p : Position} (hcode : p.inData = false) {lines : List BoundLine}
    (hplain : ∀ b ∈ lines, b.line.Plain) : Lays p lines { code := drafts p.scope lines } p := by
  induction lines with
  | nil => exact Lays.nil p
  | cons b lines ih =>
    obtain ⟨line, counters⟩ := b
    have hrest := ih fun b hb => hplain b (List.mem_cons_of_mem _ hb)
    cases line with
    | blank => exact (Lays.blank p counters).cons hrest
    | comment text => exact (Lays.comment p text counters).cons hrest
    | label name => exact (Lays.codeLabel hcode name counters).cons hrest
    | instruction i => exact (Lays.instruction hcode i counters).cons hrest
    | directive d => exact (hplain _ List.mem_cons_self).elim

theorem lays_rows (p : Position) (rows : List (List Cell)) :
    Lays p (under [] (rows.map fun row => .directive (.byte row))) { data := rows.flatten }
      { p with offset := p.offset + rows.flatten.length } := by
  induction rows generalizing p with
  | nil => exact Lays.nil p
  | cons row rows ih =>
    have hrest := ih { p with offset := p.offset + row.length }
    rw [List.flatten_cons, List.length_append, ← Nat.add_assoc]
    exact (Lays.byte p row []).cons hrest

/-! ### Labels -/

def labelsOf (lines : List Line) : List String :=
  lines.filterMap fun line =>
    match line with
    | .label name => some name
    | _ => none

@[simp] theorem labelsOf_nil : labelsOf [] = [] := rfl

@[simp] theorem labelsOf_append (a b : List Line) : labelsOf (a ++ b) = labelsOf a ++ labelsOf b :=
  List.filterMap_append

@[simp] theorem labelsOf_label (name : String) (rest : List Line) :
    labelsOf (.label name :: rest) = name :: labelsOf rest := rfl

@[simp] theorem labelsOf_instruction (i : Instruction Expr) (rest : List Line) :
    labelsOf (.instruction i :: rest) = labelsOf rest := rfl

@[simp] theorem labelsOf_blank (rest : List Line) : labelsOf (.blank :: rest) = labelsOf rest := rfl

theorem mem_labelsOf {name : String} {lines : List Line} :
    name ∈ labelsOf lines ↔ Line.label name ∈ lines := by
  rw [labelsOf, List.mem_filterMap]
  constructor
  · rintro ⟨line, hline, heq⟩
    split at heq
    · cases heq
      exact hline
    · cases heq
  · exact fun hline => ⟨_, hline, rfl⟩

theorem labelsOf_flatMap {α : Type} (f : α → List Line) (xs : List α) :
    labelsOf (xs.flatMap f) = xs.flatMap fun x => labelsOf (f x) :=
  List.filterMap_flatMap

def Draft.labelIn (scope : Option String) : Draft → Option String
  | .label s name => if s = scope then some name else none
  | .instruction _ _ _ => none

theorem Layout.labelsIn_eq (l : Layout) (scope : Option String) :
    l.labelsIn scope = l.code.filterMap (Draft.labelIn scope) := by
  rw [labelsIn]
  congr 1

theorem filterMap_labelIn_drafts (scope : Option String) (lines : List BoundLine) :
    (drafts scope lines).filterMap (Draft.labelIn scope) = labelsOf (lines.map BoundLine.line) := by
  induction lines with
  | nil => rfl
  | cons c lines ih =>
    obtain ⟨line, counters⟩ := c
    cases line with
    | label name =>
      rw [drafts_label, List.map_cons, labelsOf_label, ← ih, List.filterMap_cons, Draft.labelIn, if_pos rfl]
    | _ => exact ih

theorem filterMap_labelIn_drafts_of_ne {scope scope' : Option String} (hne : scope ≠ scope')
    (lines : List BoundLine) : (drafts scope lines).filterMap (Draft.labelIn scope') = [] := by
  rw [List.filterMap_eq_nil_iff]
  intro d hd
  obtain ⟨c, _, hc⟩ := List.mem_filterMap.1 hd
  split at hc
  · cases hc
    exact if_neg hne
  · cases hc
    rfl
  · cases hc

def Draft.scope : Draft → Option String
  | .label s _ => s
  | .instruction s _ _ => s

theorem scope_of_mem_drafts {scope : Option String} {lines : List BoundLine} {d : Draft}
    (hd : d ∈ drafts scope lines) : d.scope = scope := by
  obtain ⟨c, _, hc⟩ := List.mem_filterMap.1 hd
  split at hc
  · cases hc
    rfl
  · cases hc
    rfl
  · cases hc

theorem Layout.exists_of_mem_scopes {l : Layout} {s : String} (hs : s ∈ l.scopes) :
    ∃ d ∈ l.code, d.scope = some s := by
  obtain ⟨d, hd, hs⟩ := List.mem_filterMap.1 hs
  refine ⟨d, hd, ?_⟩
  split at hs
  · cases hs
    rfl
  · cases hs

end Petscii.Asm

import Petscii.Proofs.Asm.Layout
import Petscii.Proofs.Machine.Piece

/-!
# Linking code

Linking works out the operands of the code that a layout drafted, one line at a time. `Links` says which
items drafts become; stretches of code are linked apart and put in a row. A module is assembled once its
lines are laid out, its symbols are sound, its code links and its data are bytes.
-/

namespace Petscii.Asm

/-! ### Values of symbols -/

theorem lookup_of_mem {α : Type} {entries : List (String × α)} (hdistinct : (entries.map Prod.fst).Nodup)
    {name : String} {value : α} (hmem : (name, value) ∈ entries) : entries.lookup name = some value := by
  induction entries with
  | nil => cases hmem
  | cons entry entries ih =>
    rw [List.map_cons, List.nodup_cons] at hdistinct
    rcases List.mem_cons.1 hmem with rfl | hlater
    · exact List.lookup_cons_self
    · have hne : name ≠ entry.1 := by
        rintro rfl
        exact hdistinct.1 (List.mem_map.2 ⟨_, hlater, rfl⟩)
      rw [List.lookup_cons, beq_eq_false_iff_ne.2 hne]
      exact ih hdistinct.2 hlater

theorem lookup_eq_none {α : Type} {entries : List (String × α)} {name : String}
    (hnew : name ∉ entries.map Prod.fst) : entries.lookup name = none := by
  rw [List.lookup_eq_none_iff]
  intro entry hentry
  rw [bne_iff_ne]
  rintro rfl
  exact hnew (List.mem_map_of_mem hentry)

namespace Layout

variable {l : Layout} {imports : Symbols} {origin : Nat} {scope : Option String}
  {counters : List (String × Int)} {name : String}

theorem symbols_of_counter {value : Int} (h : counters.lookup name = some value) :
    l.symbols imports origin scope counters name = some value := by
  rw [symbols, h]

theorem symbols_of_label (hcounter : counters.lookup name = none)
    (hlocal : ¬ (scope.isSome = true ∧ name ∈ l.labelsIn scope)) {offset : Nat}
    (hlabel : l.labels.lookup name = some offset) :
    l.symbols imports origin scope counters name = some ((origin + offset : Nat) : Int) := by
  rw [symbols, hcounter]
  simp only [hlabel, if_neg hlocal]

theorem symbols_of_import (hcounter : counters.lookup name = none)
    (hlocal : ¬ (scope.isSome = true ∧ name ∈ l.labelsIn scope)) (hlabel : l.labels.lookup name = none)
    (himport : name ∈ l.imports) : l.symbols imports origin scope counters name = imports name := by
  rw [symbols, hcounter]
  simp only [hlabel, if_neg hlocal, if_pos himport]

end Layout

/-! ### Values of expressions -/

section Eval

variable {symbols : Symbols}

/-- An expression is worked out from its first value term by term. -/
def termsEval (symbols : Symbols) (sum : Int) : List Term → Option Int
  | [] => some sum
  | t :: rest => (t.eval symbols).bind fun value => termsEval symbols (sum + value) rest

theorem eval_eq_termsEval {base : Atom} {value : Int} (hbase : base.eval symbols = some value)
    (terms : List Term) : Expr.eval symbols ⟨base, terms⟩ = termsEval symbols value terms := by
  rw [Expr.eval]
  simp only [hbase, Option.bind_eq_bind, Option.bind_some]
  clear hbase
  induction terms generalizing value with
  | nil => rfl
  | cons t terms ih =>
    rw [List.foldlM_cons, termsEval]
    cases t.eval symbols with
    | none => rfl
    | some v => exact ih

@[simp] theorem termsEval_nil (sum : Int) : termsEval symbols sum [] = some sum := rfl

@[simp] theorem termsEval_plus (sum n : Int) (rest : List Term) :
    termsEval symbols sum (.plus (.number n) :: rest) = termsEval symbols (sum + n) rest := rfl

theorem termsEval_product {a b : Atom} {m n : Int} (ha : a.eval symbols = some m)
    (hb : b.eval symbols = some n) (sum : Int) (rest : List Term) :
    termsEval symbols sum (.plusProduct a b :: rest) = termsEval symbols (sum + m * n) rest := by
  simp only [termsEval, Term.eval, ha, hb, Option.bind_eq_bind, Option.bind_some]
  rfl

end Eval

/-! ### Drafts and items -/

section Links

variable (l : Layout) (imports : Symbols) (origin : Nat)

def Links (ds : List Draft) (items : List Item) : Prop :=
  ds.mapM (l.link imports origin) = some items

variable {l imports origin}

theorem Links.nil : Links l imports origin [] [] := rfl

theorem Links.append {ds es : List Draft} {as bs : List Item} (ha : Links l imports origin ds as)
    (hb : Links l imports origin es bs) : Links l imports origin (ds ++ es) (as ++ bs) := by
  rw [Links] at *
  simp [ha, hb]

theorem Links.cons {d : Draft} {ds : List Draft} {item : Item} {items : List Item}
    (hd : l.link imports origin d = some item) (hds : Links l imports origin ds items) :
    Links l imports origin (d :: ds) (item :: items) := by
  rw [Links] at *
  simp [hd, hds]

theorem Links.flatMap {α : Type} {xs : List α} {f : α → List Draft} {g : α → List Item}
    (h : ∀ x ∈ xs, Links l imports origin (f x) (g x)) :
    Links l imports origin (xs.flatMap f) (xs.flatMap g) := by
  induction xs with
  | nil => exact Links.nil
  | cons x xs ih =>
    rw [List.flatMap_cons, List.flatMap_cons]
    exact (h x List.mem_cons_self).append (ih fun y hy => h y (List.mem_cons_of_mem x hy))

theorem Links.of_append {ds es : List Draft} {items : List Item}
    (h : Links l imports origin (ds ++ es) items) :
    ∃ as bs, items = as ++ bs ∧ Links l imports origin ds as ∧ Links l imports origin es bs := by
  rw [Links, List.mapM_append] at h
  obtain ⟨as, has, h⟩ := Option.bind_eq_some_iff.1 h
  obtain ⟨bs, hbs, h⟩ := Option.bind_eq_some_iff.1 h
  cases h
  exact ⟨as, bs, rfl, has, hbs⟩

theorem Links.exists_flatMap {α : Type} {xs : List α} {f : α → List Draft}
    (h : ∀ x ∈ xs, ∃ items, Links l imports origin (f x) items) :
    ∃ items, Links l imports origin (xs.flatMap f) items := by
  induction xs with
  | nil => exact ⟨[], Links.nil⟩
  | cons x xs ih =>
    obtain ⟨first, hfirst⟩ := h x List.mem_cons_self
    obtain ⟨rest, hrest⟩ := ih fun y hy => h y (List.mem_cons_of_mem x hy)
    exact ⟨first ++ rest, hfirst.append hrest⟩

theorem Links.unique {ds : List Draft} {as bs : List Item} (ha : Links l imports origin ds as)
    (hb : Links l imports origin ds bs) : as = bs :=
  Option.some.inj (ha.symm.trans hb)

variable {scope : Option String} {counters : List (String × Int)}

theorem link_ldaImmediate {value : Int} (hlow : 0 ≤ value) (hhigh : value ≤ 0xFF) :
    l.link imports origin (.instruction scope counters (.ldaImmediate value)) =
      some (.instruction (.ldaImmediate value)) := by
  simp only [Layout.link, Layout.resolve, readByte, if_pos (And.intro hlow hhigh), Option.map_some]

theorem link_ldx {value : Int} (hlow : 0 ≤ value) (hhigh : value ≤ 0xFF) :
    l.link imports origin (.instruction scope counters (.ldx value)) =
      some (.instruction (.ldx value)) := by
  simp only [Layout.link, Layout.resolve, readByte, if_pos (And.intro hlow hhigh), Option.map_some]

theorem link_cpx {value : Int} (hlow : 0 ≤ value) (hhigh : value ≤ 0xFF) :
    l.link imports origin (.instruction scope counters (.cpx value)) =
      some (.instruction (.cpx value)) := by
  simp only [Layout.link, Layout.resolve, readByte, if_pos (And.intro hlow hhigh), Option.map_some]

variable {e : Expr} {value : Int}

theorem link_lda (h : e.eval (l.symbols imports origin scope counters) = some value) :
    l.link imports origin (.instruction scope counters (.lda e)) =
      some (.instruction (.lda (.ofInt value))) := by
  simp only [Layout.link, Layout.resolve, h, Option.map_some]

theorem link_ldaIndexed (h : e.eval (l.symbols imports origin scope counters) = some value) :
    l.link imports origin (.instruction scope counters (.ldaIndexed e)) =
      some (.instruction (.ldaIndexed (.ofInt value))) := by
  simp only [Layout.link, Layout.resolve, h, Option.map_some]

theorem link_sta (h : e.eval (l.symbols imports origin scope counters) = some value) :
    l.link imports origin (.instruction scope counters (.sta e)) =
      some (.instruction (.sta (.ofInt value))) := by
  simp only [Layout.link, Layout.resolve, h, Option.map_some]

theorem link_staIndexed (h : e.eval (l.symbols imports origin scope counters) = some value) :
    l.link imports origin (.instruction scope counters (.staIndexed e)) =
      some (.instruction (.staIndexed (.ofInt value))) := by
  simp only [Layout.link, Layout.resolve, h, Option.map_some]

theorem Links.placed {ds : List Draft} {items : List Item} (h : Links l imports origin ds items) :
    Machine.placed items = ds.filterMap fun d =>
      match d with
      | .label s name => some (l.qualify s name)
      | .instruction _ _ _ => none := by
  induction ds generalizing items with
  | nil =>
    cases h
    rfl
  | cons d ds ih =>
    rw [Links, List.mapM_cons] at h
    obtain ⟨item, hitem, h⟩ := Option.bind_eq_some_iff.1 h
    obtain ⟨rest, hrest, h⟩ := Option.bind_eq_some_iff.1 h
    cases h
    cases d with
    | label s name =>
      cases hitem
      rw [Machine.placed_label, ih hrest]
      rfl
    | instruction s counters i =>
      obtain ⟨resolved, _, rfl⟩ := Option.map_eq_some_iff.1 hitem
      rw [Machine.placed_instruction, ih hrest]
      rfl

theorem Links.placed_drafts {lines : List BoundLine} {items : List Item}
    (h : Links l imports origin (drafts scope lines) items) :
    Machine.placed items = (labelsOf (lines.map BoundLine.line)).map (l.qualify scope) := by
  rw [h.placed]
  clear h
  induction lines with
  | nil => rfl
  | cons c lines ih =>
    obtain ⟨line, counters⟩ := c
    cases line with
    | label name =>
      rw [drafts_label, List.map_cons, labelsOf_label, List.map_cons, ← ih]
      rfl
    | _ => exact ih

end Links

/-! ### Assembling -/

theorem mapM_readByte {values : List Cell} (h : ∀ c ∈ values, 0 ≤ c.toInt ∧ c.toInt ≤ 0xFF) :
    (values.mapM fun c => (readByte c.toInt).map fun _ => c.byte) = some (values.map Cell.byte) := by
  induction values with
  | nil => rfl
  | cons c values ih =>
    rw [List.mapM_cons, ih fun c' hc' => h c' (List.mem_cons_of_mem c hc'), readByte,
      if_pos (h c List.mem_cons_self)]
    rfl

theorem narrow_of_mapM_readByte {values : List Cell} {bytes : Bytes}
    (h : (values.mapM fun c => (readByte c.toInt).map fun _ => c.byte) = some bytes) :
    ∀ c ∈ values, 0 ≤ c.toInt ∧ c.toInt ≤ 0xFF := by
  induction values generalizing bytes with
  | nil => simp
  | cons c values ih =>
    rw [List.mapM_cons] at h
    obtain ⟨byte, hbyte, h⟩ := Option.bind_eq_some_iff.1 h
    obtain ⟨rest, hrest, _⟩ := Option.bind_eq_some_iff.1 h
    obtain ⟨value, hvalue, _⟩ := Option.map_eq_some_iff.1 hbyte
    refine List.forall_mem_cons.2 ⟨?_, ih hrest⟩
    rw [readByte] at hvalue
    split at hvalue
    · next hnarrow => exact hnarrow
    · cases hvalue

theorem assemble_eq {imports : Symbols} {origin : Nat} {lines : List Line} {lined : List BoundLine}
    {l : Layout} {code : List Item} (hexpand : expand lines = some lined)
    (hlayout : layoutFrom {} lined = some l) (hsound : l.isSound imports = true)
    (hcode : Links l imports origin l.code code)
    (hdata : ∀ c ∈ l.data, 0 ≤ c.toInt ∧ c.toInt ≤ 0xFF) :
    assemble imports origin lines = some ⟨code, l.data.map Cell.byte, l.exports⟩ := by
  rw [assemble]
  simp only [hexpand, hlayout, hsound, Option.bind_eq_bind, Option.bind_some, Bool.not_true,
    Bool.false_eq_true, if_false, mapM_readByte hdata]
  rw [Links] at hcode
  rw [hcode]
  rfl

/-- A module that is assembled is sound, and its code and its data are what assembling gave. -/
theorem of_assemble_eq {imports : Symbols} {origin : Nat} {lines : List Line} {lined : List BoundLine}
    {l : Layout} {assembly : Assembly} (hexpand : expand lines = some lined)
    (hlayout : layoutFrom {} lined = some l) (h : assemble imports origin lines = some assembly) :
    l.isSound imports = true ∧ Links l imports origin l.code assembly.code ∧
      (∀ c ∈ l.data, 0 ≤ c.toInt ∧ c.toInt ≤ 0xFF) ∧ assembly.data = l.data.map Cell.byte := by
  rw [assemble] at h
  simp only [hexpand, hlayout, Option.bind_eq_bind, Option.bind_some] at h
  split at h
  · cases h
  · next hsound =>
    obtain ⟨code, hcode, h⟩ := Option.bind_eq_some_iff.1 h
    obtain ⟨data, hdata, h⟩ := Option.bind_eq_some_iff.1 h
    have hnarrow := narrow_of_mapM_readByte hdata
    rw [mapM_readByte hnarrow] at hdata
    cases hdata
    cases h
    exact ⟨by simpa using hsound, hcode, hnarrow, rfl⟩

/-- There are as many bytes of data as its lines lay out. -/
theorem length_of_assemble {imports : Symbols} {origin size : Nat} {lines : List Line} {assembly : Assembly}
    (hsize : ((expand lines).bind (layoutFrom {})).map (fun l => l.data.length) = some size)
    (h : assemble imports origin lines = some assembly) : assembly.data.length = size := by
  obtain ⟨l, hlayout, rfl⟩ := Option.map_eq_some_iff.1 hsize
  obtain ⟨lined, hexpand, hlayout⟩ := Option.bind_eq_some_iff.1 hlayout
  obtain ⟨_, _, _, hdata⟩ := of_assemble_eq hexpand hlayout h
  rw [hdata, List.length_map]

end Petscii.Asm

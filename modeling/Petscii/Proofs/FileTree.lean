import Mathlib.Tactic.ByContra
import Petscii.FileTree

/-!
# Writing to a file tree

A path that can be written leads to a place in the tree. Writing there makes or replaces one file and leaves
every other node as it is, and a write that fails leaves them all. A file that is written stands in the way of
no path that could be written before.
-/

namespace Petscii.FileTree

/-! ### One node -/

theorem lookup_map_replace (nodes : List (List String × Node)) (place q : List String) (n : Node) :
    (nodes.map fun entry => if entry.1 = place then (place, n) else entry).lookup q =
      if q = place then (nodes.lookup q).map fun _ => n else nodes.lookup q := by
  induction nodes with
  | nil => simp
  | cons entry nodes ih =>
    obtain ⟨key, old⟩ := entry
    rw [List.map_cons]
    by_cases hq : q = key
    · subst hq
      by_cases hkey : q = place
      · simp [hkey]
      · simp [hkey]
    · have hother : (q == key) = false := beq_false_of_ne hq
      by_cases hkey : key = place
      · subst hkey
        simp [List.lookup_cons, hother, ih, hq]
      · simp [List.lookup_cons, hother, ih, hkey]

theorem lookup_eq_none_of_absent {nodes : List (List String × Node)} {place : List String}
    (h : ¬ (nodes.any fun entry => entry.1 = place) = true) : nodes.lookup place = none := by
  rw [List.lookup_eq_none_iff]
  intro entry hentry
  rw [List.any_eq_true] at h
  have hne : entry.1 ≠ place := fun heq => h ⟨entry, hentry, by simpa using heq⟩
  simpa using fun heq => hne heq.symm

theorem isSome_lookup_of_present {nodes : List (List String × Node)} {place : List String}
    (h : (nodes.any fun entry => entry.1 = place) = true) : (nodes.lookup place).isSome = true := by
  rw [← Option.ne_none_iff_isSome, Ne, List.lookup_eq_none_iff]
  intro hnone
  obtain ⟨entry, hentry, heq⟩ := List.any_eq_true.1 h
  have hne := hnone entry hentry
  simp_all

theorem node?_put (t : FileTree) {place : List String} (hbelow : isAbove place = false) (n : Node)
    (q : List String) : (t.put place n).node? q = if q = place then some n else t.node? q := by
  by_cases habove : isAbove q = true
  · have hne : q ≠ place := by
      rintro rfl
      rw [hbelow] at habove
      cases habove
    rw [node?, node?, if_pos habove, if_pos habove, if_neg hne]
  · rw [node?, node?, if_neg habove, if_neg habove, put]
    by_cases hpresent : (t.nodes.any fun entry => entry.1 = place) = true
    · rw [if_pos hpresent]
      simp only [lookup_map_replace]
      by_cases hq : q = place
      · obtain ⟨old, hold⟩ := Option.isSome_iff_exists.1 (isSome_lookup_of_present hpresent)
        rw [if_pos hq, if_pos hq, hq, hold, Option.map_some]
      · rw [if_neg hq, if_neg hq]
    · rw [if_neg hpresent]
      simp only [List.lookup_append]
      by_cases hq : q = place
      · rw [if_pos hq, hq, lookup_eq_none_of_absent hpresent]
        simp
      · have hother : (q == place) = false := beq_false_of_ne hq
        rw [if_neg hq]
        simp [List.lookup_cons, hother]

theorem locked_put (t : FileTree) (place : List String) (n : Node) : (t.put place n).locked = t.locked := by
  rw [put]
  split <;> rfl

/-! ### Paths -/

/-- A path leads to a place where a file can be made or replaced. -/
structure Leads (t : FileTree) (path : String) (place : List String) : Prop where
  resolves : t.resolve path = .ok (.entry place false)
  free : t.node? place ≠ some .directory
  allowed : place ∉ t.locked

/-- A path leads to the name behind its last directory. -/
theorem resolve_eq_entry {t : FileTree} {path : String} {place : List String} {slash : Bool} :
    t.resolve path = .ok (.entry place slash) ↔
      '\x00' ∉ path.toList ∧ path ≠ "" ∧ slash = decide (path.toList.getLast? = some '/') ∧
        ∃ here last, (parts path).getLast? = some last ∧ last ≠ "." ∧ last ≠ ".." ∧
          t.walk (start path) (parts path).dropLast = .ok here ∧ place = here ++ [last] := by
  constructor
  · intro h
    rw [resolve] at h
    split at h
    · cases h
    · split at h
      · cases h
      · next hnul hempty =>
        split at h
        · cases h
        · next last hlast =>
          split at h
          · cases hwalk : t.walk (start path) (parts path) <;> rw [hwalk] at h <;> cases h
          · next hname =>
            rw [not_or] at hname
            cases hwalk : t.walk (start path) (parts path).dropLast with
            | error fault =>
              rw [hwalk] at h
              cases h
            | ok here =>
              rw [hwalk] at h
              cases h
              exact ⟨hnul, hempty, rfl, here, last, hlast, hname.1, hname.2, rfl, rfl⟩
  · rintro ⟨hnul, hempty, rfl, here, last, hlast, hdot, hup, hwalk, rfl⟩
    rw [resolve, if_neg hnul, if_neg hempty, hlast]
    simp only [hdot, hup, or_self, if_false, hwalk]
    rfl

theorem Leads.node?_put {t : FileTree} {path : String} {place : List String} (h : t.Leads path place)
    (n : Node) (q : List String) : (t.put place n).node? q = if q = place then some n else t.node? q := by
  apply FileTree.node?_put
  obtain ⟨_, _, _, here, last, hlast, _, hup, _, rfl⟩ := resolve_eq_entry.1 h.resolves
  have hname : last ≠ "" := of_decide_eq_true (List.mem_filter.1 (List.mem_of_getLast? hlast)).2
  have hroot : here ++ [last] ≠ root := by
    intro heq
    have hends := congrArg List.getLast? heq
    rw [List.getLast?_concat] at hends
    exact hname (Option.some.inj hends)
  simp [isAbove, hup, hroot]

theorem Leads.getLast? {t : FileTree} {path : String} {place : List String} (h : t.Leads path place) :
    place.getLast? = (parts path).getLast? := by
  obtain ⟨_, _, _, here, last, hlast, _, _, _, rfl⟩ := resolve_eq_entry.1 h.resolves
  rw [hlast, List.getLast?_concat]

section Put

variable {t : FileTree} {other : String} {place : List String} (hother : t.Leads other place) (data : Bytes)
include hother

/-- Directories are walked through as before: a path through the place of the file led nowhere before. -/
theorem walk_put {here there : List String} {ps : List String} :
    (t.put place (.file data)).walk here ps = .ok there ↔ t.walk here ps = .ok there := by
  induction ps generalizing here with
  | nil => rfl
  | cons part ps ih =>
    rw [walk, walk]
    by_cases hdot : part = "."
    · rw [if_pos hdot, if_pos hdot]
      exact ih
    · rw [if_neg hdot, if_neg hdot]
      by_cases hup : part = ".."
      · rw [if_pos hup, if_pos hup]
        exact ih
      · rw [if_neg hup, if_neg hup, hother.node?_put]
        by_cases hplace : here ++ [part] = place
        · have hfree := hother.free
          rw [if_pos hplace, hplace]
          cases hnode : t.node? place with
          | none => simp
          | some n =>
            cases n with
            | directory => exact absurd hnode hfree
            | file old => simp
        · rw [if_neg hplace]
          cases t.node? (here ++ [part]) with
          | none => rfl
          | some n =>
            cases n with
            | directory => exact ih
            | file old => rfl

/-- A file that is written stands in the way of no other, and makes way for none. -/
theorem leads_put {path : String} {q : List String} :
    (t.put place (.file data)).Leads path q ↔ t.Leads path q := by
  have hresolve : (t.put place (.file data)).resolve path = .ok (.entry q false) ↔
      t.resolve path = .ok (.entry q false) := by
    rw [resolve_eq_entry, resolve_eq_entry]
    simp only [walk_put hother data]
  have hnode : (t.put place (.file data)).node? q ≠ some .directory ↔ t.node? q ≠ some .directory := by
    rw [hother.node?_put]
    split
    · next hq =>
      have hfree := hother.free
      rw [hq]
      simp [hfree]
    · rfl
  have hlocked : (t.put place (.file data)).locked = t.locked := locked_put t place _
  exact ⟨fun h => ⟨hresolve.1 h.resolves, hnode.1 h.free, hlocked ▸ h.allowed⟩,
    fun h => ⟨hresolve.2 h.resolves, hnode.2 h.free, hlocked.symm ▸ h.allowed⟩⟩

end Put

/-! ### Writing and reading -/

theorem Leads.write_eq {t : FileTree} {path : String} {place : List String} (h : t.Leads path place)
    (data : Bytes) : t.write path data = (t.put place (.file data), .ok ()) := by
  rw [write, h.resolves]
  simp [h.free, h.allowed]

theorem Leads.read_eq {t : FileTree} {path : String} {place : List String} (h : t.Leads path place)
    {data : Bytes} : t.read path = .ok data ↔ t.node? place = some (.file data) := by
  rw [read, h.resolves]
  cases hnode : t.node? place with
  | none => simp [hnode]
  | some n =>
    cases n with
    | directory => exact absurd hnode h.free
    | file old => simp [hnode]

theorem Leads.unique {t : FileTree} {path : String} {place q : List String} (h : t.Leads path place)
    (hq : t.Leads path q) : place = q := by
  have hsame := h.resolves.symm.trans hq.resolves
  cases hsame
  rfl

/-- A write either finds a place and puts the file there, or fails and changes nothing. -/
theorem write_cases (t : FileTree) (path : String) (data : Bytes) :
    (∃ place, t.Leads path place ∧ t.write path data = (t.put place (.file data), .ok ())) ∨
      ∃ e, t.write path data = (t, .error e) := by
  cases hresolve : t.resolve path with
  | error fault => exact .inr ⟨_, by rw [write, hresolve]⟩
  | ok found =>
    cases found with
    | directory => exact .inr ⟨_, by rw [write, hresolve]⟩
    | entry place slash =>
      by_cases hblocked : slash = true ∨ t.node? place = some .directory
      · exact .inr ⟨_, by rw [write, hresolve]; exact if_pos hblocked⟩
      · rw [not_or, Bool.not_eq_true] at hblocked
        obtain ⟨rfl, hfree⟩ := hblocked
        by_cases hlocked : place ∈ t.locked
        · exact .inr ⟨_, by rw [write, hresolve]; simp [hfree, hlocked]; rfl⟩
        · have hleads : t.Leads path place := ⟨hresolve, hfree, hlocked⟩
          exact .inl ⟨place, hleads, hleads.write_eq data⟩

theorem path_of_write_error {t : FileTree} {path : String} {data : Bytes} {e : PathError}
    (h : (t.write path data).2 = .error e) : e.path = path := by
  rw [write] at h
  split at h
  · cases h
    rfl
  · cases h
    rfl
  · split at h
    · cases h
      rfl
    · split at h
      · cases h
        rfl
      · cases h

/-- A path can be written, whatever is to be written there. -/
def Accepts (t : FileTree) (path : String) : Prop :=
  ∀ data, (t.write path data).2 = .ok ()

theorem accepts_iff {t : FileTree} {path : String} : t.Accepts path ↔ ∃ place, t.Leads path place := by
  constructor
  · intro h
    rcases t.write_cases path [] with ⟨place, hleads, _⟩ | ⟨e, hwrite⟩
    · exact ⟨place, hleads⟩
    · have hok := h []
      rw [hwrite] at hok
      cases hok
  · rintro ⟨place, hleads⟩ data
    rw [hleads.write_eq]

/-! ### Several files -/

/-- Write files one after the other, up to the first that cannot be written. -/
def writeAll (t : FileTree) : List (String × Bytes) → FileTree × Except PathError Unit
  | [] => (t, .ok ())
  | (path, data) :: rest =>
    match t.write path data with
    | (t', .ok ()) => t'.writeAll rest
    | (t', .error e) => (t', .error e)

def Apart (t : FileTree) (files : List (String × Bytes)) : Prop :=
  files.Pairwise fun v w => ∀ place, t.Leads v.1 place → ¬ t.Leads w.1 place

/-- A tree after files have been written into it: paths lead where they led before, and a node is as it was or
holds one of the files. Files with places of their own are all there. -/
structure Written (t : FileTree) (files : List (String × Bytes)) (t' : FileTree) : Prop where
  leads : ∀ path place, t'.Leads path place ↔ t.Leads path place
  changed : ∀ q, t'.node? q ≠ t.node? q → ∃ w ∈ files, t.Leads w.1 q ∧ t'.node? q = some (.file w.2)
  held : t.Apart files → ∀ w ∈ files, ∀ place, t.Leads w.1 place → t'.node? place = some (.file w.2)

theorem Written.nil (t : FileTree) : Written t [] t where
  leads _ _ := Iff.rfl
  changed _ hq := absurd rfl hq
  held := by simp

theorem Written.cons {t t' : FileTree} {path : String} {place : List String} {data : Bytes}
    {rest : List (String × Bytes)} (hleads : t.Leads path place)
    (h : Written (t.put place (.file data)) rest t') : Written t ((path, data) :: rest) t' where
  leads other q := (h.leads other q).trans (leads_put hleads data)
  changed q hq := by
    by_cases hrest : t'.node? q = (t.put place (.file data)).node? q
    · rw [hrest, hleads.node?_put] at hq ⊢
      by_cases hplace : q = place
      · exact ⟨_, List.mem_cons_self, hplace ▸ hleads, if_pos hplace⟩
      · exact absurd (if_neg hplace) hq
    · obtain ⟨w, hw, hq, hnode⟩ := h.changed q hrest
      exact ⟨w, List.mem_cons_of_mem _ hw, (leads_put hleads data).1 hq, hnode⟩
  held hapart := by
    obtain ⟨hfirst, hapart⟩ := List.pairwise_cons.1 hapart
    have hlater : (t.put place (.file data)).Apart rest := by
      refine hapart.imp fun hvw q hv hw => ?_
      exact hvw q ((leads_put hleads data).1 hv) ((leads_put hleads data).1 hw)
    refine List.forall_mem_cons.2 ⟨fun q hq => ?_, fun w hw q hq => ?_⟩
    · obtain rfl := hleads.unique hq
      -- none of the later files has this place
      have hkept : t'.node? place = (t.put place (.file data)).node? place := by
        by_contra hne
        obtain ⟨w, hw, hplace, _⟩ := h.changed place hne
        exact hfirst w hw place hleads ((leads_put hleads data).1 hplace)
      rw [hkept, hleads.node?_put, if_pos rfl]
    · exact h.held hlater w hw q ((leads_put hleads data).2 hq)

theorem Accepts.put {t : FileTree} {path other : String} {place : List String} (hleads : t.Leads path place)
    (data : Bytes) : (t.put place (.file data)).Accepts other ↔ t.Accepts other := by
  rw [accepts_iff, accepts_iff]
  simp only [leads_put hleads data]

theorem writeAll_eq_ok {t : FileTree} {files : List (String × Bytes)} (h : ∀ w ∈ files, t.Accepts w.1) :
    ∃ t', t.writeAll files = (t', .ok ()) ∧ Written t files t' := by
  induction files generalizing t with
  | nil => exact ⟨t, rfl, .nil t⟩
  | cons w files ih =>
    obtain ⟨path, data⟩ := w
    obtain ⟨hpath, hfiles⟩ := List.forall_mem_cons.1 h
    obtain ⟨place, hleads⟩ := accepts_iff.1 hpath
    obtain ⟨t', hall, hwritten⟩ := ih fun w hw => (Accepts.put hleads data).2 (hfiles w hw)
    refine ⟨t', ?_, hwritten.cons hleads⟩
    rw [writeAll, hleads.write_eq]
    exact hall

section Written

variable {t t' : FileTree} {files : List (String × Bytes)} (h : Written t files t') (hapart : t.Apart files)
  (haccepts : ∀ w ∈ files, t.Accepts w.1)
include h hapart haccepts

theorem Written.read_eq : ∀ w ∈ files, t'.read w.1 = .ok w.2 := by
  intro w hw
  obtain ⟨place, hleads⟩ := accepts_iff.1 (haccepts w hw)
  rw [((h.leads _ _).2 hleads).read_eq]
  exact h.held hapart w hw place hleads

end Written

/-! ### Names with a number behind them -/

theorem splitParts_of_notMem {cs : List Char} (hcs : '/' ∉ cs) : parts.splitParts cs = [String.ofList cs] := by
  induction cs with
  | nil => rfl
  | cons c cs ih =>
    rw [List.mem_cons, not_or] at hcs
    rw [parts.splitParts, ih hcs.2]
    simp only [if_neg (Ne.symm hcs.1)]
    simp

/-- What is written behind a text without a slash goes to the last of its pieces. -/
theorem splitParts_append (text : List Char) :
    ∃ front piece, ∀ cs, '/' ∉ cs → parts.splitParts (text ++ cs) = front ++ [piece ++ String.ofList cs] := by
  induction text with
  | nil => exact ⟨[], "", fun cs hcs => by simp [splitParts_of_notMem hcs]⟩
  | cons c text ih =>
    obtain ⟨front, piece, hpieces⟩ := ih
    by_cases hslash : c = '/'
    · refine ⟨"" :: front, piece, fun cs hcs => ?_⟩
      rw [List.cons_append, parts.splitParts, hpieces cs hcs]
      cases front <;> simp [hslash]
    · cases front with
      | nil =>
        refine ⟨[], String.singleton c ++ piece, fun cs hcs => ?_⟩
        rw [List.cons_append, parts.splitParts, hpieces cs hcs]
        simp [hslash, String.append_assoc]
      | cons p front =>
        refine ⟨(String.singleton c ++ p) :: front, piece, fun cs hcs => ?_⟩
        rw [List.cons_append, parts.splitParts, hpieces cs hcs]
        simp [hslash]

theorem getLast?_parts_append (path : String) :
    ∃ piece, ∀ suffix : String, suffix ≠ "" → '/' ∉ suffix.toList →
      (parts (path ++ suffix)).getLast? = some (piece ++ suffix) := by
  obtain ⟨front, piece, hpieces⟩ := splitParts_append path.toList
  refine ⟨piece, fun suffix hne hslash => ?_⟩
  have hkept : piece ++ suffix ≠ "" := by
    rw [Ne, ← String.toList_inj, String.toList_append]
    intro hnil
    exact hne (String.toList_inj.1 (List.append_eq_nil_iff.1 hnil).2)
  have hlast : [piece ++ suffix].filter (· ≠ "") = [piece ++ suffix] :=
    List.filter_eq_self.2 fun p hp => decide_eq_true (List.mem_singleton.1 hp ▸ hkept)
  rw [parts, String.toList_append, hpieces _ hslash, String.ofList_toList, List.filter_append, hlast,
    List.getLast?_concat]

end Petscii.FileTree

import Mathlib.Data.List.Nodup
import Petscii.Proofs.Patch.Procedure
import Petscii.Proofs.Patch.Transitions

/-!
# The procedures of a patch script

A script names a procedure after its two frames and drops every change whose name has been used. The names
it keeps are all different, and every change has one of them. If no two transitions of a reel share a name,
only transitions that came before are dropped, and each of the others has its own procedure. If two do share
one, the second is left without.
-/

namespace Petscii.Patch

open Asm

/-! ### Procedures of a module -/

/-- A procedure: its name, and the lines between its first and its last. -/
structure Procedure where
  name : String
  body : List Line

def procedures : List Line → List Procedure
  | [] => []
  | .directive (.proc name) :: rest =>
    ⟨name, rest.takeWhile fun line => line ≠ .directive .endproc⟩ :: procedures rest
  | _ :: rest => procedures rest

theorem procedures_append {lines : List Line} (h : ∀ line ∈ lines, ∀ name, line ≠ .directive (.proc name))
    (rest : List Line) : procedures (lines ++ rest) = procedures rest := by
  induction lines with
  | nil => rfl
  | cons line lines ih =>
    obtain ⟨hline, hlines⟩ := List.forall_mem_cons.1 h
    rw [List.cons_append]
    cases line with
    | directive d =>
      cases d with
      | proc name => exact absurd rfl (hline name)
      | _ => exact ih hlines
    | _ => exact ih hlines

def Change.name (c : Change) : String :=
  procName c.prev c.next

def Change.procedure (target : Target) (c : Change) : Procedure :=
  ⟨c.name, bodyLines target c.next c.rows ++ [.instruction .rts]⟩

theorem procedures_procLines (target : Target) (c : Change) (rest : List Line) :
    procedures (procLines target c.name c.next c.rows ++ rest) = c.procedure target :: procedures rest := by
  have hplain : ∀ line ∈ (c.procedure target).body, line.Plain := plain_body
  have hlines : procLines target c.name c.next c.rows ++ rest =
      .blank :: .directive (.proc c.name) :: ((c.procedure target).body ++ .directive .endproc :: rest) := by
    simp [procLines, Change.procedure]
  have hbody : ((c.procedure target).body ++ .directive .endproc :: rest).takeWhile
      (fun line => line ≠ .directive .endproc) = (c.procedure target).body := by
    rw [List.takeWhile_append_of_pos, List.takeWhile_cons_of_neg (by simp), List.append_nil]
    intro line hline
    apply decide_eq_true
    rintro rfl
    exact hplain _ hline
  have hrest : procedures ((c.procedure target).body ++ .directive .endproc :: rest) = procedures rest := by
    rw [procedures_append]
    · rfl
    · rintro line hline name rfl
      exact hplain _ hline
  rw [hlines, procedures, procedures, hbody, hrest]
  · rfl
  · simp

theorem procedures_flatMap (target : Target) (cs : List Change) (rest : List Line) :
    procedures (cs.flatMap (fun c => procLines target c.name c.next c.rows) ++ rest) =
      cs.map (Change.procedure target) ++ procedures rest := by
  induction cs with
  | nil => rfl
  | cons c cs ih =>
    rw [List.flatMap_cons, List.append_assoc, procedures_procLines, ih, List.map_cons, List.cons_append]

/-- The changes that a script has procedures for. -/
def kept (changes : List Change) : List Change :=
  (distinct [] changes).1

theorem procedures_ofChanges (target : Target) (reel : Reel) (changes : List Change) :
    procedures (Script.ofChanges target reel changes).lines = (kept changes).map (Change.procedure target) := by
  have hexports : ∀ names : List String,
      procedures (.blank :: names.map fun name => .directive (.exportSymbol name)) = [] := by
    intro names
    rw [← List.append_nil (Line.blank :: _), procedures_append (by simp)]
    rfl
  rw [Script.ofChanges]
  dsimp only
  rw [List.append_assoc, List.append_assoc, procedures_append (by simp), procedures_append (by simp)]
  refine (procedures_flatMap target (kept changes) _).trans ?_
  rw [hexports, List.append_nil]

/-! ### The changes that are kept -/

section Distinct

variable (used : List String) (changes : List Change)

theorem distinct_sublist : (distinct used changes).1.Sublist changes := by
  induction changes generalizing used with
  | nil => exact List.Sublist.refl _
  | cons c changes ih =>
    rw [distinct]
    by_cases hused : procName c.prev c.next ∈ used
    · rw [if_pos hused]
      exact (ih used).cons c
    · rw [if_neg hused]
      exact (ih _).cons_cons c

theorem distinct_nodup :
    ((distinct used changes).1.map Change.name).Nodup ∧
      ∀ c ∈ (distinct used changes).1, c.name ∉ used := by
  induction changes generalizing used with
  | nil => simp [distinct]
  | cons c changes ih =>
    rw [distinct]
    by_cases hused : procName c.prev c.next ∈ used
    · rw [if_pos hused]
      exact ih used
    · rw [if_neg hused]
      obtain ⟨hnodup, hnew⟩ := ih (procName c.prev c.next :: used)
      simp only [List.mem_cons, not_or] at hnew
      refine ⟨?_, List.forall_mem_cons.2 ⟨hused, fun c' hc' => (hnew c' hc').2⟩⟩
      rw [List.map_cons, List.nodup_cons]
      refine ⟨fun hmem => ?_, hnodup⟩
      obtain ⟨c', hc', heq⟩ := List.mem_map.1 hmem
      exact (hnew c' hc').1 heq

end Distinct

theorem nodup_procedures (target : Target) (changes : List Change) :
    (((kept changes).map (Change.procedure target)).map Procedure.name).Nodup := by
  rw [List.map_map]
  exact (distinct_nodup [] changes).1

/-- Where names tell transitions apart, a change is dropped only if its transition came before. -/
theorem distinct_transitions {changes : List Change} {used : List String} {before : List Transition}
    (hused : ∀ c ∈ changes, c.name ∈ used ↔ c.transition ∈ before)
    (happart : ∀ c ∈ changes, ∀ c' ∈ changes, c.name = c'.name ↔ c.transition = c'.transition) :
    (distinct used changes).1.map Change.transition =
      ((changes.map Change.transition).filter (· ∉ before)).eraseDups := by
  induction changes generalizing used before with
  | nil => rfl
  | cons c changes ih =>
    obtain ⟨hc, hchanges⟩ := List.forall_mem_cons.1 hused
    have happart' : ∀ c ∈ changes, ∀ c' ∈ changes, c.name = c'.name ↔ c.transition = c'.transition :=
      fun c hc c' hc' => happart c (List.mem_cons_of_mem _ hc) c' (List.mem_cons_of_mem _ hc')
    rw [distinct, List.map_cons]
    by_cases hmem : procName c.prev c.next ∈ used
    · rw [if_pos hmem, List.filter_cons_of_neg (by simpa using hc.1 hmem)]
      exact ih hchanges happart'
    · have hnew : c.transition ∉ before := fun hbefore => hmem (hc.2 hbefore)
      rw [if_neg hmem, List.filter_cons_of_pos (by simpa using hnew), List.eraseDups_cons, List.map_cons,
        List.filter_filter]
      have hused' : ∀ c' ∈ changes, c'.name ∈ c.name :: used ↔ c'.transition ∈ c.transition :: before := by
        intro c' hc'
        rw [List.mem_cons, List.mem_cons, hchanges c' hc']
        exact or_congr_left (happart c' (List.mem_cons_of_mem _ hc') c List.mem_cons_self)
      have hrest := ih hused' happart'
      rw [Change.name] at hrest
      rw [hrest]
      congr 2
      apply List.filter_congr
      intro t _
      simp [beq_eq_decide]

/-! ### Procedures and transitions -/

/-- The procedure of a transition: it is named after the two frames, and copies what changes from the first
to the second out of the second one's image. -/
def Serves (target : Target) (frames : List Frame) (t : Transition) (p : Procedure) : Prop :=
  ∃ prev next rows, frames[t.prev]? = some prev ∧ frames[t.next]? = some next ∧
    prev.changedRows next = .ok rows ∧
    p = ⟨procName prev next, bodyLines target next rows ++ [.instruction .rts]⟩

def transitionName (frames : List Frame) (t : Transition) : Option String := do
  return procName (← frames[t.prev]?) (← frames[t.next]?)

/-- No two transitions of a reel share the name of a procedure. -/
def Unambiguous (frames : List Frame) (pingPong : Bool) : Prop :=
  ∀ t ∈ transitions frames.length pingPong, ∀ t' ∈ transitions frames.length pingPong,
    transitionName frames t = transitionName frames t' → t = t'

theorem transitionName_eq {frames : List Frame} {t : Transition} {prev next : Frame}
    (hprev : frames[t.prev]? = some prev) (hnext : frames[t.next]? = some next) :
    transitionName frames t = some (procName prev next) := by
  rw [transitionName, hprev, hnext]
  rfl

theorem Serves.name_eq {target : Target} {frames : List Frame} {t : Transition} {p : Procedure}
    (h : Serves target frames t p) : transitionName frames t = some p.name := by
  obtain ⟨prev, next, rows, hprev, hnext, _, rfl⟩ := h
  exact transitionName_eq hprev hnext

theorem Compares.name_eq {frames : List Frame} {t : Transition} {c : Change} (h : Compares frames t c) :
    transitionName frames t = some c.name :=
  transitionName_eq h.prev h.next

theorem Compares.serves {frames : List Frame} {t : Transition} {c : Change} (h : Compares frames t c)
    (target : Target) : Serves target frames t (c.procedure target) :=
  ⟨c.prev, c.next, c.rows, h.prev, h.next, h.rows, rfl⟩

section Changes

variable {frames : List Frame} {ts : List Transition} {changes : List Change}

theorem map_transition (h : List.Forall₂ (Compares frames) ts changes) :
    changes.map Change.transition = ts := by
  induction h with
  | nil => rfl
  | cons hc _ ih => rw [List.map_cons, hc.transition, ih]

theorem compares_of_mem (h : List.Forall₂ (Compares frames) ts changes) :
    ∀ c ∈ changes, Compares frames c.transition c := by
  induction h with
  | nil => simp
  | cons hc _ ih => exact List.forall_mem_cons.2 ⟨hc.transition ▸ hc, ih⟩

/-- Where names tell the transitions apart, the changes that are kept are those of the transitions, each at
the place where it first comes. -/
theorem kept_transitions (h : List.Forall₂ (Compares frames) ts changes)
    (hnames : ∀ t ∈ ts, ∀ t' ∈ ts, transitionName frames t = transitionName frames t' → t = t') :
    (kept changes).map Change.transition = ts.eraseDups := by
  have hmem : ∀ c ∈ changes, c.transition ∈ ts := by
    intro c hc
    rw [← map_transition h]
    exact List.mem_map_of_mem hc
  have happart : ∀ c ∈ changes, ∀ c' ∈ changes, c.name = c'.name ↔ c.transition = c'.transition := by
    intro c hc c' hc'
    have hname := (compares_of_mem h c hc).name_eq
    have hname' := (compares_of_mem h c' hc').name_eq
    rw [← Option.some_inj, ← hname, ← hname']
    exact ⟨hnames _ (hmem c hc) _ (hmem c' hc'), congrArg _⟩
  have hfirst : ∀ c ∈ changes, c.name ∈ ([] : List String) ↔ c.transition ∈ ([] : List Transition) := by
    simp
  rw [kept, distinct_transitions hfirst happart, map_transition h, List.filter_eq_self.2 (by simp)]

/-- The procedures that are kept serve the transitions of their changes. -/
theorem forall₂_serves (h : List.Forall₂ (Compares frames) ts changes) (target : Target) :
    List.Forall₂ (Serves target frames) ((kept changes).map Change.transition)
      ((kept changes).map (Change.procedure target)) := by
  rw [List.forall₂_map_left_iff, List.forall₂_map_right_iff, List.forall₂_same]
  intro c hc
  exact (compares_of_mem h c ((distinct_sublist [] changes).subset hc)).serves target

end Changes

/-- Procedures with different names that serve transitions one by one tell the transitions apart. -/
theorem apart_of_forall₂ {target : Target} {frames : List Frame} {ts : List Transition} {ps : List Procedure}
    (h : List.Forall₂ (Serves target frames) ts ps) (hnodup : (ps.map Procedure.name).Nodup) :
    ∀ t ∈ ts, ∀ t' ∈ ts, transitionName frames t = transitionName frames t' → t = t' := by
  have hnames : ts.map (transitionName frames) = (ps.map Procedure.name).map some := by
    induction h with
    | nil => rfl
    | cons hserves _ ih =>
      rw [List.map_cons, List.map_cons, List.map_cons, hserves.name_eq, ih (List.nodup_cons.1 hnodup).2]
  have hinjective := hnodup.map fun _ _ => Option.some.inj
  rw [← hnames] at hinjective
  exact fun t ht t' ht' => List.inj_on_of_nodup_map hinjective ht ht'

theorem filter_name {ps : List Procedure} (hnodup : (ps.map Procedure.name).Nodup) {p : Procedure}
    (hp : p ∈ ps) : ps.filter (fun q => q.name = p.name) = [p] := by
  induction ps with
  | nil => cases hp
  | cons q ps ih =>
    rw [List.map_cons, List.nodup_cons] at hnodup
    obtain ⟨hq, hnodup⟩ := hnodup
    rcases List.mem_cons.1 hp with rfl | hp
    · rw [List.filter_cons_of_pos (by simp), List.filter_eq_nil_iff.2]
      intro r hr
      have hne : r.name ≠ p.name := fun heq => hq (heq ▸ List.mem_map_of_mem hr)
      simpa using hne
    · have hne : q.name ≠ p.name := fun heq => hq (heq ▸ List.mem_map_of_mem hp)
      rw [List.filter_cons_of_neg (by simpa using hne), ih hnodup hp]

end Petscii.Patch

import Petscii.Proofs.Program.Initial

/-!
# Building a program

A builder collects routines and tables. `Built` says what a builder holds in terms of them; it is true of a
builder that has just begun and stays true with every routine that is added. A reel of frames that fill the
screen with bytes is built to the end: one routine for each transition, each of which draws the next frame,
and the routine that draws the first.
-/

namespace Petscii.Program

open Asm Machine

/-- A builder holds the given routines and tables, and nothing else. -/
structure Built (target : Target) (b : Builder) (routines : List Routine) (tables : List Table) : Prop where
  aims : b.target = target
  code : b.code = routines.flatMap Routine.lines
  data : b.data = tablesLines tables
  exports : b.exports = routines.map Routine.name
  size : b.stats.dataBytes = (tables.flatMap Prod.snd).length
  labels : (routines.flatMap (fun r => labelsOf r.body) ++ tables.map Prod.fst).Perm
    ((List.range' 0 b.labels).map (label target))
  sound : ∀ r ∈ routines, r.Sound
  legible : Named target → ∀ r ∈ routines, ∀ line ∈ r.body, line.Legible
  narrow : ∀ t ∈ tables, ∀ v ∈ t.2, 0 ≤ v.toInt ∧ v.toInt ≤ 0xFF

namespace Built

variable {target : Target} {b b' : Builder} {routines : List Routine} {r : Routine}
  {tables more : List Table}

theorem begin (target : Target) (initial : Frame) : Built target { target, initial } [] [] where
  aims := rfl
  code := rfl
  data := rfl
  exports := rfl
  size := rfl
  labels := List.Perm.refl _
  sound := by simp
  legible := by simp
  narrow := by simp

theorem add (h : Built target b routines tables) (hadds : Adds b b' r more) :
    Built target b' (routines ++ [r]) (tables ++ more) where
  aims := hadds.target.trans h.aims
  code := by rw [hadds.code, h.code, List.flatMap_append, List.flatMap_singleton]
  data := by rw [hadds.data, h.data, tablesLines_append]
  exports := by rw [hadds.exports, h.exports, List.map_append, List.map_singleton]
  size := by rw [hadds.size, h.size, List.flatMap_append, List.length_append]
  labels := by
    obtain ⟨count, hcount, hlabels⟩ := hadds.labels
    rw [h.aims] at hlabels
    have hboth := h.labels.append hlabels
    have hrange := List.range'_append_1 (s := 0) (m := b.labels) (n := count)
    rw [Nat.zero_add, ← hcount] at hrange
    rw [← List.map_append, hrange] at hboth
    rw [List.flatMap_append, List.flatMap_singleton, List.map_append]
    exact (perm_append_shuffle _ _ _ _).trans hboth
  sound q hq := (List.mem_append.1 hq).elim (h.sound q) fun hq => List.mem_singleton.1 hq ▸ hadds.sound
  legible hnamed q hq := (List.mem_append.1 hq).elim (h.legible hnamed q) fun hq =>
    List.mem_singleton.1 hq ▸ hadds.legible (h.aims ▸ hnamed)
  narrow t ht := (List.mem_append.1 ht).elim (h.narrow t) (hadds.narrow t)

end Built

/-! ### All transitions of a reel -/

theorem Routine.Does.mono {r : Routine} {target : Target} {tables more : List Table}
    {P : Nat → State → Prop} {Q : Nat → State → State → Prop} (h : r.Does target tables P Q)
    (hsub : tables ⊆ more) : r.Does target more P Q := fun site screen data s₀ hdisplay hsep hstocked =>
  h site screen data s₀ hdisplay hsep (hstocked.mono hsub)

/-- The routine draws `next` where `prev` is shown. -/
def Routine.Turns (r : Routine) (target : Target) (tables : List Table) (prev next : Frame) : Prop :=
  r.Does target tables (fun screen s => Shows target screen prev s.memory)
    (fun screen => Draws target screen next)

/-- A list of routines leads through a list of frames, from each to the next. -/
def Leads (target : Target) (tables : List Table) (routines : List Routine) (frames : List Frame) : Prop :=
  ∀ k prev next, frames[k]? = some prev → frames[k + 1]? = some next →
    ∃ r, routines[k]? = some r ∧ r.Turns target tables prev next

section Transitions

variable {target : Target} {initial : Frame}

theorem addAll_built {frames : List Frame} (hframes : ∀ f ∈ frames, f.Full ∧ f.Narrow) (i : Nat)
    {b : Builder} {routines : List Routine} {tables : List Table} (hbuilt : Built target b routines tables)
    (hopen : b.finished = false) :
    ∃ b' runs added more, Builder.addAll i b frames = .ok (b', runs) ∧
      Built target b' (routines ++ added) (tables ++ more) ∧ b'.finished = false ∧
      b'.initial = b.initial ∧ b'.frames = b.frames + (frames.length - 1) ∧
      added.map Routine.name = (List.range' (b.frames + 1) (frames.length - 1)).map (frameRoutine target) ∧
      Leads target more added frames := by
  induction frames generalizing i b routines tables with
  | nil =>
    refine ⟨b, [], [], [], rfl, ?_, hopen, rfl, rfl, rfl, fun k prev next hprev => ?_⟩
    · rwa [List.append_nil, List.append_nil]
    · cases hprev
  | cons prev frames ih =>
    cases frames with
    | nil =>
      refine ⟨b, [], [], [], rfl, ?_, hopen, rfl, rfl, rfl, fun k prev next _ hnext => ?_⟩
      · rwa [List.append_nil, List.append_nil]
      · cases hnext
    | cons next rest =>
      have hprev := hframes prev List.mem_cons_self
      have hnext := hframes next (List.mem_cons_of_mem _ List.mem_cons_self)
      obtain ⟨b₁, r, fresh, runs, hadd, hadds, hopen₁, hcount₁, hname, hdoes⟩ :=
        addTransition_adds hopen hprev.1 hnext.1 hnext.2
      rw [hbuilt.aims] at hname hdoes
      obtain ⟨b', moreRuns, added, more, hall, hbuilt', hopen', hinitial', hcount', hnames, hleads⟩ :=
        ih (fun f hf => hframes f (List.mem_cons_of_mem _ hf)) (i + 1) (hbuilt.add hadds) hopen₁
      refine ⟨b', runs :: moreRuns, r :: added, fresh ++ more, ?_, ?_, hopen', ?_, ?_, ?_, ?_⟩
      · rw [Builder.addAll, hadd]
        simp only [hall]
        rfl
      · simpa only [List.append_assoc, List.singleton_append] using hbuilt'
      · rw [hinitial', hadds.initial]
      · rw [hcount', hcount₁]
        simp only [List.length_cons]
        omega
      · rw [List.map_cons, hnames, hname, hcount₁]
        simp only [List.length_cons, Nat.add_sub_cancel, List.range'_succ, List.map_cons]
      · intro k p q hp hq
        cases k with
        | zero =>
          cases hp
          cases hq
          exact ⟨r, rfl, hdoes.mono (List.subset_append_left _ _)⟩
        | succ k =>
          obtain ⟨r', hr', hturns⟩ := hleads k p q hp hq
          exact ⟨r', hr', Routine.Does.mono hturns (List.subset_append_right _ _)⟩

theorem Leads.append {tables : List Table} {routines : List Routine} {frames : List Frame}
    (h : Leads target tables routines frames) {more : List Table} (hsub : tables ⊆ more)
    (others : List Routine) : Leads target more (routines ++ others) frames := by
  intro k prev next hprev hnext
  obtain ⟨r, hr, hturns⟩ := h k prev next hprev hnext
  refine ⟨r, ?_, Routine.Does.mono hturns hsub⟩
  obtain ⟨hk, _⟩ := List.getElem?_eq_some_iff.1 hr
  rw [List.getElem?_append_left hk, hr]

/-- What is known of the program of a reel: its builder in the end, its routines and its tables. -/
structure Compiled (target : Target) (frames : List Frame) (closed : Builder) (routines : List Routine)
    (tables : List Table) : Prop where
  built : Built target closed routines tables
  names : routines.map Routine.name =
    (List.range' 1 (frames.length - 1)).map (frameRoutine target) ++ [initRoutine target]
  leads : Leads target tables routines frames
  starts : ∀ first, frames.head? = some first → ∃ r ∈ routines, r.name = initRoutine target ∧
    r.Does target tables (fun _ _ => True) fun screen s t =>
      Draws target screen first s t ∧ t.a.toNat + 256 * t.x.toNat = frames.length - 1

/-- Every reel of two or more frames that hold bytes is compiled. -/
theorem transitions_compiled {reel : Reel} (htwo : 2 ≤ reel.frames.length)
    (hmany : reel.frames.length ≤ 0x10000) (hframes : ∀ f ∈ reel.frames, f.Full ∧ f.Narrow)
    (hscreen : target.screen ≠ Builder.counter) :
    ∃ b runs routines tables, transitions target reel = .ok (b, runs) ∧ b.finished = false ∧
      Compiled target reel.frames b.close routines tables := by
  rw [transitions]
  match hreel : reel.frames with
  | [] => simp [hreel] at htwo
  | [_] => simp [hreel] at htwo
  | first :: second :: rest =>
    rw [hreel] at hframes hmany
    obtain ⟨b, runs, added, tables, hall, hbuilt, hopen, hinitial, hcount, hnames, hleads⟩ :=
      addAll_built hframes 0 (Built.begin target first) rfl
    simp only [Nat.zero_add] at hinitial hcount hnames
    have hfirst := hframes first List.mem_cons_self
    rw [List.nil_append, List.nil_append] at hbuilt
    rw [← hinitial] at hfirst
    have hinit := initialRoutine_does hfirst.1 hfirst.2 (by rwa [hbuilt.aims]) (b := b)
      (by rw [hcount]; simp only [List.length_cons] at hmany ⊢; omega)
    refine ⟨b, runs, added ++ [initialRoutine b], tables ++ initialTables b, hall, hopen,
      hbuilt.add (close_adds hfirst.2), ?_, hleads.append (List.subset_append_left _ _) _, ?_⟩
    · rw [List.map_append, hnames, List.map_singleton, initialRoutine, hbuilt.aims]
    · rintro f ⟨⟩
      refine ⟨_, List.mem_append_right _ (List.mem_singleton_self _), ?_, ?_⟩
      · rw [initialRoutine, hbuilt.aims]
      · rw [hbuilt.aims, hinitial, hcount] at hinit
        exact hinit.mono (List.subset_append_right _ _)

end Transitions

end Petscii.Program

import Mathlib.Data.List.Nodup
import Petscii.Proofs.Patch.Script
import Petscii.Proofs.Source.RoundTrip

/-!
# A tour through a reel

The module of a patch script is assembled as a whole: it imports the images, every procedure is a scope of
its own, and a label in it is placed under a name that begins with the procedure's. Called by name along the
transitions, from a screen with the last frame, the procedures show one frame after the other. This holds of
every reel that was read if its transitions have different names. If two of them share one, the second has no
procedure, and there is no such tour.
-/

namespace Petscii.Patch

open Asm Machine

/-! ### Names -/

theorem head_name {f : Frame} (h : Source.ReadableFrame f) : f.name.toList.head? = some '_' := by
  obtain ⟨name, _, heq⟩ := h.name
  rw [heq, String.toList_append]
  rfl

theorem head_procName (prev next : Frame) : (procName prev next).toList.head? = some 'a' := by
  rw [procName, String.toList_append, String.toList_append]
  rfl

theorem isName_procName {prev next : Frame} (hprev : Source.isName prev.name = true)
    (hnext : Source.isName next.name = true) : Source.isName (procName prev next) = true := by
  apply Source.isName_append
  · apply Source.isName_append
    · decide
    · exact Source.isWordChar_of_isName hprev
  · exact Source.isWordChar_of_isName hnext

theorem colon_notMem {name : String} (h : Source.isName name = true) : ':' ∉ name.toList := by
  intro hmem
  have hword := Source.isWordChar_of_isName h ':' hmem
  revert hword
  decide

/-! ### The module of a script -/

def scriptLines (target : Target) (reel : Reel) (cs : List Change) : List Line :=
  [.comment s!"\twidth={reel.canvasWidth}, height={reel.canvasHeight}",
    .directive (.importSymbol target.screen)] ++
  reel.frames.map (fun f => .directive (.importSymbol f.name)) ++
  cs.flatMap (fun c => procLines target c.name c.next c.rows) ++
  .blank :: (cs.map Change.name).map fun name => .directive (.exportSymbol name)

theorem lines_ofChanges (target : Target) (reel : Reel) (changes : List Change) :
    (Script.ofChanges target reel changes).lines = scriptLines target reel (kept changes) := rfl

def Change.drafts (target : Target) (c : Change) : List Draft :=
  .label none c.name :: Asm.drafts (some c.name) (under [] (c.procedure target).body)

def scriptLayout (target : Target) (reel : Reel) (cs : List Change) : Layout where
  imports := target.screen :: reel.frames.map Frame.name
  exports := cs.map Change.name
  code := cs.flatMap (Change.drafts target)

section Module

variable (target : Target) (reel : Reel) (cs : List Change)

theorem lays_procedures :
    Lays {} (under [] (cs.flatMap fun c => procLines target c.name c.next c.rows))
      { code := cs.flatMap (Change.drafts target) } {} := by
  induction cs with
  | nil => exact Lays.nil {}
  | cons c cs ih =>
    rw [List.flatMap_cons, List.flatMap_cons, under_append]
    exact lays_procLines.append ih

theorem layout_script : layoutFrom {} (under [] (scriptLines target reel cs)) =
    some (scriptLayout target reel cs) := by
  have hhead := (Lays.comment {} s!"\twidth={reel.canvasWidth}, height={reel.canvasHeight}" []).cons
    (lays_imports {} (target.screen :: reel.frames.map Frame.name))
  have htail := (Lays.blank {} []).cons (lays_exports {} (cs.map Change.name))
  have hall := (hhead.append (lays_procedures target cs)).append htail
  have hlines : under [] (scriptLines target reel cs) =
      ⟨.comment s!"\twidth={reel.canvasWidth}, height={reel.canvasHeight}", []⟩ ::
        under [] ((target.screen :: reel.frames.map Frame.name).map fun name =>
          .directive (.importSymbol name)) ++
        under [] (cs.flatMap fun c => procLines target c.name c.next c.rows) ++
        ⟨.blank, []⟩ :: under [] ((cs.map Change.name).map fun name => .directive (.exportSymbol name)) := by
    simp [scriptLines, Function.comp_def]
  rw [hlines, hall.layoutFrom_eq rfl]
  simp [scriptLayout, Layout.append]

theorem expand_script :
    expand (scriptLines target reel cs) = some (under [] (scriptLines target reel cs)) := by
  apply expand_of_single
  intro line hline
  simp only [scriptLines, List.mem_append, List.mem_cons, List.mem_map, List.mem_flatMap, List.not_mem_nil,
    or_false] at hline
  rcases hline with (((rfl | rfl) | ⟨f, _, rfl⟩) | ⟨c, _, hline⟩) | rfl | ⟨name, _, rfl⟩
  · trivial
  · trivial
  · trivial
  · exact single_procLines line hline
  · trivial
  · trivial

theorem labelsIn_none : (scriptLayout target reel cs).labelsIn none = cs.map Change.name := by
  have hlabels : ∀ c : Change, (c.drafts target).filterMap (Draft.labelIn none) = [c.name] := by
    intro c
    rw [Change.drafts, List.filterMap_cons, filterMap_labelIn_drafts_of_ne (by simp)]
    rfl
  rw [Layout.labelsIn_eq, scriptLayout, List.filterMap_flatMap, List.map_eq_flatMap]
  exact congrArg (List.flatMap · cs) (funext hlabels)

theorem labelsIn_some (hnames : (cs.map Change.name).Nodup) {c : Change} (hc : c ∈ cs) :
    (scriptLayout target reel cs).labelsIn (some c.name) = labelsOf (c.procedure target).body := by
  have hother : ∀ d : Change, d.name ≠ c.name →
      (d.drafts target).filterMap (Draft.labelIn (some c.name)) = [] := by
    intro d hne
    rw [Change.drafts, List.filterMap_cons, filterMap_labelIn_drafts_of_ne (by simpa using hne)]
    rfl
  have hown : (c.drafts target).filterMap (Draft.labelIn (some c.name)) =
      labelsOf (c.procedure target).body := by
    rw [Change.drafts, List.filterMap_cons, filterMap_labelIn_drafts, map_line_under]
    rfl
  rw [Layout.labelsIn_eq, scriptLayout, List.filterMap_flatMap]
  obtain ⟨before, after, rfl⟩ := List.append_of_mem hc
  simp only [List.map_append, List.map_cons, List.nodup_append, List.nodup_cons, List.mem_cons,
    List.mem_map] at hnames
  obtain ⟨_, ⟨hafter, _⟩, hbefore⟩ := hnames
  rw [List.flatMap_append, List.flatMap_cons, hown, List.flatMap_eq_nil_iff.2, List.flatMap_eq_nil_iff.2,
    List.append_nil, List.nil_append]
  · exact fun d hd => hother d fun heq => hafter ⟨d, hd, heq⟩
  · exact fun d hd => hother d (hbefore _ ⟨d, hd, rfl⟩ _ (.inl rfl))

theorem nodup_labelsOf_body (c : Change) : (labelsOf (c.procedure target).body).Nodup := by
  rw [Change.procedure, labelsOf_append]
  change (labelsOf (bodyLines target c.next c.rows) ++ []).Nodup
  rw [List.append_nil]
  exact nodup_labelsOf_bodyLines target c.next c.rows

end Module

theorem Compares.isName {frames : List Frame} (hframes : ∀ f ∈ frames, Source.ReadableFrame f) {t : Transition}
    {c : Change} (h : Compares frames t c) : Source.isName c.name = true :=
  isName_procName (hframes _ (List.mem_of_getElem? h.prev)).isName_name
    (hframes _ (List.mem_of_getElem? h.next)).isName_name

theorem legible_scriptLines {target : Target} {reel : Reel} {cs : List Change}
    (hframes : ∀ f ∈ reel.frames, Source.ReadableFrame f)
    (hcompares : ∀ c ∈ cs, Compares reel.frames c.transition c) (hscreen : Source.isName target.screen = true) :
    ∀ line ∈ scriptLines target reel cs, line.Legible := by
  have hdigits : ∀ n : Int, '\n' ∉ (Int.repr n).toList := by
    intro n hmem
    have hchar := isOperandChar_repr n '\n' hmem
    revert hchar
    decide
  intro line hline
  simp only [scriptLines, List.mem_append, List.mem_cons, List.mem_map, List.mem_flatMap, List.not_mem_nil,
    or_false] at hline
  rcases hline with (((rfl | rfl) | ⟨f, hf, rfl⟩) | ⟨c, hc, hline⟩) | rfl | ⟨name, ⟨c, hc, rfl⟩, rfl⟩
  · simp [Line.Legible, String.toList_append, hdigits, toString]
  · exact hscreen
  · exact (hframes f hf).isName_name
  · have hnext := (hframes _ (List.mem_of_getElem? (hcompares c hc).next)).isName_name
    exact legible_procLines hscreen hnext ((hcompares c hc).isName hframes) line hline
  · trivial
  · exact (hcompares c hc).isName hframes

/-- The procedures of a script: the frames they lead between are in the reel, and their names are different. -/
structure Cast (reel : Reel) (cs : List Change) : Prop where
  frames : ∀ f ∈ reel.frames, Source.ReadableFrame f
  frames_nodup : (reel.frames.map Frame.name).Nodup
  compares : ∀ c ∈ cs, Compares reel.frames c.transition c
  nodup : (cs.map Change.name).Nodup

namespace Cast

variable {target : Target} {reel : Reel} {cs : List Change} (h : Cast reel cs)
include h

theorem prev_mem {c : Change} (hc : c ∈ cs) : c.prev ∈ reel.frames :=
  List.mem_of_getElem? (h.compares c hc).prev

theorem next_mem {c : Change} (hc : c ∈ cs) : c.next ∈ reel.frames :=
  List.mem_of_getElem? (h.compares c hc).next

theorem isName {c : Change} (hc : c ∈ cs) : Source.isName c.name = true :=
  (h.compares c hc).isName h.frames

/-- What the columns of a change say about its frames. -/
theorem rows_change {c : Change} (hc : c ∈ cs) : c.rows.length = Screen.height ∧
    ∀ r columns, c.rows[r]? = some columns → Frame.RowChange c.prev c.next r columns := by
  obtain ⟨rows, hrows, hlength, hchange⟩ := Frame.changedRows_eq (h.frames _ (h.prev_mem hc)).full
    (h.frames _ (h.next_mem hc)).full
  rw [(h.compares c hc).rows] at hrows
  cases hrows
  exact ⟨hlength, hchange⟩

theorem legible (hscreen : Source.isName target.screen = true) :
    ∀ line ∈ scriptLines target reel cs, line.Legible :=
  legible_scriptLines h.frames h.compares hscreen

end Cast

/-! ### Where a module stands -/

/-- The symbols of a script have their addresses and no label of its own hides the screen's. For every frame
the screen, the colour memory and its image lie inside the address space and apart. -/
structure Situated (target : Target) (reel : Reel) (lines : List Line) (imports : Symbols) (screen : Nat)
    (image : Frame → Nat) : Prop where
  screen_eq : imports target.screen = some (screen : Int)
  image_eq : ∀ f ∈ reel.frames, imports f.name = some (image f : Int)
  fresh : Line.directive (.proc target.screen) ∉ lines
  hidden : Line.label target.screen ∉ lines
  fits : ∀ f ∈ reel.frames, ∀ r ∈ regions target f screen (image f), r.Fits
  apart : ∀ f ∈ reel.frames, (regions target f screen (image f)).Pairwise Region.Apart

section Lines

variable {target : Target} {reel : Reel} {cs : List Change}

theorem mem_scriptLines {c : Change} (hc : c ∈ cs) {line : Line}
    (hline : line ∈ procLines target c.name c.next c.rows) : line ∈ scriptLines target reel cs := by
  rw [scriptLines, List.mem_append, List.mem_append]
  exact .inl (.inr (List.mem_flatMap.2 ⟨c, hc, hline⟩))

theorem body_subset (c : Change) :
    (c.procedure target).body ⊆ procLines target c.name c.next c.rows := by
  intro line hline
  simp only [Change.procedure, List.mem_append, List.mem_singleton] at hline
  simp only [procLines, List.mem_append, List.mem_cons, List.not_mem_nil, or_false]
  rcases hline with hline | rfl
  · exact .inl (.inr hline)
  · exact .inr (.inl rfl)

theorem head_label {c : Change} {name : String} (hname : name ∈ labelsOf (c.procedure target).body) :
    name.toList.head? = some 'l' := by
  rw [Change.procedure, labelsOf_append, List.mem_append] at hname
  rcases hname with hname | hname
  · obtain ⟨r, _, rfl⟩ := List.mem_map.1 ((labelsOf_rowsLines_sublist target c.next c.rows.zipIdx).subset hname)
    rw [String.toList_append]
    rfl
  · cases hname

end Lines

namespace Situated

variable {target : Target} {reel : Reel} {cs : List Change} {imports : Symbols} {screen : Nat}
  {image : Frame → Nat} (hcast : Cast reel cs)
  (h : Situated target reel (scriptLines target reel cs) imports screen image)
include hcast h

theorem nodup_globals : (scriptLayout target reel cs).globals.Nodup := by
  have hglobals : (scriptLayout target reel cs).globals =
      target.screen :: reel.frames.map Frame.name ++ cs.map Change.name := by
    rw [Layout.globals, labelsIn_none, scriptLayout, List.map_nil, List.append_nil]
  rw [hglobals, List.nodup_append]
  refine ⟨List.nodup_cons.2 ⟨fun hmem => ?_, hcast.frames_nodup⟩, hcast.nodup, ?_⟩
  · obtain ⟨f, hf, heq⟩ := List.mem_map.1 hmem
    exact screen_ne_image h.screen_eq (h.image_eq f hf) (h.apart f hf) heq.symm
  · intro symbol hsymbol name hname heq
    obtain ⟨c, hc, rfl⟩ := List.mem_map.1 hname
    rcases List.mem_cons.1 hsymbol with rfl | hsymbol
    · apply h.fresh
      rw [heq]
      exact mem_scriptLines hc (by simp [procLines])
    · obtain ⟨f, hf, rfl⟩ := List.mem_map.1 hsymbol
      have hhead := head_name (hcast.frames f hf)
      rw [heq, Change.name, head_procName] at hhead
      cases hhead

theorem isSound : (scriptLayout target reel cs).isSound imports = true := by
  simp only [Layout.isSound, Bool.and_eq_true, decide_eq_true_eq, List.all_eq_true]
  refine ⟨⟨⟨h.nodup_globals hcast, ?_⟩, ?_⟩, ?_⟩
  · intro s hs
    obtain ⟨d, hd, hscope⟩ := Layout.exists_of_mem_scopes hs
    obtain ⟨c, hc, hd⟩ := List.mem_flatMap.1 hd
    rcases List.mem_cons.1 hd with rfl | hd
    · cases hscope
    · rw [scope_of_mem_drafts hd] at hscope
      cases hscope
      rw [labelsIn_some target reel cs hcast.nodup hc]
      exact nodup_labelsOf_body target c
  · intro symbol hsymbol
    rcases List.mem_cons.1 hsymbol with rfl | hsymbol
    · rw [h.screen_eq]
      rfl
    · obtain ⟨f, hf, rfl⟩ := List.mem_map.1 hsymbol
      rw [h.image_eq f hf]
      rfl
  · intro name hname
    rw [labelsIn_none]
    exact hname

theorem symbols_eq (origin : Nat) {c : Change} (hc : c ∈ cs) {symbol : String}
    (hsymbol : symbol ∈ target.screen :: reel.frames.map Frame.name) :
    (scriptLayout target reel cs).symbols imports origin (some c.name) [] symbol = imports symbol := by
  refine Layout.symbols_of_import rfl ?_ rfl hsymbol
  rw [labelsIn_some target reel cs hcast.nodup hc]
  rintro ⟨_, hlocal⟩
  rcases List.mem_cons.1 hsymbol with rfl | hsymbol
  · exact h.hidden (mem_scriptLines hc (body_subset c (mem_labelsOf.1 hlocal)))
  · obtain ⟨f, hf, rfl⟩ := List.mem_map.1 hsymbol
    have hhead := head_name (hcast.frames f hf)
    rw [head_label hlocal] at hhead
    cases hhead

/-- A procedure of the module links, and its body patches the screen. -/
theorem links_patches (origin : Nat) {c : Change} (hc : c ∈ cs) :
    ∃ items, Links (scriptLayout target reel cs) imports origin (c.drafts target)
        (.label c.name :: (items ++ [.instruction .rts])) ∧
      ∀ s : State, s.memory.Holds (image c.next) c.next.bytes →
        s.memory.Holds screen (c.prev.chars.map Cell.byte) →
        Performs items (· = s) fun t => Patches target screen c.next c.rows s t := by
  have hnext := hcast.next_mem hc
  have hfull := (hcast.frames _ hnext).full
  obtain ⟨hlength, hchange⟩ := hcast.rows_change hc
  have hscreen := (h.symbols_eq hcast origin hc List.mem_cons_self).trans h.screen_eq
  have himage := (h.symbols_eq hcast origin hc (List.mem_cons_of_mem _ (List.mem_map_of_mem hnext))).trans
    (h.image_eq _ hnext)
  let spot : Spot target c.next := .ofRegions (scriptLayout target reel cs) imports origin (some c.name) hfull
    (h.fits _ hnext) (h.apart _ hnext) hscreen himage
  obtain ⟨items, hlinks, hperforms⟩ := spot.body_patches (hcast.frames _ (hcast.prev_mem hc)).full hlength hchange
  refine ⟨items, Links.cons rfl ?_, hperforms⟩
  rw [Change.procedure, under_append, drafts_append]
  exact Links.append hlinks rfl

end Situated

/-! ### Calling the procedures -/

section Placed

variable {target : Target} {l : Layout} {imports : Symbols} {origin : Nat}

theorem placed_procedures {cs : List Change} {items : List Item}
    (h : Links l imports origin (cs.flatMap (Change.drafts target)) items) :
    placed items = cs.flatMap fun c =>
      c.name :: (labelsOf (c.procedure target).body).map (l.qualify (some c.name)) := by
  induction cs generalizing items with
  | nil =>
    cases h
    rfl
  | cons c cs ih =>
    rw [List.flatMap_cons] at h
    obtain ⟨as, bs, rfl, has, hbs⟩ := h.of_append
    have hdrafts : c.drafts target =
        [.label none c.name] ++ Asm.drafts (some c.name) (under [] (c.procedure target).body) := rfl
    rw [hdrafts] at has
    obtain ⟨first, rest, rfl, hfirst, hrest⟩ := has.of_append
    cases hfirst
    rw [placed_append, placed_append, hrest.placed_drafts, map_line_under, ih hbs, List.flatMap_cons]
    rfl

end Placed

/-- The part of a label in front of the first colon. -/
def stem (name : String) : List Char :=
  name.toList.takeWhile (· ≠ ':')

theorem stem_of_isName {name : String} (h : Source.isName name = true) : stem name = name.toList := by
  rw [stem, List.takeWhile_eq_self_iff]
  intro c hc
  apply decide_eq_true
  rintro rfl
  exact colon_notMem h hc

theorem stem_qualified {name : String} (h : Source.isName name = true) (x : String) :
    stem (name ++ "::" ++ x) = name.toList := by
  rw [stem, String.toList_append, String.toList_append, List.append_assoc, List.takeWhile_append_of_pos]
  · change name.toList ++ [] = _
    rw [List.append_nil]
  · intro c hc
    apply decide_eq_true
    rintro rfl
    exact colon_notMem h hc

theorem Cast.nodup_qualified {reel : Reel} {cs : List Change} (h : Cast reel cs) (target : Target) :
    (cs.flatMap fun c =>
      c.name :: (labelsOf (c.procedure target).body).map (c.name ++ "::" ++ ·)).Nodup := by
  have hstem : ∀ c ∈ cs, ∀ x ∈ c.name :: (labelsOf (c.procedure target).body).map (c.name ++ "::" ++ ·),
      stem x = c.name.toList := by
    intro c hc x hx
    rcases List.mem_cons.1 hx with rfl | hx
    · exact stem_of_isName (h.isName hc)
    · obtain ⟨y, _, rfl⟩ := List.mem_map.1 hx
      exact stem_qualified (h.isName hc) y
  rw [List.nodup_flatMap]
  constructor
  · intro c _
    exact Patch.nodup_qualified c.name (nodup_labelsOf_body target c)
  · refine (List.pairwise_map.1 h.nodup).imp_of_mem fun {c d} hc hd hne x hx hx' => hne ?_
    exact String.toList_inj.1 ((hstem c hc x hx).symm.trans (hstem d hd x hx'))

/-- The module of a script is assembled, and calling a procedure patches the screen. -/
theorem Situated.assembles {target : Target} {reel : Reel} {cs : List Change} {imports : Symbols}
    {screen : Nat} {image : Frame → Nat} (hcast : Cast reel cs)
    (h : Situated target reel (scriptLines target reel cs) imports screen image) (origin : Nat) :
    ∃ assembly, assemble imports origin (scriptLines target reel cs) = some assembly ∧
      ∀ c ∈ cs, ∀ s : State, s.memory.Holds (image c.next) c.next.bytes →
        s.memory.Holds screen (c.prev.chars.map Cell.byte) →
        ∃ t, Returns assembly.code c.name s t ∧ Patches target screen c.next c.rows s t := by
  obtain ⟨code, hcode⟩ := Links.exists_flatMap fun c hc => by
    obtain ⟨items, hlinks, _⟩ := h.links_patches hcast origin hc
    exact ⟨_, hlinks⟩
  refine ⟨_, assemble_eq (expand_script target reel cs) (layout_script target reel cs) (h.isSound hcast) hcode
    (by simp [scriptLayout]), ?_⟩
  have hnodup : (placed code).Nodup := by
    have hqualify : ∀ c ∈ cs, (labelsOf (c.procedure target).body).map
        ((scriptLayout target reel cs).qualify (some c.name)) =
        (labelsOf (c.procedure target).body).map (c.name ++ "::" ++ ·) := by
      intro c hc
      apply List.map_congr_left
      intro x hx
      rw [Layout.qualify, labelsIn_some target reel cs hcast.nodup hc]
      exact if_pos hx
    rw [placed_procedures hcode, List.flatMap_congr fun c hc => congrArg (c.name :: ·) (hqualify c hc)]
    exact hcast.nodup_qualified target
  intro c hc s himage hscreen
  obtain ⟨items, hlinks, hperforms⟩ := h.links_patches hcast origin hc
  -- the procedure's own code stands between that of the procedures before and behind it
  obtain ⟨before, after, hsplit⟩ := List.append_of_mem hc
  have hparts : Links (scriptLayout target reel cs) imports origin
      (before.flatMap (Change.drafts target) ++
        (c.drafts target ++ after.flatMap (Change.drafts target))) code := by
    rw [← List.flatMap_cons, ← List.flatMap_append, ← hsplit]
    exact hcode
  obtain ⟨front, rest, rfl, _, hrest⟩ := hparts.of_append
  obtain ⟨own, back, rfl, hown, _⟩ := hrest.of_append
  cases hown.unique hlinks
  rw [List.cons_append, List.append_assoc, List.singleton_append] at hnodup ⊢
  exact (hperforms s himage hscreen).returns hnodup rfl

/-! ### The tour -/

/-- The screen shows the characters of a frame, and all images are in place. -/
structure Shown (reel : Reel) (screen : Nat) (image : Frame → Nat) (f : Frame) (s : State) : Prop where
  chars : s.memory.Holds screen (f.chars.map Cell.byte)
  images : ∀ g ∈ reel.frames, s.memory.Holds (image g) g.bytes

/-- The procedures of transitions are called by name, one after the other, and each leaves the characters of
the frame that it leads to on the screen. -/
inductive Tours (code : List Item) (frames : List Frame) (screen : Nat) :
    List Transition → State → State → Prop where
  | nil (s : State) : Tours code frames screen [] s s
  | cons {t : Transition} {ts : List Transition} {prev next : Frame} {s u v : State}
      (hprev : frames[t.prev]? = some prev) (hnext : frames[t.next]? = some next)
      (hreturns : Returns code (procName prev next) s u)
      (hshows : u.memory.Holds screen (next.chars.map Cell.byte)) (hrest : Tours code frames screen ts u v) :
      Tours code frames screen (t :: ts) s v

theorem Cast.touched_lt {reel : Reel} {cs : List Change} (h : Cast reel cs) {c : Change} (hc : c ∈ cs)
    {i : Nat} (hi : touched c.rows i) : i < Screen.cells := by
  obtain ⟨columns, row, hrow, _, hlast⟩ := hi
  obtain ⟨hlength, hchange⟩ := h.rows_change hc
  have hcolumns := (hchange row _ hrow).2.1
  have hlt := (List.getElem?_eq_some_iff.1 hrow).1
  simp only [Screen.height, Screen.width, Screen.cells] at *
  omega

theorem Situated.shown {target : Target} {reel : Reel} {cs : List Change} {imports : Symbols} {screen : Nat}
    {image : Frame → Nat} (hcast : Cast reel cs)
    (h : Situated target reel (scriptLines target reel cs) imports screen image) {c : Change} (hc : c ∈ cs)
    {s t : State} (himages : ∀ g ∈ reel.frames, s.memory.Holds (image g) g.bytes)
    (hpatches : Patches target screen c.next c.rows s t) : Shown reel screen image c.next t where
  chars := hpatches.chars
  images g hg := by
    have hfits := h.fits g hg
    have hapart := h.apart g hg
    simp only [regions, List.forall_mem_cons] at hfits
    simp only [regions, List.pairwise_cons, List.forall_mem_cons] at hapart
    apply (himages g hg).congr hfits.2.2.1
    intro a ha
    apply hpatches.kept a (hapart.1.2.1.symm.not_contains ha)
    rintro i hi rfl
    exact hapart.2.1.1.symm.not_contains ha (Region.contains_ofNat hfits.2.1 (hcast.touched_lt hc hi))

/-- Procedures that lead on from frame to frame make a tour of every way. -/
theorem tours_of_way {reel : Reel} {screen : Nat} {image : Frame → Nat} {code : List Item}
    {ts : List Transition} {i j : Nat} (hway : Way i ts j)
    (hcalls : ∀ t ∈ ts, ∃ prev next, reel.frames[t.prev]? = some prev ∧ reel.frames[t.next]? = some next ∧
      ∀ s, Shown reel screen image prev s →
        ∃ u, Returns code (procName prev next) s u ∧ Shown reel screen image next u)
    {f : Frame} (hf : reel.frames[i]? = some f) {s : State} (hs : Shown reel screen image f s) :
    ∃ u, Tours code reel.frames screen ts s u := by
  induction hway generalizing f s with
  | nil i => exact ⟨s, .nil s⟩
  | cons _ ih =>
    obtain ⟨hcall, hrest⟩ := List.forall_mem_cons.1 hcalls
    obtain ⟨prev, next, hprev, hnext, hcall⟩ := hcall
    cases hf.symm.trans hprev
    obtain ⟨u, hreturns, hu⟩ := hcall s hs
    obtain ⟨v, htours⟩ := ih hrest hnext hu
    exact ⟨v, .cons hprev hnext hreturns hu.chars htours⟩

/-- Wherever it stands, the module of a script is assembled, from its lines and, if the screen's symbol can
be read, from its text. Calling its procedures along the transitions from a screen with the last frame shows
every frame in its turn. -/
def Plays (target : Target) (reel : Reel) (pingPong : Bool) (s : Script) : Prop :=
  ∀ (imports : Symbols) (origin screen : Nat) (image : Frame → Nat),
    Situated target reel s.lines imports screen image →
    ∃ assembly, assemble imports origin s.lines = some assembly ∧
      (Source.isName target.screen = true →
        ∃ lines, read s.text = some lines ∧ assemble imports origin lines = some assembly) ∧
      ∀ last, reel.frames.getLast? = some last → ∀ s₀, Shown reel screen image last s₀ →
        ∃ s₁, Tours assembly.code reel.frames screen (transitions reel.frames.length pingPong) s₀ s₁

/-- Every transition has its own procedure: the procedures are those of the transitions in their order, where
a pair that came before is passed over, and of the name of each there is no other. -/
structure Complete (target : Target) (reel : Reel) (pingPong : Bool) (s : Script) : Prop where
  serves : List.Forall₂ (Serves target reel.frames)
    (transitions reel.frames.length pingPong).eraseDups (procedures s.lines)
  once : ∀ t ∈ transitions reel.frames.length pingPong, ∃ p, Serves target reel.frames t p ∧
    (procedures s.lines).filter (fun q => q.name = p.name) = [p]
  plays : Plays target reel pingPong s

section Scripts

variable {reel : Reel} {pingPong : Bool} {changes : List Change}

theorem cast_kept (hframes : ∀ f ∈ reel.frames, Source.ReadableFrame f)
    (hnames : (reel.frames.map Frame.name).Nodup)
    (hchanges : List.Forall₂ (Compares reel.frames) (transitions reel.frames.length pingPong) changes) :
    Cast reel (kept changes) where
  frames := hframes
  frames_nodup := hnames
  compares c hc := compares_of_mem hchanges c ((distinct_sublist [] changes).subset hc)
  nodup := (distinct_nodup [] changes).1

theorem plays_kept (target : Target) (hcast : Cast reel (kept changes))
    (hkept : (kept changes).map Change.transition = (transitions reel.frames.length pingPong).eraseDups) :
    Plays target reel pingPong (.ofChanges target reel changes) := by
  intro imports origin screen image hsituated
  rw [lines_ofChanges] at hsituated ⊢
  obtain ⟨assembly, hassemble, hcalls⟩ := hsituated.assembles hcast origin
  refine ⟨assembly, hassemble, fun hscreen => ?_, fun last hlast s₀ hs₀ => ?_⟩
  · refine ⟨_, read_render (List.all_eq_true.1 (by decide)) (hcast.legible hscreen), ?_⟩
    rw [assemble_bare]
    exact hassemble
  · have hpos : reel.frames.length = reel.frames.length - 1 + 1 := by
      have hne : reel.frames ≠ [] := fun hnil => by simp [hnil] at hlast
      have := List.length_pos_iff.2 hne
      omega
    have hway := transitions_way (reel.frames.length - 1) pingPong
    rw [← hpos] at hway
    rw [List.getLast?_eq_getElem?] at hlast
    refine tours_of_way hway (fun t ht => ?_) hlast hs₀
    rw [← List.mem_eraseDups, ← hkept] at ht
    obtain ⟨c, hc, rfl⟩ := List.mem_map.1 ht
    have hcompares := hcast.compares c hc
    refine ⟨c.prev, c.next, hcompares.prev, hcompares.next, fun s hs => ?_⟩
    obtain ⟨u, hreturns, hpatches⟩ := hcalls c hc s (hs.images _ (hcast.next_mem hc)) hs.chars
    exact ⟨u, hreturns, hsituated.shown hcast hc hs.images hpatches⟩

theorem complete_of_unambiguous (target : Target) (hcast : Cast reel (kept changes))
    (hchanges : List.Forall₂ (Compares reel.frames) (transitions reel.frames.length pingPong) changes)
    (hnames : Unambiguous reel.frames pingPong) :
    Complete target reel pingPong (.ofChanges target reel changes) := by
  have hkept := kept_transitions hchanges hnames
  have hserves := forall₂_serves hchanges target
  constructor
  case serves =>
    rw [procedures_ofChanges, ← hkept]
    exact hserves
  case once =>
    intro t ht
    rw [← List.mem_eraseDups, ← hkept] at ht
    obtain ⟨c, hc, rfl⟩ := List.mem_map.1 ht
    refine ⟨c.procedure target, (hcast.compares c hc).serves target, ?_⟩
    rw [procedures_ofChanges]
    exact filter_name (nodup_procedures target changes) (List.mem_map_of_mem hc)
  case plays => exact plays_kept target hcast hkept

/-- The procedures of a script have different names, so a complete script tells its transitions apart. -/
theorem Complete.unambiguous {target : Target}
    (h : Complete target reel pingPong (.ofChanges target reel changes)) :
    Unambiguous reel.frames pingPong := by
  have hserves := h.serves
  rw [procedures_ofChanges] at hserves
  intro t ht t' ht'
  exact apart_of_forall₂ hserves (nodup_procedures target changes) t (List.mem_eraseDups.2 ht) t'
    (List.mem_eraseDups.2 ht')

end Scripts

/-- Every reel of frames with different names that was read has a script, and every transition its own
procedure in it, exactly if no two transitions share a procedure's name. -/
theorem script_complete_iff {source : Bytes} {reel : Reel} (hparse : Source.parse source = .ok reel)
    (hnames : (reel.frames.map Frame.name).Nodup) (target : Target) (pingPong : Bool) :
    ∃ s, script target pingPong reel = .ok s ∧
      write none target pingPong reel = (utf8 s.text, .ok s.names) ∧
      (Complete target reel pingPong s ↔ Unambiguous reel.frames pingPong) := by
  have hreadable := Source.readable_of_parse hparse
  obtain ⟨changes, hscript, hchanges⟩ := script_eq target pingPong hreadable.frames_ne_nil
    fun f hf => (hreadable.frames f hf).full
  have hcast := cast_kept hreadable.frames hnames hchanges
  exact ⟨_, hscript, write_eq hscript, Complete.unambiguous, complete_of_unambiguous target hcast hchanges⟩

/-- A screen whose symbol begins like no loop and no procedure is not hidden by a script. -/
theorem free_of_head {target : Target} {reel : Reel} {cs : List Change}
    (hloop : target.screen.toList.head? ≠ some 'l') (hproc : target.screen.toList.head? ≠ some 'a') :
    Line.directive (.proc target.screen) ∉ scriptLines target reel cs ∧
      Line.label target.screen ∉ scriptLines target reel cs := by
  have hmem : ∀ {line : Line}, line ∈ scriptLines target reel cs →
      (∃ name, line = .label name) ∨ (∃ name, line = .directive (.proc name)) →
      ∃ c ∈ cs, line = .directive (.proc c.name) ∨ line ∈ (c.procedure target).body := by
    intro line hline hkind
    simp only [scriptLines, List.mem_append, List.mem_cons, List.mem_map, List.mem_flatMap,
      List.not_mem_nil, or_false] at hline
    rcases hline with (((rfl | rfl) | ⟨f, _, rfl⟩) | ⟨c, hc, hline⟩) | rfl | ⟨name, _, rfl⟩
    · simp at hkind
    · simp at hkind
    · simp at hkind
    · refine ⟨c, hc, ?_⟩
      simp only [procLines, List.mem_append, List.mem_cons, List.not_mem_nil, or_false] at hline
      rcases hline with ((rfl | hproc) | hbody) | rfl | rfl
      · simp at hkind
      · exact .inl hproc
      · exact .inr (List.mem_append_left _ hbody)
      · simp at hkind
      · simp at hkind
    · simp at hkind
    · simp at hkind
  constructor
  · intro hline
    obtain ⟨c, _, heq | hbody⟩ := hmem hline (.inr ⟨_, rfl⟩)
    · simp only [Line.directive.injEq, Directive.proc.injEq] at heq
      rw [heq] at hproc
      exact hproc (head_procName c.prev c.next)
    · exact plain_body _ hbody
  · intro hline
    obtain ⟨c, _, heq | hbody⟩ := hmem hline (.inl ⟨_, rfl⟩)
    · cases heq
    · exact hloop (head_label (mem_labelsOf.2 hbody))

/-- The water rises and falls. -/
def tide : Reel where
  frames := [Source.uniform "_low" 0 6 32 14, Source.uniform "_high" 0 6 160 14]

theorem readable_tide : Source.Readable tide := by
  have hlow : Source.ReadableFrame (Source.uniform "_low" 0 6 32 14) :=
    @Source.readable_uniform (utf8 "low") ⟨108, utf8 "ow", rfl, rfl, List.all_eq_true.1 (by decide)⟩ _ _ _ _
      (by decide)
  have hhigh : Source.ReadableFrame (Source.uniform "_high" 0 6 160 14) :=
    @Source.readable_uniform (utf8 "high") ⟨104, utf8 "igh", rfl, rfl, List.all_eq_true.1 (by decide)⟩ _ _ _ _
      (by decide)
  refine ⟨?_, List.cons_ne_nil _ _, none, rfl, by simp [Source.canvasItems]⟩
  simp only [tide, List.forall_mem_cons]
  exact ⟨hlow, hhigh, by simp⟩

theorem unambiguous_tide : Unambiguous tide.frames true := by
  have htransitions : transitions tide.frames.length true = [⟨1, 0⟩, ⟨0, 1⟩, ⟨1, 0⟩] := rfl
  have hup : transitionName tide.frames ⟨0, 1⟩ = some "animation__low_high" := rfl
  have hdown : transitionName tide.frames ⟨1, 0⟩ = some "animation__high_low" := rfl
  rw [Unambiguous, htransitions]
  simp only [List.forall_mem_cons, hup, hdown]
  simp

theorem script_complete_iff_tide :
    Source.parse (Source.write none tide).1 = .ok tide ∧ (tide.frames.map Frame.name).Nodup ∧
      ∃ s assembly, script {} true tide = .ok s ∧ Complete {} tide true s ∧
        assemble (fun symbol => some (if symbol = "_low" then 0x2000 else
          if symbol = "_high" then 0x3000 else 0x0400)) 0 s.lines = some assembly := by
  obtain ⟨text, hprint, hback⟩ := readable_tide.parse_print
  have hparse : Source.parse (Source.write none tide).1 = .ok tide := by
    rw [Source.writes_of_print hprint none (by simp)]
    exact hback
  have hnames : (tide.frames.map Frame.name).Nodup := by decide
  obtain ⟨s, hscript, _, hiff⟩ := script_complete_iff hparse hnames {} true
  have hcomplete := hiff.2 unambiguous_tide
  obtain ⟨changes, hchanges, _⟩ := script_eq {} true readable_tide.frames_ne_nil
    fun f hf => (readable_tide.frames f hf).full
  cases hscript.symm.trans hchanges
  have hfree := @free_of_head {} tide (kept changes) (by decide) (by decide)
  obtain ⟨assembly, hassemble, _⟩ := hcomplete.plays
    (fun symbol => some (if symbol = "_low" then 0x2000 else if symbol = "_high" then 0x3000 else 0x0400))
    0 0x0400 (fun f => if f.name = "_low" then 0x2000 else 0x3000)
    ⟨rfl, by decide, hfree.1, hfree.2, by decide +kernel, by decide +kernel⟩
  exact ⟨hparse, hnames, _, assembly, hscript, hcomplete, hassemble⟩

/-- Two frames of which one has the other's name twice, so that both ways between them read the same. -/
def echo : Reel where
  frames := [Source.uniform "_a" 0 6 32 14, Source.uniform "_a_a" 0 6 160 14]

theorem readable_echo : Source.Readable echo := by
  have hcall : Source.ReadableFrame (Source.uniform "_a" 0 6 32 14) :=
    @Source.readable_uniform (utf8 "a") ⟨97, [], rfl, rfl, by simp⟩ _ _ _ _ (by decide)
  have hanswer : Source.ReadableFrame (Source.uniform "_a_a" 0 6 160 14) :=
    @Source.readable_uniform (utf8 "a_a") ⟨97, utf8 "_a", rfl, rfl, List.all_eq_true.1 (by decide)⟩ _ _ _ _
      (by decide)
  refine ⟨?_, List.cons_ne_nil _ _, none, rfl, by simp [Source.canvasItems]⟩
  simp only [echo, List.forall_mem_cons]
  exact ⟨hcall, hanswer, by simp⟩

/-- Of the two transitions only the one that leads back has a procedure; no procedure leads to the second
frame. -/
theorem script_echo_incomplete :
    Source.parse (Source.write none echo).1 = .ok echo ∧ (echo.frames.map Frame.name).Nodup ∧
      transitions echo.frames.length false = [⟨1, 0⟩, ⟨0, 1⟩] ∧
      ∃ s, script {} false echo = .ok s ∧ s.names = ["animation__a_a_a"] ∧ s.skipped = ["animation__a_a_a"] ∧
        ¬ Complete {} echo false s := by
  obtain ⟨text, hprint, hback⟩ := readable_echo.parse_print
  have hparse : Source.parse (Source.write none echo).1 = .ok echo := by
    rw [Source.writes_of_print hprint none (by simp)]
    exact hback
  have htransitions : transitions echo.frames.length false = [⟨1, 0⟩, ⟨0, 1⟩] := rfl
  obtain ⟨changes, hscript, hchanges⟩ := script_eq {} false readable_echo.frames_ne_nil
    fun f hf => (readable_echo.frames f hf).full
  have hdistinct : ∃ c : Change, c.name = "animation__a_a_a" ∧
      distinct [] changes = ([c], ["animation__a_a_a"]) := by
    rw [htransitions] at hchanges
    obtain _ | ⟨hback, _ | ⟨hforth, _ | _⟩⟩ := hchanges
    have hback : procName _ _ = "animation__a_a_a" := Option.some.inj hback.name_eq.symm
    have hforth : procName _ _ = "animation__a_a_a" := Option.some.inj hforth.name_eq.symm
    refine ⟨_, hback, ?_⟩
    simp [distinct, hback, hforth]
  obtain ⟨c, hname, hdistinct⟩ := hdistinct
  refine ⟨hparse, by decide, htransitions, _, hscript, ?_, ?_, fun hcomplete => ?_⟩
  · change (distinct [] changes).1.map Change.name = _
    rw [hdistinct, List.map_singleton, hname]
  · change (distinct [] changes).2 = _
    rw [hdistinct]
  · have hsame := hcomplete.unambiguous ⟨1, 0⟩ (by rw [htransitions]; simp) ⟨0, 1⟩ (by rw [htransitions]; simp) rfl
    cases hsame

end Petscii.Patch

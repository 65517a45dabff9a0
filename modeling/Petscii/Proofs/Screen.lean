import Petscii.Proofs.Command.Plan
import Petscii.Proofs.Patch.Tour
import Petscii.Proofs.Program.Bound

/-!
# The symbol of the screen

The screen's symbol is chosen by the user, and nothing keeps it apart from the names that a module makes up.
Both kinds of module bind the screen, and besides it a list of names of their own. If the symbol is none of
these, no line captures it: it is bound once, and means the imported screen in every operand. If it is one of
them the module is made all the same, and stores may go elsewhere.
-/

namespace Petscii

/-! ### The names that a script binds -/

namespace Patch

open Asm

/-- The labels of the rows that a change copies by a loop. -/
def Change.loops (c : Change) : List String :=
  c.rows.zipIdx.flatMap fun (columns, row) =>
    match columns with
    | none => []
    | some columns => if columns.single then [] else ["loop" ++ Nat.repr row]

/-- The names that a script binds besides the screen: the images it imports, and its procedures with the loops
in each of them. -/
def ownNames (frames : List Frame) (cs : List Change) : List String :=
  frames.map Frame.name ++ cs.flatMap fun c => c.name :: c.loops

theorem mem_loops {c : Change} {name : String} (h : name ∈ c.loops) :
    ∃ row < c.rows.length, name = "loop" ++ Nat.repr row := by
  obtain ⟨⟨columns, row⟩, hrow, hname⟩ := List.mem_flatMap.1 h
  have hlt : row < c.rows.length := (List.mem_zipIdx' hrow).1
  cases columns with
  | none => cases hname
  | some columns =>
    simp only at hname
    split at hname
    · cases hname
    · exact ⟨row, hlt, List.mem_singleton.1 hname⟩

/-- Every name of a script begins with an underscore or with `a`, or names a row of the screen. -/
theorem notMem_ownNames {frames : List Frame} {cs : List Change} {name : String}
    (hframes : ∀ f ∈ frames, Source.ReadableFrame f) (hcs : ∀ c ∈ cs, Compares frames c.transition c)
    (hhead : name.toList.head? ∉ [some '_', some 'a'])
    (hloop : ∀ row < Screen.height, name ≠ "loop" ++ Nat.repr row) : name ∉ ownNames frames cs := by
  simp only [List.mem_cons, List.not_mem_nil, or_false, not_or] at hhead
  simp only [ownNames, List.mem_append, List.mem_map, List.mem_flatMap, List.mem_cons]
  rintro (⟨f, hf, rfl⟩ | ⟨c, hc, rfl | hrow⟩)
  · exact hhead.1 (head_name (hframes f hf))
  · exact hhead.2 (head_procName c.prev c.next)
  · obtain ⟨row, hlt, heq⟩ := mem_loops hrow
    obtain ⟨rows, hrows, hlength, _⟩ := Frame.changedRows_eq
      (hframes _ (List.mem_of_getElem? (hcs c hc).prev)).full
      (hframes _ (List.mem_of_getElem? (hcs c hc).next)).full
    rw [(hcs c hc).rows] at hrows
    cases hrows
    exact hloop row (hlength ▸ hlt) heq

theorem labelsOf_body (target : Target) (c : Change) :
    labelsOf (bodyLines target c.next c.rows) = c.loops := by
  rw [bodyLines, labelsOf_flatMap, Change.loops]
  apply List.flatMap_congr
  rintro ⟨columns, row⟩ _
  cases columns with
  | none => rfl
  | some columns => exact labelsOf_rowLines target c.next row columns

theorem bindings_procLines (target : Target) (c : Change) :
    bindings (procLines target c.name c.next c.rows) = c.name :: c.loops := by
  have hbody : bindings (bodyLines target c.next c.rows) = c.loops := by
    rw [← labelsOf_body target c]
    exact bindings_of_plain fun line hline => plain_body line (List.mem_append_left _ hline)
  rw [procLines, bindings_append, bindings_append, hbody]
  exact List.append_nil _

theorem bindings_scriptLines (target : Target) (reel : Reel) (cs : List Change) :
    bindings (scriptLines target reel cs) = target.screen :: ownNames reel.frames cs := by
  have himports : bindings (reel.frames.map fun f => .directive (.importSymbol f.name)) =
      reel.frames.map Frame.name := by
    rw [bindings, List.filterMap_map]
    exact congrFun List.filterMap_eq_map reel.frames
  have htail : bindings (.blank :: (cs.map Change.name).map fun name => .directive (.exportSymbol name)) = [] :=
    bindings_exports _
  rw [scriptLines, bindings_append, bindings_append, bindings_append, himports, htail, bindings_flatMap,
    List.append_nil, ownNames]
  simp only [bindings_procLines]
  rfl

/-- The module of a script captures the screen's symbol exactly if it is one of its own names. -/
theorem uncaptured_script_iff (target : Target) (reel : Reel) (cs : List Change) :
    Uncaptured ((scriptLines target reel cs).map Line.bare) target.screen ↔
      target.screen ∉ ownNames reel.frames cs :=
  uncaptured_bare_iff (expand_script target reel cs) (layout_script target reel cs) List.mem_cons_self
    (List.Perm.of_eq (bindings_scriptLines target reel cs))

end Patch

/-! ### Both modules -/

theorem Command.named_of_target {o : Command.Options} {target : Target} (h : o.target = .ok target) :
    Program.Named target := by
  rw [Command.Options.target] at h
  cases hname : Source.isName o.name with
  | false =>
    rw [hname] at h
    cases h
  | true =>
    cases hscreen : Source.isName o.screen with
    | false =>
      rw [hname, hscreen] at h
      cases h
    | true =>
      rw [hname, hscreen] at h
      obtain ⟨_, _, h⟩ := bind_eq_ok h
      obtain ⟨_, _, h⟩ := bind_eq_ok h
      obtain ⟨_, _, h⟩ := bind_eq_ok h
      cases h
      exact ⟨hname, hscreen⟩

/-- If the screen has the counter's name, every copy of the store in the first routine means the counter. -/
theorem captured_by_counter {target : Target} (hscreen : target.screen = Program.Builder.counter)
    {b : Program.Builder} {counts : List Nat} (hbooks : Program.Books target b counts)
    (hshaped : Program.Shaped target b.code b.data) (hopen : b.finished = false) :
    ¬ Asm.Uncaptured (b.close.moduleLines.map Asm.Line.bare) target.screen ∧
      ∃ bound l, Asm.expand (b.close.moduleLines.map Asm.Line.bare) = some bound ∧
        Asm.layoutFrom {} bound = some l ∧ ∀ i < Program.Builder.chunks,
          .instruction none [(target.screen, (i : Int))] (.staIndexed ⟨.symbol target.screen,
            [.plusProduct (.symbol target.screen) (.number Program.Builder.chunkSize)]⟩) ∈ l.code ∧
          ∀ imports origin,
            l.symbols imports origin none [(target.screen, (i : Int))] target.screen = some (i : Int) := by
  constructor
  · rw [Program.uncaptured_closed_iff hbooks hopen hshaped, not_not, hscreen]
    exact List.mem_cons_self
  · obtain ⟨bound, l, hexpand, hlayout, _, hcode⟩ := Program.layout_closed hbooks hopen hshaped
    refine ⟨_, l, Asm.expand_bare hexpand, (Asm.layoutFrom_bare {} bound).trans hlayout, fun i hi => ⟨?_, ?_⟩⟩
    · have hchunk : .instruction (.staIndexed ⟨.symbol target.screen,
          [.plusProduct (.symbol target.screen) (.number Program.Builder.chunkSize)]⟩) ∈ Program.initialChunk b := by
        rw [Program.initialChunk, hbooks.aims, hscreen]
        simp [Program.Builder.chunkLines, Program.destination, hscreen]
      rw [hcode]
      refine List.mem_filterMap.2 ⟨⟨.instruction _, [(target.screen, (i : Int))]⟩, ?_, rfl⟩
      simp only [Program.Routine.bound, Program.initialRoutine, List.mem_append, List.mem_flatMap, List.mem_range]
      exact .inr (.inr (.inl (.inr (.inl ⟨i, hi, hscreen ▸ List.mem_map_of_mem hchunk⟩))))
    · intro imports origin
      exact Asm.Layout.symbols_of_counter List.lookup_cons_self

/-- Whatever symbol and name the options give and whatever was read and selected, the text of either module
can be read. It captures the symbol of the screen exactly if this is one of the names that the module binds
itself. -/
theorem screen_uncaptured_iff {o : Command.Options} {target : Target} {source : Bytes} {reel kept : Reel}
    {first last : Int} (htarget : o.target = .ok target) (hparse : Source.parse source = .ok reel)
    (hselect : reel.select first last = (kept, .ok ())) :
    (kept.frames.length ≠ 1 → ∃ text stats lines,
      Program.write none target kept = (utf8 text, .ok stats) ∧ Asm.read text = some lines ∧
      (Asm.Uncaptured lines target.screen ↔
        target.screen ∉ Program.ownNames target kept.frames.length stats)) ∧
    ∀ pingPong, ∃ text names lines changes,
      Patch.write none target pingPong kept = (utf8 text, .ok names) ∧ Asm.read text = some lines ∧
      List.Forall₂ (Patch.Compares kept.frames) (Patch.transitions kept.frames.length pingPong) changes ∧
      (Asm.Uncaptured lines target.screen ↔
        target.screen ∉ Patch.ownNames kept.frames (Patch.kept changes)) := by
  have hnamed := Command.named_of_target htarget
  have hreadable := (Source.readable_of_parse hparse).select hselect
  have hfull : ∀ f ∈ kept.frames, f.Full := fun f hf => (hreadable.frames f hf).full
  constructor
  · intro hone
    have htwo : 2 ≤ kept.frames.length := by
      have hpos := List.length_pos_iff.2 hreadable.frames_ne_nil
      omega
    obtain ⟨b, counts, hbuilt, hbooks, hshaped, hopen, hlength⟩ := Program.transitions_books target htwo hfull
    refine ⟨_, _, _, Program.write_eq hbuilt hopen, Asm.read_render (List.all_eq_true.1 (by decide))
      (Program.legible_closed hbooks hopen hshaped hnamed), ?_⟩
    have hcount : kept.frames.length = counts.length + 1 := by omega
    rw [hcount]
    exact Program.uncaptured_closed_iff hbooks hopen hshaped
  · intro pingPong
    obtain ⟨changes, hscript, hchanges⟩ := Patch.script_eq target pingPong hreadable.frames_ne_nil hfull
    have hkept : ∀ c ∈ Patch.kept changes, Patch.Compares kept.frames c.transition c := fun c hc =>
      Patch.compares_of_mem hchanges c ((Patch.distinct_sublist [] changes).subset hc)
    exact ⟨_, _, _, changes, Patch.write_eq hscript, Asm.read_render (List.all_eq_true.1 (by decide))
      (Patch.legible_scriptLines hreadable.frames hkept hnamed.screen), hchanges,
      Patch.uncaptured_script_iff target kept (Patch.kept changes)⟩

-- the rows of the screen end with number 24
theorem screen_uncaptured_iff_loop25 :
    Command.Options.target { screen := "loop25" } = .ok { screen := "loop25" } ∧
      Source.parse (Source.write none Patch.tide).1 = .ok Patch.tide ∧
      Patch.tide.select (-1) (-1) = (Patch.tide, .ok ()) ∧
      (∃ text stats lines, Program.write none { screen := "loop25" } Patch.tide = (utf8 text, .ok stats) ∧
        Asm.read text = some lines ∧ Asm.Uncaptured lines "loop25") ∧
      ∃ text names lines, Patch.write none { screen := "loop25" } true Patch.tide = (utf8 text, .ok names) ∧
        Asm.read text = some lines ∧ Asm.Uncaptured lines "loop25" := by
  have htarget : Command.Options.target { screen := "loop25" } = .ok { screen := "loop25" } := by decide +kernel
  have hparse := Patch.readable_tide.parse_write
  have hselect : Patch.tide.select (-1) (-1) = (Patch.tide, .ok ()) := rfl
  obtain ⟨hprogram, hscript⟩ := screen_uncaptured_iff htarget hparse hselect
  refine ⟨htarget, hparse, hselect, ?_, ?_⟩
  · obtain ⟨text, stats, lines, hwrite, hread, hiff⟩ := hprogram (by decide)
    exact ⟨text, stats, lines, hwrite, hread,
      hiff.2 (Program.notMem_ownNames (by decide) (by decide) _ _ _)⟩
  · obtain ⟨text, names, lines, changes, hwrite, hread, hchanges, hiff⟩ := hscript true
    refine ⟨text, names, lines, hwrite, hread, hiff.2 ?_⟩
    refine Patch.notMem_ownNames Patch.readable_tide.frames (fun c hc => ?_) (by decide) (by decide)
    exact Patch.compares_of_mem hchanges c ((Patch.distinct_sublist [] changes).subset hc)

-- the four copies of the store go to `I+I*250,x` with the counter for both symbols
theorem screen_captured_tide :
    Command.Options.target { screen := "I", generateCode := true } = .ok { screen := "I" } ∧
      Source.parse (Source.write none Patch.tide).1 = .ok Patch.tide ∧
      ∃ text stats lines bound l, Program.write none { screen := "I" } Patch.tide = (utf8 text, .ok stats) ∧
        Asm.read text = some lines ∧ ¬ Asm.Uncaptured lines "I" ∧
        Asm.expand lines = some bound ∧ Asm.layoutFrom {} bound = some l ∧ ∀ i : Nat, i < 4 →
          .instruction none [("I", (i : Int))]
            (.staIndexed ⟨.symbol "I", [.plusProduct (.symbol "I") (.number 250)]⟩) ∈ l.code ∧
          ∀ imports origin, l.symbols imports origin none [("I", (i : Int))] "I" = some (i : Int) := by
  have htarget : Command.Options.target { screen := "I", generateCode := true } = .ok { screen := "I" } := by
    decide +kernel
  have hnamed := Command.named_of_target htarget
  have hfull : ∀ f ∈ Patch.tide.frames, f.Full := fun f hf => (Patch.readable_tide.frames f hf).full
  have htwo : 2 ≤ Patch.tide.frames.length := Nat.le_refl 2
  obtain ⟨b, counts, hbuilt, hbooks, hshaped, hopen, _⟩ :=
    Program.transitions_books { screen := "I" } htwo hfull
  obtain ⟨hcaptured, bound, l, hexpand, hlayout, hstores⟩ := captured_by_counter rfl hbooks hshaped hopen
  exact ⟨htarget, Patch.readable_tide.parse_write, _, _, _, bound, l, Program.write_eq hbuilt hopen,
    Asm.read_render (List.all_eq_true.1 (by decide)) (Program.legible_closed hbooks hopen hshaped hnamed),
    hcaptured, hexpand, hlayout, hstores⟩

end Petscii

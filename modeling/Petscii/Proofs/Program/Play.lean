import Petscii.Proofs.Asm.ReadBack
import Petscii.Proofs.Program.Module

/-!
# Playing a compiled program

The text of a program is read back, assembled and run. Its first routine draws the first frame from any
memory, and every other routine draws its frame where the one before it is shown; nothing else in memory
changes. Calling the routines in turn therefore plays the reel.
-/

namespace Petscii.Program

open Asm Machine

/-! ### Names in the text of a program -/

section Names

variable {target : Target} {frames : List Frame} {closed : Builder} {routines : List Routine}
  {tables : List Table}

theorem Compiled.name_cases (h : Compiled target frames closed routines tables) {name : String}
    (hname : name ∈ routines.map Routine.name) :
    (∃ k, name = frameRoutine target k) ∨ name = initRoutine target := by
  rw [h.names, List.mem_append, List.mem_map, List.mem_singleton] at hname
  rcases hname with ⟨k, _, rfl⟩ | hname
  · exact .inl ⟨k, rfl⟩
  · exact .inr hname

theorem Compiled.nodup_names (h : Compiled target frames closed routines tables) :
    (routines.map Routine.name).Nodup := by
  rw [h.names, List.nodup_append]
  refine ⟨(List.nodup_range' 1).map fun _ _ => frameRoutine_injective, List.nodup_singleton _, ?_⟩
  intro name hname init hinit heq
  obtain ⟨k, _, rfl⟩ := List.mem_map.1 hname
  rw [List.mem_singleton.1 hinit] at heq
  exact frameRoutine_ne_initRoutine target k heq

theorem Compiled.label_ne_name (h : Compiled target frames closed routines tables) {name : String}
    (hname : name ∈ routines.map Routine.name) (n : Nat) : label target n ≠ name := by
  rcases h.name_cases hname with ⟨k, rfl⟩ | rfl
  · exact label_ne_frameRoutine target n k
  · exact label_ne_initRoutine target n

theorem Built.numbered (h : Built target closed routines tables) {name : String}
    (hname : name ∈ routines.flatMap (fun r => labelsOf r.body) ++ tables.map Prod.fst) :
    ∃ n, name = label target n := by
  obtain ⟨n, _, rfl⟩ := List.mem_map.1 (h.labels.mem_iff.1 hname)
  exact ⟨n, rfl⟩

theorem Compiled.label_cases (h : Compiled target frames closed routines tables) {name : String}
    (hname : Line.label name ∈ closed.moduleLines) :
    (∃ n, name = label target n) ∨ (∃ k, name = frameRoutine target k) ∨ name = initRoutine target := by
  rw [← mem_labelsOf, h.built.labelsOf_moduleLines, List.mem_append, List.mem_flatMap] at hname
  rcases hname with hname | ⟨r, hr, hname⟩
  · exact .inl (h.built.numbered (List.mem_append_right _ hname))
  · rcases List.mem_cons.1 hname with rfl | hname
    · exact .inr (h.name_cases (List.mem_map_of_mem hr))
    · exact .inl (h.built.numbered (List.mem_append_left _ (List.mem_flatMap.2 ⟨r, hr, hname⟩)))

theorem legible_tablesLines {tables : List Table} (hnames : ∀ t ∈ tables, Source.isName t.1 = true) :
    ∀ line ∈ tablesLines tables, line.Legible := by
  intro line hline
  rcases tablesLines_cases hline with rfl | ⟨t, ht, rfl⟩ | ⟨row, rfl⟩
  · trivial
  · exact hnames t ht
  · trivial

theorem Compiled.legible (h : Compiled target frames closed routines tables) (hnamed : Named target) :
    ∀ line ∈ closed.moduleLines, line.Legible := by
  have hname : ∀ name ∈ routines.map Routine.name, Source.isName name = true := by
    intro name hname
    rcases h.name_cases hname with ⟨k, rfl⟩ | rfl
    · exact isName_frameRoutine hnamed k
    · exact isName_initRoutine hnamed
  have htable : ∀ t ∈ tables, Source.isName t.1 = true := by
    intro t ht
    obtain ⟨n, heq⟩ := h.built.numbered (List.mem_append_right _ (List.mem_map_of_mem ht))
    rw [heq]
    exact isName_label hnamed n
  intro line hline
  simp only [h.built.moduleLines_eq, frontLines, Routine.lines, List.mem_append, List.mem_cons,
    List.mem_map (f := fun name => Line.directive (.exportSymbol name)), List.mem_flatMap,
    List.not_mem_nil, or_false] at hline
  rcases hline with (((((rfl | ⟨name, hmem, rfl⟩) | rfl) | hline) | rfl | rfl) |
    ⟨r, hr, ((rfl | rfl) | hline) | rfl⟩) | rfl
  · exact hnamed.screen
  · exact hname name hmem
  · trivial
  · exact legible_tablesLines htable line hline
  · trivial
  · trivial
  · trivial
  · exact hname r.name (List.mem_map_of_mem hr)
  · exact h.built.legible hnamed r hr line hline
  · trivial
  · trivial

end Names

/-! ### Routines that play frames -/

/-- Assembled code whose routines draw the given frames, if its data is in memory. -/
structure Plays (target : Target) (screen origin : Nat) (frames : List Frame) (assembly : Assembly) :
    Prop where
  /-- From any memory the first frame is drawn, and the number of the others is returned in A and X. -/
  starts : ∀ first, frames[0]? = some first → ∀ s : State, s.memory.Holds origin assembly.data →
    ∃ t, Returns assembly.code (initRoutine target) s t ∧ Draws target screen first s t ∧
      t.a.toNat + 256 * t.x.toNat = frames.length - 1
  /-- Where a frame is shown the next one is drawn. -/
  turns : ∀ k prev next, frames[k]? = some prev → frames[k + 1]? = some next →
    ∀ s : State, s.memory.Holds origin assembly.data → Shows target screen prev s.memory →
      ∃ t, Returns assembly.code (frameRoutine target (k + 1)) s t ∧ Draws target screen next s t

/-- The routines up to the one of frame `k` called in turn, the first from any state. -/
inductive Played (target : Target) (code : List Item) : Nat → State → State → Prop where
  | first {s t : State} : Returns code (initRoutine target) s t → Played target code 0 s t
  | next {k : Nat} {s t u : State} : Played target code k s t →
      Returns code (frameRoutine target (k + 1)) t u → Played target code (k + 1) s u

theorem Draws.trans {target : Target} {screen : Nat} {f g : Frame} {s t u : State}
    (hf : Draws target screen f s t) (hg : Draws target screen g t u) : Draws target screen g s u :=
  ⟨hg.shows, fun a ha => (hg.kept a ha).trans (hf.kept a ha)⟩

/-- Drawing leaves the data of a program as it is. -/
theorem Draws.holds {target : Target} {screen origin : Nat} {data : Bytes} {f : Frame} {s t : State}
    (hsep : Separate target screen ⟨origin, data.length⟩) (h : Draws target screen f s t)
    (hdata : s.memory.Holds origin data) : t.memory.Holds origin data := by
  refine hdata.congr hsep.data_fits fun a ha => h.kept a fun r hr => ?_
  have hapart := (List.pairwise_cons.1 hsep.apart).1 r hr
  exact hapart.not_contains ha

/-- A whole run shows every frame in its turn. -/
theorem Plays.run {target : Target} {screen origin : Nat} {frames : List Frame} {assembly : Assembly}
    (h : Plays target screen origin frames assembly)
    (hsep : Separate target screen ⟨origin, assembly.data.length⟩) {s : State}
    (hdata : s.memory.Holds origin assembly.data) (k : Nat) (f : Frame) (hf : frames[k]? = some f) :
    ∃ t, Played target assembly.code k s t ∧ Draws target screen f s t := by
  induction k generalizing f with
  | zero =>
    obtain ⟨t, hreturns, hdraws, _⟩ := h.starts f hf s hdata
    exact ⟨t, .first hreturns, hdraws⟩
  | succ k ih =>
    obtain ⟨hk, _⟩ := List.getElem?_eq_some_iff.1 hf
    have hprev := List.getElem?_eq_getElem (l := frames) (i := k) (by omega)
    obtain ⟨t, hplayed, hdraws⟩ := ih _ hprev
    obtain ⟨u, hreturns, hnext⟩ := h.turns k _ f hprev hf t (hdraws.holds hsep hdata) hdraws.shows
    exact ⟨u, .next hplayed hreturns, hdraws.trans hnext⟩

section Install

variable {target : Target} {frames : List Frame} {closed : Builder} {routines : List Routine}
  {tables : List Table} {imports : Symbols} {origin screen : Nat}

theorem Compiled.routine_name (h : Compiled target frames closed routines tables) {k : Nat} {r : Routine}
    (hr : routines[k]? = some r) (hk : k + 1 < frames.length) : r.name = frameRoutine target (k + 1) := by
  have hname := congrArg (·[k]?) h.names
  simp only [List.getElem?_map, hr, Option.map_some] at hname
  rw [List.getElem?_append_left (by simp; omega), List.getElem?_map,
    List.getElem?_range' (by omega)] at hname
  simpa [Nat.add_comm] using hname

theorem Compiled.exists_does (h : Compiled target frames closed routines tables) {first : Frame}
    (hfirst : frames.head? = some first) {r : Routine} (hr : r ∈ routines) :
    ∃ P Q, r.Does target tables P Q := by
  obtain ⟨k, hk, rfl⟩ := List.getElem_of_mem hr
  rcases Nat.lt_or_ge (k + 1) frames.length with hnext | hlast
  · obtain ⟨q, hq, hturns⟩ := h.leads k _ _ (List.getElem?_eq_getElem (by omega))
      (List.getElem?_eq_getElem hnext)
    rw [List.getElem?_eq_getElem hk] at hq
    cases hq
    exact ⟨_, _, hturns⟩
  · -- the last routine is the first one to be called
    obtain ⟨q, hq, hname, hdoes⟩ := h.starts first hfirst
    have hlength := congrArg List.length h.names
    have hnames := congrArg (·[k]?) h.names
    simp only [List.length_map, List.length_append, List.length_range', List.length_singleton] at hlength
    have hk' : k = frames.length - 1 := by omega
    simp only [List.getElem?_map, List.getElem?_eq_getElem hk, Option.map_some] at hnames
    rw [List.getElem?_append_right (by simp; omega)] at hnames
    simp only [List.length_map, List.length_range', hk', Nat.sub_self, List.getElem?_cons_zero,
      Option.some.injEq] at hnames
    have hsame : q = routines[k] := List.inj_on_of_nodup_map h.nodup_names hq hr (by
      rw [hname]
      simp only [hk', hnames])
    exact hsame ▸ ⟨_, _, hdoes⟩

/-- A compiled program that is put in a place where nothing overlaps is assembled and plays its frames. -/
theorem Compiled.assemble_plays (h : Compiled target frames closed routines tables)
    (hframes : frames ≠ []) (hhidden : Line.label target.screen ∉ closed.moduleLines)
    (himport : imports target.screen = some (screen : Int))
    (hsep : Separate target screen ⟨origin, closed.stats.dataBytes⟩) :
    ∃ assembly, assemble imports origin closed.moduleLines = some assembly ∧
      assembly.data.length = closed.stats.dataBytes ∧ Plays target screen origin frames assembly := by
  rw [h.built.size] at hsep ⊢
  have hinstalled : Installed target closed routines tables imports origin screen :=
    ⟨h.built, h.nodup_names, fun _ hname n => h.label_ne_name hname n,
      fun hmem => hhidden (mem_labelsOf.1 hmem), himport, hsep⟩
  obtain ⟨code, hcode⟩ := hinstalled.links_code fun r hr =>
    h.exists_does (List.head?_eq_some_head hframes) hr
  refine ⟨_, hinstalled.assemble_eq hcode, List.length_map _, ?_, ?_⟩
  · intro first hfirst s hdata
    obtain ⟨r, hr, hname, hdoes⟩ := h.starts first (List.head?_eq_getElem? ▸ hfirst)
    exact hname ▸ hinstalled.returns hcode hr hdoes hdata trivial
  · intro k prev next hprev hnext s hdata hshows
    obtain ⟨r, hr, hturns⟩ := h.leads k prev next hprev hnext
    obtain ⟨hk, _⟩ := List.getElem?_eq_some_iff.1 hnext
    exact h.routine_name hr hk ▸ hinstalled.returns hcode (List.mem_of_getElem? hr) hturns hdata hshows

end Install

/-! ### Programs from the text on -/

theorem write_eq {target : Target} {reel : Reel} {b : Builder} {runs : List Nat}
    (hbuilt : transitions target reel = .ok (b, runs)) (hopen : b.finished = false) :
    write none target reel = (utf8 b.close.text, .ok b.close.stats) := by
  simp only [write, hbuilt, Builder.finish, hopen, Bool.false_eq_true, if_false, Stream.deliver]
  rfl

/-- Every reel of 2 to 65536 frames of bytes is compiled, and the text of its program is read and
assembled wherever the screen, the colour memory, the registers and the data do not overlap. What it
assembles to plays the reel, one routine at a time and over a whole run. All labels of the program are
numbered or name routines, so that the screen's symbol is easily none of them. -/
theorem write_plays {target : Target} {reel : Reel} (htwo : 2 ≤ reel.frames.length)
    (hmany : reel.frames.length ≤ 65536)
    (hframes : ∀ f ∈ reel.frames, ∃ payload, Frame.ofPayload f.name payload = .ok f ∧
      ∀ v ∈ payload, 0 ≤ v.toInt ∧ v.toInt ≤ 255)
    (hnamed : Named target) (hcounter : target.screen ≠ Builder.counter) :
    ∃ text stats lines, write none target reel = (utf8 text, .ok stats) ∧ read text = some lines ∧
      (∀ name, Line.label name ∈ lines → (∃ n, name = label target n) ∨
        (∃ k, name = frameRoutine target k) ∨ name = initRoutine target) ∧
      ∀ (imports : Symbols) (screen origin : Nat), Line.label target.screen ∉ lines →
        imports target.screen = some (screen : Int) →
        Separate target screen ⟨origin, stats.dataBytes⟩ →
        ∃ assembly, assemble imports origin lines = some assembly ∧
          assembly.data.length = stats.dataBytes ∧ Plays target screen origin reel.frames assembly ∧
          ∀ s : State, s.memory.Holds origin assembly.data → ∀ k f, reel.frames[k]? = some f →
            ∃ t, Played target assembly.code k s t ∧ Draws target screen f s t := by
  have hfull : ∀ f ∈ reel.frames, f.Full ∧ f.Narrow := by
    intro f hf
    obtain ⟨payload, hpayload, hbytes⟩ := hframes f hf
    obtain ⟨hfull, _, rfl⟩ := Frame.ofPayload_eq_ok.1 hpayload
    exact ⟨hfull, hbytes⟩
  obtain ⟨b, runs, routines, tables, hbuilt, hopen, hcompiled⟩ :=
    transitions_compiled htwo hmany hfull hcounter
  refine ⟨b.close.text, b.close.stats, b.close.moduleLines.map Line.bare, write_eq hbuilt hopen,
    read_render (List.all_eq_true.1 (by decide)) (hcompiled.legible hnamed),
    fun name hname => hcompiled.label_cases (label_mem_bare.1 hname), ?_⟩
  intro imports screen origin hhidden himport hsep
  obtain ⟨assembly, hassemble, hlength, hplays⟩ := hcompiled.assemble_plays
    (List.ne_nil_of_length_pos (by omega)) (fun h => hhidden (label_mem_bare.2 h)) himport hsep
  refine ⟨assembly, by rw [assemble_bare, hassemble], hlength, hplays, fun s hdata k f hf => ?_⟩
  exact hplays.run (hlength ▸ hsep) hdata k f hf

def night : Frame := ⟨"_night", 0, 6, 40, 25, List.replicate 1000 32, List.replicate 1000 14⟩

/-- The same with another border, a white first row and a ball in the last cell. -/
def dawn : Frame :=
  ⟨"_dawn", 1, 6, 40, 25, List.replicate 999 32 ++ [81], List.replicate 40 1 ++ List.replicate 960 14⟩

theorem dataBytes_night_dawn :
    (write none {} { frames := [night, dawn] }).2.map Stats.dataBytes = .ok 2040 := by
  have hdelta : night.xor dawn = .ok ⟨"_night", 1, 0, 40, 25, List.replicate 999 0 ++ [113],
      List.replicate 40 15 ++ List.replicate 960 0⟩ := by decide +kernel
  have hchars : Span.split maxLoop (Span.changed (List.replicate 999 0 ++ [113])) = [⟨999, 999⟩] := by
    decide +kernel
  have hcolors : Span.split maxLoop (Span.changed (List.replicate 40 15 ++ List.replicate 960 0)) =
      [⟨0, 39⟩] := by
    decide +kernel
  have hruns : Run.merge [⟨999, 999⟩] [⟨0, 39⟩] = [⟨⟨0, 39⟩, .colors⟩, ⟨⟨999, 999⟩, .chars⟩] := by
    simp [Run.merge]
  simp only [write, transitions, Builder.addAll, Builder.addTransition, hdelta, Builder.changedRuns, hchars,
    hcolors, hruns]
  decide +kernel

theorem write_plays_night_dawn :
    ∃ text stats lines assembly, write none {} { frames := [night, dawn] } = (utf8 text, .ok stats) ∧
      Separate {} 0x0400 ⟨0x1000, stats.dataBytes⟩ ∧ read text = some lines ∧
      assemble (fun _ => some 0x0400) 0x1000 lines = some assembly ∧
      Plays {} 0x0400 0x1000 [night, dawn] assembly ∧
      ∀ s : State, s.memory.Holds 0x1000 assembly.data →
        ∃ t, Played {} assembly.code 1 s t ∧ Draws {} 0x0400 dawn s t := by
  have hnight : night.Full ∧ night.Narrow := by
    refine ⟨⟨rfl, rfl, List.length_replicate, List.length_replicate⟩, fun v hv => ?_⟩
    simp only [night, Frame.payload, List.mem_cons, List.mem_append, List.mem_replicate] at hv
    rcases hv with rfl | rfl | ⟨_, rfl⟩ | ⟨_, rfl⟩ <;> decide
  have hdawn : dawn.Full ∧ dawn.Narrow := by
    refine ⟨⟨rfl, rfl, ?_, ?_⟩, fun v hv => ?_⟩
    · rw [dawn, List.length_append, List.length_replicate]
      rfl
    · rw [dawn, List.length_append, List.length_replicate, List.length_replicate]
      rfl
    simp only [dawn, Frame.payload, List.mem_cons, List.mem_append, List.mem_replicate,
      List.not_mem_nil, or_false] at hv
    rcases hv with rfl | rfl | (⟨_, rfl⟩ | rfl) | ⟨_, rfl⟩ | ⟨_, rfl⟩ <;> decide
  have hframes : ∀ f ∈ [night, dawn], ∃ payload, Frame.ofPayload f.name payload = .ok f ∧
      ∀ v ∈ payload, 0 ≤ v.toInt ∧ v.toInt ≤ 255 := by
    have hone : ∀ {f : Frame}, f.Full ∧ f.Narrow → ∃ payload, Frame.ofPayload f.name payload = .ok f ∧
        ∀ v ∈ payload, 0 ≤ v.toInt ∧ v.toInt ≤ 255 := fun h =>
      ⟨_, Frame.ofPayload_eq_ok.2 ⟨h.1, rfl, rfl⟩, h.2⟩
    simp only [List.forall_mem_cons]
    exact ⟨hone hnight, hone hdawn, by simp⟩
  obtain ⟨text, stats, lines, hwrite, hread, hlabels, hplays⟩ :=
    @write_plays {} { frames := [night, dawn] } (by decide) (by decide) hframes ⟨by decide, by decide⟩
      (by decide)
  have hsize : stats.dataBytes = 2040 := by
    have h := dataBytes_night_dawn
    rw [hwrite] at h
    exact Except.ok.inj h
  have hsep : Separate {} 0x0400 ⟨0x1000, stats.dataBytes⟩ := by
    rw [hsize]
    constructor
    · simp [drawn, Region.Fits, Screen.cells, Screen.width, Screen.height]
    · simp [drawn, Region.Apart, Screen.cells, Screen.width, Screen.height]
  have hhidden : Line.label "ANIMATIONSCREEN" ∉ lines := by
    intro hmem
    rcases hlabels _ hmem with ⟨n, h⟩ | ⟨k, h⟩ | h
    · exact absurd (congrArg tip h) (by rw [tip_label]; decide)
    · exact absurd (congrArg tip h) (by rw [tip_frameRoutine]; decide)
    · exact absurd (congrArg tip h) (by rw [tip_initRoutine]; decide)
  obtain ⟨assembly, hassemble, _, hframes, hrun⟩ := hplays (fun _ => some 0x0400) 0x0400 0x1000 hhidden rfl hsep
  exact ⟨text, stats, lines, assembly, hwrite, hsep, hread, hassemble, hframes,
    fun s hs => hrun s hs 1 dawn rfl⟩

end Petscii.Program

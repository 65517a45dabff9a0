import Petscii.Proofs.Program.Stage

/-!
# Routines for transitions

A routine is a name, the lines of its body and the data it reads. The routine of a transition writes the
registers that change and paints the cells that change, so it turns one frame into the next if the first
one is shown when it is called.
-/

namespace Petscii.Program

open Asm Machine

/-! ### Changed cells -/

section Changed

variable {delta : Frame}

/-- The runs of two planes of one length lie within them, and each fits the index register. -/
theorem changedRuns_small {n : Nat} (hchars : delta.chars.length = n) (hcolors : delta.colors.length = n)
    (hn : (n : Int) < 0x4000000000000000) :
    ∀ r ∈ Builder.changedRuns delta, (r.plane = .chars ∨ r.plane = .colors) ∧ r.span.Small 255 n := by
  have hspans : ∀ values : List Cell, values.length = n →
      ∀ s ∈ Span.split maxLoop (Span.changed values), s.Small 255 n := by
    intro values hlength
    apply Span.split_small (by decide) (by decide) hn
    intro s hs
    have hbounds := Span.changed_bounds values s hs
    omega
  intro r hr
  rcases Run.mem_merge.1 hr with ⟨s, hs, rfl⟩ | ⟨s, hs, rfl⟩
  · exact ⟨Or.inl rfl, hspans _ hchars s hs⟩
  · exact ⟨Or.inr rfl, hspans _ hcolors s hs⟩

theorem changedRuns_fits (hdelta : delta.Full) : ∀ r ∈ Builder.changedRuns delta, r.Fits := by
  intro r hr
  obtain ⟨hplane, hsmall⟩ := changedRuns_small hdelta.chars hdelta.colors (by decide) r hr
  exact ⟨hplane, hsmall⟩

/-- The runs of a plane cover exactly its changed cells. -/
theorem exists_changedRun_iff (hdelta : delta.Full) {p : Plane} (hp : p = .chars ∨ p = .colors) (j : Nat) :
    (∃ r ∈ Builder.changedRuns delta, r.plane = p ∧ r.span.first ≤ j ∧ j ≤ r.span.last) ↔
      delta.cellAt p j ≠ 0 := by
  have hruns : (∃ r ∈ Builder.changedRuns delta, r.plane = p ∧ r.span.first ≤ j ∧ j ≤ r.span.last) ↔
      Span.Covers (Span.split maxLoop (Span.changed (delta.plane p))) j := by
    simp only [Builder.changedRuns, Run.mem_merge, Span.Covers]
    constructor
    · rintro ⟨r, ⟨s, hs, rfl⟩ | ⟨s, hs, rfl⟩, rfl, hlow, hhigh⟩
      · exact ⟨s, hs, hlow, hhigh⟩
      · exact ⟨s, hs, hlow, hhigh⟩
    · rintro ⟨s, hs, hlow, hhigh⟩
      rcases hp with rfl | rfl
      · exact ⟨⟨s, .chars⟩, Or.inl ⟨s, hs, rfl⟩, rfl, hlow, hhigh⟩
      · exact ⟨⟨s, .colors⟩, Or.inr ⟨s, hs, rfl⟩, rfl, hlow, hhigh⟩
  have hvalue : delta.cellAt p j ≠ 0 ↔ ∃ h : j < (delta.plane p).length, (delta.plane p)[j] ≠ 0 := by
    rw [Frame.cellAt, List.getD_eq_getElem?_getD]
    constructor
    · intro hne
      by_cases hj : j < (delta.plane p).length
      · exact ⟨hj, by rwa [List.getElem?_eq_getElem hj] at hne⟩
      · rw [List.getElem?_eq_none (by omega)] at hne
        exact absurd rfl hne
    · rintro ⟨hj, hne⟩
      rwa [List.getElem?_eq_getElem hj]
  rw [hruns, hvalue, Span.covers_split (by decide) (by decide), Span.covers_changed]
  intro s hs
  have hbounds := Span.changed_bounds (delta.plane p) s hs
  have hlength := hdelta.length_plane p
  have hcells : (Screen.cells : Int) < 0x4000000000000000 := by decide
  omega

theorem exists_stepCells (hdelta : delta.Full) {p : Plane} (hp : p = .chars ∨ p = .colors) {j : Nat}
    (hchanged : delta.cellAt p j ≠ 0) :
    ∃ step ∈ Run.schedule (Builder.changedRuns delta), stepCells step p j := by
  obtain ⟨r, hr, hplane, hlow, hhigh⟩ := (exists_changedRun_iff hdelta hp j).2 hchanged
  obtain ⟨step, hstep, hr, hfirst, hlast⟩ :=
    Run.exists_step (fun q hq => (changedRuns_fits hdelta q hq).onScreen) hr
  exact ⟨step, hstep, r, hr, hplane.symm, by omega, by omega⟩

end Changed

/-! ### Routines -/

/-- A routine: its name, and the lines of its body up to its return, as they stand in the module and with
repeated lines copied out. -/
structure Routine where
  name : String
  body : List Line
  copied : List BoundLine

def Routine.lines (r : Routine) : List Line :=
  [.blank, .label r.name] ++ r.body ++ [.instruction .rts]

/-- Tables stand in memory, within the region of the data. -/
structure Site.Stocked {target : Target} (site : Site target) (data : Region) (memory : Memory)
    (tables : List Table) : Prop where
  provides : ∀ t ∈ tables, site.Provides memory t
  inside : ∀ t ∈ tables, data.start ≤ site.address t.1 ∧
    site.address t.1 + t.2.length ≤ data.start + data.size

/-- What the body of a routine does when its tables are at hand: from a state with `P` it leads to one that
`Q` relates to it. -/
def Routine.Does (r : Routine) (target : Target) (tables : List Table) (P : Nat → State → Prop)
    (Q : Nat → State → State → Prop) : Prop :=
  ∀ (site : Site target) (screen : Nat) (data : Region) (s₀ : State),
    site.display = display target screen → Separate target screen data →
    site.Stocked data s₀.memory tables →
    ∃ items, Asm.Links site.layout site.imports site.origin (drafts none r.copied) items ∧
      (P screen s₀ → Performs items (fun s => s = s₀) (Q screen s₀))

theorem Site.Stocked.mono {target : Target} {site : Site target} {data : Region} {memory : Memory}
    {tables more : List Table} (h : site.Stocked data memory more) (hsub : tables ⊆ more) :
    site.Stocked data memory tables where
  provides t ht := h.provides t (hsub ht)
  inside t ht := h.inside t (hsub ht)

theorem Site.Stocked.tint {target : Target} {site : Site target} {screen : Nat} {data : Region}
    {memory : Memory} {tables : List Table} (h : site.Stocked data memory tables)
    (hsep : Separate target screen data) {f : Frame} {writes : Writes} (hwrites : writes.Of target f) :
    site.Stocked data (tint memory writes) tables where
  provides t ht := by
    have hprovides := h.provides t ht
    have hinside := h.inside t ht
    refine { hprovides with holds := hprovides.holds.congr ?_ fun a ha => tint_of_notMem ?_ memory }
    · rw [List.length_map]
      exact hprovides.fits
    · intro hmem
      apply hsep.data_notContains (hwrites.register hmem)
      rw [List.length_map] at ha
      simp only [Region.Contains] at ha ⊢
      omega
  inside := h.inside

/-- The routine can be laid out: its copied lines are plain, and they are what an assembler makes of its
body. -/
structure Routine.Sound (r : Routine) : Prop where
  expands : ∀ rest, expandFrom none (r.body ++ rest) = (expandFrom none rest).map (r.copied ++ ·)
  plain : ∀ c ∈ r.copied, c.line.Plain
  labels : labelsOf (r.copied.map BoundLine.line) = labelsOf r.body

theorem Routine.sound_of_plain {name : String} {lines : List Line} (hplain : ∀ line ∈ lines, line.Plain) :
    (⟨name, lines, under [] lines⟩ : Routine).Sound where
  expands rest := expandFrom_append (fun line hline => (hplain line hline).single) rest
  plain c hc := by
    obtain ⟨line, hline, rfl⟩ := List.mem_map.1 hc
    exact hplain line hline
  labels := by
    rw [under, List.map_map]
    exact congrArg labelsOf (List.map_id lines)

/-- A builder goes on by one routine and its tables. -/
structure Adds (b b' : Builder) (r : Routine) (tables : List Table) : Prop where
  target : b'.target = b.target
  initial : b'.initial = b.initial
  code : b'.code = b.code ++ r.lines
  data : b'.data = b.data ++ tablesLines tables
  exports : b'.exports = b.exports ++ [r.name]
  size : b'.stats.dataBytes = b.stats.dataBytes + (tables.flatMap Prod.snd).length
  labels : ∃ count, b'.labels = b.labels + count ∧ (labelsOf r.body ++ tables.map Prod.fst).Perm
    ((List.range' b.labels count).map (label b.target))
  sound : r.Sound
  legible : Named b.target → ∀ line ∈ r.body, line.Legible
  narrow : ∀ t ∈ tables, ∀ v ∈ t.2, 0 ≤ v.toInt ∧ v.toInt ≤ 0xFF

/-! ### Transitions -/

def changedRegisters (target : Target) (delta next : Frame) : Writes :=
  (if delta.background = 0 then [] else [(target.backgroundRegister, next.background)]) ++
    if delta.border = 0 then [] else [(target.borderRegister, next.border)]

theorem changedRegisters_of (target : Target) (delta next : Frame) :
    (changedRegisters target delta next).Of target next := by
  intro w hw
  rcases List.mem_append.1 hw with hw | hw
  · split at hw
    · cases hw
    · exact Or.inl (List.mem_singleton.1 hw)
  · split at hw
    · cases hw
    · exact Or.inr (List.mem_singleton.1 hw)

theorem writesLines_changedRegisters (target : Target) (delta next : Frame) :
    writesLines (changedRegisters target delta next) =
      (if delta.background = 0 then [] else
        Builder.registerLines next.background target.backgroundRegister) ++
      (if delta.border = 0 then [] else Builder.registerLines next.border target.borderRegister) := by
  rw [changedRegisters, writesLines, List.flatMap_append]
  congr 1
  · split
    · rfl
    · exact List.flatMap_singleton _ _
  · split
    · rfl
    · exact List.flatMap_singleton _ _

theorem Writes.Of.narrow {writes : Writes} {target : Target} {f : Frame} (hwrites : writes.Of target f)
    (hf : f.Narrow) : ∀ w ∈ writes, 0 ≤ w.2.toInt ∧ w.2.toInt ≤ 0xFF := by
  intro w hw
  rcases hwrites w hw with rfl | rfl
  · exact hf _ (List.mem_cons_of_mem _ List.mem_cons_self)
  · exact hf _ List.mem_cons_self

theorem Shows.cell {target : Target} {screen : Nat} {f : Frame} {memory : Memory}
    (h : Shows target screen f memory) (hf : f.Full) {p : Plane} (hp : p = .chars ∨ p = .colors) {i : Nat}
    (hi : i < Screen.cells) : memory ((display target screen).address p i) = (f.cellAt p i).byte := by
  rcases hp with rfl | rfl
  · exact (holds_plane hf .chars).1 h.chars i hi
  · exact (holds_plane hf .colors).1 h.colors i hi

section Transition

variable {target : Target} {prev next delta : Frame} {n : Nat} {block : Block} {tables : List Table}

/-- The body of a transition draws the next frame where the previous one is shown. -/
theorem transition_does (hprev : prev.Full) (hnext : next.Full) (hnarrow : next.Narrow)
    (hborder : delta.border = prev.border ^^^ next.border)
    (hbackground : delta.background = prev.background ^^^ next.background)
    (hcell : ∀ p i, delta.cellAt p i = prev.cellAt p i ^^^ next.cellAt p i) {cells : Plane → Nat → Prop}
    (hcells : ∀ p i, p = .chars ∨ p = .colors → i < Screen.cells → delta.cellAt p i ≠ 0 → cells p i)
    (hemits : Emits target next n block tables cells) (name : String) :
    Routine.Does ⟨name, writesLines (changedRegisters target delta next) ++ block.code,
      under [] (writesLines (changedRegisters target delta next) ++ block.code)⟩ target tables
      (fun screen s => Shows target screen prev s.memory) (fun screen => Draws target screen next) := by
  intro site screen data s₀ hdisplay hsep hstocked
  have hof := changedRegisters_of target delta next
  obtain ⟨items, hlinks, _⟩ := hemits.performs site s₀ hstocked.provides
  refine ⟨_, Site.Links.append (links_writesLines site.ground (hof.narrow hnarrow)) hlinks, fun hshows => ?_⟩
  refine (performs_writes (hof.narrow hnarrow) s₀).append ?_
  rintro before after hdistinct s ⟨hmemory, _⟩
  have hstocked' := hstocked.tint hsep hof
  rw [← hmemory] at hstocked'
  obtain ⟨items', hlinks', hperforms⟩ := hemits.performs site s hstocked'.provides
  cases Asm.Links.unique hlinks hlinks'
  obtain ⟨t, hreach, ht⟩ := hperforms _ before after hdistinct s (Painted.refl _ _ s)
  rw [hdisplay] at ht
  refine ⟨t, hreach, draws hsep hnext hof hmemory ht ?_ ?_ fun p i hp hi => ?_⟩
  · by_cases hsame : delta.background = 0
    · right
      rw [hbackground, Int64.xor_eq_zero_iff] at hsame
      rw [hshows.background, hsame]
    · left
      simp [changedRegisters, hsame]
  · by_cases hsame : delta.border = 0
    · right
      rw [hborder, Int64.xor_eq_zero_iff] at hsame
      rw [hshows.border, hsame]
    · left
      simp [changedRegisters, hsame]
  · by_cases hsame : delta.cellAt p i = 0
    · right
      rw [hcell, Int64.xor_eq_zero_iff] at hsame
      rw [hshows.cell hprev hp hi, hsame]
    · exact Or.inl (Or.inr (hcells p i hp hi hsame))

def transitionRoutine (b : Builder) (delta next : Frame) (block : Block) : Routine where
  name := frameRoutine b.target (b.frames + 1)
  body := writesLines (changedRegisters b.target delta next) ++ block.code
  copied := under [] (writesLines (changedRegisters b.target delta next) ++ block.code)

theorem addTransition_eq {b : Builder} (hopen : b.finished = false) (hxor : prev.xor next = .ok delta)
    (hblock : stepsBlock b.target next b.labels (Run.schedule (Builder.changedRuns delta)) =
      (block, .ok ())) :
    b.addTransition prev next = ({ b with
      frames := b.frames + 1
      labels := b.labels + block.labels
      code := b.code ++ (transitionRoutine b delta next block).lines
      data := b.data ++ block.data
      exports := b.exports ++ [frameRoutine b.target (b.frames + 1)]
      stats := (b.stats.add { transitions := 1 }).add block.stats },
      .ok (Builder.changedRuns delta).length) := by
  rw [Builder.addTransition, hopen]
  simp only [hxor, Bool.false_eq_true, if_false, Builder.emitRuns, Builder.extend, Builder.openRoutine,
    Builder.routineName, hblock, transitionRoutine, Routine.lines, writesLines_changedRegisters,
    frameRoutine, routine, List.append_assoc, List.append_nil, Nat.add_zero, Stats.add]

/-- Between frames that fill the screen a transition is always added, and its routine draws the second
where the first is shown. -/
theorem addTransition_adds {b : Builder} (hopen : b.finished = false) (hprev : prev.Full) (hnext : next.Full)
    (hnarrow : next.Narrow) :
    ∃ b' r tables runs, b.addTransition prev next = (b', .ok runs) ∧ Adds b b' r tables ∧
      b'.finished = false ∧ b'.frames = b.frames + 1 ∧ r.name = frameRoutine b.target (b.frames + 1) ∧
      r.Does b.target tables (fun screen s => Shows b.target screen prev s.memory)
        (fun screen => Draws b.target screen next) := by
  obtain ⟨delta, hxor, hdelta, hborder, hbackground, hcell⟩ := hprev.xor_eq hnext
  obtain ⟨block, tables, hblock, hemits⟩ := stepsBlock_emits b.target hnext hnarrow
    (fun step hstep => Run.schedule_walks (changedRuns_fits hdelta) hstep) b.labels
  have hplain : ∀ line ∈ writesLines (changedRegisters b.target delta next) ++ block.code, line.Plain := by
    intro line hline
    exact (List.mem_append.1 hline).elim (plain_writesLines _ line) (hemits.plain line)
  refine ⟨_, transitionRoutine b delta next block, tables, _, addTransition_eq hopen hxor hblock, ?_, hopen,
    rfl, rfl, ?_⟩
  · constructor
    case sound => exact Routine.sound_of_plain hplain
    case narrow => exact hemits.narrow
    case data => rw [hemits.data]
    case size =>
      rw [← hemits.size]
      rfl
    case labels =>
      refine ⟨block.labels, rfl, ?_⟩
      rw [transitionRoutine, labelsOf_append, labelsOf_writesLines, List.nil_append]
      exact hemits.labels
    case legible =>
      intro hnamed line hline
      exact (List.mem_append.1 hline).elim (legible_writesLines _ line) (hemits.legible hnamed line)
    all_goals rfl
  · exact transition_does hprev hnext hnarrow hborder hbackground hcell
      (fun p i hp _ hne => exists_stepCells hdelta hp hne) hemits _

end Transition

end Petscii.Program

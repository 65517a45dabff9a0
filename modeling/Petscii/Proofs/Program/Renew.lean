import Petscii.Proofs.Program.Fragment

/-!
# Writing any list of runs

Runs may come in any order, overlap, and repeat each other. As long as each fits the index register, their
code shows the next frame in every cell of every run; besides that it may write some cells of the hulls
that its loops walk, again with the next frame's values, and nothing else. A run that is too long is
refused.
-/

namespace Petscii.Program

open Asm Machine

/-! ### Runs that are too long -/

section TooLong

variable (target : Target) {next : Frame}

/-- A schedule with a step that is too long is refused at such a step. -/
theorem stepsBlock_tooLong (hnext : next.Full) (hnarrow : next.Narrow) {steps : List Run.Step}
    (hsteps : ∀ step ∈ steps, step.span.length ≤ maxLoop →
      ∃ first count, step.Walks first count ∧ ∀ r, step = .store r → count = 1)
    (hstores : ∀ r, .store r ∈ steps → r.span.length ≤ maxLoop)
    (hlong : ∃ step ∈ steps, maxLoop < step.span.length) (n : Nat) :
    ∃ span, (stepsBlock target next n steps).2 = .error (.loopTooLong span) := by
  induction steps generalizing n with
  | nil => simp at hlong
  | cons step steps ih =>
    by_cases htoo : maxLoop < step.span.length
    · cases step with
      | store r => exact absurd (hstores r List.mem_cons_self) (Int.not_le.2 htoo)
      | loop anchor riders =>
        rw [stepsBlock, stepBlock, loopBlock, if_pos htoo]
        exact ⟨_, rfl⟩
    · have hshort := Int.not_lt.1 htoo
      obtain ⟨first, count, hwalks, hone⟩ := hsteps step List.mem_cons_self hshort
      obtain ⟨block, _, hblock, _⟩ := stepBlock_emits target hnext hnarrow n hwalks hone
      have hrest : ∃ step ∈ steps, maxLoop < step.span.length := by
        obtain ⟨long, hmem, hlong⟩ := hlong
        rcases List.mem_cons.1 hmem with rfl | hmem
        · exact absurd hlong htoo
        · exact ⟨long, hmem, hlong⟩
      obtain ⟨span, hspan⟩ := ih (fun s hs => hsteps s (List.mem_cons_of_mem step hs))
        (fun r hr => hstores r (List.mem_cons_of_mem step hr)) hrest (n + block.labels)
      refine ⟨span, ?_⟩
      rw [stepsBlock, hblock]
      exact hspan

end TooLong

theorem schedule_store_length {runs : List Run} {r : Run} (h : .store r ∈ Run.schedule runs) :
    r.span.length ≤ maxLoop := by
  rcases Run.mem_scheduleFrom h with ⟨q, _, hq, hone⟩ | ⟨q, rest, _, hq⟩
  · cases hq
    rw [hone]
    decide
  · cases hq

/-! ### What is left in memory -/

/-- The data of a program and the planes of the screen lie inside the address space, each apart from the
others. -/
structure Disjoint (target : Target) (screen : Nat) (data : Region) : Prop where
  fits : ∀ r ∈ [data, ⟨screen, Screen.cells⟩, ⟨target.colorRam.toNat, Screen.cells⟩], r.Fits
  apart : [data, ⟨screen, Screen.cells⟩, ⟨target.colorRam.toNat, Screen.cells⟩].Pairwise Region.Apart

theorem Disjoint.clear {target : Target} {screen : Nat} {data : Region} (h : Disjoint target screen data) :
    (display target screen).Clear := by
  obtain ⟨hfits, hapart⟩ := h
  simp only [List.forall_mem_cons] at hfits
  simp only [List.pairwise_cons, List.forall_mem_cons] at hapart
  exact ⟨hfits.2.1, hfits.2.2.1, hapart.2.1.1⟩

theorem Disjoint.data_apart {target : Target} {screen : Nat} {data : Region} (h : Disjoint target screen data)
    (p : Plane) : data.Apart ((display target screen).region p) := by
  have hapart := h.apart
  simp only [List.pairwise_cons, List.forall_mem_cons] at hapart
  cases p with
  | colors => exact hapart.1.2.1
  | _ => exact hapart.1.1

/-- From `s` to `t` the runs were written with the values of the next frame. -/
structure Renews (target : Target) (screen : Nat) (runs : List Run) (next : Frame) (s t : State) : Prop where
  /-- Every cell of every run shows the next frame. -/
  written : ∀ r ∈ runs, ∀ i : Nat, r.span.first ≤ i → i ≤ r.span.last →
    t.memory ((display target screen).address r.plane i) = (next.cellAt r.plane i).byte
  /-- Every other cell shows what it showed before, or the next frame. -/
  either : ∀ p i, p = .chars ∨ p = .colors → i < Screen.cells →
    t.memory ((display target screen).address p i) = s.memory ((display target screen).address p i) ∨
      t.memory ((display target screen).address p i) = (next.cellAt p i).byte
  /-- All other memory is as it was. -/
  kept : ∀ a, ¬ (⟨screen, Screen.cells⟩ : Region).Contains a →
    ¬ (⟨target.colorRam.toNat, Screen.cells⟩ : Region).Contains a → t.memory a = s.memory a

theorem renews_of_painted {target : Target} {screen : Nat} {runs : List Run} {next : Frame}
    {cells : Plane → Nat → Prop} {s t : State} (hclear : (display target screen).Clear)
    (hcells : ∀ r ∈ runs, ∀ i : Nat, r.span.first ≤ i → i ≤ r.span.last → cells r.plane i)
    (h : Painted (display target screen) next cells s t) : Renews target screen runs next s t where
  written r hr i hfirst hlast := h.shown r.plane i (hcells r hr i hfirst hlast)
  either p i hp hi := by
    by_cases hpainted : ∃ q j, cells q j ∧ (display target screen).address p i = (display target screen).address q j
    · obtain ⟨q, j, hcell, heq⟩ := hpainted
      right
      rw [heq, h.shown q j hcell, hclear.cellAt_eq_of_address_eq next hi (h.inside q j hcell) heq]
    · exact Or.inl (h.kept _ fun q j hcell heq => hpainted ⟨q, j, hcell, heq⟩)
  kept _ hscreen hcolors := h.outside hclear hscreen hcolors

/-- The assembled module of a block paints its cells, wherever nothing overlaps. -/
theorem Emits.ends {target : Target} {next : Frame} {n : Nat} {block : Block} {tables : List Table}
    {cells : Plane → Nat → Prop} (h : Emits target next n block tables cells) {imports : Symbols}
    {origin screen : Nat} {assembly : Assembly} (himport : imports target.screen = some (screen : Int))
    (hassembly : assemble imports origin (block.moduleLines target) = some assembly)
    (hdisjoint : Disjoint target screen ⟨origin, assembly.data.length⟩) {s : State}
    (hdata : s.memory.Holds origin assembly.data) :
    ∃ t, Ends assembly.code s t ∧ Painted (display target screen) next cells s t := by
  obtain ⟨hhidden, hlinks, hbytes, hplaced⟩ := h.fragment.of_assemble himport hassembly
  rw [hbytes, List.length_map] at hdisjoint
  rw [hbytes] at hdata
  let site : Site target := { fragmentGround block origin hhidden himport with clear := hdisjoint.clear }
  have hstocked := site.stocked rfl (List.nodup_append.1 h.fragment.distinct).1
    (hdisjoint.fits _ List.mem_cons_self) hdisjoint.data_apart hdata
  obtain ⟨items, hitems, hperforms⟩ := h.performs site s hstocked.provides
  cases Asm.Links.unique hlinks hitems
  obtain ⟨t, hends, ht⟩ := (hperforms _).ends hplaced (Painted.refl _ _ s)
  exact ⟨t, hends, ht.congr rfl rfl fun p j => by simp⟩

section Renew

variable {b : Builder} {runs : List Run} {next : Frame}

/-- Any runs within the screen are written, unless one of them is too long for the index register. The
module of what was added ends behind its last line, with the next frame in the cells of the runs. -/
theorem emitRuns_renews (hruns : ∀ r ∈ runs, r.OnScreen) (hnext : next.Full) (hnarrow : next.Narrow) :
    ((∃ span, (b.emitRuns runs next).2 = .error (.loopTooLong span)) ↔ ∃ r ∈ runs, 255 < r.span.length) ∧
      ((∀ r ∈ runs, r.span.length ≤ 255) → ∃ block, b.emitRuns runs next = (b.extend block, .ok ()) ∧
        ∀ (imports : Symbols) (screen origin : Nat), imports b.target.screen = some (screen : Int) →
          ((∃ assembly, assemble imports origin (block.moduleLines b.target) = some assembly) ↔
            b.target.screen ∉ labelsOf (block.moduleLines b.target)) ∧
          ∀ assembly, assemble imports origin (block.moduleLines b.target) = some assembly →
            assembly.data.length = block.stats.dataBytes ∧
            (Disjoint b.target screen ⟨origin, assembly.data.length⟩ →
              ∀ s : State, s.memory.Holds origin assembly.data →
                ∃ t, Ends assembly.code s t ∧ Renews b.target screen runs next s t)) := by
  have hok : (∀ r ∈ runs, r.span.length ≤ 255) → ∃ block tables,
      b.emitRuns runs next = (b.extend block, .ok ()) ∧
      Emits b.target next b.labels block tables (fun p j => ∃ step ∈ Run.schedule runs, stepCells step p j) ∧
      Touches b.target block (fun p j => ∃ step ∈ Run.schedule runs, stepCells step p j) := by
    intro hshort
    have hfits : ∀ r ∈ runs, r.Fits := fun r hr => (hruns r hr).fits (hshort r hr)
    have hwalks := fun step hstep => @Run.schedule_walks runs hfits step hstep
    obtain ⟨block, tables, hblock, hemits⟩ := stepsBlock_emits b.target hnext hnarrow hwalks b.labels
    obtain ⟨block', hblock', htouches⟩ := stepsBlock_touches b.target hnext hnarrow hwalks b.labels
    rw [hblock] at hblock'
    cases hblock'
    exact ⟨block, tables, by rw [Builder.emitRuns, hblock], hemits, htouches⟩
  refine ⟨⟨?_, fun hlong => ?_⟩, fun hshort => ?_⟩
  · rintro ⟨span, herror⟩
    by_contra hnone
    obtain ⟨block, _, hemit, _⟩ := hok fun r hr => Int.not_lt.1 fun hlong => hnone ⟨r, hr, hlong⟩
    rw [hemit] at herror
    cases herror
  · exact stepsBlock_tooLong b.target hnext hnarrow (fun step hstep => Run.walks_of_short hruns hstep)
      (fun r hr => schedule_store_length hr) ((Run.exists_long_step_iff hruns 255).2 hlong) b.labels
  · obtain ⟨block, tables, hemit, hemits, htouches⟩ := hok hshort
    refine ⟨block, hemit, fun imports screen origin himport => ?_⟩
    refine ⟨hemits.fragment.exists_assemble_iff htouches.linkable himport, fun assembly hassembly => ⟨?_, ?_⟩⟩
    · obtain ⟨_, _, hbytes, _⟩ := hemits.fragment.of_assemble himport hassembly
      rw [hbytes, List.length_map, hemits.size]
    · intro hdisjoint s hdata
      obtain ⟨t, hends, hpainted⟩ := hemits.ends himport hassembly hdisjoint hdata
      refine ⟨t, hends, renews_of_painted hdisjoint.clear (fun r hr i hfirst hlast => ?_) hpainted⟩
      obtain ⟨step, hstep, hmem, hlow, hhigh⟩ := Run.exists_step hruns hr
      exact ⟨step, hstep, r, hmem, rfl, Int.le_trans hlow hfirst, Int.le_trans hlast hhigh⟩

end Renew

def stars : Frame := ⟨"_stars", 0, 0, 40, 25, List.replicate 1000 42, List.replicate 1000 7⟩

def starry : Builder where
  target := {}
  initial := stars

/-- Runs out of order: two that end together, a cell inside one of them, and one a second time. -/
def scattered : List Run :=
  [⟨⟨5, 9⟩, .colors⟩, ⟨⟨0, 9⟩, .chars⟩, ⟨⟨3, 3⟩, .chars⟩, ⟨⟨5, 9⟩, .colors⟩]

theorem emitRuns_renews_stars :
    (∃ span, (starry.emitRuns [⟨⟨0, 255⟩, .chars⟩] stars).2 = .error (.loopTooLong span)) ∧
      ∃ block assembly, starry.emitRuns scattered stars = (starry.extend block, .ok ()) ∧
        assemble (fun _ => some 0x0400) 0x1000 (block.moduleLines {}) = some assembly ∧
        Disjoint {} 0x0400 ⟨0x1000, assembly.data.length⟩ ∧
        ∀ s : State, s.memory.Holds 0x1000 assembly.data →
          ∃ t, Ends assembly.code s t ∧ Renews {} 0x0400 scattered stars s t := by
  have hfull : stars.Full := ⟨rfl, rfl, List.length_replicate, List.length_replicate⟩
  have hnarrow : stars.Narrow := by
    intro v hv
    simp only [stars, Frame.payload, List.mem_cons, List.mem_append, List.mem_replicate] at hv
    rcases hv with rfl | rfl | ⟨_, rfl⟩ | ⟨_, rfl⟩ <;> decide
  have hlong : ∀ r ∈ [(⟨⟨0, 255⟩, .chars⟩ : Run)], r.OnScreen := by
    simp only [List.forall_mem_cons]
    exact ⟨⟨Or.inl rfl, by decide, by decide, by decide⟩, by simp⟩
  have hscattered : ∀ r ∈ scattered, r.OnScreen := by
    simp only [scattered, List.forall_mem_cons]
    exact ⟨⟨Or.inr rfl, by decide, by decide, by decide⟩, ⟨Or.inl rfl, by decide, by decide, by decide⟩,
      ⟨Or.inl rfl, by decide, by decide, by decide⟩, ⟨Or.inr rfl, by decide, by decide, by decide⟩, by simp⟩
  have hrefused := (@emitRuns_renews starry _ _ hlong hfull hnarrow).1.2 ⟨_, List.mem_cons_self, by decide⟩
  obtain ⟨block, hemit, hblock⟩ := (@emitRuns_renews starry _ _ hscattered hfull hnarrow).2 (by decide)
  obtain ⟨hassemble, hrun⟩ := hblock (fun _ => some 0x0400) 0x0400 0x1000 rfl
  -- The builder was empty, so that it is now what was added.
  have hmodule : block.moduleLines {} = (starry.emitRuns scattered stars).1.moduleLines := by
    rw [hemit]
    rfl
  have hbytes : block.stats.dataBytes = 25 := by
    have hstats : (starry.emitRuns scattered stars).1.stats.dataBytes = 25 := by decide +kernel
    rw [hemit] at hstats
    exact (Nat.zero_add _).symm.trans hstats
  have hhidden : starry.target.screen ∉ labelsOf (block.moduleLines {}) := by
    rw [hmodule]
    decide +kernel
  obtain ⟨assembly, hassembly⟩ := hassemble.2 hhidden
  obtain ⟨hsize, hrun⟩ := hrun assembly hassembly
  have hdisjoint : Disjoint {} 0x0400 ⟨0x1000, assembly.data.length⟩ := by
    rw [hsize, hbytes]
    constructor
    · simp [Region.Fits, Screen.cells, Screen.width, Screen.height]
    · simp [Region.Apart, Screen.cells, Screen.width, Screen.height]
  exact ⟨hrefused, block, assembly, hemit, hassembly, hdisjoint, hrun hdisjoint⟩

end Petscii.Program

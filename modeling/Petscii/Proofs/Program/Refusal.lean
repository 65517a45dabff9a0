import Petscii.Proofs.Program.Ledger

/-!
# Transitions that are refused

A transition is refused for two reasons only: the builder is finished, or the frames differ in size. Both
are found before anything is written. What comes after that always succeeds, for planes of any length: the
runs are cut to fit the index register, a loop walks no more than its longest run, and the next frame has a
value for every cell of it. So a builder that refuses a transition is as it was before.
-/

namespace Petscii.Frame

/-- A frame with a colour for every character. At eight bytes a cell, no plane is longer than a memory of
2^64 bytes. -/
structure Matched (f : Frame) : Prop where
  colors : f.colors.length = f.chars.length
  held : 8 * f.chars.length ≤ wordCount

/-- Two frames with the same width and height and with planes of the same lengths. -/
structure SameSize (a b : Frame) : Prop where
  width : a.width = b.width
  height : a.height = b.height
  chars : a.chars.length = b.chars.length
  colors : a.colors.length = b.colors.length

theorem Matched.length_plane {f : Frame} (hf : f.Matched) (p : Plane) :
    (f.plane p).length = f.chars.length := by
  cases p with
  | colors => exact hf.colors
  | _ => rfl

theorem slice_eq_ok {f : Frame} {p : Plane} {first last : Int} (hlow : 0 ≤ first) (hle : first ≤ last)
    (hhigh : last < (f.plane p).length) :
    f.slice p first last = .ok (((f.plane p).drop first.toNat).take (last + 1 - first).toNat) := by
  rw [slice, if_pos (by omega)]

theorem xor_of_not_sameSize {a b : Frame} (h : ¬ a.SameSize b) :
    a.xor b = .error (.sizesDiffer .combined a.size b.size) := by
  rw [xor, if_pos]
  by_contra hsame
  simp only [not_or, Decidable.not_not] at hsame
  obtain ⟨hwidth, hheight, hchars, hcolors⟩ := hsame
  exact h ⟨hwidth, hheight, hchars, hcolors⟩

theorem Matched.xor_eq {a b : Frame} (ha : a.Matched) (hb : b.Matched) (h : a.SameSize b) :
    ∃ delta, a.xor b = .ok delta ∧ delta.chars.length = b.chars.length ∧
      delta.colors.length = b.chars.length := by
  have hchars := h.chars
  have hcolors := ha.colors
  have hcolors' := hb.colors
  refine ⟨_, by rw [xor, if_neg (by simp [h.width, h.height, h.chars, h.colors]), if_neg (by omega)], ?_, ?_⟩
  · simp only [List.length_zipWith]
    omega
  · simp only [List.length_append, List.length_zipWith, List.length_take, List.length_replicate]
    omega

end Petscii.Frame

namespace Petscii.Program

section Steps

variable {target : Target} {next : Frame}

theorem exists_stepBlock (hnext : next.Matched) {step : Run.Step}
    (hsmall : step.span.Small 255 next.chars.length) (n : Nat) :
    ∃ block, stepBlock target next n step = .ok block := by
  have hheld := hnext.held
  have hlow := hsmall.low
  have hle := hsmall.nonempty
  have hhigh := hsmall.high
  have hshort := hsmall.short
  simp only [wordCount] at hheld
  cases step with
  | store r =>
    simp only [Run.Step.span] at hlow hle hhigh
    have hcell : r.span.first.toNat < (next.plane r.plane).length := by
      rw [hnext.length_plane]
      omega
    have hone : next.slice r.plane r.span.first r.span.first =
        .ok [(next.plane r.plane)[r.span.first.toNat]] := by
      rw [Frame.slice_eq_ok hlow (Int.le_refl _) (by omega), List.drop_eq_getElem_cons hcell,
        show (r.span.first + 1 - r.span.first).toNat = 0 + 1 by omega, List.take_succ_cons, List.take_zero]
    rw [stepBlock, storeBlock, hone]
    exact ⟨_, rfl⟩
  | loop anchor riders =>
    obtain ⟨tables, htables, _⟩ := Frame.mapM_ok (P := fun _ _ => True) (l := anchor :: riders)
      fun r _ => ⟨_, Frame.slice_eq_ok (p := r.plane) hlow hle (by rwa [hnext.length_plane]), trivial⟩
    have hlength := hsmall.length_eq (by omega)
    rw [stepBlock, loopBlock, if_neg (by rw [hlength]; simp only [maxLoop]; omega), htables]
    exact ⟨_, rfl⟩

/-- The changes between frames of one size are always written. -/
theorem exists_stepsBlock (hnext : next.Matched) {delta : Frame}
    (hchars : delta.chars.length = next.chars.length) (hcolors : delta.colors.length = next.chars.length)
    (n : Nat) :
    ∃ block, stepsBlock target next n (Run.schedule (Builder.changedRuns delta)) = (block, .ok ()) := by
  have hheld := hnext.held
  simp only [wordCount] at hheld
  have hruns := changedRuns_small hchars hcolors (by omega)
  have hsteps : ∀ step ∈ Run.schedule (Builder.changedRuns delta),
      step.span.Small 255 next.chars.length := by
    intro step hstep
    obtain ⟨⟨r, hr, hspan⟩, _⟩ := Run.schedule_span_of_proper
      (fun r hr => ⟨(hruns r hr).1, (hruns r hr).2.nonempty⟩) hstep
    rw [hspan]
    exact (hruns r (Run.mem_of_mem_schedule hstep hr)).2
  obtain ⟨block, hblock, _⟩ := stepsBlock_ok target (P := fun _ _ _ => True) (Q := fun _ _ _ => True)
    (fun step hstep n =>
      (exists_stepBlock hnext (hsteps step hstep) n).imp fun block hblock => ⟨hblock, trivial⟩)
    (fun _ => trivial) (fun _ _ _ _ _ _ _ => trivial) n
  exact ⟨block, hblock⟩

end Steps

section Refusal

variable (b : Builder) {prev next : Frame}

theorem addTransition_of_finished (hdone : b.finished = true) (prev next : Frame) :
    b.addTransition prev next = (b, .error .finished) := by
  rw [Builder.addTransition, if_pos hdone]

theorem addTransition_of_not_sameSize (hopen : b.finished = false) (h : ¬ prev.SameSize next) :
    b.addTransition prev next = (b, .error (.frames (.sizesDiffer .combined prev.size next.size))) := by
  simp only [Builder.addTransition, hopen, Bool.false_eq_true, if_false, Frame.xor_of_not_sameSize h]

theorem addTransition_of_sameSize (hopen : b.finished = false) (hprev : prev.Matched) (hnext : next.Matched)
    (h : prev.SameSize next) : ∃ b' runs, b.addTransition prev next = (b', .ok runs) := by
  obtain ⟨delta, hxor, hchars, hcolors⟩ := hprev.xor_eq hnext h
  obtain ⟨block, hblock⟩ := @exists_stepsBlock b.target next hnext delta hchars hcolors b.labels
  exact ⟨_, _, addTransition_eq hopen hxor hblock⟩

/-- Whatever calls have been made of a builder, it refuses a transition exactly if it is finished or the
frames differ in size, never because a loop is too long, and then it stays as it is. -/
theorem addTransition_refused_iff (hprev : prev.Matched) (hnext : next.Matched) :
    (∀ e, (b.addTransition prev next).2 = .error e ↔
      b.finished = true ∧ e = .finished ∨
        b.finished = false ∧ ¬ prev.SameSize next ∧
          e = .frames (.sizesDiffer .combined prev.size next.size)) ∧
      (∀ span, (b.addTransition prev next).2 ≠ .error (.loopTooLong span)) ∧
      ∀ e, (b.addTransition prev next).2 = .error e → (b.addTransition prev next).1 = b := by
  cases hfinished : b.finished with
  | true =>
    rw [addTransition_of_finished b hfinished]
    simp [eq_comm]
  | false =>
    by_cases hsame : prev.SameSize next
    · obtain ⟨b', runs, hadd⟩ := addTransition_of_sameSize b hfinished hprev hnext hsame
      rw [hadd]
      simp [hsame]
    · rw [addTransition_of_not_sameSize b hfinished hsame]
      simp [hsame, eq_comm]

end Refusal

/-- Two rows, each wider than a loop is long. -/
def ribbon : Frame :=
  ⟨"_ribbon", 6, 6, 300, 2, List.replicate 600 32, List.replicate 600 15⟩

def braid : Frame :=
  ⟨"_braid", 6, 6, 300, 2, List.replicate 600 102, List.replicate 600 15⟩

/-- The builder that begins with the clouds, after some calls. -/
def overcast (calls : List Call) : Builder :=
  Builder.performAll { target := {}, initial := clouds } calls

theorem addTransition_refused_iff_ribbon :
    ribbon.Matched ∧ braid.Matched ∧ clouds.Matched ∧
      (∃ runs, ((overcast [.add clouds rain]).addTransition ribbon braid).2 = .ok runs) ∧
      ((overcast [.add clouds rain]).addTransition ribbon clouds).2 =
        .error (.frames (.sizesDiffer .combined ribbon.size clouds.size)) ∧
      ((overcast [.add clouds rain]).addTransition ribbon clouds).1 = overcast [.add clouds rain] ∧
      ((overcast showers).addTransition ribbon braid).2 = .error .finished ∧
      ((overcast showers).addTransition ribbon braid).1 = overcast showers := by
  have hstrip : ∀ (f : Frame) (n : Nat) (a c : Cell), f.chars = List.replicate n a →
      f.colors = List.replicate n c → 8 * n ≤ wordCount → f.Matched := by
    intro f n a c hchars hcolors hn
    constructor
    · rw [hchars, hcolors, List.length_replicate, List.length_replicate]
    · rwa [hchars, List.length_replicate]
  have hribbon : ribbon.Matched := hstrip ribbon 600 32 15 rfl rfl (by decide)
  have hbraid : braid.Matched := hstrip braid 600 102 15 rfl rfl (by decide)
  have hclouds : clouds.Matched := hstrip clouds 1000 32 15 rfl rfl (by decide)
  have hfull : clouds.Full := ⟨rfl, rfl, List.length_replicate, List.length_replicate⟩
  have hfull' : rain.Full := ⟨rfl, rfl, by rw [rain, List.length_cons, List.length_replicate]; rfl,
    List.length_replicate⟩
  have hfinished : ∀ calls, (∀ call ∈ calls, call.Full) → (overcast calls).finished = finishes calls :=
    fun calls hcalls => ((Books.begin {} clouds).performAll rfl hcalls).2
  have hopen : (overcast [.add clouds rain]).finished = false :=
    hfinished _ (by simp only [List.forall_mem_cons]; exact ⟨⟨hfull, hfull'⟩, by simp⟩)
  have hdone : (overcast showers).finished = true := by
    apply hfinished
    simp only [showers, List.forall_mem_cons]
    exact ⟨⟨hfull, hfull'⟩, ⟨hfull', hfull⟩, trivial, ⟨hfull, hfull'⟩, trivial, by simp⟩
  have hsame : ribbon.SameSize braid := ⟨rfl, rfl,
    List.length_replicate.trans List.length_replicate.symm, rfl⟩
  have hdiffer : ¬ ribbon.SameSize clouds := fun h => absurd h.width (by decide)
  obtain ⟨hreasons, _, _⟩ := addTransition_refused_iff (overcast [.add clouds rain]) hribbon hbraid
  obtain ⟨hreasons', _, hkept'⟩ := addTransition_refused_iff (overcast [.add clouds rain]) hribbon hclouds
  obtain ⟨hreasons'', _, hkept''⟩ := addTransition_refused_iff (overcast showers) hribbon hbraid
  have hmismatch := (hreasons' (.frames (.sizesDiffer .combined ribbon.size clouds.size))).2
    (Or.inr ⟨hopen, hdiffer, rfl⟩)
  have hlate := (hreasons'' .finished).2 (Or.inl ⟨hdone, rfl⟩)
  refine ⟨hribbon, hbraid, hclouds, ?_, hmismatch, hkept' _ hmismatch, hlate, hkept'' _ hlate⟩
  cases hadd : ((overcast [.add clouds rain]).addTransition ribbon braid).2 with
  | ok runs => exact ⟨runs, rfl⟩
  | error e =>
    rcases (hreasons e).1 hadd with ⟨hclosed, _⟩ | ⟨_, hother, _⟩
    · rw [hopen] at hclosed
      cases hclosed
    · exact absurd hsame hother

end Petscii.Program

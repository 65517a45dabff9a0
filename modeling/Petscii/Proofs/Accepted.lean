import Petscii.Proofs.Patch.Transitions
import Petscii.Proofs.Program.Ledger
import Petscii.Proofs.Program.Play
import Petscii.Proofs.Source.RoundTrip

/-!
# What follows from an accepted source

The frames of a source that was read fill the screen, and selecting a piece leaves at least one of them. No
error that is guarded against behind the reader can then come up: rows and cells are where they are looked
for, any two frames can be compared and combined, every change fits the index register, and both generators
and the printer succeed. Only a program needs two frames.
-/

namespace Petscii

/-- Two frames can be compared and combined, every step between them stays on the screen, fits a loop and
becomes a block, and every builder that is still open takes their transition. -/
structure Frame.Joins (prev next : Frame) : Prop where
  compared : ∃ rows, prev.changedRows next = .ok rows ∧ rows.length = Screen.height
  combined : ∃ delta, prev.xor next = .ok delta ∧ delta.Full ∧
    ∀ step ∈ Run.schedule (Program.Builder.changedRuns delta),
      (∃ first count, step.Walks first count) ∧
      ∀ target labels, ∃ block, Program.stepBlock target next labels step = .ok block
  added : ∀ b : Program.Builder, b.finished = false →
    ∃ b' runs, b.addTransition prev next = (b', .ok runs) ∧ b'.finished = false

/-- Everything that can be made of a reel is made of it, in every sink that is never full. -/
structure Reel.Generates (reel : Reel) : Prop where
  frames_ne_nil : reel.frames ≠ []
  full : ∀ f ∈ reel.frames, f.Full
  rows : ∀ f ∈ reel.frames, ∀ p r, r < Screen.height →
    ∃ row, f.row p r = .ok row ∧ row.length = Screen.width
  joins : ∀ prev ∈ reel.frames, ∀ next ∈ reel.frames, prev.Joins next
  script : ∀ target pingPong, ∃ s, Patch.script target pingPong reel = .ok s ∧
    Patch.write none target pingPong reel = (utf8 s.text, .ok s.names)
  fails_iff : ∀ target, (∃ e, (Program.write none target reel).2 = .error e) ↔ reel.frames.length = 1
  alone : ∀ target, reel.frames.length = 1 →
    Program.write none target reel = ([], .error (.tooFewFrames 1))
  program : ∀ target, reel.frames.length ≠ 1 → ∃ b runs, Program.transitions target reel = .ok (b, runs) ∧
    Program.write none target reel = (utf8 b.close.text, .ok b.close.stats)
  source : ∃ text, Source.print reel = .ok text ∧ Source.write none reel = (utf8 text, .ok ())

/-! ### Two frames -/

theorem Frame.Full.exists_row {f : Frame} (hf : f.Full) (p : Plane) {r : Nat} (hr : r < Screen.height) :
    ∃ row, f.row p r = .ok row ∧ row.length = Screen.width := by
  refine ⟨_, hf.row_eq p hr, ?_⟩
  rw [List.length_take, List.length_drop, hf.length_plane]
  simp only [Screen.height, Screen.width, Screen.cells] at *
  omega

theorem Program.addTransition_ok {prev next : Frame} (hprev : prev.Full) (hnext : next.Full)
    {b : Program.Builder} (hopen : b.finished = false) :
    ∃ b' runs, b.addTransition prev next = (b', .ok runs) ∧ b'.finished = false := by
  obtain ⟨delta, block, hxor, hblock, _⟩ := exists_transitionBlock b.target hprev hnext b.labels
  exact ⟨_, _, addTransition_eq hopen hxor hblock, hopen⟩

theorem Frame.Full.joins {prev next : Frame} (hprev : prev.Full) (hnext : next.Full) : prev.Joins next where
  compared := by
    obtain ⟨rows, hrows, hlength, _⟩ := changedRows_eq hprev hnext
    exact ⟨rows, hrows, hlength⟩
  combined := by
    obtain ⟨delta, hxor, hdelta, _⟩ := hprev.xor_eq hnext
    refine ⟨delta, hxor, hdelta, fun step hstep => ?_⟩
    obtain ⟨first, count, hwalks, _⟩ := Run.schedule_walks (Program.changedRuns_fits hdelta) hstep
    refine ⟨⟨first, count, hwalks⟩, fun target labels => ?_⟩
    obtain ⟨block, hblock, _⟩ := Program.stepBlock_booked target hnext labels hwalks
    exact ⟨block, hblock⟩
  added b hopen := Program.addTransition_ok hprev hnext hopen

/-! ### Reels -/

namespace Program

theorem addAll_ok {frames : List Frame} (hfull : ∀ f ∈ frames, f.Full) (i : Nat) {b : Builder}
    (hopen : b.finished = false) :
    ∃ b' runs, Builder.addAll i b frames = .ok (b', runs) ∧ b'.finished = false := by
  induction frames generalizing i b with
  | nil => exact ⟨b, [], rfl, hopen⟩
  | cons prev frames ih =>
    cases frames with
    | nil => exact ⟨b, [], rfl, hopen⟩
    | cons next rest =>
      obtain ⟨hprev, hrest⟩ := List.forall_mem_cons.1 hfull
      obtain ⟨b', runs, hadd, hopen'⟩ := addTransition_ok hprev (hrest next List.mem_cons_self) hopen
      obtain ⟨b'', more, hall, hopen''⟩ := ih hrest (i + 1) hopen'
      refine ⟨b'', runs :: more, ?_, hopen''⟩
      rw [Builder.addAll, hadd]
      simp only [hall]
      rfl

theorem transitions_ok (target : Target) {reel : Reel} (hne : reel.frames ≠ [])
    (hfull : ∀ f ∈ reel.frames, f.Full) (htwo : reel.frames.length ≠ 1) :
    ∃ b runs, transitions target reel = .ok (b, runs) ∧ b.finished = false := by
  rw [transitions]
  cases hreel : reel.frames with
  | nil => exact absurd hreel hne
  | cons first frames =>
    rw [hreel] at hfull htwo
    cases frames with
    | nil => exact absurd rfl htwo
    | cons second rest => exact addAll_ok hfull 0 rfl

theorem write_of_single (target : Target) {reel : Reel} (hone : reel.frames.length = 1) :
    write none target reel = ([], .error (.tooFewFrames 1)) := by
  obtain ⟨f, hreel⟩ := List.length_eq_one_iff.1 hone
  rw [write, transitions, hreel]
  rfl

end Program

theorem Source.Readable.generates {reel : Reel} (h : Source.Readable reel) : reel.Generates where
  frames_ne_nil := h.frames_ne_nil
  full f hf := (h.frames f hf).full
  rows f hf p _ hr := (h.frames f hf).full.exists_row p hr
  joins prev hprev next hnext := (h.frames prev hprev).full.joins (h.frames next hnext).full
  script target pingPong := by
    obtain ⟨changes, hscript, _⟩ := Patch.script_eq target pingPong h.frames_ne_nil
      fun f hf => (h.frames f hf).full
    exact ⟨_, hscript, Patch.write_eq hscript⟩
  fails_iff target := by
    constructor
    · rintro ⟨e, he⟩
      by_contra htwo
      obtain ⟨b, runs, hbuilt, hopen⟩ := Program.transitions_ok target h.frames_ne_nil
        (fun f hf => (h.frames f hf).full) htwo
      rw [Program.write_eq hbuilt hopen] at he
      cases he
    · intro hone
      exact ⟨_, by rw [Program.write_of_single target hone]⟩
  alone target hone := Program.write_of_single target hone
  program target htwo := by
    obtain ⟨b, runs, hbuilt, hopen⟩ := Program.transitions_ok target h.frames_ne_nil
      (fun f hf => (h.frames f hf).full) htwo
    exact ⟨b, runs, hbuilt, Program.write_eq hbuilt hopen⟩
  source := by
    obtain ⟨text, hprint, _⟩ := h.parse_print
    exact ⟨text, hprint, Source.writes_of_print hprint none (by simp)⟩

/-- Whatever is selected from a reel that was read, nothing that is made of it can fail, but for a program
of a single frame. -/
theorem select_generates {source : Bytes} {reel kept : Reel} {first last : Int}
    (hparse : Source.parse source = .ok reel) (hselect : reel.select first last = (kept, .ok ())) :
    kept.Generates :=
  ((Source.readable_of_parse hparse).select hselect).generates

theorem select_generates_weather :
    Source.parse (Source.write none Source.weather).1 = .ok Source.weather ∧
      Source.weather.select 0 1 = ({ Source.weather with frames := Source.weather.frames.take 2 }, .ok ()) ∧
      (Source.weather.frames.take 2).Nodup ∧
      Reel.Generates { Source.weather with frames := Source.weather.frames.take 2 } := by
  obtain ⟨text, hprint, hback⟩ := Source.readable_weather.parse_print
  have hparse : Source.parse (Source.write none Source.weather).1 = .ok Source.weather := by
    rw [Source.writes_of_print hprint none (by simp)]
    exact hback
  have hselect : Source.weather.select 0 1 =
      ({ Source.weather with frames := Source.weather.frames.take 2 }, .ok ()) := rfl
  have hnames : ((Source.weather.frames.take 2).map Frame.name).Nodup := by decide
  exact ⟨hparse, hselect, List.Nodup.of_map _ hnames, select_generates hparse hselect⟩

end Petscii

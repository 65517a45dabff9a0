import Mathlib.Data.List.Forall2
import Petscii.Proofs.Source.Memo

/-!
# What the parser accepts

The parser accepts exactly the files of the grammar whose numbers fit and whose arrays are as long as a
frame, and the reel it gives is the one the file means.
-/

namespace Petscii.Source

/-! ### The journal -/

theorem Journal.fatal_add {j : Journal} {note : Note} :
    (j.add note).fatal = none ↔ j.fatal = none ∧ note.isFatal = false := by
  cases note with
  | expected offset token =>
    have hkept : (j.add (.expected offset token)).fatal = j.fatal := by
      rw [Journal.add]
      split
      · rfl
      · split <;> rfl
    rw [hkept]
    exact ⟨fun h => ⟨h, rfl⟩, fun h => h.1⟩
  | tooLarge offset digits =>
    rw [Journal.add]
    cases hfatal : j.fatal <;> simp [hfatal, Note.isFatal]
  | badFrame offset cause => simp [Journal.add, Note.isFatal]

theorem Journal.fatal_addAll {j : Journal} {notes : List Note} :
    (j.addAll notes).fatal = none ↔ j.fatal = none ∧ Harmless notes := by
  induction notes generalizing j with
  | nil => exact ⟨fun h => ⟨h, harmless_nil⟩, fun h => h.1⟩
  | cons note notes ih =>
    have hstep : j.addAll (note :: notes) = (j.add note).addAll notes := rfl
    rw [hstep, ih, Journal.fatal_add, Harmless, Harmless, List.forall_mem_cons, and_assoc]

theorem Progress.fatal_note {p : Progress} {notes : List Note} :
    (p.note notes).journal.fatal = none ↔ p.journal.fatal = none ∧ Harmless notes :=
  Journal.fatal_addAll

/-! ### Frames and canvas of some items -/

theorem builds_full {ps : List Production} {fs : List Frame} (h : List.Forall₂ Builds ps fs) :
    ∀ f ∈ fs, f.Full := by
  induction h with
  | nil => simp
  | cons hbuilds _ ih => exact List.forall_mem_cons.2 ⟨(Frame.ofPayload_eq_ok.1 hbuilds).1, ih⟩

theorem builds_length {ps : List Production} {fs : List Frame} (h : List.Forall₂ Builds ps fs) :
    ∀ p ∈ ps, p.data.length = Screen.headerSize + 2 * Screen.cells := by
  induction h with
  | nil => simp
  | cons hbuilds _ ih =>
    refine List.forall_mem_cons.2 ⟨?_, ih⟩
    obtain ⟨hfull, _, hpayload⟩ := Frame.ofPayload_eq_ok.1 hbuilds
    have hlength := hfull.length_payload
    rwa [hpayload, List.length_map] at hlength

/-- Frames are built from productions exactly if they have their names and payloads. -/
theorem builds_iff {ps : List Production} {fs : List Frame} :
    List.Forall₂ Builds ps fs ↔ (∀ f ∈ fs, f.Full) ∧
      fs.map (fun f => (f.name, f.payload)) =
        ps.map fun p => ("_" ++ asciiText p.name, p.data.map Int64.ofNat) := by
  constructor
  · intro h
    refine ⟨builds_full h, ?_⟩
    induction h with
    | nil => rfl
    | cons hbuilds _ ih =>
      obtain ⟨_, hname, hpayload⟩ := Frame.ofPayload_eq_ok.1 hbuilds
      rw [List.map_cons, List.map_cons, ih, hname, hpayload]
  · rintro ⟨hfull, hmap⟩
    induction ps generalizing fs with
    | nil =>
      rw [List.map_nil, List.map_eq_nil_iff] at hmap
      rw [hmap]
      exact List.Forall₂.nil
    | cons p ps ih =>
      cases fs with
      | nil => cases hmap
      | cons f fs =>
        obtain ⟨hf, hfs⟩ := List.forall_mem_cons.1 hfull
        obtain ⟨hhead, htail⟩ := List.cons.inj hmap
        obtain ⟨hname, hpayload⟩ := Prod.mk.inj hhead
        exact List.Forall₂.cons (Frame.ofPayload_eq_ok.2 ⟨hf, hname, hpayload⟩) (ih hfs htail)

theorem lastCanvas_cons (item : Item) (items : List Item) :
    lastCanvas (item :: items) = (lastCanvas items).or item.canvas := by
  cases hcanvas : item.canvas with
  | none => rw [lastCanvas, List.filterMap_cons_none hcanvas, Option.or_none, lastCanvas]
  | some size =>
    rw [lastCanvas, List.filterMap_cons_some hcanvas, List.getLast?_cons, lastCanvas]
    cases (items.filterMap Item.canvas).getLast? <;> rfl

structure Adds (its : List Item) (fs : List Frame) (p p' : Progress) : Prop where
  builds : List.Forall₂ Builds (productions its) fs
  frames : p'.frames = fs.reverse ++ p.frames
  canvas : p'.canvas = (lastCanvas its).or p.canvas

theorem Adds.nil {p p' : Progress} (hframes : p'.frames = p.frames) (hcanvas : p'.canvas = p.canvas) :
    Adds [] [] p p' where
  builds := List.Forall₂.nil
  frames := hframes
  canvas := hcanvas

theorem Adds.comment {its : List Item} {fs : List Frame} {p p₁ p' : Progress} {numbers : List Nat}
    (h : Adds its fs (p₁.declare (canvasOf numbers)) p') (hframes : p₁.frames = p.frames)
    (hcanvas : p₁.canvas = p.canvas) : Adds (.comment numbers :: its) fs p p' where
  builds := h.builds
  frames := by
    rw [h.frames, ← hframes]
    rfl
  canvas := by
    rw [h.canvas, lastCanvas_cons, Option.or_assoc, ← hcanvas]
    rfl

theorem Adds.frame {its : List Item} {fs : List Frame} {p p₁ p' : Progress} {production : Production}
    {f : Frame}
    (h : Adds its fs ({ p₁ with frames := f :: p₁.frames }.declare (Item.frame production).canvas) p')
    (hbuilds : Builds production f) (hframes : p₁.frames = p.frames) (hcanvas : p₁.canvas = p.canvas) :
    Adds (.frame production :: its) (f :: fs) p p' where
  builds := List.Forall₂.cons hbuilds h.builds
  frames := by
    rw [h.frames, List.reverse_cons, List.append_assoc, ← hframes]
    rfl
  canvas := by
    rw [h.canvas, lastCanvas_cons, Option.or_assoc, ← hcanvas]
    rfl

/-! ### Reading a file -/

/-- If no note ends the parse, the text read is made of items with numbers that fit. -/
theorem items_sound {rounds : Nat} {p p' : Progress} {c c' : Cursor}
    (h : items .plain rounds p () c = (p', c', ())) (hfatal : p'.journal.fatal = none) :
    p.journal.fatal = none ∧ ∃ its fs, Adds its fs p p' ∧
      (∀ more, ReadsItems more c'.rest → ReadsItems (its ++ more) c.rest) ∧
      ∀ item ∈ its, ∀ n ∈ item.numbers, n < Terminal.numberLimit := by
  induction rounds generalizing p c with
  | zero =>
    cases h
    exact ⟨hfatal, [], [], Adds.nil rfl rfl, fun _ hmore => hmore, by simp⟩
  | succ rounds ih =>
    have hplain : Rules.plain.comment () c = (comment c, ()) := rfl
    rw [items, hplain] at h
    cases hcomment : (comment c).result with
    | some found =>
      obtain ⟨size, next⟩ := found
      simp only [hcomment] at h
      obtain ⟨hfatal₁, its, fs, hadds, hreads, hsmall⟩ := ih h
      obtain ⟨hfatal₀, hharmless⟩ := Progress.fatal_note.1 hfatal₁
      obtain ⟨_, numbers, hcommentReads, rfl, hnumbers⟩ := comment_sound hcomment hharmless
      refine ⟨hfatal₀, .comment numbers :: its, fs, hadds.comment rfl rfl, ?_, ?_⟩
      · exact fun more hmore => ReadsItems.comment hcommentReads (hreads more hmore)
      · exact List.forall_mem_cons.2 ⟨hnumbers, hsmall⟩
    | none =>
      simp only [hcomment] at h
      split at h
      · next hsome =>
        cases h
        rw [hfatal] at hsome
        cases hsome
      · cases hframe : (Rules.plain.frame () c).1.result with
        | none =>
          simp only [hframe] at h
          cases h
          have hfatal₀ := (Progress.fatal_note.1 (Progress.fatal_note.1 hfatal).1).1
          exact ⟨hfatal₀, [], [], Adds.nil rfl rfl, fun _ hmore => hmore, by simp⟩
        | some found =>
          obtain ⟨⟨f, size⟩, next⟩ := found
          simp only [hframe] at h
          obtain ⟨hfatal₁, its, fs, hadds, hreads, hsmall⟩ := ih h
          obtain ⟨hfatal₂, hharmless⟩ := Progress.fatal_note.1 hfatal₁
          have houtcome : (Rules.plain.frame () c).1 = ⟨some ((f, size), next), _⟩ :=
            congrArg (Outcome.mk · (Rules.plain.frame () c).1.notes) hframe
          obtain ⟨_, production, hframeReads, hbuilds, rfl, hnumbers⟩ := plain_frame_sound houtcome hharmless
          refine ⟨(Progress.fatal_note.1 hfatal₂).1, .frame production :: its, f :: fs,
            hadds.frame hbuilds rfl rfl, ?_, ?_⟩
          · exact fun more hmore => ReadsItems.frame hframeReads (hreads more hmore)
          · exact List.forall_mem_cons.2 ⟨hnumbers, hsmall⟩

theorem not_spaced {text s t : Bytes} (hs : ∀ b ∈ s, isSpace b = true) (hsolid : Off isSpace (text ++ t))
    (hne : text ≠ []) : ¬ Spaced text s t := by
  intro h
  rw [spaced_iff hsolid, List.dropWhile_eq_nil_iff.2 hs] at h
  exact hne (List.append_eq_nil_iff.1 h.symm).1

theorem ReadsFrame.keyword {p : Production} {s t : Bytes} (h : ReadsFrame p s t) :
    ∃ u, ReadsKeyword .unsigned s u := by
  obtain ⟨_, _, _, ⟨u, _, _, _, _, _, hkeyword, _⟩, _⟩ := h
  exact ⟨u, hkeyword⟩

theorem ReadsFrame.length_lt {p : Production} {s t : Bytes} (h : ReadsFrame p s t) : t.length < s.length := by
  obtain ⟨s₁, s₂, s₃, hhead, hremark, hdata, u, hbrace, hsemicolon⟩ := h
  have hlt₁ := hhead.length_lt
  have hle₂ := hremark.length_le
  have hle₃ := hdata.length_le
  have hlt₄ := hbrace.length_lt
  have hlt₅ := hsemicolon.length_lt
  omega

theorem ReadsItems.length_le {its : List Item} {s : Bytes} (h : ReadsItems its s) : its.length ≤ s.length := by
  induction h with
  | done => exact Nat.zero_le _
  | comment hreads _ ih =>
    have hlt := hreads.length_lt
    rw [List.length_cons]
    omega
  | frame hreads _ ih =>
    have hlt := hreads.length_lt
    rw [List.length_cons]
    omega

/-- A file with numbers that fit is read to its end, given enough rounds. -/
theorem items_complete {its : List Item} {s : Bytes} (h : ReadsItems its s) {rounds : Nat} {p : Progress}
    {c : Cursor} {fs : List Frame} (hs : c.rest = s) (hrounds : its.length ≤ rounds)
    (hsmall : ∀ item ∈ its, ∀ n ∈ item.numbers, n < Terminal.numberLimit)
    (hbuilds : List.Forall₂ Builds (productions its) fs) (hfatal : p.journal.fatal = none) :
    ∃ p' c', items .plain (rounds + 1) p () c = (p', c', ()) ∧ p'.journal.fatal = none ∧ Adds its fs p p' ∧
      ∀ b ∈ c'.rest, isSpace b = true := by
  have hplain : Rules.plain.comment () c = (comment c, ()) := rfl
  induction h generalizing rounds p c fs with
  | done hspace =>
    subst hs
    have hmark : ∀ t, ¬ ReadsMark .slashes c.rest t :=
      fun t => not_spaced hspace (solid_mark .slashes t) (by decide)
    have hkeyword : ∀ t, ¬ ReadsKeyword .unsigned c.rest t :=
      fun t ht => not_spaced hspace (solid_keyword .unsigned t) (by decide) ht.1
    obtain ⟨hnone, hharmless⟩ := comment_absent hmark
    have hfatal₁ := Progress.fatal_note.2 ⟨hfatal, hharmless⟩
    cases hbuilds
    refine ⟨_, c, ?_, Progress.fatal_note.2 ⟨hfatal₁, harmless_expected (c.skip isSpace).offset
      (.keyword .unsigned)⟩, Adds.nil rfl rfl, hspace⟩
    simp only [items, hplain, hnone, hfatal₁, Option.isSome_none, Bool.false_eq_true, if_false,
      plain_frame_absent hkeyword]
  | @comment numbers its s t hreads _ ih =>
    subst hs
    obtain ⟨hnumbers, hsmalls⟩ := List.forall_mem_cons.1 hsmall
    have hcomment := comment_of_fitting hreads hnumbers
    have hfatal₁ : ((p.note []).declare (canvasOf numbers)).journal.fatal = none := hfatal
    rw [List.length_cons] at hrounds
    obtain ⟨rounds, rfl⟩ : ∃ k, rounds = k + 1 := ⟨rounds - 1, by omega⟩
    obtain ⟨p', c', hrun, hfatal', hadds, hspace⟩ :=
      @ih rounds _ (c.behind t) fs rfl (by omega) hsmalls hbuilds hfatal₁ rfl
    refine ⟨p', c', ?_, hfatal', hadds.comment rfl rfl, hspace⟩
    rw [items, hplain, hcomment]
    exact hrun
  | @frame production its s t hreads _ ih =>
    subst hs
    -- the comment rule comes first, and fails at the keyword
    obtain ⟨hnumbers, hsmalls⟩ := List.forall_mem_cons.1 hsmall
    obtain ⟨u, hkeyword⟩ := hreads.keyword
    obtain ⟨hnone, hharmless⟩ := comment_absent (hkeyword.not_mark .slashes)
    have hfatal₁ := Progress.fatal_note.2 ⟨hfatal, hharmless⟩
    cases hbuilds with
    | @cons _ f _ fs hbuild hbuilds =>
      obtain ⟨notes, houtcome, hharmless'⟩ := plain_frame_complete hreads hnumbers hbuild
      have hfatal₂ : ({ (p.note (comment c).notes).note notes with frames := f :: p.frames }.declare
          (Item.frame production).canvas).journal.fatal = none :=
        Progress.fatal_note.2 ⟨hfatal₁, hharmless'⟩
      rw [List.length_cons] at hrounds
      obtain ⟨rounds, rfl⟩ : ∃ k, rounds = k + 1 := ⟨rounds - 1, by omega⟩
      obtain ⟨p', c', hrun, hfatal', hadds, hspace⟩ :=
        @ih rounds _ (c.behind t) fs rfl (by omega) hsmalls hbuilds hfatal₂ rfl
      have hframe := @Adds.frame its fs p ((p.note (comment c).notes).note notes) p' production f hadds hbuild
        rfl rfl
      refine ⟨p', c', ?_, hfatal', hframe, hspace⟩
      simp only [items, hplain, hnone, hfatal₁, Option.isSome_none, Bool.false_eq_true, if_false, houtcome]
      exact hrun

/-! ### The meaning of a file -/

theorem Progress.frames_reel (p : Progress) : p.reel.frames = p.frames.reverse := by
  rw [reel]
  cases p.canvas <;> rfl

theorem Progress.canvas_reel (p : Progress) :
    (p.reel.canvasWidth, p.reel.canvasHeight) = declaredSize p.canvas := by
  rw [reel]
  cases p.canvas <;> rfl

theorem parseWith_plain {source : Bytes} {p : Progress} {c : Cursor}
    (h : items .plain (source.length + 1) {} () (Cursor.start source) = (p, c, ())) {reel : Reel} :
    (parseWith .plain () source).1 = .ok reel ↔
      p.journal.fatal = none ∧ (∀ b ∈ c.rest, isSpace b = true) ∧ p.frames ≠ [] ∧ p.reel = reel := by
  have hspace : (c.skip isSpace).rest = [] ↔ ∀ b ∈ c.rest, isSpace b = true := by
    rw [Cursor.rest_skip, List.dropWhile_eq_nil_iff]
  simp only [parseWith, h]
  cases hfatal : p.journal.fatal with
  | some found => simp
  | none =>
    simp only [hspace]
    split
    · next hboth =>
      rw [Except.ok.injEq]
      exact ⟨fun hreel => ⟨trivial, hboth.1, hboth.2, hreel⟩, fun hall => hall.2.2.2⟩
    · next hboth =>
      constructor
      · intro hok
        cases hok
      · rintro ⟨_, hrest, hframes, _⟩
        exact absurd ⟨hrest, hframes⟩ hboth

theorem Adds.means {its : List Item} {fs : List Frame} {p : Progress} (h : Adds its fs {} p) :
    Means its p.reel := by
  have hframes : p.reel.frames = fs := by
    rw [p.frames_reel, h.frames, List.append_nil, List.reverse_reverse]
  obtain ⟨hfull, hmap⟩ := builds_iff.1 h.builds
  constructor
  · rwa [hframes]
  · rwa [hframes]
  · rw [p.canvas_reel, h.canvas, Option.or_none]

theorem Means.unique {its : List Item} {reel reel' : Reel} (h : Means its reel) (h' : Means its reel') :
    reel = reel' := by
  have hbuilds : Relator.RightUnique Builds := fun _ _ _ hf hf' => Except.ok.inj (hf.symm.trans hf')
  have hframes : reel.frames = reel'.frames :=
    List.right_unique_forall₂' hbuilds (builds_iff.2 ⟨h.full, h.frames⟩) (builds_iff.2 ⟨h'.full, h'.frames⟩)
  obtain ⟨hwidth, hheight⟩ := Prod.mk.inj (h.canvas.trans h'.canvas.symm)
  obtain ⟨frames, width, height⟩ := reel
  obtain ⟨frames', width', height'⟩ := reel'
  cases hframes
  cases hwidth
  cases hheight
  rfl

/-- What the parser accepts is a file of the grammar, and the parser gives what it means. -/
theorem parse_sound {source : Bytes} {reel : Reel} (h : parse source = .ok reel) :
    ∃ its, ReadsFile its source ∧ Fitting its ∧ Means its reel := by
  rw [parse_eq_plain] at h
  cases hrun : items .plain (source.length + 1) {} () (Cursor.start source) with
  | mk p rest =>
    obtain ⟨c, _⟩ := rest
    obtain ⟨hfatal, hspace, hframes, rfl⟩ := (parseWith_plain hrun).1 h
    obtain ⟨_, its, fs, hadds, hreads, hsmall⟩ := items_sound hrun hfatal
    have hfile := hreads [] (ReadsItems.done hspace)
    rw [List.append_nil] at hfile
    refine ⟨its, ⟨hfile, ?_⟩, ⟨hsmall, builds_length hadds.builds⟩, hadds.means⟩
    intro hnone
    have hnil := hadds.builds
    rw [hnone, List.forall₂_nil_left_iff] at hnil
    rw [hadds.frames, hnil] at hframes
    exact hframes rfl

theorem parse_complete {its : List Item} {source : Bytes} {reel : Reel} (h : ReadsFile its source)
    (hfitting : Fitting its) (hmeans : Means its reel) : parse source = .ok reel := by
  have hbuilds := builds_iff.2 ⟨hmeans.full, hmeans.frames⟩
  obtain ⟨p, c, hrun, hfatal, hadds, hspace⟩ := @items_complete _ _ h.1 source.length {} (Cursor.start source) _
    rfl h.1.length_le hfitting.numbers hbuilds rfl
  rw [parse_eq_plain, parseWith_plain hrun]
  refine ⟨hfatal, hspace, ?_, hadds.means.unique hmeans⟩
  intro hnil
  rw [hadds.frames, List.append_nil, List.reverse_eq_nil_iff] at hnil
  rw [hnil, List.forall₂_nil_right_iff] at hbuilds
  exact h.2 hbuilds

/-- The parser accepts a text exactly if it is a file of the grammar whose numbers fit and whose arrays are
as long as a frame, and it gives the reel that the file means. -/
theorem parse_eq_ok_iff_means {source : Bytes} {reel : Reel} :
    parse source = .ok reel ↔ ∃ its, ReadsFile its source ∧ Fitting its ∧ Means its reel := by
  constructor
  · exact parse_sound
  · rintro ⟨its, hfile, hfitting, hmeans⟩
    exact parse_complete hfile hfitting hmeans

end Petscii.Source

import Petscii.Proofs.Source.Noted

/-!
# Which problem is reported

Of the problems that a parse meets, numbers that are too large and arrays that form no frame, the first one
is reported, whatever is read behind it. There is one exception. A number that is too large in the comment
behind a frame's brace does not end the frame, and if the frame's array has the wrong length, this is
reported instead.
-/

namespace Petscii.Source

def Note.problem : Note → Option (Nat × Problem)
  | .expected _ _ => none
  | .tooLarge offset digits => some (offset, .tooLarge digits)
  | .badFrame offset cause => some (offset, .badFrame cause)

/-- The problems that a parse meets, in order, as they would be reported. -/
def problems (source : Bytes) : List ParseError :=
  ((notes source).filterMap Note.problem).map fun (offset, problem) => ParseError.at source offset problem

/-- Comments and frames at the beginning of a text, up to some place. -/
inductive ReadsFront : List Item → Bytes → Bytes → Prop where
  | done {s : Bytes} : ReadsFront [] s s
  | comment {numbers : List Nat} {its : List Item} {s t u : Bytes} : ReadsComment numbers s t →
      ReadsFront its t u → ReadsFront (.comment numbers :: its) s u
  | frame {p : Production} {its : List Item} {s t u : Bytes} : ReadsFrame p s t → ReadsFront its t u →
      ReadsFront (.frame p :: its) s u

/-- Behind items that are in order stands a frame of the wrong length, and the comment behind its brace has a
number that is too large. -/
def Overruled (source : Bytes) : Prop :=
  ∃ its s p t, ReadsFront its source s ∧ Fitting its ∧ ReadsFrame p s t ∧
    (∃ n ∈ p.remark.getD [], Terminal.numberLimit ≤ n) ∧ (∀ n ∈ p.data, n < Terminal.numberLimit) ∧
    p.data.length ≠ Screen.headerSize + 2 * Screen.cells

/-! ### Notes without a bad frame -/

/-- No note is about an array that forms no frame. -/
def Mild (notes : List Note) : Prop :=
  ∀ offset cause, Note.badFrame offset cause ∉ notes

theorem Harmless.mild {notes : List Note} (h : Harmless notes) : Mild notes := by
  intro offset cause hmem
  cases h _ hmem

theorem mild_append {a b : List Note} (ha : Mild a) (hb : Mild b) : Mild (a ++ b) :=
  fun offset cause hmem => (List.mem_append.1 hmem).elim (ha offset cause) (hb offset cause)

theorem mild_tooLarge (offset : Nat) (digits : Bytes) : Mild [.tooLarge offset digits] := by
  simp [Mild]

theorem filterMap_problem_eq_nil {notes : List Note} : notes.filterMap Note.problem = [] ↔ Harmless notes := by
  rw [List.filterMap_eq_nil_iff]
  refine forall₂_congr fun n _ => ?_
  cases n <;> simp [Note.problem, Note.isFatal]

/-- As long as no frame is bad, the journal keeps the first problem. -/
theorem Journal.fatal_of_mild {j : Journal} {notes : List Note} (h : Mild notes) :
    (j.addAll notes).fatal = j.fatal.or (notes.filterMap Note.problem).head? := by
  induction notes generalizing j with
  | nil => rw [List.filterMap_nil, List.head?_nil, Option.or_none, addAll, List.foldl_nil]
  | cons n notes ih =>
    have hrest : Mild notes := fun offset cause hmem => h offset cause (List.mem_cons_of_mem n hmem)
    have hstep : j.addAll (n :: notes) = (j.add n).addAll notes := rfl
    rw [hstep, ih hrest]
    cases n with
    | expected offset token =>
      have hkept : (j.add (.expected offset token)).fatal = j.fatal := by
        rw [Journal.add]
        split
        · rfl
        · split <;> rfl
      rw [hkept, List.filterMap_cons_none rfl]
    | tooLarge offset digits =>
      have hproblem : (Note.tooLarge offset digits).problem = some (offset, .tooLarge digits) := rfl
      rw [List.filterMap_cons_some hproblem, List.head?_cons, Journal.add]
      cases hfatal : j.fatal with
      | none => rfl
      | some found =>
        rw [Option.isSome_some, if_pos rfl, hfatal]
        rfl
    | badFrame offset cause => exact absurd List.mem_cons_self (h offset cause)

/-- A bad frame is kept whatever was kept before. -/
theorem Journal.fatal_of_badFrame (j : Journal) (front : List Note) (offset : Nat) (cause : Frame.Error) :
    (j.addAll (front ++ [.badFrame offset cause])).fatal = some (offset, .badFrame cause) := by
  rw [Journal.addAll_append]
  rfl

/-! ### What the rules note -/

/-- A terminal that fails notes nothing about frames. -/
def Gentle {α : Type} (terminal : Terminal α) : Prop :=
  ∀ c notes, terminal c = .error notes → Mild notes

section Gentle

variable {α β : Type}

theorem gentle_pure (v : α) : Gentle (pure v : Terminal α) := by
  intro c notes h
  cases h

theorem Gentle.bind {terminal : Terminal α} {next : α → Terminal β} (h : Gentle terminal)
    (hnext : ∀ v, Gentle (next v)) : Gentle (terminal >>= next) := by
  intro c notes herror
  change (terminal c).bind (fun (v, c') => next v c') = .error notes at herror
  cases hfirst : terminal c with
  | error notes' =>
    rw [hfirst] at herror
    cases herror
    exact h c notes hfirst
  | ok found =>
    rw [hfirst] at herror
    exact hnext found.1 found.2 notes herror

theorem gentle_mark (m : Mark) : Gentle (Terminal.mark m) := by
  intro c notes h
  rw [mark_eq] at h
  split at h
  · cases h
  · cases h
    exact (harmless_expected _ _).mild

theorem gentle_keyword (k : Keyword) : Gentle (Terminal.keyword k) := by
  intro c notes h
  rw [keyword_eq] at h
  split at h
  · cases h
  · cases h
    exact (harmless_expected _ _).mild

theorem gentle_name : Gentle Terminal.name := by
  intro c notes h
  rw [name_eq] at h
  split at h
  · cases h
  · cases h
    exact (harmless_expected _ _).mild

theorem gentle_digits : Gentle Terminal.digits := by
  intro c notes h
  rw [digits_eq] at h
  split at h
  · cases h
    exact harmless_nil.mild
  · split at h
    · cases h
      exact mild_tooLarge _ _
    · cases h

theorem gentle_number : Gentle Terminal.number := by
  intro c notes h
  rw [number_eq] at h
  split at h
  · cases h
  · next more hdigits =>
    cases h
    exact mild_append (gentle_digits _ _ hdigits) (harmless_expected _ _).mild

theorem gentle_frameHead : Gentle frameHead :=
  (gentle_keyword _).bind fun _ => (gentle_keyword _).bind fun _ => gentle_name.bind fun _ =>
    (gentle_mark _).bind fun _ => (gentle_mark _).bind fun _ => (gentle_mark _).bind fun _ =>
      (gentle_mark _).bind fun _ => gentle_pure _

theorem gentle_frameEnd : Gentle frameEnd :=
  (gentle_mark _).bind fun _ => gentle_mark _

end Gentle

theorem mild_comment (c : Cursor) : Mild (comment c).notes := by
  rcases comment_cases c with ⟨numbers, t, hreads⟩ | ⟨_, hnone⟩
  · by_cases hfit : ∀ n ∈ numbers, n < Terminal.numberLimit
    · rw [comment_of_fitting hreads hfit]
      exact harmless_nil.mild
    · simp only [not_forall, not_lt] at hfit
      obtain ⟨n, hn, hlarge⟩ := hfit
      obtain ⟨offset, digits, hcomment⟩ := comment_of_large hreads hn hlarge
      rw [hcomment]
      exact mild_tooLarge offset digits
  · rw [hnone]
    exact (harmless_expected _ _).mild

theorem comment_harmless {c : Cursor} (h : (comment c).result = none) : Harmless (comment c).notes := by
  rcases comment_cases c with ⟨numbers, t, hreads⟩ | ⟨hmark, _⟩
  · obtain ⟨rest, hmark, _⟩ := readsComment_iff.1 hreads
    rw [comment_eq hmark] at h
    split at h <;> cases h
  · exact (comment_absent hmark).2

theorem mild_moreNumbers (rounds : Nat) (values : List Cell) (c : Cursor) :
    Mild (moreNumbers rounds values c).notes := by
  induction rounds generalizing values c with
  | zero => exact harmless_nil.mild
  | succ rounds ih =>
    rw [moreNumbers]
    split
    · next notes hcomma => exact gentle_mark _ _ _ hcomma
    · split
      · next notes hnumber => exact gentle_number _ _ hnumber
      · exact ih _ _

theorem mild_numbers (c : Cursor) : Mild (numbers c).notes := by
  rw [numbers]
  split
  · next notes hnumber => exact gentle_number _ _ hnumber
  · exact mild_moreNumbers _ _ _

/-- A frame's data may only turn out to be too many or too few when they have been read to the end. -/
theorem frameBody_cases (name : String) (c : Cursor) :
    Mild (frameBody name c).notes ∨ ∃ ns t u, ReadsData ns c.rest t ∧ ReadsEnd t u ∧
      (∀ n ∈ ns, n < Terminal.numberLimit) ∧ ns.length ≠ Screen.headerSize + 2 * Screen.cells := by
  have hmild := mild_numbers (c.skip isSpace)
  rw [frameBody]
  cases hnumbers : numbers (c.skip isSpace) with
  | mk result notes =>
    rw [hnumbers] at hmild
    cases result with
    | none => exact Or.inl hmild
    | some found =>
      obtain ⟨values, after⟩ := found
      obtain ⟨_, ns, hdata, rfl, hsmall⟩ := numbers_sound hnumbers
      rw [Cursor.rest_skip, readsData_dropWhile] at hdata
      cases hend : frameEnd after with
      | error more =>
        simp only [hend]
        exact Or.inl (mild_append hmild (gentle_frameEnd _ _ hend))
      | ok found =>
        obtain ⟨_, next⟩ := found
        cases hframe : Frame.ofPayload name (ns.map Int64.ofNat) with
        | ok f =>
          simp only [hend, hframe]
          exact Or.inl hmild
        | error cause =>
          refine Or.inr ⟨ns, after.rest, next.rest, hdata, (frameEnd_scans.ok_iff.1 hend).2, hsmall,
            fun hlength => ?_⟩
          obtain ⟨f, hok⟩ := (@Frame.exists_ofPayload_iff name (ns.map Int64.ofNat)).2
            (by rw [List.length_map, hlength])
          rw [hframe] at hok
          cases hok

theorem readsRemark_of_comment {c c' : Cursor} {size : Option Canvas}
    (h : (comment c).result.getD (none, c) = (size, c')) : ∃ remark, ReadsRemark remark c.rest c'.rest := by
  cases hresult : (comment c).result with
  | none =>
    rw [hresult] at h
    cases h
    exact ⟨none, ReadsRemark.absent⟩
  | some found =>
    rw [hresult] at h
    cases h
    obtain ⟨numbers, t, hreads, rfl, _⟩ := comment_result hresult
    exact ⟨some numbers, ReadsRemark.present hreads⟩

/-- The frame rule notes a bad frame only of a frame of the wrong length. -/
theorem frame_cases (c : Cursor) :
    Mild (Rules.plain.frame () c).1.notes ∨ ∃ p t, ReadsFrame p c.rest t ∧
      (∀ n ∈ p.data, n < Terminal.numberLimit) ∧
      p.data.length ≠ Screen.headerSize + 2 * Screen.cells := by
  rcases plain_frame_cases c with ⟨notes, hhead, hframe⟩ |
    ⟨name, inside, size, after, result, more, hhead, hremark, hbody, hframe⟩
  · rw [hframe]
    exact Or.inl (gentle_frameHead _ _ hhead)
  · rw [hframe]
    rcases frameBody_cases name after with hmild | ⟨ns, t, u, hdata, hend, hsmall, hlength⟩
    · rw [hbody] at hmild
      exact Or.inl (mild_append (mild_comment inside) hmild)
    · obtain ⟨_, bytes, _, hreads⟩ := frameHead_scans.ok_iff.1 hhead
      obtain ⟨remark, hremark⟩ := readsRemark_of_comment hremark
      exact Or.inr ⟨⟨bytes, remark, ns⟩, u, ⟨_, _, t, hreads, hremark, hdata, hend⟩, hsmall, hlength⟩

/-! ### A frame of the wrong length -/

theorem remark_cases {c : Cursor} {remark : Option (List Nat)} {t : Bytes} (h : ReadsRemark remark c.rest t)
    (hend : ∀ u, ¬ ReadsMark .slashes t u) :
    ∃ size, (comment c).result.getD (none, c) = (size, c.behind t) ∧
      ((∀ n ∈ remark.getD [], n < Terminal.numberLimit) ∧ Harmless (comment c).notes ∨
        (∃ n ∈ remark.getD [], Terminal.numberLimit ≤ n) ∧
          ∃ offset digits, (comment c).notes = [.tooLarge offset digits]) := by
  by_cases hfit : ∀ n ∈ remark.getD [], n < Terminal.numberLimit
  · obtain ⟨hresult, hharmless⟩ := remark_complete h hfit hend
    exact ⟨_, hresult, Or.inl ⟨hfit, hharmless⟩⟩
  · simp only [not_forall, not_lt] at hfit
    obtain ⟨n, hn, hlarge⟩ := hfit
    cases h with
    | absent => cases hn
    | present hreads =>
      obtain ⟨offset, digits, hcomment⟩ := comment_of_large hreads hn hlarge
      rw [hcomment]
      exact ⟨none, rfl, Or.inr ⟨⟨n, hn, hlarge⟩, offset, digits, rfl⟩⟩

/-- A frame of the wrong length is noted last, behind a number of its comment that is too large. -/
theorem plain_frame_bad {p : Production} {c : Cursor} {t : Bytes} (h : ReadsFrame p c.rest t)
    (hsmall : ∀ n ∈ p.data, n < Terminal.numberLimit)
    (hlength : p.data.length ≠ Screen.headerSize + 2 * Screen.cells) :
    ∃ remark more offset cause,
      (Rules.plain.frame () c).1 = ⟨none, remark ++ (more ++ [.badFrame offset cause])⟩ ∧ Harmless more ∧
        ((∀ n ∈ p.remark.getD [], n < Terminal.numberLimit) ∧ Harmless remark ∨
          (∃ n ∈ p.remark.getD [], Terminal.numberLimit ≤ n) ∧ ∃ o digits, remark = [.tooLarge o digits]) := by
  obtain ⟨s₁, s₂, s₃, hhead, hremark, hdata, hend⟩ := h
  have hok : frameHead c = .ok ("_" ++ asciiText p.name, c.behind s₁) :=
    frameHead_scans.ok ⟨p.name, rfl, hhead⟩
  have hslashes : ∀ u, ¬ ReadsMark .slashes s₂ u := by
    obtain ⟨n, more, u, _, hnumber, _⟩ := hdata
    exact hnumber.not_mark .slashes
  obtain ⟨size, hresult, hnotes⟩ := @remark_cases (c.behind s₁) _ _ hremark hslashes
  obtain ⟨more, hharmless, hbody⟩ :=
    @frameBody_of_data ("_" ++ asciiText p.name) ((c.behind s₁).behind s₂) _ _ _ hdata hend hsmall
  cases hframe : Frame.ofPayload ("_" ++ asciiText p.name) (p.data.map Int64.ofNat) with
  | ok f =>
    have hsize := Frame.exists_ofPayload_iff.1 ⟨f, hframe⟩
    rw [List.length_map] at hsize
    exact absurd hsize hlength
  | error cause =>
    refine ⟨(comment (c.behind s₁)).notes, more, (((c.behind s₁).behind s₂).skip isSpace).offset, cause, ?_,
      hharmless, hnotes⟩
    rw [hframe] at hbody
    rw [plain_frame_of_head hok, hresult]
    simp only [hbody]
    rfl

/-! ### The notes of a run -/

theorem Fitting.comment {numbers : List Nat} {its : List Item} :
    Fitting (.comment numbers :: its) ↔ (∀ n ∈ numbers, n < Terminal.numberLimit) ∧ Fitting its := by
  constructor
  · rintro ⟨hnumbers, hdata⟩
    obtain ⟨hfirst, hrest⟩ := List.forall_mem_cons.1 hnumbers
    exact ⟨hfirst, hrest, hdata⟩
  · rintro ⟨hfirst, hrest, hdata⟩
    exact ⟨List.forall_mem_cons.2 ⟨hfirst, hrest⟩, hdata⟩

theorem Fitting.frame {p : Production} {its : List Item} :
    Fitting (.frame p :: its) ↔ ((∀ n ∈ (Item.frame p).numbers, n < Terminal.numberLimit) ∧
      p.data.length = Screen.headerSize + 2 * Screen.cells) ∧ Fitting its := by
  constructor
  · rintro ⟨hnumbers, hdata⟩
    obtain ⟨hfirst, hrest⟩ := List.forall_mem_cons.1 hnumbers
    obtain ⟨hlength, hlengths⟩ := List.forall_mem_cons.1 hdata
    exact ⟨⟨hfirst, hlength⟩, hrest, hlengths⟩
  · rintro ⟨⟨hfirst, hlength⟩, hrest, hlengths⟩
    exact ⟨List.forall_mem_cons.2 ⟨hfirst, hrest⟩, List.forall_mem_cons.2 ⟨hlength, hlengths⟩⟩

theorem Overruled.comment {numbers : List Nat} {s t : Bytes} (h : Overruled t)
    (hreads : ReadsComment numbers s t) (hfit : ∀ n ∈ numbers, n < Terminal.numberLimit) : Overruled s := by
  obtain ⟨its, u, p, v, hfront, hits, hframe⟩ := h
  exact ⟨_, u, p, v, ReadsFront.comment hreads hfront, Fitting.comment.2 ⟨hfit, hits⟩, hframe⟩

theorem Overruled.frame {p : Production} {f : Frame} {s t : Bytes} (h : Overruled t) (hreads : ReadsFrame p s t)
    (hfit : ∀ n ∈ (Item.frame p).numbers, n < Terminal.numberLimit) (hbuilds : Builds p f) : Overruled s := by
  obtain ⟨its, u, q, v, hfront, hits, hframe⟩ := h
  have hlength := Frame.exists_ofPayload_iff.1 ⟨f, hbuilds⟩
  rw [List.length_map] at hlength
  exact ⟨_, u, q, v, ReadsFront.frame hreads hfront, Fitting.frame.2 ⟨⟨hfit, hlength⟩, hits⟩, hframe⟩

/-- The notes of a run from some text on: a bad frame is noted last of all, and nothing before it that ends
the parse, unless it is overruled. -/
def Settled (notes : List Note) (s : Bytes) : Prop :=
  Mild notes ∨ ∃ front offset cause, notes = front ++ [.badFrame offset cause] ∧ (Harmless front ∨ Overruled s)

theorem Settled.prepend {front notes : List Note} {s t : Bytes} (h : Settled notes t) (hfront : Harmless front)
    (hover : Overruled t → Overruled s) : Settled (front ++ notes) s := by
  rcases h with hmild | ⟨more, offset, cause, rfl, hwhy⟩
  · exact Or.inl (mild_append hfront.mild hmild)
  · refine Or.inr ⟨front ++ more, offset, cause, (List.append_assoc _ _ _).symm, ?_⟩
    exact hwhy.imp (fun hmore => harmless_append.2 ⟨hfront, hmore⟩) hover

theorem frame_settled (c : Cursor) : Settled (Rules.plain.frame () c).1.notes c.rest := by
  rcases frame_cases c with hmild | ⟨p, t, hreads, hsmall, hlength⟩
  · exact Or.inl hmild
  · obtain ⟨remark, more, offset, cause, hbad, hmore, hremark⟩ := plain_frame_bad hreads hsmall hlength
    refine Or.inr ⟨remark ++ more, offset, cause, by rw [hbad, List.append_assoc], ?_⟩
    rcases hremark with ⟨_, hremark⟩ | ⟨hlarge, _⟩
    · exact Or.inl (harmless_append.2 ⟨hremark, hmore⟩)
    · exact Or.inr ⟨[], c.rest, p, t, ReadsFront.done, ⟨by simp, by simp [productions]⟩, hreads, hlarge, hsmall,
        hlength⟩

theorem mild_of_frame {c : Cursor} {v : Frame × Option Canvas} {next : Cursor}
    (h : (Rules.plain.frame () c).1.result = some (v, next)) : Mild (Rules.plain.frame () c).1.notes := by
  rcases frame_cases c with hmild | ⟨p, t, hreads, hsmall, hlength⟩
  · exact hmild
  · obtain ⟨remark, more, offset, cause, hbad, _⟩ := plain_frame_bad hreads hsmall hlength
    rw [hbad] at h
    cases h

section Taken

variable {n : Nat} {p : Progress} {c : Cursor}

theorem Progress.isSome_note (h : p.journal.fatal.isSome = true) (notes : List Note) :
    (p.note notes).journal.fatal.isSome = true := by
  rw [Option.isSome_iff_ne_none] at h ⊢
  exact fun hnone => h (Progress.fatal_note.1 hnone).1

theorem Progress.isSome_note_of_not_harmless (p : Progress) {notes : List Note} (h : ¬ Harmless notes) :
    (p.note notes).journal.fatal.isSome = true := by
  rw [Option.isSome_iff_ne_none]
  exact fun hnone => h (Progress.fatal_note.1 hnone).2

theorem taken_mild_of_fatal (hfatal : p.journal.fatal.isSome = true) : Mild (taken .plain n p () c) := by
  induction n generalizing p c with
  | zero => exact harmless_nil.mild
  | succ n ih =>
    have hplain : Rules.plain.comment () c = (comment c, ()) := rfl
    have hfatal' := Progress.isSome_note hfatal (comment c).notes
    cases hresult : (comment c).result with
    | some found =>
      obtain ⟨size, next⟩ := found
      rw [taken_of_comment hplain hresult]
      exact mild_append (mild_comment c) (ih hfatal')
    | none =>
      rw [taken_of_fatal hplain hresult hfatal']
      exact mild_comment c

theorem taken_settled (hfatal : p.journal.fatal = none) : Settled (taken .plain n p () c) c.rest := by
  induction n generalizing p c with
  | zero => exact Or.inl harmless_nil.mild
  | succ n ih =>
    have hplain : Rules.plain.comment () c = (comment c, ()) := rfl
    cases hresult : (comment c).result with
    | some found =>
      obtain ⟨size, next⟩ := found
      rw [taken_of_comment hplain hresult]
      by_cases hharmless : Harmless (comment c).notes
      · obtain ⟨_, numbers, hreads, _, hfit⟩ := comment_sound hresult hharmless
        have hfatal₁ := Progress.fatal_note.2 ⟨hfatal, hharmless⟩
        exact Settled.prepend (ih hfatal₁) hharmless fun h => h.comment hreads hfit
      · have hsome := Progress.isSome_note_of_not_harmless p hharmless
        exact Or.inl (mild_append (mild_comment c) (taken_mild_of_fatal hsome))
    | none =>
      have hexpected := comment_harmless hresult
      have hfatal₁ := Progress.fatal_note.2 ⟨hfatal, hexpected⟩
      have hgoes : (p.note (comment c).notes).journal.fatal.isSome = false := by rw [hfatal₁]; rfl
      have hframe : Rules.plain.frame () c = ((Rules.plain.frame () c).1, ()) := rfl
      cases hfound : (Rules.plain.frame () c).1.result with
      | none =>
        rw [taken_of_end hplain hresult hgoes hframe hfound]
        exact (frame_settled c).prepend hexpected id
      | some found =>
        obtain ⟨⟨f, size⟩, next⟩ := found
        rw [taken_of_frame hplain hresult hgoes hframe hfound]
        by_cases hharmless : Harmless (Rules.plain.frame () c).1.notes
        · have houtcome : (Rules.plain.frame () c).1 = ⟨some ((f, size), next), _⟩ :=
            congrArg (Outcome.mk · (Rules.plain.frame () c).1.notes) hfound
          obtain ⟨_, production, hreads, hbuilds, _, hfit⟩ := plain_frame_sound houtcome hharmless
          have hfatal₂ := Progress.fatal_note.2 ⟨hfatal₁, hharmless⟩
          exact Settled.prepend (ih hfatal₂) (harmless_append.2 ⟨hexpected, hharmless⟩)
            fun h => h.frame hreads hfit hbuilds
        · have hsome := Progress.isSome_note_of_not_harmless (p.note (comment c).notes) hharmless
          have hmild := mild_append hexpected.mild (mild_of_frame hfound)
          exact Or.inl (mild_append hmild (taken_mild_of_fatal hsome))

theorem taken_front {its : List Item} {s u : Bytes} (h : ReadsFront its s u) (hits : Fitting its)
    (hs : c.rest = s) (hfatal : p.journal.fatal = none) :
    ∃ front p' c', Harmless front ∧ p'.journal.fatal = none ∧ c'.rest = u ∧
      ∀ n, taken .plain (n + its.length) p () c = front ++ taken .plain n p' () c' := by
  have hplain : Rules.plain.comment () c = (comment c, ()) := rfl
  have hframe : Rules.plain.frame () c = ((Rules.plain.frame () c).1, ()) := rfl
  induction h generalizing p c with
  | done => exact ⟨[], p, c, harmless_nil, hfatal, hs, fun n => rfl⟩
  | @comment numbers its s t u hreads _ ih =>
    subst hs
    obtain ⟨hfit, hits⟩ := Fitting.comment.1 hits
    rw [comment_of_fitting hreads hfit] at hplain
    have hfatal₁ : ((p.note []).declare (canvasOf numbers)).journal.fatal = none := hfatal
    obtain ⟨front, p', c', hharmless, hfatal', hrest, htaken⟩ :=
      @ih _ (c.behind t) hits rfl hfatal₁ rfl rfl
    refine ⟨front, p', c', hharmless, hfatal', hrest, fun n => ?_⟩
    rw [List.length_cons, ← Nat.add_assoc, taken_of_comment hplain rfl, List.nil_append]
    exact htaken n
  | @frame production its s t u hreads _ ih =>
    subst hs
    obtain ⟨⟨hfit, hlength⟩, hits⟩ := Fitting.frame.1 hits
    obtain ⟨_, hkeyword⟩ := hreads.keyword
    obtain ⟨hnone, hexpected⟩ := comment_absent (hkeyword.not_mark .slashes)
    obtain ⟨f, hbuilds⟩ : ∃ f, Builds production f :=
      Frame.exists_ofPayload_iff.2 (by rw [List.length_map, hlength])
    obtain ⟨notes, houtcome, hharmless'⟩ := plain_frame_complete hreads hfit hbuilds
    rw [houtcome] at hframe
    have hfatal₁ := Progress.fatal_note.2 ⟨hfatal, hexpected⟩
    have hgoes : (p.note (comment c).notes).journal.fatal.isSome = false := by rw [hfatal₁]; rfl
    have hfatal₂ : ({ (p.note (comment c).notes).note notes with frames := f :: p.frames }.declare
        (Item.frame production).canvas).journal.fatal = none :=
      Progress.fatal_note.2 ⟨hfatal₁, hharmless'⟩
    obtain ⟨front, p', c', hharmless, hfatal', hrest, htaken⟩ :=
      @ih _ (c.behind t) hits rfl hfatal₂ rfl rfl
    refine ⟨(comment c).notes ++ notes ++ front, p', c',
      harmless_append.2 ⟨harmless_append.2 ⟨hexpected, hharmless'⟩, hharmless⟩, hfatal', hrest, fun n => ?_⟩
    rw [List.length_cons, ← Nat.add_assoc, taken_of_frame hplain hnone hgoes hframe rfl,
      List.append_assoc _ front, ← htaken n]

end Taken

theorem ReadsFront.length_le {its : List Item} {s u : Bytes} (h : ReadsFront its s u) :
    its.length + u.length ≤ s.length := by
  induction h with
  | done => simp
  | comment hreads _ ih =>
    have hlt := hreads.length_lt
    rw [List.length_cons]
    omega
  | frame hreads _ ih =>
    have hlt := hreads.length_lt
    rw [List.length_cons]
    omega

/-! ### The notes of a parse -/

theorem notes_settled (source : Bytes) : Settled (notes source) source := by
  rw [notes_eq_plain]
  exact @taken_settled _ {} (Cursor.start source) rfl

theorem notes_of_overruled {source : Bytes} (h : Overruled source) :
    ∃ front offset digits more place cause,
      notes source = front ++ (.tooLarge offset digits :: (more ++ [.badFrame place cause])) ∧
        Harmless front ∧ Harmless more := by
  obtain ⟨its, s, p, t, hfront, hits, hreads, hlarge, hsmall, hlength⟩ := h
  obtain ⟨front, p', c, hharmless, hfatal, hrest, htaken⟩ :=
    @taken_front {} (Cursor.start source) _ _ _ hfront hits rfl rfl
  subst hrest
  obtain ⟨_, hkeyword⟩ := hreads.keyword
  obtain ⟨hnone, hexpected⟩ := comment_absent (hkeyword.not_mark .slashes)
  have hfatal₁ := Progress.fatal_note.2 ⟨hfatal, hexpected⟩
  have hgoes : (p'.note (comment c).notes).journal.fatal.isSome = false := by rw [hfatal₁]; rfl
  have hplain : Rules.plain.comment () c = (comment c, ()) := rfl
  have hframe : Rules.plain.frame () c = ((Rules.plain.frame () c).1, ()) := rfl
  obtain ⟨remark, more, place, cause, hbad, hharmless', hremark⟩ := plain_frame_bad hreads hsmall hlength
  rcases hremark with ⟨hfit, _⟩ | ⟨_, offset, digits, rfl⟩
  · obtain ⟨n, hn, hn'⟩ := hlarge
    exact absurd (hfit n hn) (by omega)
  · refine ⟨front ++ (comment c).notes, offset, digits, more, place, cause, ?_,
      harmless_append.2 ⟨hharmless, hexpected⟩, hharmless'⟩
    have hle := hfront.length_le
    have hrounds : source.length + 1 = (source.length - its.length + 1) + its.length := by omega
    have hfound : (Rules.plain.frame () c).1.result = none := by rw [hbad]
    rw [notes_eq_plain, hrounds, htaken, taken_of_end hplain hnone hgoes hframe hfound, hbad]
    simp only [List.append_assoc, List.singleton_append]

theorem parse_of_fatal {source : Bytes} {offset : Nat} {problem : Problem}
    (h : (journal source).fatal = some (offset, problem)) :
    parse source = .error (ParseError.at source offset problem) := by
  rw [journal_eq_plain] at h
  simp only [parse_eq_plain, parseWith, h]

theorem unexpected_of_not_fatal {source : Bytes} {e : ParseError} (h : (journal source).fatal = none)
    (he : parse source = .error e) : ∃ found expected, e.problem = .unexpected found expected := by
  rw [journal_eq_plain] at h
  simp only [parse_eq_plain, parseWith, h] at he
  split at he
  · cases he
  · cases he
    exact ⟨_, _, rfl⟩

theorem parse_of_mild {source : Bytes} {e : ParseError} (h : Mild (notes source))
    (he : (problems source).head? = some e) : parse source = .error e := by
  have hfatal := @Journal.fatal_of_mild {} _ h
  rw [← journal_notes, Option.none_or] at hfatal
  rw [problems, List.head?_map] at he
  obtain ⟨⟨offset, problem⟩, hfirst, rfl⟩ := Option.map_eq_some_iff.1 he
  exact parse_of_fatal (hfatal.trans hfirst)

theorem problems_of_overruled {source : Bytes} (h : Overruled source) :
    ∃ offset digits place cause,
      problems source =
          [ParseError.at source offset (.tooLarge digits), ParseError.at source place (.badFrame cause)] ∧
        parse source = .error (ParseError.at source place (.badFrame cause)) := by
  obtain ⟨front, offset, digits, more, place, cause, hnotes, hfront, hmore⟩ := notes_of_overruled h
  refine ⟨offset, digits, place, cause, ?_, ?_⟩
  · have hproblem : (Note.tooLarge offset digits).problem = some (offset, .tooLarge digits) := rfl
    rw [problems, hnotes, List.filterMap_append, filterMap_problem_eq_nil.2 hfront, List.nil_append,
      List.filterMap_cons_some hproblem, List.filterMap_append, filterMap_problem_eq_nil.2 hmore]
    rfl
  · have hfatal := Journal.fatal_of_badFrame {} (front ++ .tooLarge offset digits :: more) place cause
    rw [List.append_assoc, List.cons_append, ← hnotes, ← journal_notes] at hfatal
    exact parse_of_fatal hfatal

theorem problems_eq_nil_iff {source : Bytes} :
    problems source = [] ↔
      ∀ e, parse source = .error e → ∃ found expected, e.problem = .unexpected found expected := by
  have hnone : problems source = [] ↔ (journal source).fatal = none := by
    rw [problems, List.map_eq_nil_iff, filterMap_problem_eq_nil, journal_notes, Journal.fatal_addAll]
    exact ⟨fun h => ⟨rfl, h⟩, fun h => h.2⟩
  rw [hnone]
  constructor
  · exact fun h e he => unexpected_of_not_fatal h he
  · intro h
    cases hfatal : (journal source).fatal with
    | none => rfl
    | some found =>
      obtain ⟨offset, problem⟩ := found
      have hparse := parse_of_fatal hfatal
      obtain ⟨byte, expected, hproblem⟩ := h _ hparse
      rw [(parse_unexpected hparse hproblem).1] at hfatal
      cases hfatal

/-- The problem met first is reported, whatever follows, exactly unless it is overruled. Then two problems
are met, a number that is too large and after it a frame of the wrong length, and the second one is reported.
Where no problem is met, only a missing token is ever reported. -/
theorem parse_reports_first_iff (source : Bytes) :
    ((∀ e, (problems source).head? = some e → parse source = .error e) ↔ ¬ Overruled source) ∧
      (Overruled source → ∃ offset digits place cause,
        problems source =
            [ParseError.at source offset (.tooLarge digits), ParseError.at source place (.badFrame cause)] ∧
          parse source = .error (ParseError.at source place (.badFrame cause))) ∧
      (problems source = [] ↔
        ∀ e, parse source = .error e → ∃ found expected, e.problem = .unexpected found expected) := by
  refine ⟨⟨?_, ?_⟩, problems_of_overruled, problems_eq_nil_iff⟩
  · intro hfirst hover
    obtain ⟨offset, digits, place, cause, hproblems, hparse⟩ := problems_of_overruled hover
    have hreport := hfirst _ (by rw [hproblems, List.head?_cons])
    rw [hparse] at hreport
    cases congrArg ParseError.problem (Except.error.inj hreport)
  · intro hover e he
    rcases notes_settled source with hmild | ⟨front, offset, cause, hnotes, hharmless | hover'⟩
    · exact parse_of_mild hmild he
    · have hfatal := Journal.fatal_of_badFrame {} front offset cause
      rw [← hnotes, ← journal_notes] at hfatal
      have hproblems : problems source = [ParseError.at source offset (.badFrame cause)] := by
        rw [problems, hnotes, List.filterMap_append, filterMap_problem_eq_nil.2 hharmless]
        rfl
      rw [hproblems] at he
      cases he
      exact parse_of_fatal hfatal
    · exact absurd hover' hover

/-- A canvas that is too wide, on a frame with a single value. -/
def banner : Bytes :=
  utf8 "unsigned char a[]=\x7b// META: 9223372036854775808 1\n0\x7d;"

/-- The canvas is met first, and the frame is reported. -/
theorem parse_banner_overrules :
    problems banner =
        [⟨1, 29, .tooLarge (utf8 "9223372036854775808")⟩, ⟨2, 1, .badFrame (.shortPayload "_a" 1)⟩] ∧
      parse banner = .error ⟨2, 1, .badFrame (.shortPayload "_a" 1)⟩ := by
  constructor
  · rw [problems, notes_eq_plain]
    rfl
  · rw [parse_eq_plain]
    rfl

end Petscii.Source

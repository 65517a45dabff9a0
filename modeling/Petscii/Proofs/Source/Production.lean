import Petscii.Proofs.Source.Comment

/-!
# Reading frames

The frame rule reads exactly the frames of the grammar whose numbers fit a cell and whose data form a frame.
No two tokens that may stand at one place begin with the same byte, so that the rule never takes a wrong
turn, and a frame that is read leaves no note that would end the parse.
-/

namespace Petscii.Source

def Note.isFatal : Note → Bool
  | .expected _ _ => false
  | .tooLarge _ _ => true
  | .badFrame _ _ => true

def Harmless (notes : List Note) : Prop :=
  ∀ n ∈ notes, n.isFatal = false

theorem harmless_nil : Harmless [] := by simp [Harmless]

theorem harmless_expected (offset : Nat) (token : Token) : Harmless [.expected offset token] := by
  simp [Harmless, Note.isFatal]

theorem not_harmless_tooLarge (offset : Nat) (digits : Bytes) : ¬ Harmless [.tooLarge offset digits] := by
  simp [Harmless, Note.isFatal]

theorem harmless_append {a b : List Note} : Harmless (a ++ b) ↔ Harmless a ∧ Harmless b :=
  List.forall_mem_append

/-! ### Which token stands at a place -/

theorem ReadsMark.head {m : Mark} {s t : Bytes} (h : ReadsMark m s t) :
    (s.dropWhile isSpace).head? = (utf8 m.text).head? := by
  rw [(spaced_iff (solid_mark m t)).1 h]
  cases m <;> rfl

theorem ReadsMark.unique {m m' : Mark} {s t t' : Bytes} (h : ReadsMark m s t) (h' : ReadsMark m' s t') :
    m = m' := by
  have hhead := h.head.symm.trans h'.head
  revert hhead
  cases m <;> cases m' <;> decide

theorem ReadsNumber.not_mark {n : Nat} {s t : Bytes} (h : ReadsNumber n s t) (m : Mark) (t' : Bytes) :
    ¬ ReadsMark m s t' := by
  intro hmark
  obtain ⟨digits, hspaced, htext, _⟩ := h
  have hhead := hmark.head
  rw [(spaced_iff (htext.solid t)).1 hspaced] at hhead
  obtain ⟨hne, hdigits⟩ := htext
  cases digits with
  | nil => exact hne rfl
  | cons d digits =>
    have hd := hdigits d List.mem_cons_self
    cases m <;> cases hhead <;> exact absurd hd (by decide)

theorem ReadsKeyword.not_mark {k : Keyword} {s t : Bytes} (h : ReadsKeyword k s t) (m : Mark) (t' : Bytes) :
    ¬ ReadsMark m s t' := by
  intro hmark
  have hhead := hmark.head
  rw [(spaced_iff (solid_keyword k t)).1 h.1] at hhead
  have hkeyword : (utf8 k.text ++ t).head? = (utf8 k.text).head? := by cases k <;> rfl
  rw [hkeyword] at hhead
  revert hhead
  cases k <;> cases m <;> decide

/-! ### Numbers -/

theorem ReadsNumber.dropWhile {n : Nat} {s t : Bytes} (h : ReadsNumber n s t) :
    ReadsNumber n (s.dropWhile isSpace) t := by
  obtain ⟨digits, hspaced, htext, hrest⟩ := h
  rw [spaced_iff (htext.solid t)] at hspaced
  exact ⟨digits, ⟨[], by simp, hspaced⟩, htext, hrest⟩

theorem ReadsNumber.of_dropWhile {n : Nat} {s t : Bytes} (h : ReadsNumber n (s.dropWhile isSpace) t) :
    ReadsNumber n s t := by
  obtain ⟨digits, hspaced, htext, hrest⟩ := h
  have hself : (s.dropWhile isSpace).dropWhile isSpace = s.dropWhile isSpace :=
    dropWhile_stretch (a := []) (by simp) (off_dropWhile isSpace s)
  rw [spaced_iff (htext.solid t), hself, ← spaced_iff (htext.solid t)] at hspaced
  exact ⟨digits, hspaced, htext, hrest⟩

theorem readsData_dropWhile {ns : List Nat} {s t : Bytes} :
    ReadsData ns (s.dropWhile isSpace) t ↔ ReadsData ns s t := by
  constructor
  · rintro ⟨n, more, u, rfl, hnumber, hmore⟩
    exact ⟨n, more, u, rfl, hnumber.of_dropWhile, hmore⟩
  · rintro ⟨n, more, u, rfl, hnumber, hmore⟩
    exact ⟨n, more, u, rfl, hnumber.dropWhile, hmore⟩

theorem ReadsNumber.length_le {n : Nat} {s t : Bytes} (h : ReadsNumber n s t) : t.length ≤ s.length := by
  obtain ⟨_, hspaced, _⟩ := h
  exact hspaced.length_le

theorem ReadsMark.length_lt {m : Mark} {s t : Bytes} (h : ReadsMark m s t) : t.length < s.length := by
  obtain ⟨space, _, rfl⟩ := h
  have hpos : 0 < (utf8 m.text).length := by cases m <;> decide
  simp only [List.length_append]
  omega

theorem ReadsMore.length_le {ns : List Nat} {s t : Bytes} (h : ReadsMore ns s t) :
    ns.length + t.length ≤ s.length := by
  induction h with
  | done => simp
  | next hcomma hnumber _ ih =>
    have hlt := hcomma.length_lt
    have hle := hnumber.length_le
    rw [List.length_cons]
    omega

theorem Cursor.behind_rest (c : Cursor) : c.behind c.rest = c := by
  refine eq_of_stop rfl (stop_behind (Nat.le_refl _))

theorem Cursor.behind_eq {c c' : Cursor} (h : c'.stop = c.stop) (t : Bytes) : c'.behind t = c.behind t := by
  rw [behind, behind, h]

theorem moreNumbers_sound {rounds : Nat} {values result : List Cell} {c c' : Cursor} {notes : List Note}
    (h : moreNumbers rounds values c = ⟨some (result, c'), notes⟩) :
    c'.stop = c.stop ∧ ∃ ns, ReadsMore ns c.rest c'.rest ∧ result = values.reverse ++ ns.map Int64.ofNat ∧
      ∀ n ∈ ns, n < Terminal.numberLimit := by
  induction rounds generalizing values c with
  | zero =>
    cases h
    exact ⟨rfl, [], ReadsMore.done, by simp, by simp⟩
  | succ rounds ih =>
    rw [moreNumbers] at h
    split at h
    · cases h
      exact ⟨rfl, [], ReadsMore.done, by simp, by simp⟩
    · next after hcomma =>
      split at h
      · cases h
      · next n next hnumber =>
        obtain ⟨hstop₁, hreads₁⟩ := (mark_scans .comma).ok_iff.1 hcomma
        obtain ⟨hstop₂, hreads₂, hsmall⟩ := number_scans.ok_iff.1 hnumber
        obtain ⟨hstop, ns, hmore, rfl, hsmalls⟩ := ih h
        refine ⟨hstop.trans (hstop₂.trans hstop₁), n :: ns, ReadsMore.next hreads₁ hreads₂ hmore, by simp, ?_⟩
        exact List.forall_mem_cons.2 ⟨hsmall, hsmalls⟩

/-- Numbers with no comma behind them are read to the last. -/
theorem moreNumbers_complete {rounds : Nat} {values : List Cell} {c : Cursor} {ns : List Nat} {t : Bytes}
    (h : ReadsMore ns c.rest t) (hrounds : ns.length < rounds) (hsmall : ∀ n ∈ ns, n < Terminal.numberLimit)
    (hend : ∀ u, ¬ ReadsMark .comma t u) :
    ∃ notes, moreNumbers rounds values c = ⟨some (values.reverse ++ ns.map Int64.ofNat, c.behind t), notes⟩ ∧
      Harmless notes := by
  induction ns generalizing rounds values c with
  | nil =>
    cases h
    obtain ⟨rounds, rfl⟩ : ∃ k, rounds = k + 1 := ⟨rounds - 1, by rw [List.length_nil] at hrounds; omega⟩
    refine ⟨_, ?_, harmless_expected (c.skip isSpace).offset (.mark .comma)⟩
    rw [moreNumbers, mark_eq_error hend, List.map_nil, List.append_nil, Cursor.behind_rest]
  | cons n ns ih =>
    obtain ⟨rounds, rfl⟩ : ∃ k, rounds = k + 1 := ⟨rounds - 1, by rw [List.length_cons] at hrounds; omega⟩
    cases h with
    | next hcomma hnumber hmore =>
      rename_i u v
      have hn := hsmall n List.mem_cons_self
      have hstop₁ : (c.behind u).stop = c.stop := Cursor.stop_behind hcomma.length_lt.le
      have hstop₂ : ((c.behind u).behind v).stop = (c.behind u).stop :=
        Cursor.stop_behind hnumber.length_le
      have hfirst : Terminal.mark .comma c = .ok ((), c.behind u) := (mark_scans .comma).ok hcomma
      have hsecond : Terminal.number (c.behind u) = .ok (n, (c.behind u).behind v) :=
        number_scans.ok ⟨hnumber, hn⟩
      obtain ⟨notes, hrun, hharmless⟩ := @ih rounds (Int64.ofNat n :: values) ((c.behind u).behind v) hmore
        (by rw [List.length_cons] at hrounds; omega) (fun k hk => hsmall k (List.mem_cons_of_mem n hk))
      refine ⟨notes, ?_, hharmless⟩
      simp only [moreNumbers, hfirst, hsecond, hrun, Cursor.behind_eq (hstop₂.trans hstop₁)]
      simp

theorem numbers_sound {values : List Cell} {c c' : Cursor} {notes : List Note}
    (h : numbers c = ⟨some (values, c'), notes⟩) :
    c'.stop = c.stop ∧ ∃ ns, ReadsData ns c.rest c'.rest ∧ values = ns.map Int64.ofNat ∧
      ∀ n ∈ ns, n < Terminal.numberLimit := by
  rw [numbers] at h
  split at h
  · cases h
  · next n next hnumber =>
    obtain ⟨hstop₁, hreads, hsmall⟩ := number_scans.ok_iff.1 hnumber
    obtain ⟨hstop, ns, hmore, rfl, hsmalls⟩ := moreNumbers_sound h
    refine ⟨hstop.trans hstop₁, n :: ns, ⟨n, ns, _, rfl, hreads, hmore⟩, by simp, ?_⟩
    exact List.forall_mem_cons.2 ⟨hsmall, hsmalls⟩

theorem numbers_complete {c : Cursor} {ns : List Nat} {t : Bytes} (h : ReadsData ns c.rest t)
    (hsmall : ∀ n ∈ ns, n < Terminal.numberLimit) (hend : ∀ u, ¬ ReadsMark .comma t u) :
    ∃ notes, numbers c = ⟨some (ns.map Int64.ofNat, c.behind t), notes⟩ ∧ Harmless notes := by
  obtain ⟨n, more, u, rfl, hnumber, hmore⟩ := h
  obtain ⟨hn, hsmalls⟩ := List.forall_mem_cons.1 hsmall
  have hstop : (c.behind u).stop = c.stop := Cursor.stop_behind hnumber.length_le
  have hrounds : more.length < u.length + 1 := by
    have hle := hmore.length_le
    omega
  obtain ⟨notes, hrun, hharmless⟩ := @moreNumbers_complete (u.length + 1) [Int64.ofNat n] (c.behind u) more t
    hmore hrounds hsmalls hend
  refine ⟨notes, ?_, hharmless⟩
  have hrest : (c.behind u).rest = u := rfl
  simp only [numbers, number_scans.ok ⟨hnumber, hn⟩, hrest, hrun, Cursor.behind_eq hstop]
  simp

/-! ### Comments -/

theorem ReadsComment.length_lt {numbers : List Nat} {s t : Bytes} (h : ReadsComment numbers s t) :
    t.length < s.length := by
  obtain ⟨rest, hmark, _, rfl⟩ := readsComment_iff.1 h
  have hlt := hmark.length_lt
  have hle := List.length_dropWhile_le goesOn rest
  rw [List.length_drop]
  omega

theorem comment_result {size : Option Canvas} {c c' : Cursor} (h : (comment c).result = some (size, c')) :
    ∃ numbers t, ReadsComment numbers c.rest t ∧ c' = c.behind t ∧
      (Harmless (comment c).notes → size = canvasOf numbers ∧ ∀ n ∈ numbers, n < Terminal.numberLimit) := by
  obtain ⟨numbers, t, hreads⟩ | ⟨_, hnone⟩ := comment_cases c
  · refine ⟨numbers, t, hreads, ?_⟩
    by_cases hfit : ∀ n ∈ numbers, n < Terminal.numberLimit
    · rw [comment_of_fitting hreads hfit] at h
      cases h
      exact ⟨rfl, fun _ => ⟨rfl, hfit⟩⟩
    · simp only [not_forall, not_lt] at hfit
      obtain ⟨n, hn, hlarge⟩ := hfit
      obtain ⟨offset, digits, hcomment⟩ := comment_of_large hreads hn hlarge
      rw [hcomment] at h ⊢
      cases h
      exact ⟨rfl, fun hharmless => absurd hharmless (not_harmless_tooLarge offset digits)⟩
  · rw [hnone] at h
    cases h

theorem comment_sound {size : Option Canvas} {c c' : Cursor} (h : (comment c).result = some (size, c'))
    (hharmless : Harmless (comment c).notes) :
    c'.stop = c.stop ∧ ∃ numbers, ReadsComment numbers c.rest c'.rest ∧ size = canvasOf numbers ∧
      ∀ n ∈ numbers, n < Terminal.numberLimit := by
  obtain ⟨numbers, t, hreads, rfl, hmeaning⟩ := comment_result h
  exact ⟨Cursor.stop_behind hreads.length_lt.le, numbers, hreads, hmeaning hharmless⟩

theorem comment_absent {c : Cursor} (h : ∀ t, ¬ ReadsMark .slashes c.rest t) :
    (comment c).result = none ∧ Harmless (comment c).notes := by
  obtain ⟨numbers, t, hreads⟩ | ⟨_, hnone⟩ := comment_cases c
  · obtain ⟨rest, hmark, _⟩ := readsComment_iff.1 hreads
    exact absurd hmark (h rest)
  · rw [hnone]
    exact ⟨rfl, harmless_expected _ _⟩

/-! ### The frame rule -/

/-- What the comment rule makes of the place behind a frame's brace. -/
theorem remark_sound {c c' : Cursor} {size : Option Canvas}
    (h : (comment c).result.getD (none, c) = (size, c')) (hharmless : Harmless (comment c).notes) :
    c'.stop = c.stop ∧ ∃ remark, ReadsRemark remark c.rest c'.rest ∧ size = remark.bind canvasOf ∧
      ∀ n ∈ remark.getD [], n < Terminal.numberLimit := by
  cases hresult : (comment c).result with
  | none =>
    rw [hresult] at h
    cases h
    exact ⟨rfl, none, ReadsRemark.absent, rfl, by simp⟩
  | some p =>
    rw [hresult] at h
    cases h
    obtain ⟨hstop, numbers, hreads, hsize, hsmall⟩ := comment_sound hresult hharmless
    exact ⟨hstop, some numbers, ReadsRemark.present hreads, hsize, hsmall⟩

theorem remark_complete {c : Cursor} {remark : Option (List Nat)} {t : Bytes}
    (h : ReadsRemark remark c.rest t) (hsmall : ∀ n ∈ remark.getD [], n < Terminal.numberLimit)
    (hend : ∀ u, ¬ ReadsMark .slashes t u) :
    (comment c).result.getD (none, c) = (remark.bind canvasOf, c.behind t) ∧ Harmless (comment c).notes := by
  cases h with
  | absent =>
    obtain ⟨hnone, hharmless⟩ := comment_absent hend
    rw [hnone, Cursor.behind_rest]
    exact ⟨rfl, hharmless⟩
  | present hreads =>
    rw [comment_of_fitting hreads hsmall]
    exact ⟨rfl, harmless_nil⟩

theorem frameBody_sound {name : String} {f : Frame} {c c' : Cursor} {notes : List Note}
    (h : frameBody name c = ⟨some (f, c'), notes⟩) :
    c'.stop = c.stop ∧ ∃ ns t, ReadsData ns c.rest t ∧ ReadsEnd t c'.rest ∧
      (∀ n ∈ ns, n < Terminal.numberLimit) ∧ Frame.ofPayload name (ns.map Int64.ofNat) = .ok f := by
  rw [frameBody] at h
  split at h
  · cases h
  · next values after more hnumbers =>
    split at h
    · cases h
    · next next hend =>
      split at h
      · cases h
      · next frame hframe =>
        cases h
        obtain ⟨hstop₁, ns, hdata, rfl, hsmall⟩ := numbers_sound hnumbers
        obtain ⟨hstop₂, hreads⟩ := frameEnd_scans.ok_iff.1 hend
        rw [Cursor.stop_skip] at hstop₁
        rw [Cursor.rest_skip, readsData_dropWhile] at hdata
        exact ⟨hstop₂.trans hstop₁, ns, _, hdata, hreads, hsmall, hframe⟩

/-- Numbers that fit, with their end, are read to the end; whether they form a frame is seen then. -/
theorem frameBody_of_data {name : String} {c : Cursor} {ns : List Nat} {t u : Bytes}
    (hdata : ReadsData ns c.rest t) (hend : ReadsEnd t u) (hsmall : ∀ n ∈ ns, n < Terminal.numberLimit) :
    ∃ notes, Harmless notes ∧
      frameBody name c =
        match Frame.ofPayload name (ns.map Int64.ofNat) with
        | .error cause => ⟨none, notes ++ [.badFrame (c.skip isSpace).offset cause]⟩
        | .ok f => ⟨some (f, c.behind u), notes⟩ := by
  have hskipped : ReadsData ns (c.skip isSpace).rest t := by rwa [Cursor.rest_skip, readsData_dropWhile]
  have hcomma : ∀ v, ¬ ReadsMark .comma t v := by
    intro v hcomma
    obtain ⟨_, hbrace, _⟩ := hend
    cases hcomma.unique hbrace
  obtain ⟨notes, hnumbers, hharmless⟩ := numbers_complete hskipped hsmall hcomma
  have hle : t.length ≤ (c.skip isSpace).rest.length := by
    obtain ⟨n, more, v, rfl, hnumber, hmore⟩ := hskipped
    have h₁ := hnumber.length_le
    have h₂ := hmore.length_le
    omega
  have hstop : ((c.skip isSpace).behind t).stop = c.stop := by
    rw [Cursor.stop_behind hle, Cursor.stop_skip]
  have hclose : frameEnd ((c.skip isSpace).behind t) = .ok ((), ((c.skip isSpace).behind t).behind u) :=
    frameEnd_scans.ok hend
  refine ⟨notes, hharmless, ?_⟩
  cases hframe : Frame.ofPayload name (ns.map Int64.ofNat) with
  | error cause => simp only [frameBody, hnumbers, hclose, hframe]
  | ok f => simp only [frameBody, hnumbers, hclose, hframe, Cursor.behind_eq hstop]

theorem frameBody_complete {name : String} {f : Frame} {c : Cursor} {ns : List Nat} {t u : Bytes}
    (hdata : ReadsData ns c.rest t) (hend : ReadsEnd t u) (hsmall : ∀ n ∈ ns, n < Terminal.numberLimit)
    (hframe : Frame.ofPayload name (ns.map Int64.ofNat) = .ok f) :
    ∃ notes, frameBody name c = ⟨some (f, c.behind u), notes⟩ ∧ Harmless notes := by
  obtain ⟨notes, hharmless, hbody⟩ := @frameBody_of_data name c ns t u hdata hend hsmall
  rw [hframe] at hbody
  exact ⟨notes, hbody, hharmless⟩

theorem ReadsRemark.length_le {remark : Option (List Nat)} {s t : Bytes} (h : ReadsRemark remark s t) :
    t.length ≤ s.length := by
  cases h with
  | absent => exact Nat.le_refl _
  | present hreads => exact hreads.length_lt.le

/-- The frame of a production: its name gets an underscore, and its data are the payload. -/
def Builds (p : Production) (f : Frame) : Prop :=
  Frame.ofPayload ("_" ++ asciiText p.name) (p.data.map Int64.ofNat) = .ok f

theorem plain_frame_of_head {c inside : Cursor} {name : String} (h : frameHead c = .ok (name, inside)) :
    (Rules.plain.frame () c).1 =
      let (size, after) := (comment inside).result.getD (none, inside)
      ⟨(frameBody name after).result.map fun (f, next) => ((f, size), next),
        (comment inside).notes ++ (frameBody name after).notes⟩ := by
  simp only [Rules.plain, frame, h]

theorem plain_frame_sound {f : Frame} {size : Option Canvas} {c c' : Cursor} {notes : List Note}
    (h : (Rules.plain.frame () c).1 = ⟨some ((f, size), c'), notes⟩) (hharmless : Harmless notes) :
    c'.stop = c.stop ∧ ∃ p, ReadsFrame p c.rest c'.rest ∧ Builds p f ∧ size = (Item.frame p).canvas ∧
      ∀ n ∈ (Item.frame p).numbers, n < Terminal.numberLimit := by
  cases hhead : frameHead c with
  | error notes' =>
    simp only [Rules.plain, frame, hhead] at h
    cases h
  | ok found =>
    obtain ⟨name, inside⟩ := found
    rw [plain_frame_of_head hhead] at h
    obtain ⟨hstop₁, name, rfl, hreads₁⟩ := frameHead_scans.ok_iff.1 hhead
    cases hremark : (comment inside).result.getD (none, inside) with
    | mk size' after =>
      cases hbody : frameBody ("_" ++ asciiText name) after with
      | mk result more =>
        simp only [hremark, hbody] at h
        cases result with
        | none => cases h
        | some found =>
          cases h
          obtain ⟨hharmless₁, _⟩ := harmless_append.1 hharmless
          obtain ⟨hstop₂, remark, hreads₂, hsize, hsmall⟩ := remark_sound hremark hharmless₁
          obtain ⟨hstop₃, ns, t, hdata, hend, hsmalls, hframe⟩ := frameBody_sound hbody
          refine ⟨hstop₃.trans (hstop₂.trans hstop₁), ⟨name, remark, ns⟩,
            ⟨_, _, t, hreads₁, hreads₂, hdata, hend⟩, hframe, hsize, ?_⟩
          exact List.forall_mem_append.2 ⟨hsmall, hsmalls⟩

theorem plain_frame_complete {p : Production} {f : Frame} {c : Cursor} {t : Bytes}
    (h : ReadsFrame p c.rest t) (hsmall : ∀ n ∈ (Item.frame p).numbers, n < Terminal.numberLimit)
    (hbuilds : Builds p f) :
    ∃ notes, (Rules.plain.frame () c).1 = ⟨some ((f, (Item.frame p).canvas), c.behind t), notes⟩ ∧
      Harmless notes := by
  obtain ⟨s₁, s₂, s₃, hhead, hremark, hdata, hend⟩ := h
  obtain ⟨hsmall₁, hsmall₂⟩ := List.forall_mem_append.1 hsmall
  have hok : frameHead c = .ok ("_" ++ asciiText p.name, c.behind s₁) :=
    frameHead_scans.ok ⟨p.name, rfl, hhead⟩
  have hstop₁ : (c.behind s₁).stop = c.stop := (frameHead_scans.ok_iff.1 hok).1
  have hstop₂ : ((c.behind s₁).behind s₂).stop = (c.behind s₁).stop := Cursor.stop_behind hremark.length_le
  -- the data begin with a digit, so that no comment stands there
  have hslashes : ∀ u, ¬ ReadsMark .slashes s₂ u := by
    obtain ⟨n, more, u, _, hnumber, _⟩ := hdata
    exact hnumber.not_mark .slashes
  obtain ⟨hresult, hharmless₁⟩ := @remark_complete (c.behind s₁) _ _ hremark hsmall₁ hslashes
  obtain ⟨notes, hbody, hharmless₂⟩ :=
    @frameBody_complete _ f ((c.behind s₁).behind s₂) _ _ _ hdata hend hsmall₂ hbuilds
  refine ⟨_, ?_, harmless_append.2 ⟨hharmless₁, hharmless₂⟩⟩
  rw [plain_frame_of_head hok, hresult]
  simp only [hbody, Cursor.behind_eq (hstop₂.trans hstop₁)]
  rfl

/-- Where no keyword stands the frame rule fails and asks for it. -/
theorem plain_frame_absent {c : Cursor} (h : ∀ t, ¬ ReadsKeyword .unsigned c.rest t) :
    (Rules.plain.frame () c).1 = ⟨none, [.expected (c.skip isSpace).offset (.keyword .unsigned)]⟩ := by
  have hkeyword : Terminal.keyword .unsigned c =
      .error [.expected (c.skip isSpace).offset (.keyword .unsigned)] := by
    cases hkeyword : Terminal.keyword .unsigned c with
    | ok found => exact absurd ((keyword_scans .unsigned).ok_iff.1 hkeyword).2 (h _)
    | error notes =>
      rw [keyword_eq] at hkeyword
      split at hkeyword
      · cases hkeyword
      · rw [← hkeyword]
  have hhead : frameHead c = .error [.expected (c.skip isSpace).offset (.keyword .unsigned)] := by
    change (Terminal.keyword .unsigned c).bind _ = _
    rw [hkeyword]
    rfl
  simp only [Rules.plain, frame, hhead]

end Petscii.Source

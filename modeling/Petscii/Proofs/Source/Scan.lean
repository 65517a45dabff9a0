import Mathlib.Data.List.TakeWhile
import Petscii.Proofs.Source.Grammar
import Petscii.Proofs.Text.Name

/-!
# Terminals read tokens

A terminal succeeds at a cursor exactly if the text there begins with its token, and then it stops behind
the token. `Scans` says this of a terminal and a relation, and terminals in a row scan what their relations
say in a row.
-/

namespace Petscii.Source

/-! ### Cursors -/

namespace Cursor

variable (c : Cursor)

def stop : Nat :=
  c.offset + c.rest.length

theorem eq_of_stop {c c' : Cursor} (hrest : c.rest = c'.rest) (hstop : c.stop = c'.stop) : c = c' := by
  obtain ⟨rest, offset⟩ := c
  obtain ⟨rest', offset'⟩ := c'
  cases hrest
  simp only [stop, Nat.add_right_cancel_iff] at hstop
  rw [hstop]

@[simp] theorem rest_advance (n : Nat) : (c.advance n).rest = c.rest.drop n := rfl

@[simp] theorem stop_advance (n : Nat) : (c.advance n).stop = c.stop := by
  simp only [stop, advance, List.length_take, List.length_drop]
  omega

@[simp] theorem rest_skip (within : UInt8 → Bool) : (c.skip within).rest = c.rest.dropWhile within := by
  have hdrop : (c.rest.takeWhile within ++ c.rest.dropWhile within).drop
      (c.rest.takeWhile within).length = c.rest.dropWhile within := List.drop_left
  rwa [List.takeWhile_append_dropWhile] at hdrop

@[simp] theorem stop_skip (within : UInt8 → Bool) : (c.skip within).stop = c.stop := by
  rw [skip, stop_advance]

/-- The cursor of the same text at a given end of it. -/
def behind (t : Bytes) : Cursor :=
  ⟨t, c.stop - t.length⟩

theorem stop_behind {c : Cursor} {t : Bytes} (h : t.length ≤ c.rest.length) : (c.behind t).stop = c.stop := by
  simp only [behind, stop]
  omega

end Cursor

/-! ### Stretches of bytes of a class -/

section Stretches

variable {within : UInt8 → Bool} {a b : Bytes}

theorem takeWhile_stretch (ha : ∀ x ∈ a, within x = true) (hb : Off within b) :
    (a ++ b).takeWhile within = a := by
  rw [List.takeWhile_append_of_pos ha]
  cases b with
  | nil => exact List.append_nil a
  | cons x b => rw [List.takeWhile_cons_of_neg (by simpa [Off] using hb), List.append_nil]

theorem dropWhile_stretch (ha : ∀ x ∈ a, within x = true) (hb : Off within b) :
    (a ++ b).dropWhile within = b := by
  rw [List.dropWhile_append_of_pos ha]
  cases b with
  | nil => rfl
  | cons x b => rw [List.dropWhile_cons_of_neg (by simpa [Off] using hb)]

/-- A stretch ends where the text does, or at a byte outside its class. -/
theorem takeWhile_append_off (a : Bytes) (hb : Off within b) : (a ++ b).takeWhile within = a.takeWhile within := by
  induction a with
  | nil => exact takeWhile_stretch (a := []) (by simp) hb
  | cons x a ih =>
    rw [List.cons_append, List.takeWhile_cons, List.takeWhile_cons, ih]

theorem dropWhile_append_off (a : Bytes) (hb : Off within b) :
    (a ++ b).dropWhile within = a.dropWhile within ++ b := by
  induction a with
  | nil => exact dropWhile_stretch (a := []) (by simp) hb
  | cons x a ih =>
    rw [List.cons_append, List.dropWhile_cons, List.dropWhile_cons, ih]
    split <;> rfl

theorem off_dropWhile (within : UInt8 → Bool) (s : Bytes) : Off within (s.dropWhile within) := by
  rw [Off, Option.any_eq_false]
  intro x hx
  rw [List.head?_eq_some_iff] at hx
  obtain ⟨rest, hrest⟩ := hx
  have hne : s.dropWhile within ≠ [] := by
    rw [hrest]
    exact List.cons_ne_nil _ _
  have hhead := List.head_dropWhile_not within hne
  simpa only [hrest, List.head_cons] using hhead

end Stretches

theorem Spaced.length_le {text s t : Bytes} (h : Spaced text s t) : t.length ≤ s.length := by
  obtain ⟨space, _, rfl⟩ := h
  simp only [List.length_append]
  omega

/-- A text that does not begin with white space stands behind all white space. -/
theorem spaced_iff {text s t : Bytes} (htext : Off isSpace (text ++ t)) :
    Spaced text s t ↔ s.dropWhile isSpace = text ++ t := by
  constructor
  · rintro ⟨space, hspace, rfl⟩
    rw [List.append_assoc, dropWhile_stretch hspace htext]
  · intro h
    refine ⟨s.takeWhile isSpace, fun b hb => (List.mem_takeWhile_imp hb), ?_⟩
    rw [List.append_assoc, ← h, List.takeWhile_append_dropWhile]

/-! ### Terminals and relations -/

/-- A terminal succeeds exactly where its relation holds. -/
structure Scans {α : Type} (terminal : Terminal α) (R : α → Bytes → Bytes → Prop) : Prop where
  shrinks : ∀ {v s t}, R v s t → t.length ≤ s.length
  ok_iff : ∀ {c v c'}, terminal c = .ok (v, c') ↔ c'.stop = c.stop ∧ R v c.rest c'.rest

namespace Scans

variable {α β : Type} {terminal : Terminal α} {R : α → Bytes → Bytes → Prop}

theorem ok (h : Scans terminal R) {c : Cursor} {v : α} {t : Bytes} (hR : R v c.rest t) :
    terminal c = .ok (v, c.behind t) :=
  h.ok_iff.2 ⟨Cursor.stop_behind (h.shrinks hR), hR⟩

theorem pure (v : α) : Scans (Pure.pure v : Terminal α) fun w s t => w = v ∧ t = s where
  shrinks := by
    rintro w s t ⟨_, rfl⟩
    exact Nat.le_refl _
  ok_iff := by
    intro c w c'
    constructor
    · intro h
      cases h
      exact ⟨rfl, rfl, rfl⟩
    · rintro ⟨hstop, rfl, hrest⟩
      rw [Cursor.eq_of_stop hrest hstop]
      rfl

theorem bind {next : α → Terminal β} {Q : α → β → Bytes → Bytes → Prop} (h : Scans terminal R)
    (hnext : ∀ v, Scans (next v) (Q v)) :
    Scans (terminal >>= next) fun w s u => ∃ v t, R v s t ∧ Q v w t u where
  shrinks := by
    rintro w s u ⟨v, t, hR, hQ⟩
    exact Nat.le_trans ((hnext v).shrinks hQ) (h.shrinks hR)
  ok_iff := by
    intro c w c'
    change (terminal c).bind (fun p => next p.1 p.2) = .ok (w, c') ↔ _
    constructor
    · intro hok
      cases hfirst : terminal c with
      | error notes =>
        rw [hfirst] at hok
        cases hok
      | ok p =>
        rw [hfirst] at hok
        obtain ⟨v, c₁⟩ := p
        obtain ⟨hstop, hR⟩ := h.ok_iff.1 hfirst
        obtain ⟨hstop', hQ⟩ := (hnext v).ok_iff.1 hok
        exact ⟨hstop'.trans hstop, v, _, hR, hQ⟩
    · rintro ⟨hstop, v, t, hR, hQ⟩
      rw [h.ok hR]
      refine (hnext v).ok_iff.2 ⟨?_, hQ⟩
      rw [hstop, Cursor.stop_behind (h.shrinks hR)]

theorem congr {Q : α → Bytes → Bytes → Prop} (h : Scans terminal R) (hiff : ∀ v s t, Q v s t ↔ R v s t) :
    Scans terminal Q where
  shrinks hQ := h.shrinks ((hiff _ _ _).1 hQ)
  ok_iff := by
    intro c v c'
    rw [h.ok_iff, hiff]

end Scans

/-! ### Single tokens -/

theorem mark_eq (m : Mark) (c : Cursor) :
    Terminal.mark m c =
      if (utf8 m.text).isPrefixOf (c.skip isSpace).rest then
        .ok ((), (c.skip isSpace).advance (utf8 m.text).length)
      else .error [.expected (c.skip isSpace).offset (.mark m)] := by
  rw [Terminal.mark]
  change (if _ then _ else _ : Terminal Unit) (c.skip isSpace) = _
  split <;> rfl

theorem keyword_eq (k : Keyword) (c : Cursor) :
    Terminal.keyword k c =
      if (utf8 k.text).isPrefixOf (c.skip isSpace).rest &&
          !(((c.skip isSpace).advance (utf8 k.text).length).rest.head?.any isNameByte) then
        .ok ((), (c.skip isSpace).advance (utf8 k.text).length)
      else .error [.expected (c.skip isSpace).offset (.keyword k)] := by
  rw [Terminal.keyword]
  change (if _ then _ else _ : Terminal Unit) (c.skip isSpace) = _
  split <;> rfl

theorem name_eq (c : Cursor) :
    Terminal.name c =
      if (c.skip isSpace).rest.head?.any isNameStart then
        .ok (asciiText ((c.skip isSpace).rest.takeWhile isNameByte), (c.skip isSpace).skip isNameByte)
      else .error [.expected (c.skip isSpace).offset .name] := by
  rw [Terminal.name]
  change (if _ then _ else _ : Terminal String) (c.skip isSpace) = _
  split <;> rfl

theorem digits_eq (c : Cursor) :
    Terminal.digits c =
      if c.rest.takeWhile isDigit = [] then .error []
      else if Terminal.numberLimit ≤ decimal (c.rest.takeWhile isDigit) then
        .error [.tooLarge c.offset (c.rest.takeWhile isDigit)]
      else .ok (decimal (c.rest.takeWhile isDigit), c.skip isDigit) := by
  rw [Terminal.digits]
  change (if _ then _ else _ : Terminal Nat) c = _
  split
  · rfl
  · split <;> rfl

theorem number_eq (c : Cursor) :
    Terminal.number c =
      match Terminal.digits (c.skip isSpace) with
      | .ok (n, after) => .ok (n, after)
      | .error notes => .error (notes ++ [.expected ((c.skip isSpace).skip isDigit).offset .number]) := by
  rw [Terminal.number]
  change (match Terminal.digits (c.skip isSpace) with
    | .ok (n, after) => (do set after; return n : Terminal Nat)
    | .error notes => throw (notes ++ _)) (c.skip isSpace) = _
  cases Terminal.digits (c.skip isSpace) with
  | ok p => rfl
  | error notes => rfl

theorem off_append {within : UInt8 → Bool} {text : Bytes} (htext : Off within text) (hne : text ≠ [])
    (t : Bytes) : Off within (text ++ t) := by
  cases text with
  | nil => exact absurd rfl hne
  | cons b text => exact htext

theorem solid_mark (m : Mark) (t : Bytes) : Off isSpace (utf8 m.text ++ t) := by
  have htext : Off isSpace (utf8 m.text) ∧ utf8 m.text ≠ [] := by
    cases m <;> exact ⟨by decide, by decide⟩
  exact off_append htext.1 htext.2 t

theorem solid_keyword (k : Keyword) (t : Bytes) : Off isSpace (utf8 k.text ++ t) := by
  have htext : Off isSpace (utf8 k.text) ∧ utf8 k.text ≠ [] := by
    cases k <;> exact ⟨by decide, by decide⟩
  exact off_append htext.1 htext.2 t

theorem isPrefixOf_of_append {text s t : Bytes} (h : s = text ++ t) : text.isPrefixOf s = true := by
  rw [h]
  exact List.isPrefixOf_iff_prefix.2 (List.prefix_append text t)

theorem drop_eq_iff {text s t : Bytes} (hbegins : text.isPrefixOf s = true) :
    t = s.drop text.length ↔ s = text ++ t := by
  obtain ⟨u, rfl⟩ := List.isPrefixOf_iff_prefix.1 hbegins
  rw [List.drop_left]
  exact ⟨fun h => h ▸ rfl, fun h => (List.append_cancel_left h).symm⟩

theorem mark_scans (m : Mark) : Scans (Terminal.mark m) fun _ s t => ReadsMark m s t where
  shrinks h := Spaced.length_le h
  ok_iff := by
    intro c v c'
    rw [mark_eq, ReadsMark, spaced_iff (solid_mark m _), ← Cursor.rest_skip]
    split
    · next hbegins =>
      rw [← drop_eq_iff hbegins]
      constructor
      · rintro ⟨⟩
        exact ⟨by simp, rfl⟩
      · rintro ⟨hstop, hrest⟩
        exact congrArg (fun c' => Except.ok ((), c')) (Cursor.eq_of_stop hrest.symm (by simpa using hstop.symm))
    · next hbegins =>
      constructor
      · intro h
        cases h
      · rintro ⟨_, hrest⟩
        exact absurd (isPrefixOf_of_append hrest) hbegins

theorem mark_eq_error {m : Mark} {c : Cursor} (h : ∀ t, ¬ ReadsMark m c.rest t) :
    Terminal.mark m c = .error [.expected (c.skip isSpace).offset (.mark m)] := by
  cases hmark : Terminal.mark m c with
  | ok p => exact absurd ((mark_scans m).ok_iff.1 hmark).2 (h _)
  | error notes =>
    rw [mark_eq] at hmark
    split at hmark
    · cases hmark
    · rw [← hmark]

theorem keyword_scans (k : Keyword) : Scans (Terminal.keyword k) fun _ s t => ReadsKeyword k s t where
  shrinks h := Spaced.length_le h.1
  ok_iff := by
    intro c v c'
    rw [keyword_eq, ReadsKeyword, spaced_iff (solid_keyword k _), ← Cursor.rest_skip]
    split
    · next hboth =>
      rw [Bool.and_eq_true, Bool.not_eq_true'] at hboth
      rw [← drop_eq_iff hboth.1]
      constructor
      · rintro ⟨⟩
        exact ⟨by simp, rfl, hboth.2⟩
      · rintro ⟨hstop, hrest, _⟩
        exact congrArg (fun c' => Except.ok ((), c')) (Cursor.eq_of_stop hrest.symm (by simpa using hstop.symm))
    · next hboth =>
      constructor
      · intro h
        cases h
      · rintro ⟨_, hrest, hoff⟩
        have hbegins : (utf8 k.text).isPrefixOf (c.skip isSpace).rest = true :=
          isPrefixOf_of_append hrest
        rw [Bool.and_eq_true, Bool.not_eq_true', Cursor.rest_advance, ← (drop_eq_iff hbegins).2 hrest]
          at hboth
        exact absurd ⟨hbegins, hoff⟩ hboth

theorem NameText.isNameByte {name : Bytes} (h : NameText name) : ∀ b ∈ name, isNameByte b = true := by
  obtain ⟨b, rest, rfl, hstart, hrest⟩ := h
  exact List.forall_mem_cons.2 ⟨isNameByte_of_isNameStart hstart, hrest⟩

theorem isSpace_of_isNameByte {b : UInt8} (h : isNameByte b = true) : isSpace b = false := by
  rw [← Bool.not_eq_true]
  intro hspace
  simp only [isSpace, isBlank, newline, Bool.or_eq_true, beq_iff_eq] at hspace
  rcases hspace with ((rfl | rfl) | rfl) | rfl <;> exact absurd h (by decide)

theorem NameText.solid {name : Bytes} (h : NameText name) (t : Bytes) : Off isSpace (name ++ t) := by
  obtain ⟨b, rest, rfl, hstart, _⟩ := h
  exact isSpace_of_isNameByte (isNameByte_of_isNameStart hstart)

theorem isNameByte_of_isDigit {b : UInt8} (h : isDigit b = true) : isNameByte b = true := by
  rw [isNameByte, h, Bool.or_true]

theorem NumberText.solid {digits : Bytes} (h : NumberText digits) (t : Bytes) : Off isSpace (digits ++ t) := by
  obtain ⟨hne, hdigits⟩ := h
  cases digits with
  | nil => exact absurd rfl hne
  | cons d digits =>
    exact isSpace_of_isNameByte (isNameByte_of_isDigit (hdigits d List.mem_cons_self))

theorem name_scans : Scans Terminal.name fun v s t => ∃ name, v = asciiText name ∧ ReadsName name s t where
  shrinks := by
    rintro v s t ⟨name, _, hspaced, _⟩
    exact hspaced.length_le
  ok_iff := by
    intro c v c'
    rw [name_eq]
    split
    · next hstart =>
      -- the name is the stretch of name bytes behind the white space
      have hname : NameText ((c.skip isSpace).rest.takeWhile isNameByte) := by
        cases hrest : (c.skip isSpace).rest with
        | nil =>
          rw [hrest] at hstart
          cases hstart
        | cons b rest =>
          rw [hrest] at hstart
          have hb : isNameStart b = true := hstart
          refine ⟨b, rest.takeWhile isNameByte, ?_, hb, fun x hx => List.mem_takeWhile_imp hx⟩
          rw [List.takeWhile_cons_of_pos (isNameByte_of_isNameStart hb)]
      constructor
      · rintro ⟨⟩
        refine ⟨by simp, _, rfl, ?_, hname, ?_⟩
        · rw [spaced_iff (hname.solid _), ← Cursor.rest_skip, Cursor.rest_skip (c.skip isSpace),
            List.takeWhile_append_dropWhile]
        · rw [Cursor.rest_skip]
          exact off_dropWhile _ _
      · rintro ⟨hstop, name, rfl, hspaced, htext, hoff⟩
        rw [spaced_iff (htext.solid _), ← Cursor.rest_skip] at hspaced
        rw [hspaced, takeWhile_stretch htext.isNameByte hoff]
        refine congrArg (fun c' => Except.ok (_, c')) (Cursor.eq_of_stop ?_ (by simpa using hstop.symm))
        rw [Cursor.rest_skip, hspaced, dropWhile_stretch htext.isNameByte hoff]
    · next hstart =>
      constructor
      · intro h
        cases h
      · rintro ⟨_, name, _, hspaced, htext, _⟩
        rw [spaced_iff (htext.solid _), ← Cursor.rest_skip] at hspaced
        obtain ⟨b, rest, rfl, hb, _⟩ := htext
        rw [hspaced] at hstart
        exact absurd hb hstart

theorem digits_scans : Scans Terminal.digits fun n s t =>
    ∃ digits, s = digits ++ t ∧ NumberText digits ∧ decimal digits = n ∧ Off isDigit t ∧
      n < Terminal.numberLimit where
  shrinks := by
    rintro n s t ⟨digits, rfl, _⟩
    rw [List.length_append]
    omega
  ok_iff := by
    intro c n c'
    rw [digits_eq]
    have hstretch : ∀ {digits t : Bytes}, c.rest = digits ++ t → NumberText digits → Off isDigit t →
        c.rest.takeWhile isDigit = digits ∧ (c.skip isDigit).rest = t := by
      intro digits t hrest hdigits hoff
      rw [Cursor.rest_skip, hrest]
      exact ⟨takeWhile_stretch hdigits.2 hoff, dropWhile_stretch hdigits.2 hoff⟩
    split
    · next hnone =>
      constructor
      · intro h
        cases h
      · rintro ⟨_, digits, hrest, hdigits, _, hoff, _⟩
        rw [(hstretch hrest hdigits hoff).1] at hnone
        exact absurd hnone hdigits.1
    · next hsome =>
      split
      · next hlarge =>
        constructor
        · intro h
          cases h
        · rintro ⟨_, digits, hrest, hdigits, rfl, hoff, hsmall⟩
          rw [(hstretch hrest hdigits hoff).1] at hlarge
          omega
      · next hsmall =>
        constructor
        · rintro ⟨⟩
          refine ⟨by simp, _, ?_, ⟨hsome, fun d hd => List.mem_takeWhile_imp hd⟩, rfl, ?_, by omega⟩
          · rw [Cursor.rest_skip, List.takeWhile_append_dropWhile]
          · rw [Cursor.rest_skip]
            exact off_dropWhile _ _
        · rintro ⟨hstop, digits, hrest, hdigits, rfl, hoff, _⟩
          obtain ⟨htake, hskip⟩ := hstretch hrest hdigits hoff
          rw [htake]
          refine congrArg (fun c' => Except.ok (_, c')) (Cursor.eq_of_stop hskip ?_)
          simpa using hstop.symm

theorem number_scans : Scans Terminal.number fun n s t => ReadsNumber n s t ∧ n < Terminal.numberLimit where
  shrinks := by
    rintro n s t ⟨⟨digits, hspaced, _⟩, _⟩
    exact hspaced.length_le
  ok_iff := by
    intro c n c'
    have hdigits : Terminal.number c = .ok (n, c') ↔ Terminal.digits (c.skip isSpace) = .ok (n, c') := by
      rw [number_eq]
      cases Terminal.digits (c.skip isSpace) with
      | ok p => rfl
      | error notes => simp
    rw [hdigits, digits_scans.ok_iff, Cursor.stop_skip, Cursor.rest_skip]
    constructor
    · rintro ⟨hstop, digits, hrest, htext, hvalue, hoff, hsmall⟩
      exact ⟨hstop, ⟨digits, (spaced_iff (htext.solid _)).2 hrest, htext, hvalue, hoff⟩, hsmall⟩
    · rintro ⟨hstop, ⟨digits, hspaced, htext, hvalue, hoff⟩, hsmall⟩
      exact ⟨hstop, digits, (spaced_iff (htext.solid _)).1 hspaced, htext, hvalue, hoff, hsmall⟩

/-! ### The beginning and the end of a frame -/

theorem frameHead_scans : Scans frameHead fun v s t =>
    ∃ name, v = "_" ++ asciiText name ∧ ReadsHead name s t := by
  refine Scans.congr ((keyword_scans .unsigned).bind fun _ => (keyword_scans .char).bind fun _ =>
    name_scans.bind fun name => (mark_scans .leftBracket).bind fun _ => (mark_scans .rightBracket).bind
      fun _ => (mark_scans .equals).bind fun _ => (mark_scans .leftBrace).bind fun _ =>
        Scans.pure ("_" ++ name)) fun v s t => ?_
  constructor
  · rintro ⟨name, rfl, s₁, s₂, s₃, s₄, s₅, s₆, h₁, h₂, h₃, h₄, h₅, h₆, h₇⟩
    exact ⟨(), s₁, h₁, (), s₂, h₂, _, s₃, ⟨name, rfl, h₃⟩, (), s₄, h₄, (), s₅, h₅, (), s₆, h₆, (), t, h₇,
      rfl, rfl⟩
  · rintro ⟨_, s₁, h₁, _, s₂, h₂, _, s₃, ⟨name, rfl, h₃⟩, _, s₄, h₄, _, s₅, h₅, _, s₆, h₆, _, _, h₇,
      rfl, rfl⟩
    exact ⟨name, rfl, s₁, s₂, s₃, s₄, s₅, s₆, h₁, h₂, h₃, h₄, h₅, h₆, h₇⟩

theorem frameEnd_scans : Scans frameEnd fun _ s t => ReadsEnd s t := by
  refine Scans.congr ((mark_scans .rightBrace).bind fun _ => mark_scans .semicolon) fun v s t => ?_
  constructor
  · rintro ⟨s₁, h₁, h₂⟩
    exact ⟨(), s₁, h₁, h₂⟩
  · rintro ⟨_, s₁, h₁, h₂⟩
    exact ⟨s₁, h₁, h₂⟩

end Petscii.Source

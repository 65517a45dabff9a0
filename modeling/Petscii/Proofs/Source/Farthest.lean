import Petscii.Proofs.Source.Stages

/-!
# How far a parse gets

A parse without a note that ends it reads tokens up to some stage, and then none of the tokens that may come
next. This is the farthest place in its journal, and the tokens expected there are all those of the stage.
Rules that were tried before left their notes at the same place, where they ask for other tokens of the
stage, or at places before it, where the journal forgets them.
-/

namespace Petscii.Source

/-! ### The journal -/

/-- Tokens that were expected before a place. -/
def Early (place : Nat) (notes : List Note) : Prop :=
  ∀ n ∈ notes, ∃ offset t, n = .expected offset t ∧ offset < place

theorem early_nil (place : Nat) : Early place [] := by
  simp [Early]

theorem early_expected {offset place : Nat} (t : Token) (h : offset < place) :
    Early place [.expected offset t] := by
  intro n hn
  exact ⟨offset, t, List.mem_singleton.1 hn, h⟩

theorem Early.append {place : Nat} {a b : List Note} (ha : Early place a) (hb : Early place b) :
    Early place (a ++ b) :=
  List.forall_mem_append.2 ⟨ha, hb⟩

theorem Early.mono {place place' : Nat} {notes : List Note} (h : Early place notes) (hle : place ≤ place') :
    Early place' notes := by
  intro n hn
  obtain ⟨offset, t, rfl, hlt⟩ := h n hn
  exact ⟨offset, t, rfl, by omega⟩

namespace Journal

variable {j : Journal} {place : Nat}

/-- Nothing was expected at a place or behind it. -/
def Before (j : Journal) (place : Nat) : Prop :=
  j.farthest < place ∨ j.farthest ≤ place ∧ j.expected = []

theorem Before.mono {place' : Nat} (h : j.Before place) (hle : place ≤ place') : j.Before place' := by
  rcases h with hlt | ⟨hle', hnil⟩
  · exact Or.inl (by omega)
  · exact Or.inr ⟨by omega, hnil⟩

theorem Before.addAll {notes : List Note} (h : j.Before place) (hearly : Early place notes) :
    (j.addAll notes).Before place := by
  induction notes generalizing j with
  | nil => exact h
  | cons n notes ih =>
    obtain ⟨⟨offset, t, rfl, hlt⟩, hrest⟩ := List.forall_mem_cons.1 hearly
    apply ih _ hrest
    rw [add]
    split
    · exact Or.inl hlt
    · split
      · next hsame => exact Or.inl (hsame.1 ▸ hlt)
      · exact h

theorem addAll_append (j : Journal) (a b : List Note) : j.addAll (a ++ b) = (j.addAll a).addAll b :=
  List.foldl_append

/-- Tokens expected at the farthest place are kept with those that were expected there before. -/
theorem addAll_same {ts : List Token} (hplace : j.farthest = place) (hnodup : (j.expected ++ ts).Nodup) :
    (j.addAll (ts.map (.expected place))).farthest = place ∧
      (j.addAll (ts.map (.expected place))).expected = j.expected ++ ts := by
  induction ts generalizing j with
  | nil => exact ⟨hplace, (List.append_nil _).symm⟩
  | cons t ts ih =>
    have hnew : t ∉ j.expected := by
      intro hmem
      exact (List.nodup_append.1 hnodup).2.2 t hmem t List.mem_cons_self rfl
    have hadd : j.add (.expected place t) = { j with expected := j.expected ++ [t] } := by
      rw [add, if_neg (by omega), if_pos ⟨hplace.symm, hnew⟩]
    have hrest := @ih { j with expected := j.expected ++ [t] } hplace
      (by rwa [List.append_assoc, List.singleton_append])
    rw [List.append_assoc, List.singleton_append, ← hadd] at hrest
    exact hrest

/-- The first tokens that are expected at a place are those the journal tells of. -/
theorem addAll_expected {ts : List Token} (h : j.Before place) (hnodup : ts.Nodup) (hne : ts ≠ []) :
    (j.addAll (ts.map (.expected place))).farthest = place ∧
      (j.addAll (ts.map (.expected place))).expected = ts := by
  cases ts with
  | nil => exact absurd rfl hne
  | cons t ts =>
    have hfirst : (j.add (.expected place t)).farthest = place ∧
        (j.add (.expected place t)).expected = [t] := by
      rw [add]
      split
      · exact ⟨rfl, rfl⟩
      · next hge =>
        obtain ⟨hle, hnil⟩ := h.resolve_left hge
        rw [if_pos ⟨by omega, by rw [hnil]; exact List.not_mem_nil⟩, hnil]
        exact ⟨by simp only; omega, rfl⟩
    have hrest := @addAll_same (j.add (.expected place t)) place ts hfirst.1 (by rwa [hfirst.2])
    rwa [hfirst.2] at hrest

end Journal

/-! ### Places -/

theorem Cursor.offset_eq (c : Cursor) : c.offset = c.stop - c.rest.length := by
  rw [stop]
  omega

/-- The place of the next token if a given end of the text is left. -/
def Cursor.place (c : Cursor) (r : Bytes) : Nat :=
  c.stop - (r.dropWhile isSpace).length

theorem Cursor.place_rest (c : Cursor) : c.place c.rest = (c.skip isSpace).offset := by
  rw [offset_eq, stop_skip, rest_skip, place]

theorem Cursor.place_eq {c c' : Cursor} (h : c'.stop = c.stop) (r : Bytes) : c'.place r = c.place r := by
  rw [place, place, h]

theorem ReadsTokens.offset_lt {ts : List Token} {c c' : Cursor} (h : ReadsTokens ts c.rest c'.rest)
    (hne : ts ≠ []) (hstop : c'.stop = c.stop) : (c.skip isSpace).offset < c'.offset := by
  have hlt := h.length_lt hne
  have hle := List.length_dropWhile_le isSpace c.rest
  have hoffset : c'.offset + c'.rest.length = c.offset + c.rest.length := hstop
  rw [← Cursor.place_rest, Cursor.place, Cursor.stop]
  omega

theorem ReadsTokens.offset_le {ts : List Token} {c : Cursor} {r : Bytes} (h : ReadsTokens ts c.rest r) :
    c.offset ≤ c.place r := by
  have hle := h.length_le
  have hle' := List.length_dropWhile_le isSpace r
  rw [Cursor.place, Cursor.stop]
  omega

/-! ### Terminals -/

/-- A terminal reads a token, and asks for it where it does not stand. -/
structure Asks {α : Type} (terminal : Terminal α) (t : Token) : Prop where
  reads : ∀ {c v c'}, terminal c = .ok (v, c') → c'.stop = c.stop ∧ t.Reads c.rest c'.rest
  fails : ∀ {c notes}, terminal c = .error notes → Harmless notes →
    notes = [.expected (c.skip isSpace).offset t] ∧ ∀ u, ¬ t.Reads c.rest u

theorem asks_of_scans {α : Type} {terminal : Terminal α} {R : α → Bytes → Bytes → Prop} {t : Token}
    (h : Scans terminal R) (hreads : ∀ s u, t.Reads s u ↔ ∃ v, R v s u)
    (herror : ∀ c notes, terminal c = .error notes → notes = [.expected (c.skip isSpace).offset t]) :
    Asks terminal t where
  reads := by
    intro c v c' hok
    obtain ⟨hstop, hR⟩ := h.ok_iff.1 hok
    exact ⟨hstop, (hreads _ _).2 ⟨v, hR⟩⟩
  fails := by
    intro c notes hnotes _
    refine ⟨herror c notes hnotes, fun u hu => ?_⟩
    obtain ⟨v, hR⟩ := (hreads _ _).1 hu
    rw [h.ok hR] at hnotes
    cases hnotes

theorem asks_keyword (k : Keyword) : Asks (Terminal.keyword k) (.keyword k) := by
  apply asks_of_scans (keyword_scans k)
  · intro s u
    exact ⟨fun h => ⟨(), h⟩, fun ⟨_, h⟩ => h⟩
  · intro c notes h
    rw [keyword_eq] at h
    split at h
    · cases h
    · exact (Except.error.inj h).symm

theorem asks_mark {m : Mark} (hm : m ≠ .slashes) : Asks (Terminal.mark m) (.mark m) := by
  apply asks_of_scans (mark_scans m)
  · intro s u
    cases m with
    | slashes => exact absurd rfl hm
    | _ => exact ⟨fun h => ⟨(), h⟩, fun ⟨_, h⟩ => h⟩
  · intro c notes h
    rw [mark_eq] at h
    split at h
    · cases h
    · exact (Except.error.inj h).symm

theorem asks_name : Asks Terminal.name .name := by
  apply asks_of_scans name_scans
  · intro s u
    exact ⟨fun ⟨name, h⟩ => ⟨_, name, rfl, h⟩, fun ⟨_, name, _, h⟩ => ⟨name, h⟩⟩
  · intro c notes h
    rw [name_eq] at h
    split at h
    · cases h
    · exact (Except.error.inj h).symm

theorem asks_number : Asks Terminal.number .number where
  reads := by
    intro c n c' hok
    obtain ⟨hstop, hreads, _⟩ := number_scans.ok_iff.1 hok
    exact ⟨hstop, n, hreads⟩
  fails := by
    intro c notes h hharmless
    rw [number_eq, digits_eq] at h
    by_cases hnone : (c.skip isSpace).rest.takeWhile isDigit = []
    · have hoffset : ((c.skip isSpace).skip isDigit).offset = (c.skip isSpace).offset := by
        rw [Cursor.skip, hnone]
        rfl
      rw [if_pos hnone] at h
      refine ⟨by rw [← hoffset]; exact (Except.error.inj h).symm, fun u hu => ?_⟩
      obtain ⟨x, v, hx, hs, hoff, _⟩ := Token.reads_iff.1 hu
      rw [Cursor.rest_skip, hs, takeWhile_stretch hx.2 hoff] at hnone
      exact hx.ne_nil hnone
    · rw [if_neg hnone] at h
      split at h
      · cases h
      · next more hdigits =>
        split at hdigits
        · cases hdigits
          cases h
          exact absurd (harmless_append.1 hharmless).1 (not_harmless_tooLarge _ _)
        · cases hdigits

/-! ### Where a rule gets stuck -/

/-- From a stage on tokens are read up to another one, where none of the tokens that may come next stands.
The last of the notes ask for these tokens, and all others lie before. -/
def Stuck (q : Stage) (c : Cursor) (notes : List Note) : Prop :=
  ∃ ts q' r early, ReadsTokens ts c.rest r ∧ Leads q ts q' ∧ (∀ t ∈ q'.accepts, ∀ u, ¬ t.Reads r u) ∧
    notes = early ++ q'.accepts.map (.expected (c.place r)) ∧ Early (c.place r) early

section Stuck

variable {q q' : Stage} {c c' : Cursor}

theorem Stuck.here (h : ∀ t ∈ q.accepts, ∀ u, ¬ t.Reads c.rest u) :
    Stuck q c (q.accepts.map (.expected (c.skip isSpace).offset)) := by
  rw [← Cursor.place_rest]
  exact ⟨[], q, c.rest, [], rfl, rfl, h, rfl, early_nil _⟩

theorem Stuck.here_one {t : Token} (haccepts : q.accepts = [t]) (h : ∀ u, ¬ t.Reads c.rest u) :
    Stuck q c [.expected (c.skip isSpace).offset t] := by
  have hhere : Stuck q c (q.accepts.map (.expected (c.skip isSpace).offset)) := by
    apply Stuck.here
    rw [haccepts]
    exact List.forall_mem_singleton.2 h
  rwa [haccepts] at hhere

theorem Stuck.here_two {t t' : Token} (haccepts : q.accepts = [t, t']) (h : ∀ u, ¬ t.Reads c.rest u)
    (h' : ∀ u, ¬ t'.Reads c.rest u) :
    Stuck q c [.expected (c.skip isSpace).offset t, .expected (c.skip isSpace).offset t'] := by
  have hhere : Stuck q c (q.accepts.map (.expected (c.skip isSpace).offset)) := by
    apply Stuck.here
    rw [haccepts]
    exact List.forall_mem_cons.2 ⟨h, List.forall_mem_singleton.2 h'⟩
  rwa [haccepts] at hhere

theorem Stuck.append {ts : List Token} {notes notes' : List Note} (hreads : ReadsTokens ts c.rest c'.rest)
    (hleads : Leads q ts q') (hstop : c'.stop = c.stop) (hearly : Early c'.offset notes)
    (h : Stuck q' c' notes') : Stuck q c (notes ++ notes') := by
  obtain ⟨ts', q'', r, early, hreads', hleads', hnone, rfl, hearly'⟩ := h
  have hle := hreads'.offset_le
  rw [Cursor.place_eq hstop] at hle hearly' ⊢
  refine ⟨ts ++ ts', q'', r, notes ++ early, readsTokens_append.2 ⟨_, hreads, hreads'⟩,
    leads_append.2 ⟨_, hleads, hleads'⟩, hnone, (List.append_assoc _ _ _).symm, ?_⟩
  exact (hearly.mono hle).append hearly'

theorem Stuck.cons {t : Token} {notes notes' : List Note} (hreads : t.Reads c.rest c'.rest)
    (hexit : (t, q') ∈ q.exits) (hstop : c'.stop = c.stop) (hearly : Early c'.offset notes)
    (h : Stuck q' c' notes') : Stuck q c (notes ++ notes') := by
  have hleads : Leads q [t] q' := ⟨_, hexit, rfl⟩
  exact h.append hreads.row hleads hstop hearly

/-- A terminal that fails is stuck. -/
def Sticks {α : Type} (terminal : Terminal α) (q : Stage) : Prop :=
  ∀ c notes, terminal c = .error notes → Harmless notes → Stuck q c notes

variable {α β : Type} {terminal : Terminal α} {t : Token}

theorem Asks.sticks (h : Asks terminal t) (hexits : q.exits = [(t, q')]) : Sticks terminal q := by
  intro c notes hnotes hharmless
  obtain ⟨rfl, hnone⟩ := h.fails hnotes hharmless
  have haccepts : q.accepts = [t] := by rw [Stage.accepts, hexits, List.map_singleton]
  exact Stuck.here_one haccepts hnone

theorem Asks.sticks_bind {next : α → Terminal β} (h : Asks terminal t) (hexits : q.exits = [(t, q')])
    (hnext : ∀ v, Sticks (next v) q') : Sticks (terminal >>= next) q := by
  intro c notes hnotes hharmless
  change (terminal c).bind (fun p => next p.1 p.2) = .error notes at hnotes
  cases hfirst : terminal c with
  | error notes' =>
    rw [hfirst] at hnotes
    cases hnotes
    exact h.sticks hexits c notes hfirst hharmless
  | ok p =>
    rw [hfirst] at hnotes
    obtain ⟨v, c'⟩ := p
    obtain ⟨hstop, hreads⟩ := h.reads hfirst
    have hexit : (t, q') ∈ q.exits := by
      rw [hexits]
      exact List.mem_singleton_self _
    exact (hnext v c' notes hnotes hharmless).cons hreads hexit hstop (early_nil _)

theorem sticks_pure (v : α) (q : Stage) : Sticks (pure v : Terminal α) q := by
  intro c notes hnotes
  cases hnotes

end Stuck

/-! ### Rules -/

section Rules

variable {c c' : Cursor} {notes : List Note}

/-- The comment rule reads a comment and notes nothing, or it asks for one. -/
theorem comment_asks (h : Harmless (comment c).notes) :
    (∃ size c', comment c = ⟨some (size, c'), []⟩ ∧ c'.stop = c.stop ∧
        (Token.mark .slashes).Reads c.rest c'.rest) ∨
      comment c = ⟨none, [.expected (c.skip isSpace).offset (.mark .slashes)]⟩ ∧
        ∀ u, ¬ (Token.mark .slashes).Reads c.rest u := by
  rcases comment_cases c with ⟨numbers, t, hreads⟩ | ⟨hmark, hnone⟩
  · left
    by_cases hfit : ∀ n ∈ numbers, n < Terminal.numberLimit
    · exact ⟨_, _, comment_of_fitting hreads hfit, Cursor.stop_behind hreads.length_lt.le, numbers, hreads⟩
    · simp only [not_forall, not_lt] at hfit
      obtain ⟨n, hn, hlarge⟩ := hfit
      obtain ⟨offset, digits, hcomment⟩ := comment_of_large hreads hn hlarge
      rw [hcomment] at h
      exact absurd h (not_harmless_tooLarge offset digits)
  · refine Or.inr ⟨hnone, ?_⟩
    rintro u ⟨numbers, hreads⟩
    obtain ⟨rest, hslashes, _⟩ := readsComment_iff.1 hreads
    exact hmark rest hslashes

theorem moreNumbers_stuck {rounds : Nat} {values : List Cell} (h : moreNumbers rounds values c = ⟨none, notes⟩)
    (hharmless : Harmless notes) : Stuck .number c notes := by
  have hcommaAsks : Asks (Terminal.mark .comma) (.mark .comma) := asks_mark (by decide)
  induction rounds generalizing values c with
  | zero => cases h
  | succ rounds ih =>
    rw [moreNumbers] at h
    split at h
    · cases h
    · next after hcomma =>
      obtain ⟨hstop, hreads⟩ := hcommaAsks.reads hcomma
      have hbehind : Stuck .comma after notes := by
        split at h
        · next notes' hnumber =>
          cases h
          exact asks_number.sticks rfl after notes hnumber hharmless
        · next n next hnumber =>
          obtain ⟨hstop', hreads'⟩ := asks_number.reads hnumber
          exact (ih h).cons hreads' (by decide) hstop' (early_nil _)
      exact hbehind.cons hreads (by decide) hstop (early_nil _)

/-- The numbers end where no comma stands, and the rule asks for one. -/
theorem moreNumbers_ends {rounds : Nat} {values result : List Cell}
    (h : moreNumbers rounds values c = ⟨some (result, c'), notes⟩) (hrounds : c.rest.length < rounds) :
    notes = [.expected (c'.skip isSpace).offset (.mark .comma)] ∧
      ∀ u, ¬ (Token.mark .comma).Reads c'.rest u := by
  induction rounds generalizing values c with
  | zero => exact absurd hrounds (Nat.not_lt_zero _)
  | succ rounds ih =>
    rw [moreNumbers] at h
    split at h
    · next notes' hcomma =>
      cases h
      have hnotes := hcomma
      rw [mark_eq] at hnotes
      split at hnotes
      · cases hnotes
      · cases hnotes
        exact (asks_mark (by decide)).fails hcomma (harmless_expected _ _)
    · next after hcomma =>
      split at h
      · cases h
      · next n next hnumber =>
        have hlt := ((mark_scans .comma).ok_iff.1 hcomma).2.length_lt
        have hle := (number_scans.ok_iff.1 hnumber).2.1.length_le
        exact ih h (by omega)

/-- Behind the last number the rule for the end of a frame asks for a brace where a comma was asked for. -/
theorem frameEnd_stuck (h : frameEnd c = .error notes) (hharmless : Harmless notes)
    (hcomma : ∀ u, ¬ (Token.mark .comma).Reads c.rest u) :
    Stuck .number c (.expected (c.skip isSpace).offset (.mark .comma) :: notes) := by
  have hbraceAsks : Asks (Terminal.mark .rightBrace) (.mark .rightBrace) := asks_mark (by decide)
  have hsemicolon : Sticks (Terminal.mark .semicolon) .rightBrace := (asks_mark (by decide)).sticks rfl
  change (Terminal.mark .rightBrace c).bind (fun p => Terminal.mark .semicolon p.2) = .error notes at h
  cases hbrace : Terminal.mark .rightBrace c with
  | error notes' =>
    rw [hbrace] at h
    cases h
    obtain ⟨rfl, hnone⟩ := hbraceAsks.fails hbrace hharmless
    exact Stuck.here_two rfl hcomma hnone
  | ok p =>
    rw [hbrace] at h
    obtain ⟨_, c'⟩ := p
    obtain ⟨hstop, hreads⟩ := hbraceAsks.reads hbrace
    have hlt := hreads.row.offset_lt (List.cons_ne_nil _ _) hstop
    exact (hsemicolon c' notes h hharmless).cons hreads (by decide) hstop (early_expected _ hlt)

theorem frameBody_stuck {name : String} (h : frameBody name c = ⟨none, notes⟩) (hharmless : Harmless notes) :
    (notes = [.expected (c.skip isSpace).offset .number] ∧ ∀ u, ¬ Token.number.Reads c.rest u) ∨
      ∃ c', c'.stop = c.stop ∧ Token.number.Reads c.rest c'.rest ∧ Stuck .number c' notes := by
  have hagain : ((c.skip isSpace).skip isSpace).offset = (c.skip isSpace).offset := by
    have hself : (c.rest.dropWhile isSpace).dropWhile isSpace = c.rest.dropWhile isSpace :=
      dropWhile_stretch (a := []) (by simp) (off_dropWhile isSpace c.rest)
    simp only [Cursor.offset_eq, Cursor.stop_skip, Cursor.rest_skip, hself]
  rw [frameBody, numbers] at h
  cases hnumber : Terminal.number (c.skip isSpace) with
  | error notes' =>
    simp only [hnumber] at h
    cases h
    obtain ⟨hnotes, hnone⟩ := asks_number.fails hnumber hharmless
    rw [hagain] at hnotes
    refine Or.inl ⟨hnotes, fun u => ?_⟩
    rw [← Token.reads_dropWhile, ← Cursor.rest_skip]
    exact hnone u
  | ok p =>
    obtain ⟨n, next⟩ := p
    obtain ⟨hstop, hreads⟩ := asks_number.reads hnumber
    rw [Cursor.stop_skip] at hstop
    rw [Cursor.rest_skip, Token.reads_dropWhile] at hreads
    refine Or.inr ⟨next, hstop, hreads, ?_⟩
    simp only [hnumber] at h
    split at h
    · next notes' hmore =>
      cases h
      exact moreNumbers_stuck hmore hharmless
    · next values after notes' hmore =>
      obtain ⟨rfl, hcomma⟩ := moreNumbers_ends hmore (Nat.lt_succ_self _)
      obtain ⟨hstop', ns, hrow, _⟩ := moreNumbers_sound hmore
      split at h
      · next more hend =>
        cases h
        have hstuck := frameEnd_stuck hend (harmless_append.1 hharmless).2 hcomma
        show Stuck .number next ([] ++ .expected _ _ :: more)
        exact hstuck.append hrow.readsTokens (leads_more ns) hstop' (early_nil _)
      · split at h
        · cases h
          exact absurd (harmless_append.1 hharmless).2 (by simp [Harmless, Note.isFatal])
        · cases h

theorem frameBody_early {name : String} {f : Frame} (h : frameBody name c = ⟨some (f, c'), notes⟩) :
    Early c'.offset notes := by
  rw [frameBody, numbers] at h
  split at h
  · cases h
  · next values after notes' hnumbers =>
    split at hnumbers
    · cases hnumbers
    · obtain ⟨rfl, _⟩ := moreNumbers_ends hnumbers (Nat.lt_succ_self _)
      split at h
      · cases h
      · next next hend =>
        split at h
        · cases h
        · cases h
          obtain ⟨hstop, hreads⟩ := frameEnd_scans.ok_iff.1 hend
          exact early_expected _ (hreads.readsTokens.offset_lt (List.cons_ne_nil _ _) hstop)

theorem frameHead_stuck (h : frameHead c = .error notes) (hharmless : Harmless notes)
    (hslashes : ∀ u, ¬ (Token.mark .slashes).Reads c.rest u) :
    Stuck .between c (.expected (c.skip isSpace).offset (.mark .slashes) :: notes) := by
  have hrest : Sticks (do
      Terminal.keyword .char
      let name ← Terminal.name
      Terminal.mark .leftBracket
      Terminal.mark .rightBracket
      Terminal.mark .equals
      Terminal.mark .leftBrace
      return "_" ++ name) .unsigned :=
    (asks_keyword .char).sticks_bind rfl fun _ => asks_name.sticks_bind rfl fun _ =>
      (asks_mark (by decide)).sticks_bind rfl fun _ => (asks_mark (by decide)).sticks_bind rfl fun _ =>
        (asks_mark (by decide)).sticks_bind rfl fun _ => (asks_mark (by decide)).sticks_bind rfl fun _ =>
          sticks_pure _ _
  change (Terminal.keyword .unsigned c).bind (fun p => _) = .error notes at h
  cases hkeyword : Terminal.keyword .unsigned c with
  | error notes' =>
    rw [hkeyword] at h
    cases h
    obtain ⟨rfl, hnone⟩ := (asks_keyword .unsigned).fails hkeyword hharmless
    exact Stuck.here_two rfl hslashes hnone
  | ok p =>
    rw [hkeyword] at h
    obtain ⟨_, c'⟩ := p
    obtain ⟨hstop, hreads⟩ := (asks_keyword .unsigned).reads hkeyword
    have hlt := hreads.row.offset_lt (List.cons_ne_nil _ _) hstop
    exact (hrest c' notes h hharmless).cons hreads (by decide) hstop (early_expected _ hlt)

/-- Behind the brace of a frame the comment rule and the rule for the rest of the frame are stuck together. -/
theorem remark_stuck {name : String} {size : Option Canvas} {after : Cursor} {more : List Note}
    (hremark : (comment c).result.getD (none, c) = (size, after))
    (hbody : frameBody name after = ⟨none, more⟩) (hharmless : Harmless ((comment c).notes ++ more)) :
    Stuck .leftBrace c ((comment c).notes ++ more) := by
  obtain ⟨hharmless₁, hharmless₂⟩ := harmless_append.1 hharmless
  rcases comment_asks hharmless₁ with ⟨size', c', hcomment, hstop, hreads⟩ | ⟨hcomment, hnone⟩
  · rw [hcomment] at hremark ⊢
    cases hremark
    have hbehind : Stuck .remark after more := by
      rcases frameBody_stuck hbody hharmless₂ with ⟨rfl, hnumber⟩ | ⟨c', hstop', hnumber, hstuck⟩
      · exact Stuck.here_one rfl hnumber
      · exact hstuck.cons hnumber (by decide) hstop' (early_nil _)
    exact hbehind.cons hreads (by decide) hstop (early_nil _)
  · rw [hcomment] at hremark ⊢
    cases hremark
    rcases frameBody_stuck hbody hharmless₂ with ⟨rfl, hnumber⟩ | ⟨c', hstop', hnumber, hstuck⟩
    · exact Stuck.here_two rfl hnone hnumber
    · have hlt := hnumber.row.offset_lt (List.cons_ne_nil _ _) hstop'
      exact hstuck.cons hnumber (by decide) hstop' (early_expected _ hlt)

/-- The frame rule fails in the head of a frame, or it goes on to the comment and the rest. -/
theorem plain_frame_cases (c : Cursor) :
    (∃ notes, frameHead c = .error notes ∧ (Rules.plain.frame () c).1 = ⟨none, notes⟩) ∨
      ∃ name inside size after result more, frameHead c = .ok (name, inside) ∧
        (comment inside).result.getD (none, inside) = (size, after) ∧
        frameBody name after = ⟨result, more⟩ ∧
        (Rules.plain.frame () c).1 =
          ⟨result.map fun (f, next) => ((f, size), next), (comment inside).notes ++ more⟩ := by
  cases hhead : frameHead c with
  | error notes => exact Or.inl ⟨notes, rfl, by simp only [Rules.plain, frame, hhead]⟩
  | ok p =>
    obtain ⟨name, inside⟩ := p
    cases hremark : (comment inside).result.getD (none, inside) with
    | mk size after =>
      cases hbody : frameBody name after with
      | mk result more =>
        refine Or.inr ⟨name, inside, size, after, result, more, rfl, hremark, hbody, ?_⟩
        rw [plain_frame_of_head hhead]
        simp only [hremark, hbody]

/-- Where there is no comment and no frame, the two rules are stuck together. -/
theorem frame_stuck (h : (Rules.plain.frame () c).1 = ⟨none, notes⟩) (hharmless : Harmless notes)
    (hslashes : ∀ u, ¬ (Token.mark .slashes).Reads c.rest u) :
    Stuck .between c (.expected (c.skip isSpace).offset (.mark .slashes) :: notes) := by
  rcases plain_frame_cases c with ⟨_, hhead, hframe⟩ |
    ⟨name, inside, size, after, result, more, hhead, hremark, hbody, hframe⟩
  · cases hframe.symm.trans h
    exact frameHead_stuck hhead hharmless hslashes
  · rw [hframe] at h
    cases result with
    | some found => cases h
    | none =>
      cases h
      obtain ⟨hstop, _, _, hreads⟩ := frameHead_scans.ok_iff.1 hhead
      have hlt := hreads.readsTokens.offset_lt (List.cons_ne_nil _ _) hstop
      exact (remark_stuck hremark hbody hharmless).append hreads.readsTokens leads_head hstop
        (early_expected _ hlt)

/-- A frame that was read leaves no note at its end or behind it. -/
theorem frame_early {v : Frame × Option Canvas} (h : (Rules.plain.frame () c).1 = ⟨some (v, c'), notes⟩)
    (hharmless : Harmless notes) : Early c'.offset notes := by
  rcases plain_frame_cases c with ⟨_, _, hframe⟩ |
    ⟨name, inside, size, after, result, more, _, hremark, hbody, hframe⟩
  · cases hframe.symm.trans h
  · rw [hframe] at h
    cases result with
    | none => cases h
    | some found =>
      cases h
      refine Early.append ?_ (frameBody_early hbody)
      rcases comment_asks (harmless_append.1 hharmless).1 with ⟨_, _, hcomment, _⟩ | ⟨hcomment, _⟩
      · rw [hcomment]
        exact early_nil _
      · rw [hcomment] at hremark ⊢
        cases hremark
        obtain ⟨hstop, ns, t, hdata, hend, _⟩ := frameBody_sound hbody
        have hrow := readsTokens_append.2 ⟨t, hdata.readsTokens, hend.readsTokens⟩
        have hne : dataTokens ns ++ endTokens ≠ [] := List.append_ne_nil_of_right_ne_nil _ (by decide)
        exact early_expected _ (hrow.offset_lt hne hstop)

end Rules

/-! ### A whole parse -/

/-- What the journal tells of a parse: the place where it is stuck, and the tokens that may come next there. -/
structure Tells (j : Journal) (c : Cursor) (ts : List Token) (q : Stage) (r : Bytes) : Prop where
  reads : ReadsTokens ts c.rest r
  leads : Leads .between ts q
  none : ∀ t ∈ q.accepts, ∀ u, ¬ t.Reads r u
  farthest : j.farthest = c.place r
  expected : j.expected = q.accepts

section Parse

variable {c c' : Cursor} {p p' : Progress}

theorem Stuck.tells {j : Journal} {notes : List Note} (h : Stuck .between c notes) (hbefore : j.Before c.offset) :
    ∃ ts q r, Tells (j.addAll notes) c ts q r := by
  obtain ⟨ts, q, r, early, hreads, hleads, hnone, rfl, hearly⟩ := h
  have hplace := (hbefore.mono hreads.offset_le).addAll hearly
  obtain ⟨hfarthest, hexpected⟩ := Journal.addAll_expected hplace q.nodup_accepts q.accepts_ne_nil
  rw [← Journal.addAll_append] at hfarthest hexpected
  exact ⟨ts, q, r, hreads, hleads, hnone, hfarthest, hexpected⟩

theorem Tells.behind {j : Journal} {ts ts' : List Token} {q : Stage} {r : Bytes} (h : Tells j c' ts' q r)
    (hreads : ReadsTokens ts c.rest c'.rest) (hleads : Leads .between ts .between) (hstop : c'.stop = c.stop) :
    Tells j c (ts ++ ts') q r where
  reads := readsTokens_append.2 ⟨_, hreads, h.reads⟩
  leads := leads_append.2 ⟨_, hleads, h.leads⟩
  none := h.none
  farthest := by rw [h.farthest, Cursor.place_eq hstop]
  expected := h.expected

/-- A parse that no note ends is stuck somewhere, and its journal tells where. -/
theorem items_tells {rounds : Nat} (h : items .plain rounds p () c = (p', c', ()))
    (hfatal : p'.journal.fatal = none) (hrounds : c.rest.length < rounds)
    (hbefore : p.journal.Before c.offset) : ∃ ts q r, Tells p'.journal c ts q r := by
  induction rounds generalizing p c with
  | zero => exact absurd hrounds (Nat.not_lt_zero _)
  | succ rounds ih =>
    have hplain : Rules.plain.comment () c = (comment c, ()) := rfl
    -- an item that is read takes the parse to a place behind all notes
    have hitem : ∀ {p₁ : Progress} {next : Cursor} {ts : List Token},
        items .plain rounds p₁ () next = (p', c', ()) → ReadsTokens ts c.rest next.rest → ts ≠ [] →
        Leads .between ts .between → next.stop = c.stop → p₁.journal.Before next.offset →
        ∃ ts q r, Tells p'.journal c ts q r := by
      intro p₁ next ts hrun hreads hne hleads hstop hbefore₁
      have hlt := hreads.length_lt hne
      have hle := List.length_dropWhile_le isSpace c.rest
      obtain ⟨ts', q, r, htells⟩ := ih hrun (by omega) hbefore₁
      exact ⟨_, q, r, htells.behind hreads hleads hstop⟩
    rw [items, hplain] at h
    cases hresult : (comment c).result with
    | some found =>
      simp only [hresult] at h
      obtain ⟨_, hharmless⟩ := Progress.fatal_note.1 (items_sound h hfatal).1
      obtain ⟨size, next, hcomment, hstop, hreads⟩ | ⟨hcomment, _⟩ := comment_asks hharmless
      · have hlt := (comment_advances (congrArg Outcome.result hcomment)).offset
        rw [hcomment] at hresult h
        cases hresult
        exact hitem h hreads.row (List.cons_ne_nil _ _) (by decide) hstop (hbefore.mono hlt.le)
      · rw [hcomment] at hresult
        cases hresult
    | none =>
      simp only [hresult] at h
      split at h
      · next hsome =>
        cases h
        rw [hfatal] at hsome
        cases hsome
      · cases hframe : (Rules.plain.frame () c).1 with
        | mk result notes =>
          simp only [hframe] at h
          have hfatal₂ : ((p.note (comment c).notes).note notes).journal.fatal = none := by
            cases result with
            | none =>
              cases h
              exact hfatal
            | some found => exact (items_sound h hfatal).1
          obtain ⟨hfatal₁, hharmless₂⟩ := Progress.fatal_note.1 hfatal₂
          obtain ⟨_, hharmless₁⟩ := Progress.fatal_note.1 hfatal₁
          obtain ⟨_, _, hcomment, _⟩ | ⟨hcomment, hslashes⟩ := comment_asks hharmless₁
          · rw [hcomment] at hresult
            cases hresult
          rw [hcomment] at h
          cases result with
          | none =>
            cases h
            exact (frame_stuck hframe hharmless₂ hslashes).tells hbefore
          | some found =>
            obtain ⟨⟨f, size⟩, next⟩ := found
            obtain ⟨hstop, production, hreads, _⟩ := plain_frame_sound hframe hharmless₂
            have hrow := hreads.readsTokens
            have hlt := hrow.offset_lt (List.cons_ne_nil _ _) hstop
            have hleads : Leads .between (Item.frame production).tokens .between := by
              apply leads_item
              intro p' hp'
              cases hp'
              exact hreads.data_ne_nil
            have hle : c.offset ≤ (c.skip isSpace).offset := Nat.le_add_right _ _
            have hbefore₁ := (hbefore.mono (Nat.le_trans hle hlt.le)).addAll (early_expected (.mark .slashes) hlt)
            exact hitem h hrow (List.cons_ne_nil _ _) hleads hstop
              (hbefore₁.addAll (frame_early hframe hharmless₂))

end Parse

end Petscii.Source

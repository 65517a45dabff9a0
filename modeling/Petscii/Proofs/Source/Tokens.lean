import Petscii.Proofs.Source.Accept

/-!
# Tokens in a row

A text of the language is a row of tokens with white space before them; a comment is one token and takes
the rest of its line. Which tokens stand at the beginning of a text depends on the bytes up to the last of
them only, except that a comment ends with its line or with the text. Behind such a beginning and a new
line any text can therefore follow.
-/

namespace Petscii.Source

/-! ### One token -/

def Token.Spells : Token → Bytes → Prop
  | .keyword k, x => x = utf8 k.text
  | .mark m, x => x = utf8 m.text
  | .name, x => NameText x
  | .number, x => NumberText x

/-- A token stands at the beginning of a text. Two slashes are read with the rest of their line. -/
def Token.Reads : Token → Bytes → Bytes → Prop
  | .keyword k, s, u => ReadsKeyword k s u
  | .mark .slashes, s, u => ∃ numbers, ReadsComment numbers s u
  | .mark m, s, u => ReadsMark m s u
  | .name, s, u => ∃ name, ReadsName name s u
  | .number, s, u => ∃ n, ReadsNumber n s u

/-- The bytes that would make a token longer. -/
def Token.longer : Token → UInt8 → Bool
  | .keyword _ => isNameByte
  | .mark _ => fun _ => false
  | .name => isNameByte
  | .number => isDigit

/-- What is left of a text behind the spelling of a token. -/
def Token.after : Token → Bytes → Bytes
  | .mark .slashes, v => (v.dropWhile goesOn).drop 1
  | _, v => v

section Token

variable {t : Token} {s u v w x : Bytes}

theorem Token.after_of_ne (h : t ≠ .mark .slashes) (v : Bytes) : t.after v = v := by
  cases t with
  | mark m =>
    cases m with
    | slashes => exact absurd rfl h
    | _ => rfl
  | _ => rfl

theorem Token.length_after_le (t : Token) (v : Bytes) : (t.after v).length ≤ v.length := by
  by_cases hslashes : t = .mark .slashes
  · subst hslashes
    have hle := List.length_dropWhile_le goesOn v
    change ((v.dropWhile goesOn).drop 1).length ≤ v.length
    rw [List.length_drop]
    omega
  · rw [t.after_of_ne hslashes]

theorem Token.Spells.solid (h : t.Spells x) (v : Bytes) : Off isSpace (x ++ v) := by
  cases t with
  | keyword k =>
    cases h
    exact solid_keyword k v
  | mark m =>
    cases h
    exact solid_mark m v
  | name => exact NameText.solid h v
  | number => exact NumberText.solid h v

theorem Token.Spells.ne_nil (h : t.Spells x) : x ≠ [] := by
  cases t with
  | keyword k =>
    cases h
    cases k <;> decide
  | mark m =>
    cases h
    cases m <;> decide
  | name =>
    obtain ⟨b, rest, rfl, _⟩ := h
    exact List.cons_ne_nil _ _
  | number => exact h.1

theorem off_none (v : Bytes) : Off (fun _ => false) v := by
  cases v <;> rfl

/-- A token is read where its spelling stands and does not go on. -/
theorem Token.reads_iff :
    t.Reads s u ↔ ∃ x v, t.Spells x ∧ s.dropWhile isSpace = x ++ v ∧ Off t.longer v ∧ u = t.after v := by
  cases t with
  | keyword k =>
    constructor
    · rintro ⟨hspaced, hoff⟩
      exact ⟨_, u, rfl, (spaced_iff (solid_keyword k u)).1 hspaced, hoff, rfl⟩
    · rintro ⟨_, _, rfl, hspaced, hoff, rfl⟩
      exact ⟨(spaced_iff (solid_keyword k _)).2 hspaced, hoff⟩
  | name =>
    constructor
    · rintro ⟨name, hspaced, htext, hoff⟩
      exact ⟨name, u, htext, (spaced_iff (htext.solid u)).1 hspaced, hoff, rfl⟩
    · rintro ⟨name, _, htext, hspaced, hoff, rfl⟩
      exact ⟨name, (spaced_iff (NameText.solid htext _)).2 hspaced, htext, hoff⟩
  | number =>
    constructor
    · rintro ⟨n, digits, hspaced, htext, _, hoff⟩
      exact ⟨digits, u, htext, (spaced_iff (htext.solid u)).1 hspaced, hoff, rfl⟩
    · rintro ⟨digits, _, htext, hspaced, hoff, rfl⟩
      exact ⟨decimal digits, digits, (spaced_iff (NumberText.solid htext _)).2 hspaced, htext, rfl, hoff⟩
  | mark m =>
    have hmark : (∃ v, ReadsMark m s v ∧ u = (Token.mark m).after v) ↔
        ∃ x v, (Token.mark m).Spells x ∧ s.dropWhile isSpace = x ++ v ∧ Off (Token.mark m).longer v ∧
          u = (Token.mark m).after v := by
      constructor
      · rintro ⟨v, hspaced, hu⟩
        exact ⟨_, v, rfl, (spaced_iff (solid_mark m v)).1 hspaced, off_none v, hu⟩
      · rintro ⟨_, v, rfl, hspaced, _, hu⟩
        exact ⟨v, (spaced_iff (solid_mark m v)).2 hspaced, hu⟩
    rw [← hmark]
    by_cases hslashes : m = .slashes
    · subst hslashes
      constructor
      · rintro ⟨numbers, hcomment⟩
        obtain ⟨rest, hreads, _, hu⟩ := readsComment_iff.1 hcomment
        exact ⟨rest, hreads, hu⟩
      · rintro ⟨rest, hreads, hu⟩
        exact ⟨_, readsComment_iff.2 ⟨rest, hreads, rfl, hu⟩⟩
    · have hne : Token.mark m ≠ .mark .slashes := fun h => hslashes (Token.mark.inj h)
      have hreads : (Token.mark m).Reads s u ↔ ReadsMark m s u := by
        cases m with
        | slashes => exact absurd rfl hslashes
        | _ => exact Iff.rfl
      simp only [hreads, Token.after_of_ne hne]
      constructor
      · intro h
        exact ⟨u, h, rfl⟩
      · rintro ⟨v, h, rfl⟩
        exact h

theorem Token.reads_space (hw : ∀ b ∈ w, isSpace b = true) : t.Reads (w ++ s) u ↔ t.Reads s u := by
  rw [Token.reads_iff, Token.reads_iff, List.dropWhile_append_of_pos hw]

theorem Token.reads_dropWhile : t.Reads (s.dropWhile isSpace) u ↔ t.Reads s u := by
  have hspace : ∀ b ∈ s.takeWhile isSpace, isSpace b = true := fun b hb => List.mem_takeWhile_imp hb
  rw [← Token.reads_space hspace, List.takeWhile_append_dropWhile]

theorem Token.Reads.length_lt (h : t.Reads s u) : u.length < (s.dropWhile isSpace).length := by
  obtain ⟨x, v, hx, hs, _, rfl⟩ := Token.reads_iff.1 h
  have hpos := List.length_pos_iff.2 hx.ne_nil
  have hle := t.length_after_le v
  rw [hs, List.length_append]
  omega

/-- A spelling ends where it does not go on. -/
theorem Token.Spells.unique {x' v' : Bytes} (h : t.Spells x) (h' : t.Spells x') (hoff : Off t.longer v)
    (hoff' : Off t.longer v') (heq : x ++ v = x' ++ v') : v = v' := by
  have hstretch : ∀ {within : UInt8 → Bool}, (∀ b ∈ x, within b = true) → (∀ b ∈ x', within b = true) →
      Off within v → Off within v' → v = v' := by
    intro within hx hx' hv hv'
    rw [← dropWhile_stretch hx hv, heq, dropWhile_stretch hx' hv']
  cases t with
  | keyword k =>
    cases h
    cases h'
    exact List.append_cancel_left heq
  | mark m =>
    cases h
    cases h'
    exact List.append_cancel_left heq
  | name => exact hstretch (NameText.isNameByte h) (NameText.isNameByte h') hoff hoff'
  | number => exact hstretch h.2 h'.2 hoff hoff'

theorem Token.Reads.unique {u' : Bytes} (h : t.Reads s u) (h' : t.Reads s u') : u = u' := by
  obtain ⟨x, v, hx, hs, hoff, rfl⟩ := Token.reads_iff.1 h
  obtain ⟨x', v', hx', hs', hoff', rfl⟩ := Token.reads_iff.1 h'
  rw [hx.unique hx' hoff hoff' (hs.symm.trans hs')]

/-- A token stands where it does whatever follows it. Only a comment at the end of the text goes on up to
the end of a line. -/
theorem Token.Reads.split (h : t.Reads s u) :
    Off t.longer u ∧ ∃ a, s = a ++ u ∧
      ((∀ v, Off t.longer v → t.Reads (a ++ v) v) ∨
        u = [] ∧ ∀ v, t.Reads (a ++ v) ((v.dropWhile goesOn).drop 1)) := by
  obtain ⟨x, v, hx, hs, hoff, rfl⟩ := Token.reads_iff.1 h
  have hspace : ∀ b ∈ s.takeWhile isSpace, isSpace b = true := fun b hb => List.mem_takeWhile_imp hb
  have htext : s = s.takeWhile isSpace ++ (x ++ v) := by rw [← hs, List.takeWhile_append_dropWhile]
  have hreads : ∀ v', Off t.longer v' → t.Reads (s.takeWhile isSpace ++ (x ++ v')) (t.after v') := by
    intro v' hv'
    rw [Token.reads_space hspace, Token.reads_iff]
    exact ⟨x, v', hx, dropWhile_stretch (a := []) (by simp) (hx.solid v'), hv', rfl⟩
  by_cases hslashes : t = .mark .slashes
  · subst hslashes
    refine ⟨off_none _, ?_⟩
    have hgoes : ∀ b ∈ v.takeWhile goesOn, goesOn b = true := fun b hb => List.mem_takeWhile_imp hb
    cases htail : v.dropWhile goesOn with
    | nil =>
      have hafter : Token.after (.mark .slashes) v = [] := congrArg (List.drop 1) htail
      rw [hafter]
      refine ⟨s, (List.append_nil s).symm, Or.inr ⟨rfl, fun v' => ?_⟩⟩
      have hv' := hreads (v ++ v') (off_none _)
      rw [← List.append_assoc x, ← List.append_assoc, ← htext] at hv'
      have hdrop : Token.after (.mark .slashes) (v ++ v') = (v'.dropWhile goesOn).drop 1 :=
        congrArg (List.drop 1) (List.dropWhile_append_of_pos (List.dropWhile_eq_nil_iff.1 htail))
      rwa [hdrop] at hv'
    | cons b tail =>
      have hafter : Token.after (.mark .slashes) v = tail := congrArg (List.drop 1) htail
      have hv : v = v.takeWhile goesOn ++ b :: tail := by rw [← htail, List.takeWhile_append_dropWhile]
      have hb : ∀ v', Off goesOn (b :: v') := by
        have hoff' := off_dropWhile goesOn v
        rw [htail] at hoff'
        exact fun _ => hoff'
      rw [hafter]
      refine ⟨s.takeWhile isSpace ++ (x ++ (v.takeWhile goesOn ++ [b])), ?_, Or.inl fun v' _ => ?_⟩
      · simpa [← hv] using htext
      · have hv' := hreads (v.takeWhile goesOn ++ b :: v') (off_none _)
        have hdrop : Token.after (.mark .slashes) (v.takeWhile goesOn ++ b :: v') = v' :=
          congrArg (List.drop 1) (dropWhile_stretch hgoes (hb v'))
        rw [hdrop] at hv'
        simpa using hv'
  · rw [t.after_of_ne hslashes]
    refine ⟨hoff, s.takeWhile isSpace ++ x, ?_, Or.inl fun v' hv' => ?_⟩
    · rw [List.append_assoc, ← htext]
    · have hv' := hreads v' hv'
      rwa [t.after_of_ne hslashes, ← List.append_assoc] at hv'

end Token

/-! ### Rows of tokens -/

/-- Tokens that stand in a row at the beginning of a text. -/
def ReadsTokens : List Token → Bytes → Bytes → Prop
  | [], s, u => s = u
  | t :: ts, s, u => ∃ m, t.Reads s m ∧ ReadsTokens ts m u

section Rows

variable {t : Token} {ts ts' : List Token} {s u w : Bytes}

theorem Token.Reads.row (h : t.Reads s u) : ReadsTokens [t] s u :=
  ⟨u, h, rfl⟩

theorem readsTokens_append :
    ReadsTokens (ts ++ ts') s u ↔ ∃ m, ReadsTokens ts s m ∧ ReadsTokens ts' m u := by
  induction ts generalizing s with
  | nil => simp [ReadsTokens]
  | cons t ts ih =>
    simp only [List.cons_append, ReadsTokens, ih]
    constructor
    · rintro ⟨m, ht, n, hts, hts'⟩
      exact ⟨n, ⟨m, ht, hts⟩, hts'⟩
    · rintro ⟨n, ⟨m, ht, hts⟩, hts'⟩
      exact ⟨m, ht, n, hts, hts'⟩

theorem ReadsTokens.length_le (h : ReadsTokens ts s u) : u.length ≤ s.length := by
  induction ts generalizing s with
  | nil => rw [show s = u from h]
  | cons t ts ih =>
    obtain ⟨m, ht, hts⟩ := h
    have hlt := ht.length_lt
    have hle := ih hts
    have hspace := List.length_dropWhile_le isSpace s
    omega

theorem ReadsTokens.length_lt (h : ReadsTokens ts s u) (hne : ts ≠ []) :
    u.length < (s.dropWhile isSpace).length := by
  cases ts with
  | nil => exact absurd rfl hne
  | cons t ts =>
    obtain ⟨m, ht, hts⟩ := h
    have hlt := ht.length_lt
    have hle := hts.length_le
    omega

theorem readsTokens_space (hw : ∀ b ∈ w, isSpace b = true) (hne : ts ≠ []) :
    ReadsTokens ts (w ++ s) u ↔ ReadsTokens ts s u := by
  cases ts with
  | nil => exact absurd rfl hne
  | cons t ts => simp only [ReadsTokens, Token.reads_space hw]

theorem isSpace_longer {b : UInt8} (h : isSpace b = true) (t : Token) : t.longer b = false := by
  have hname : isNameByte b = false := by
    rw [← Bool.not_eq_true]
    intro hname
    rw [isSpace_of_isNameByte hname] at h
    cases h
  cases t with
  | keyword k => exact hname
  | mark m => rfl
  | name => exact hname
  | number =>
    rw [isNameByte, Bool.or_eq_false_iff] at hname
    exact hname.2

/-- The tokens at the beginning of a text are also read if a new line stands behind them, and then another
text. -/
theorem ReadsTokens.before_newline (h : ReadsTokens ts s u) :
    ∃ a, s = a ++ u ∧ ∀ space v, (∀ b ∈ space, isSpace b = true) → newline ∈ space →
      ∃ w, (∀ b ∈ w, isSpace b = true) ∧ ReadsTokens ts (a ++ space ++ v) (w ++ v) := by
  induction ts generalizing s with
  | nil =>
    rw [show s = u from h]
    exact ⟨[], rfl, fun space v hspace _ => ⟨space, hspace, rfl⟩⟩
  | cons t ts ih =>
    obtain ⟨m, ht, hts⟩ := h
    obtain ⟨a', rfl, hrest⟩ := ih hts
    obtain ⟨hoff, a, rfl, hclosed | ⟨hnil, hopen⟩⟩ := ht.split
    · refine ⟨a ++ a', (List.append_assoc a a' u).symm, fun space v hspace hnewline => ?_⟩
      obtain ⟨w, hw, hreads⟩ := hrest space v hspace hnewline
      refine ⟨w, hw, a' ++ space ++ v, ?_, hreads⟩
      have hoff' : Off t.longer (a' ++ space ++ v) := by
        cases a' with
        | cons b a' => exact hoff
        | nil =>
          cases space with
          | nil => cases hnewline
          | cons b space => exact isSpace_longer (hspace b List.mem_cons_self) t
      have hread := hclosed (a' ++ space ++ v) hoff'
      simpa only [List.append_assoc] using hread
    · -- a comment at the end of the text is the last token, and now ends with the new line
      obtain ⟨rfl, rfl⟩ := List.append_eq_nil_iff.1 hnil
      have hlast : ts = [] := by
        by_contra hne
        exact absurd (hts.length_lt hne) (Nat.not_lt_zero _)
      subst hlast
      refine ⟨a, rfl, fun space v hspace hnewline => ?_⟩
      cases hline : space.dropWhile goesOn with
      | nil =>
        have hgoes := List.dropWhile_eq_nil_iff.1 hline newline hnewline
        cases hgoes
      | cons b w =>
        refine ⟨w, fun x hx => ?_, w ++ v, ?_, rfl⟩
        · have hmem : x ∈ space.dropWhile goesOn := by
            rw [hline]
            exact List.mem_cons_of_mem b hx
          exact hspace x ((List.dropWhile_suffix goesOn).subset hmem)
        · have hread := hopen (space ++ v)
          rw [List.dropWhile_append, hline, List.isEmpty_cons, if_neg Bool.false_ne_true,
            ← List.append_assoc] at hread
          exact hread

end Rows

end Petscii.Source

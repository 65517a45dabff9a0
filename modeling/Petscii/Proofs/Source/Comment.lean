import Petscii.Proofs.Source.Scan

/-!
# Reading comments

The tag of a comment is scanned part by part. What the scan finds are the numbers that the grammar gives to
the line, and the scan never leaves the line. A comment is therefore read exactly where the grammar has one,
with the canvas size its tag declares; a number that is too large is noted.
-/

namespace Petscii.Source

/-! ### Scanning a tag -/

/-- The digits of the numbers in the tag at the beginning of a line. -/
def scanTag (line : Bytes) : List Bytes :=
  if tagText.isPrefixOf (line.dropWhile isBlank) then
    let first := ((line.dropWhile isBlank).drop tagText.length).dropWhile isBlank
    if first.takeWhile isDigit = [] then []
    else
      let second := (first.dropWhile isDigit).dropWhile isBlank
      if second.takeWhile isDigit = [] then [first.takeWhile isDigit]
      else [first.takeWhile isDigit, second.takeWhile isDigit]
  else []

section Classes

theorem isBlank_of_isDigit {b : UInt8} (h : isDigit b = true) : isBlank b = false := by
  rw [← Bool.not_eq_true]
  intro hblank
  simp only [isBlank, Bool.or_eq_true, beq_iff_eq] at hblank
  rcases hblank with rfl | rfl <;> exact absurd h (by decide)

theorem isDigit_of_isBlank {b : UInt8} (h : isBlank b = true) : isDigit b = false := by
  rw [← Bool.not_eq_true]
  intro hdigit
  rw [isBlank_of_isDigit hdigit] at h
  cases h

theorem NumberText.off_isBlank {digits : Bytes} (h : NumberText digits) (t : Bytes) :
    Off isBlank (digits ++ t) := by
  obtain ⟨hne, hdigits⟩ := h
  cases digits with
  | nil => exact absurd rfl hne
  | cons d digits => exact isBlank_of_isDigit (hdigits d List.mem_cons_self)

theorem BlankText.off_isDigit {blanks t : Bytes} (h : BlankText blanks) (ht : Off isDigit t) :
    Off isDigit (blanks ++ t) := by
  cases blanks with
  | nil => exact ht
  | cons b blanks => exact isDigit_of_isBlank (h b List.mem_cons_self)

end Classes

theorem scanTag_eq {a b w rest : Bytes} (ha : BlankText a) (hb : BlankText b) (hw : NumberText w)
    (hrest : Off isDigit rest) :
    scanTag (a ++ tagText ++ b ++ w ++ rest) =
      if (rest.dropWhile isBlank).takeWhile isDigit = [] then [w]
      else [w, (rest.dropWhile isBlank).takeWhile isDigit] := by
  have hfirst : (a ++ tagText ++ b ++ w ++ rest).dropWhile isBlank = tagText ++ (b ++ (w ++ rest)) := by
    simp only [List.append_assoc]
    exact dropWhile_stretch ha (off_append (by decide) (by decide) _)
  have hsecond : (b ++ (w ++ rest)).dropWhile isBlank = w ++ rest :=
    dropWhile_stretch hb (hw.off_isBlank rest)
  rw [scanTag, hfirst, if_pos (isPrefixOf_of_append rfl), List.drop_left, hsecond]
  simp only [takeWhile_stretch hw.2 hrest, dropWhile_stretch hw.2 hrest]
  rw [if_neg hw.1]

/-- Either a line begins with a tag and a number, or the scan finds nothing. -/
theorem scanTag_cases (line : Bytes) :
    (∃ a b w rest, BlankText a ∧ BlankText b ∧ NumberText w ∧ Off isDigit rest ∧
      line = a ++ tagText ++ b ++ w ++ rest) ∨ scanTag line = [] := by
  by_cases htag : tagText.isPrefixOf (line.dropWhile isBlank) = true
  · obtain ⟨u, hu⟩ := List.isPrefixOf_iff_prefix.1 htag
    by_cases hnone : (u.dropWhile isBlank).takeWhile isDigit = []
    · right
      rw [scanTag, if_pos htag, ← hu, List.drop_left]
      exact if_pos hnone
    · left
      refine ⟨line.takeWhile isBlank, u.takeWhile isBlank, (u.dropWhile isBlank).takeWhile isDigit,
        (u.dropWhile isBlank).dropWhile isDigit, fun x hx => List.mem_takeWhile_imp hx,
        fun x hx => List.mem_takeWhile_imp hx, ⟨hnone, fun x hx => List.mem_takeWhile_imp hx⟩,
        off_dropWhile _ _, ?_⟩
      simp only [List.append_assoc]
      rw [List.takeWhile_append_dropWhile, List.takeWhile_append_dropWhile, hu,
        List.takeWhile_append_dropWhile]
  · right
    rw [scanTag, if_neg htag]

theorem scanTag_ne_nil {a b w rest : Bytes} (ha : BlankText a) (hb : BlankText b) (hw : NumberText w) :
    scanTag (a ++ tagText ++ b ++ w ++ rest) ≠ [] := by
  have hlong : NumberText (w ++ rest.takeWhile isDigit) := by
    refine ⟨List.append_ne_nil_of_left_ne_nil hw.1 _, fun x hx => ?_⟩
    exact (List.mem_append.1 hx).elim (hw.2 x) List.mem_takeWhile_imp
  have hscan := scanTag_eq ha hb hlong (off_dropWhile isDigit rest)
  rw [List.append_assoc, List.append_assoc w, List.takeWhile_append_dropWhile, ← List.append_assoc] at hscan
  rw [hscan]
  split <;> exact List.cons_ne_nil _ _

theorem readsTag_scanTag (line : Bytes) : ReadsTag ((scanTag line).map decimal) line := by
  rcases scanTag_cases line with ⟨a, b, w, rest, ha, hb, hw, hoff, rfl⟩ | hnone
  · have hrest : rest.takeWhile isBlank ++ rest.dropWhile isBlank = rest := List.takeWhile_append_dropWhile
    have hblank : BlankText (rest.takeWhile isBlank) := fun x hx => List.mem_takeWhile_imp hx
    rw [scanTag_eq ha hb hw hoff]
    by_cases hnone : (rest.dropWhile isBlank).takeWhile isDigit = []
    · rw [if_pos hnone]
      have hdigit : Off isDigit (rest.dropWhile isBlank) := by
        have hdrop := off_dropWhile isDigit (rest.dropWhile isBlank)
        have hsame : (rest.dropWhile isBlank).dropWhile isDigit = rest.dropWhile isBlank := by
          have hsplit := List.takeWhile_append_dropWhile (p := isDigit) (l := rest.dropWhile isBlank)
          rwa [hnone, List.nil_append] at hsplit
        rwa [hsame] at hdrop
      have hone := ReadsTag.one ha hb hblank hw (off_dropWhile isBlank rest) hdigit
      rw [List.append_assoc, hrest] at hone
      exact hone
    · rw [if_neg hnone]
      have hnumber : NumberText ((rest.dropWhile isBlank).takeWhile isDigit) :=
        ⟨hnone, fun x hx => List.mem_takeWhile_imp hx⟩
      have hne : rest.takeWhile isBlank ≠ [] := by
        intro hempty
        rw [hempty, List.nil_append] at hrest
        rw [hrest] at hnone
        exact hnone (takeWhile_stretch (a := []) (by simp) hoff)
      have htwo := ReadsTag.two ha hb hblank hne hw hnumber (off_dropWhile isDigit (rest.dropWhile isBlank))
      rw [List.append_assoc _ _ ((rest.dropWhile isBlank).dropWhile isDigit),
        List.takeWhile_append_dropWhile, List.append_assoc, hrest] at htwo
      exact htwo
  · rw [hnone]
    refine ReadsTag.none fun a b w rest ha hb hw hline => ?_
    rw [hline] at hnone
    exact scanTag_ne_nil ha hb hw hnone

/-- The scan finds exactly the numbers that the grammar gives to a line. -/
theorem readsTag_iff {numbers : List Nat} {line : Bytes} :
    ReadsTag numbers line ↔ numbers = (scanTag line).map decimal := by
  constructor
  · intro h
    cases h with
    | @two a b c w h rest ha hb hc hne hw hh hoff =>
      have hrest : Off isDigit (c ++ (h ++ rest)) := by
        cases c with
        | nil => exact absurd rfl hne
        | cons x c => exact isDigit_of_isBlank (hc x List.mem_cons_self)
      have hscan := scanTag_eq ha hb hw hrest
      rw [dropWhile_stretch hc (hh.off_isBlank rest), takeWhile_stretch hh.2 hoff, if_neg hh.1] at hscan
      simp only [← List.append_assoc] at hscan
      rw [hscan]
      rfl
    | @one a b c w rest ha hb hc hw hblank hdigit =>
      have hscan := scanTag_eq ha hb hw (hc.off_isDigit hdigit)
      have hnone : rest.takeWhile isDigit = [] := takeWhile_stretch (a := []) (by simp) hdigit
      rw [dropWhile_stretch hc hblank, hnone, if_pos rfl] at hscan
      simp only [← List.append_assoc] at hscan
      rw [hscan]
      rfl
    | none hnone =>
      rcases scanTag_cases line with ⟨a, b, w, rest, ha, hb, hw, _, hline⟩ | hempty
      · exact absurd hline (hnone a b w rest ha hb hw)
      · rw [hempty]
        rfl
  · rintro rfl
    exact readsTag_scanTag line

/-! ### The scan stays on its line -/

section Line

def goesOn (b : UInt8) : Bool :=
  b != newline

theorem off_of_off_goesOn {within : UInt8 → Bool} (hwithin : within newline = false) {tail : Bytes}
    (htail : Off goesOn tail) : Off within tail := by
  cases tail with
  | nil => rfl
  | cons b tail =>
    have hb : b = newline := by simpa [Off, goesOn] using htail
    rw [hb]
    exact hwithin

theorem isPrefixOf_append_iff {text line tail : Bytes} (htext : ∀ b ∈ text, goesOn b = true)
    (htail : Off goesOn tail) : text.isPrefixOf (line ++ tail) = text.isPrefixOf line := by
  induction text generalizing line with
  | nil => rfl
  | cons b text ih =>
    have hrest := fun x hx => htext x (List.mem_cons_of_mem b hx)
    cases line with
    | nil =>
      cases tail with
      | nil => rfl
      | cons x tail =>
        have hx : goesOn x = false := htail
        have hne : (b == x) = false := by
          rw [beq_eq_false_iff_ne]
          rintro rfl
          rw [htext b List.mem_cons_self] at hx
          cases hx
        rw [List.nil_append, List.isPrefixOf_cons_cons, hne]
        rfl
    | cons x line => rw [List.cons_append, List.isPrefixOf_cons_cons, List.isPrefixOf_cons_cons, ih hrest]

theorem scanTag_append (line : Bytes) {tail : Bytes} (htail : Off goesOn tail) :
    scanTag (line ++ tail) = scanTag line := by
  have hblank : Off isBlank tail := off_of_off_goesOn rfl htail
  have hdigit : Off isDigit tail := off_of_off_goesOn rfl htail
  rw [scanTag, scanTag, dropWhile_append_off line hblank,
    isPrefixOf_append_iff (List.all_eq_true.1 (by decide)) htail]
  by_cases htag : tagText.isPrefixOf (line.dropWhile isBlank) = true
  · obtain ⟨u, hu⟩ := List.isPrefixOf_iff_prefix.1 htag
    rw [if_pos htag, if_pos htag, ← hu, List.append_assoc, List.drop_left, List.drop_left]
    simp only [dropWhile_append_off _ hblank, dropWhile_append_off _ hdigit, takeWhile_append_off _ hdigit]
  · rw [if_neg htag, if_neg htag]

theorem dropWhile_dropWhile {within : UInt8 → Bool} (hwithin : within newline = false) (s : Bytes) :
    (s.dropWhile within).dropWhile goesOn = s.dropWhile goesOn := by
  induction s with
  | nil => rfl
  | cons b s ih =>
    rw [List.dropWhile_cons]
    split
    · next hb =>
      have hgoes : goesOn b = true := by
        rw [goesOn, bne_iff_ne]
        rintro rfl
        rw [hwithin] at hb
        cases hb
      rw [ih, List.dropWhile_cons_of_pos hgoes]
    · rfl

theorem rest_nextLine (c : Cursor) : c.nextLine.rest = (c.rest.dropWhile goesOn).drop 1 := by
  rw [Cursor.nextLine, Cursor.rest_advance, Cursor.rest_skip]
  rfl

@[simp] theorem stop_nextLine (c : Cursor) : c.nextLine.stop = c.stop := by
  rw [Cursor.nextLine, Cursor.stop_advance, Cursor.stop_skip]

theorem nextLine_eq {c c' : Cursor} (hrest : c'.rest.dropWhile goesOn = c.rest.dropWhile goesOn)
    (hstop : c'.stop = c.stop) : c'.nextLine = c.nextLine := by
  apply Cursor.eq_of_stop
  · rw [rest_nextLine, rest_nextLine, hrest]
  · rw [stop_nextLine, stop_nextLine, hstop]

end Line

/-! ### The canvas terminal -/

section Canvas

variable (c : Cursor)

def Cursor.firstNumber : Cursor :=
  ((c.skip isBlank).advance tagText.length).skip isBlank

def Cursor.secondNumber : Cursor :=
  (c.firstNumber.skip isDigit).skip isBlank

theorem canvas_eq : canvas c =
    if tagText.isPrefixOf (c.skip isBlank).rest then
      (Terminal.digits c.firstNumber).bind fun first =>
        (Terminal.digits (first.2.skip isBlank)).bind fun second =>
          .ok (⟨first.1, second.1⟩, second.2)
    else .error [] := by
  rw [canvas]
  change (if tagText.isPrefixOf (c.skip isBlank).rest = true then _ else _ : Terminal Canvas)
    (c.skip isBlank) = _
  by_cases htag : tagText.isPrefixOf (c.skip isBlank).rest = true
  · rw [if_pos htag, if_pos htag]
    rfl
  · rw [if_neg htag, if_neg htag]
    rfl

theorem scanTag_rest : scanTag c.rest =
    if tagText.isPrefixOf (c.skip isBlank).rest then
      if c.firstNumber.rest.takeWhile isDigit = [] then []
      else if c.secondNumber.rest.takeWhile isDigit = [] then [c.firstNumber.rest.takeWhile isDigit]
      else [c.firstNumber.rest.takeWhile isDigit, c.secondNumber.rest.takeWhile isDigit]
    else [] := by
  simp only [scanTag, Cursor.firstNumber, Cursor.secondNumber, Cursor.rest_skip, Cursor.rest_advance]

variable {c}

theorem isPrefixOf_of_scanTag (h : scanTag c.rest ≠ []) :
    tagText.isPrefixOf (c.skip isBlank).rest = true := by
  by_contra htag
  rw [scanTag_rest, if_neg htag] at h
  exact h rfl

theorem canvas_of_fitting (hfit : ∀ d ∈ scanTag c.rest, decimal d < Terminal.numberLimit) :
    canvas c = match canvasOf ((scanTag c.rest).map decimal) with
      | some size => .ok (size, c.secondNumber.skip isDigit)
      | none => .error [] := by
  rw [canvas_eq]
  rw [scanTag_rest] at hfit ⊢
  by_cases htag : tagText.isPrefixOf (c.skip isBlank).rest = true
  · rw [if_pos htag] at hfit ⊢
    rw [if_pos htag, digits_eq]
    by_cases hfirst : c.firstNumber.rest.takeWhile isDigit = []
    · rw [if_pos hfirst, if_pos hfirst]
      rfl
    · rw [if_neg hfirst] at hfit ⊢
      have hsmall : decimal (c.firstNumber.rest.takeWhile isDigit) < Terminal.numberLimit := by
        apply hfit
        split <;> exact List.mem_cons_self
      rw [if_neg hfirst, if_neg (by omega), Except.bind]
      change (Terminal.digits c.secondNumber).bind _ = _
      rw [digits_eq]
      by_cases hsecond : c.secondNumber.rest.takeWhile isDigit = []
      · rw [if_pos hsecond, if_pos hsecond]
        rfl
      · rw [if_neg hsecond] at hfit ⊢
        have hsmall' := hfit _ (List.mem_cons_of_mem _ List.mem_cons_self)
        rw [if_neg hsecond, if_neg (by omega)]
        rfl
  · rw [if_neg htag, if_neg htag]
    rfl

theorem canvas_of_large {d : Bytes} (hd : d ∈ scanTag c.rest) (hlarge : Terminal.numberLimit ≤ decimal d) :
    ∃ offset digits, canvas c = .error [.tooLarge offset digits] := by
  rw [canvas_eq]
  rw [scanTag_rest] at hd
  by_cases htag : tagText.isPrefixOf (c.skip isBlank).rest = true
  · rw [if_pos htag] at hd
    rw [if_pos htag, digits_eq]
    by_cases hfirst : c.firstNumber.rest.takeWhile isDigit = []
    · rw [if_pos hfirst] at hd
      cases hd
    · rw [if_neg hfirst] at hd ⊢
      by_cases hsmall : Terminal.numberLimit ≤ decimal (c.firstNumber.rest.takeWhile isDigit)
      · rw [if_pos hsmall]
        exact ⟨_, _, rfl⟩
      · rw [if_neg hsmall, Except.bind]
        change ∃ offset digits, (Terminal.digits c.secondNumber).bind _ = _
        rw [digits_eq]
        by_cases hsecond : c.secondNumber.rest.takeWhile isDigit = []
        · rw [if_pos hsecond, List.mem_singleton] at hd
          rw [hd] at hlarge
          exact absurd hlarge hsmall
        · rw [if_neg hsecond, List.mem_cons, List.mem_singleton] at hd
          rcases hd with rfl | rfl
          · exact absurd hlarge hsmall
          · rw [if_neg hsecond, if_pos hlarge]
            exact ⟨_, _, rfl⟩
  · rw [if_neg htag] at hd
    cases hd

/-- The scan of a tag stays on its line. -/
theorem nextLine_secondNumber (htag : tagText.isPrefixOf (c.skip isBlank).rest = true) :
    (c.secondNumber.skip isDigit).nextLine = c.nextLine := by
  apply nextLine_eq
  · have hdrop : ((c.skip isBlank).rest.drop tagText.length).dropWhile goesOn =
        (c.skip isBlank).rest.dropWhile goesOn := by
      obtain ⟨u, hu⟩ := List.isPrefixOf_iff_prefix.1 htag
      rw [← hu, List.drop_left, List.dropWhile_append_of_pos (List.all_eq_true.1 (by decide))]
    simp only [Cursor.secondNumber, Cursor.firstNumber, Cursor.rest_skip, Cursor.rest_advance] at hdrop ⊢
    rw [dropWhile_dropWhile rfl, dropWhile_dropWhile rfl, dropWhile_dropWhile rfl, dropWhile_dropWhile rfl,
      hdrop, dropWhile_dropWhile rfl]
  · simp [Cursor.secondNumber, Cursor.firstNumber]

end Canvas

/-! ### Comments -/

theorem readsComment_iff {numbers : List Nat} {s t : Bytes} :
    ReadsComment numbers s t ↔ ∃ rest, ReadsMark .slashes s rest ∧ numbers = (scanTag rest).map decimal ∧
      t = (rest.dropWhile goesOn).drop 1 := by
  have hgoes : ∀ {body : Bytes}, newline ∉ body → ∀ b ∈ body, goesOn b = true := by
    intro body hbody b hb
    rw [goesOn, bne_iff_ne]
    rintro rfl
    exact hbody hb
  constructor
  · intro h
    cases h with
    | line hmark hbody htag =>
      have hoff : Off goesOn (newline :: t) := rfl
      refine ⟨_, hmark, ?_, ?_⟩
      · rw [scanTag_append _ hoff, readsTag_iff.1 htag]
      · rw [dropWhile_stretch (hgoes hbody) hoff]
        rfl
    | last hmark hbody htag =>
      refine ⟨_, hmark, readsTag_iff.1 htag, ?_⟩
      rw [List.dropWhile_eq_nil_iff.2 (hgoes hbody)]
      rfl
  · rintro ⟨rest, hmark, rfl, rfl⟩
    have hsplit : rest.takeWhile goesOn ++ rest.dropWhile goesOn = rest := List.takeWhile_append_dropWhile
    have hoff := off_dropWhile goesOn rest
    have hbody : newline ∉ rest.takeWhile goesOn := by
      intro hmem
      exact absurd (List.mem_takeWhile_imp hmem) (by decide)
    have htag : ReadsTag ((scanTag rest).map decimal) (rest.takeWhile goesOn) := by
      have hscan := scanTag_append (rest.takeWhile goesOn) hoff
      rw [hsplit] at hscan
      rw [hscan]
      exact readsTag_scanTag _
    cases htail : rest.dropWhile goesOn with
    | nil =>
      rw [htail, List.append_nil] at hsplit
      rw [hsplit] at hbody htag
      exact ReadsComment.last hmark hbody htag
    | cons b t =>
      rw [htail] at hsplit hoff
      have hb : b = newline := by simpa [Off, goesOn] using hoff
      rw [← hsplit, hb] at hmark
      exact ReadsComment.line hmark hbody htag

section Comment

variable {c : Cursor} {numbers : List Nat} {t : Bytes}

theorem comment_eq {rest : Bytes} (hmark : ReadsMark .slashes c.rest rest) :
    comment c = match canvas (c.behind rest) with
      | .ok (size, after) => ⟨some (some size, after.nextLine), []⟩
      | .error notes => ⟨some (none, (c.behind rest).nextLine), notes⟩ := by
  have hslashes : Terminal.mark .slashes c = .ok ((), c.behind rest) := (mark_scans .slashes).ok hmark
  cases hcanvas : canvas (c.behind rest) with
  | error notes => simp only [comment, hslashes, hcanvas]
  | ok found =>
    obtain ⟨size, after⟩ := found
    simp only [comment, hslashes, hcanvas]

theorem nextLine_behind {rest : Bytes} (hrest : rest.length ≤ c.rest.length) :
    (c.behind rest).nextLine = c.behind ((rest.dropWhile goesOn).drop 1) := by
  have hlength : ((rest.dropWhile goesOn).drop 1).length ≤ rest.length := by
    rw [List.length_drop]
    exact Nat.le_trans (Nat.sub_le _ _) (List.length_dropWhile_le goesOn rest)
  apply Cursor.eq_of_stop
  · rw [rest_nextLine]
    rfl
  · rw [stop_nextLine, Cursor.stop_behind hrest, Cursor.stop_behind (by omega)]

theorem comment_of_fitting (h : ReadsComment numbers c.rest t)
    (hfit : ∀ n ∈ numbers, n < Terminal.numberLimit) :
    comment c = ⟨some (canvasOf numbers, c.behind t), []⟩ := by
  obtain ⟨rest, hmark, rfl, rfl⟩ := readsComment_iff.1 h
  have hlength := Spaced.length_le hmark
  have hcanvas := canvas_of_fitting (c := c.behind rest) fun d hd => hfit _ (List.mem_map_of_mem hd)
  rw [comment_eq hmark, hcanvas, ← nextLine_behind hlength]
  change (match (match canvasOf ((scanTag rest).map decimal) with
      | some size => Except.ok (size, (c.behind rest).secondNumber.skip isDigit)
      | none => Except.error [] : Except (List Note) (Canvas × Cursor)) with
    | .ok (size, after) => ⟨some (some size, after.nextLine), []⟩
    | .error notes => ⟨some (none, (c.behind rest).nextLine), notes⟩ : Outcome (Option Canvas)) = _
  cases hsize : canvasOf ((scanTag rest).map decimal) with
  | none => rfl
  | some size =>
    have htag : tagText.isPrefixOf ((c.behind rest).skip isBlank).rest = true := by
      apply isPrefixOf_of_scanTag
      intro hnil
      rw [show scanTag rest = [] from hnil] at hsize
      cases hsize
    rw [← nextLine_secondNumber htag]

theorem comment_of_large (h : ReadsComment numbers c.rest t) {n : Nat} (hn : n ∈ numbers)
    (hlarge : Terminal.numberLimit ≤ n) :
    ∃ offset digits, comment c = ⟨some (none, c.behind t), [.tooLarge offset digits]⟩ := by
  obtain ⟨rest, hmark, rfl, rfl⟩ := readsComment_iff.1 h
  obtain ⟨d, hd, rfl⟩ := List.mem_map.1 hn
  obtain ⟨offset, digits, hcanvas⟩ := canvas_of_large (c := c.behind rest) hd hlarge
  refine ⟨offset, digits, ?_⟩
  rw [comment_eq hmark, hcanvas, ← nextLine_behind (Spaced.length_le hmark)]

/-- There is a comment at a cursor, or the rule fails there. -/
theorem comment_cases (c : Cursor) :
    (∃ numbers t, ReadsComment numbers c.rest t) ∨
      (∀ t, ¬ ReadsMark .slashes c.rest t) ∧
        comment c = ⟨none, [.expected (c.skip isSpace).offset (.mark .slashes)]⟩ := by
  by_cases hmark : ∃ rest, ReadsMark .slashes c.rest rest
  · obtain ⟨rest, hmark⟩ := hmark
    exact .inl ⟨_, _, readsComment_iff.2 ⟨rest, hmark, rfl, rfl⟩⟩
  · have hnone : ∀ t, ¬ ReadsMark .slashes c.rest t := fun t ht => hmark ⟨t, ht⟩
    exact .inr ⟨hnone, by rw [comment, mark_eq_error hnone]⟩

end Comment

end Petscii.Source

import Petscii.Proofs.Source.Farthest

/-!
# What is reported of a text that is no file

A text that is rejected at a token, and not for a number that is too large or data that form no frame, is
reported at the farthest place that the parse noted. The report counts lines and columns up to that place,
and the tokens it expects there are exactly those that can come next: none of them stands there, the text
before the place and any of them can be continued to a file, and no other token can follow.
-/

namespace Petscii.Source

/-! ### The report -/

def journal (source : Bytes) : Journal :=
  (items .memoized (source.length + 1) {} {} (Cursor.start source)).1.journal

/-- A problem is reported with the lines before it and the bytes before it on its own line. -/
structure Located (source : Bytes) (place : Nat) (e : ParseError) : Prop where
  line : e.line = (source.take place).count newline + 1
  column : ∃ above onLine, source.take place = above ++ onLine ∧ (above = [] ∨ above.getLast? = some newline) ∧
    newline ∉ onLine ∧ e.column = onLine.length + 1

theorem located_at (source : Bytes) (place : Nat) (problem : Problem) :
    Located source place (ParseError.at source place problem) where
  line := rfl
  column := by
    refine ⟨((source.take place).reverse.dropWhile (· != newline)).reverse,
      ((source.take place).reverse.takeWhile (· != newline)).reverse, ?_, ?_, ?_, ?_⟩
    · rw [← List.reverse_append, List.takeWhile_append_dropWhile, List.reverse_reverse]
    · cases hrest : (source.take place).reverse.dropWhile (· != newline) with
      | nil => exact Or.inl rfl
      | cons b rest =>
        right
        have hoff := off_dropWhile (· != newline) (source.take place).reverse
        rw [hrest] at hoff
        have hb : b = newline := by simpa [Off] using hoff
        rw [List.getLast?_reverse, hb, List.head?_cons]
    · intro hmem
      have hb := List.mem_takeWhile_imp (List.mem_reverse.1 hmem)
      simp at hb
    · rw [List.length_reverse]
      rfl

/-- No missing token ends a parse before its end. -/
def Journal.Grave (j : Journal) : Prop :=
  ∀ offset found expected, j.fatal ≠ some (offset, .unexpected found expected)

theorem Journal.Grave.addAll {j : Journal} (h : j.Grave) (notes : List Note) : (j.addAll notes).Grave := by
  induction notes generalizing j with
  | nil => exact h
  | cons n notes ih =>
    apply ih
    cases n with
    | expected offset t =>
      rw [Journal.add]
      split
      · exact h
      · split <;> exact h
    | tooLarge offset digits =>
      rw [Journal.add]
      split
      · exact h
      · simp [Journal.Grave]
    | badFrame offset cause => simp [Journal.Grave, Journal.add]

theorem items_grave {rounds : Nat} {p : Progress} {c : Cursor} (h : p.journal.Grave) :
    (items .plain rounds p () c).1.journal.Grave := by
  induction rounds generalizing p c with
  | zero => exact h
  | succ rounds ih =>
    have hcomment := h.addAll (comment c).notes
    have hplain : Rules.plain.comment () c = (comment c, ()) := rfl
    rw [items, hplain]
    cases hresult : (comment c).result with
    | some found =>
      obtain ⟨size, next⟩ := found
      simp only [hresult]
      apply ih
      exact hcomment
    | none =>
      simp only [hresult]
      split
      · exact hcomment
      · have hframe := hcomment.addAll (Rules.plain.frame () c).1.notes
        cases hfound : (Rules.plain.frame () c).1.result with
        | none => exact hframe
        | some found =>
          obtain ⟨⟨f, size⟩, next⟩ := found
          apply ih
          exact hframe

theorem journal_eq_plain (source : Bytes) :
    journal source = (items .plain (source.length + 1) {} () (Cursor.start source)).1.journal := by
  obtain ⟨hprogress, _⟩ := @items_memoized (source.length + 1) {} {} (Cursor.start source)
    (ahead_empty _ _) (ahead_empty _ _)
  rw [journal, hprogress]

/-- A text that is rejected at a token is reported as its journal tells. -/
theorem parse_unexpected {source : Bytes} {e : ParseError} {found : Option UInt8} {expected : List Token}
    (h : parse source = .error e) (hproblem : e.problem = .unexpected found expected) :
    (journal source).fatal = none ∧
      e = ParseError.at source (journal source).farthest
        (.unexpected source[(journal source).farthest]? (journal source).expected) := by
  have hgrave : (journal source).Grave := by
    rw [journal_eq_plain]
    exact items_grave (by simp [Journal.Grave])
  rw [parse_eq_plain, parseWith] at h
  rw [journal_eq_plain] at hgrave ⊢
  cases hrun : items .plain (source.length + 1) {} () (Cursor.start source) with
  | mk p rest =>
    rw [hrun] at h hgrave
    simp only at h hgrave ⊢
    cases hfatal : p.journal.fatal with
    | some stop =>
      obtain ⟨offset, problem⟩ := stop
      simp only [hfatal] at h
      cases h
      have hsame : problem = .unexpected found expected := hproblem
      rw [hsame] at hfatal
      exact absurd hfatal (hgrave offset found expected)
    | none =>
      simp only [hfatal] at h
      split at h
      · cases h
      · cases h
        exact ⟨rfl, rfl⟩

/-! ### What can come next -/

/-- A text begins with a token. A keyword is not the beginning of a longer name. -/
def Token.Begins (t : Token) (s : Bytes) : Prop :=
  ∃ x rest, s = x ++ rest ∧ t.Spells x ∧ ∀ k, t = .keyword k → Off isNameByte rest

/-- A token can come next behind a text: the text can be continued to a file whose tokens are those of the
text, then this one, and then others. White space may end the text. -/
def Follows (before : Bytes) (t : Token) : Prop :=
  ∃ its rest ts more w u, ReadsFile its (before ++ rest) ∧ its.flatMap Item.tokens = ts ++ t :: more ∧
    ReadsTokens ts (before ++ rest) (w ++ rest) ∧ (∀ b ∈ w, isSpace b = true) ∧ t.Reads rest u

/-- Some tokens are those to be expected at a place. -/
structure Explained (source : Bytes) (place : Nat) (expected : List Token) : Prop where
  absent : ∀ t ∈ expected, ¬ t.Begins (source.drop place)
  continues : ∀ t ∈ expected, ∀ x, t.Spells x →
    ∃ its rest, ReadsFile its (source.take place ++ newline :: (x ++ rest))
  nodup : expected.Nodup
  complete : ∀ t, t ∈ expected ↔ Follows (source.take place ++ [newline]) t

theorem Token.Begins.reads {t : Token} {s : Bytes} (h : t.Begins (s.dropWhile isSpace)) : ∃ u, t.Reads s u := by
  obtain ⟨x, rest, hs, hx, hkeyword⟩ := h
  cases t with
  | keyword k => exact ⟨_, Token.reads_iff.2 ⟨x, rest, hx, hs, hkeyword k rfl, rfl⟩⟩
  | mark m => exact ⟨_, Token.reads_iff.2 ⟨x, rest, hx, hs, off_none rest, rfl⟩⟩
  | name =>
    have hlong : NameText (x ++ rest.takeWhile isNameByte) := by
      obtain ⟨b, x, rfl, hstart, hx⟩ := hx
      refine ⟨b, x ++ rest.takeWhile isNameByte, rfl, hstart, fun c hc => ?_⟩
      exact (List.mem_append.1 hc).elim (hx c) List.mem_takeWhile_imp
    refine ⟨_, Token.reads_iff.2 ⟨_, rest.dropWhile isNameByte, hlong, ?_, off_dropWhile isNameByte rest, rfl⟩⟩
    rw [hs, List.append_assoc, List.takeWhile_append_dropWhile]
  | number =>
    have hlong : NumberText (x ++ rest.takeWhile isDigit) := by
      refine ⟨List.append_ne_nil_of_left_ne_nil hx.1 _, fun d hd => ?_⟩
      exact (List.mem_append.1 hd).elim (hx.2 d) List.mem_takeWhile_imp
    refine ⟨_, Token.reads_iff.2 ⟨_, rest.dropWhile isDigit, hlong, ?_, off_dropWhile isDigit rest, rfl⟩⟩
    rw [hs, List.append_assoc, List.takeWhile_append_dropWhile]

/-- The next token's place parts a text behind the white space. -/
theorem take_place (a r : Bytes) :
    (a ++ r).take ((Cursor.start (a ++ r)).place r) = a ++ r.takeWhile isSpace ∧
      (a ++ r).drop ((Cursor.start (a ++ r)).place r) = r.dropWhile isSpace ∧
      (Cursor.start (a ++ r)).place r ≤ (a ++ r).length := by
  have hparts : a ++ r = (a ++ r.takeWhile isSpace) ++ r.dropWhile isSpace := by
    rw [List.append_assoc, List.takeWhile_append_dropWhile]
  have hplace : (Cursor.start (a ++ r)).place r = (a ++ r.takeWhile isSpace).length := by
    have hlength := congrArg List.length hparts
    simp only [List.length_append] at hlength
    simp only [Cursor.place, Cursor.stop, Cursor.start, List.length_append]
    omega
  rw [hplace, hparts, List.take_left, List.drop_left]
  refine ⟨rfl, rfl, ?_⟩
  simp only [List.length_append]
  omega

section Explained

variable {ts : List Token} {q : Stage} {r before : Bytes}

/-- Only tokens of the stage reached can come next. -/
theorem Leads.accepts_of_follows {t : Token} (h : Leads .between ts q)
    (hbefore : ∀ v, ∃ w, (∀ b ∈ w, isSpace b = true) ∧ ReadsTokens ts (before ++ v) (w ++ v))
    (hfollows : Follows before t) : t ∈ q.accepts := by
  obtain ⟨its, rest, ts', more, w', u, ⟨hits, _⟩, htokens, hreads', hw', _⟩ := hfollows
  have hleads := hits.leads
  rw [htokens] at hleads
  obtain ⟨q', hleads', m, hexit, _⟩ := leads_append.1 hleads
  obtain ⟨w, hw, hreads⟩ := hbefore rest
  rw [h.unique hleads' hreads hreads' hw hw']
  exact Stage.mem_accepts.2 ⟨m, hexit⟩

theorem Leads.follows {t : Token} (h : Leads .between ts q)
    (hbefore : ∀ v, ∃ w, (∀ b ∈ w, isSpace b = true) ∧ ReadsTokens ts (before ++ v) (w ++ v))
    (ht : t ∈ q.accepts) : Follows before t := by
  obtain ⟨its, rest, more, u, hfile, htokens, hreads⟩ := h.exists_file ht t.spells_sample hbefore
  obtain ⟨w, hw, hbegin⟩ := hbefore (t.sample ++ rest)
  exact ⟨its, t.sample ++ rest, ts, more, w, u, hfile, htokens, hbegin, hw, hreads⟩

theorem Tells.explained {source : Bytes} {j : Journal} (h : Tells j (Cursor.start source) ts q r) :
    j.farthest ≤ source.length ∧ Explained source j.farthest j.expected := by
  obtain ⟨a, hsource, hnewline⟩ := h.reads.before_newline
  have hsource : source = a ++ r := hsource
  obtain ⟨htake, hdrop, hle⟩ := take_place a r
  rw [h.farthest, h.expected, hsource]
  have hspace : ∀ b ∈ r.takeWhile isSpace ++ [newline], isSpace b = true := by
    refine List.forall_mem_append.2 ⟨fun b hb => List.mem_takeWhile_imp hb, ?_⟩
    exact List.forall_mem_singleton.2 (by decide)
  have hbefore : ∀ v, ∃ w, (∀ b ∈ w, isSpace b = true) ∧
      ReadsTokens ts (a ++ r.takeWhile isSpace ++ [newline] ++ v) (w ++ v) := by
    intro v
    have hv := hnewline _ v hspace (List.mem_append_right _ (List.mem_singleton_self _))
    rwa [← List.append_assoc a] at hv
  refine ⟨hle, ?_, ?_, q.nodup_accepts, ?_⟩
  · intro t ht hbegins
    rw [hdrop] at hbegins
    obtain ⟨u, hu⟩ := hbegins.reads
    exact h.none t ht u hu
  · intro t ht x hx
    obtain ⟨its, rest, _, _, hfile, _⟩ := h.leads.exists_file ht hx hbefore
    rw [htake]
    refine ⟨its, rest, ?_⟩
    simpa using hfile
  · intro t
    rw [htake]
    exact ⟨h.leads.follows hbefore, h.leads.accepts_of_follows hbefore⟩

end Explained

/-- A text that is rejected at a token is reported at the farthest place of the parse, with the byte that
stands there and exactly the tokens that can come next. -/
theorem parse_unexpected_explained {source : Bytes} {e : ParseError} {found : Option UInt8}
    {expected : List Token} (h : parse source = .error e) (hproblem : e.problem = .unexpected found expected) :
    (journal source).farthest ≤ source.length ∧ found = source[(journal source).farthest]? ∧
      Located source (journal source).farthest e ∧ Explained source (journal source).farthest expected := by
  obtain ⟨hfatal, rfl⟩ := parse_unexpected h hproblem
  cases hproblem
  rw [journal_eq_plain] at hfatal ⊢
  cases hrun : items .plain (source.length + 1) {} () (Cursor.start source) with
  | mk p rest =>
    obtain ⟨c, _⟩ := rest
    rw [hrun] at hfatal
    have hbefore : (Journal.Before {} 0) := Or.inr ⟨Nat.le_refl _, rfl⟩
    obtain ⟨ts, q, r, htells⟩ := items_tells hrun hfatal (Nat.lt_succ_self _) hbefore
    obtain ⟨hle, hexplained⟩ := htells.explained
    exact ⟨hle, rfl, located_at _ _ _, hexplained⟩

/-- A comment behind a number. -/
def sail : Bytes :=
  utf8 "// ship\nunsigned char boat[]=\x7b// deck\n1, 2 // sail"

theorem parse_unexpected_explained_sail :
    parse sail = .error ⟨3, 6, .unexpected (some 47) [.mark .comma, .mark .rightBrace]⟩ ∧
      (journal sail).farthest = 43 ∧
      Located sail 43 ⟨3, 6, .unexpected (some 47) [.mark .comma, .mark .rightBrace]⟩ ∧
      Explained sail 43 [.mark .comma, .mark .rightBrace] := by
  have hparse : parse sail = .error ⟨3, 6, .unexpected (some 47) [.mark .comma, .mark .rightBrace]⟩ := by
    rw [parse_eq_plain]
    rfl
  have hplace : (journal sail).farthest = 43 := by
    rw [journal_eq_plain]
    rfl
  obtain ⟨_, _, hlocated, hexplained⟩ := parse_unexpected_explained hparse rfl
  rw [hplace] at hlocated hexplained
  exact ⟨hparse, hplace, hlocated, hexplained⟩

end Petscii.Source

import Petscii.Proofs.Source.Unexpected

/-!
# The notes of a parse

All notes that the rules take in a parse, in order. The journal is what they add up to; keeping them changes
nothing else, and they are the same with and without a memo.
-/

namespace Petscii.Source

variable {σ τ α : Type}

/-- A rule whose notes are kept. -/
def noted (rule : Applied σ α) : Applied (σ × List Note) α := fun (record, notes) c =>
  let (outcome, record) := rule record c
  (outcome, record, notes ++ outcome.notes)

def Rules.noted (rules : Rules σ) : Rules (σ × List Note) where
  comment := Source.noted rules.comment
  frame := Source.noted rules.frame

/-- The notes that are taken in some rounds. -/
def taken (rules : Rules σ) (n : Nat) (p : Progress) (r : σ) (c : Cursor) : List Note :=
  (items rules.noted n p (r, []) c).2.2.2

def notes (source : Bytes) : List Note :=
  taken .memoized (source.length + 1) {} {} (Cursor.start source)

/-! ### Keeping the notes changes nothing -/

section Noted

variable {rules : Rules σ} {c : Cursor} {p : Progress} {r r₁ r₂ : σ} {remark : Outcome (Option Canvas)}
  {outcome : Outcome (Frame × Option Canvas)}

theorem noted_comment (h : rules.comment r c = (remark, r₁)) (old : List Note) :
    rules.noted.comment (r, old) c = (remark, r₁, old ++ remark.notes) := by
  simp only [Rules.noted, Source.noted, h]

theorem noted_frame (h : rules.frame r c = (outcome, r₁)) (old : List Note) :
    rules.noted.frame (r, old) c = (outcome, r₁, old ++ outcome.notes) := by
  simp only [Rules.noted, Source.noted, h]

/-- A run whose notes are kept is the run itself. The new notes are put behind the old ones, and the journal
takes them one after the other. -/
theorem exists_items_noted (rules : Rules σ) (n : Nat) (p : Progress) (r : σ) (c : Cursor) :
    ∃ new, (items rules n p r c).1.journal = p.journal.addAll new ∧
      ∀ old, items rules.noted n p (r, old) c =
        ((items rules n p r c).1, (items rules n p r c).2.1, (items rules n p r c).2.2, old ++ new) := by
  induction n generalizing p r c with
  | zero => exact ⟨[], rfl, fun old => by simp only [items, List.append_nil]⟩
  | succ n ih =>
    cases hcomment : rules.comment r c with
    | mk remark r₁ =>
      cases hresult : remark.result with
      | some found =>
        obtain ⟨size, next⟩ := found
        obtain ⟨new, hjournal, hnew⟩ := ih ((p.note remark.notes).declare size) r₁ next
        refine ⟨remark.notes ++ new, ?_, fun old => ?_⟩
        · rw [items_of_comment hcomment hresult, hjournal, Journal.addAll_append]
          rfl
        · rw [items_of_comment (noted_comment hcomment old) hresult, hnew, items_of_comment hcomment hresult,
            List.append_assoc]
      | none =>
        cases hfatal : (p.note remark.notes).journal.fatal.isSome with
        | true =>
          refine ⟨remark.notes, ?_, fun old => ?_⟩
          · rw [items_of_fatal hcomment hresult hfatal]
            rfl
          · rw [items_of_fatal (noted_comment hcomment old) hresult hfatal,
              items_of_fatal hcomment hresult hfatal]
        | false =>
          cases hframe : rules.frame r₁ c with
          | mk outcome r₂ =>
            cases hfound : outcome.result with
            | some found =>
              obtain ⟨⟨f, size⟩, next⟩ := found
              obtain ⟨new, hjournal, hnew⟩ := ih ({ (p.note remark.notes).note outcome.notes with
                frames := f :: p.frames }.declare size) r₂ next
              refine ⟨remark.notes ++ (outcome.notes ++ new), ?_, fun old => ?_⟩
              · rw [items_of_frame hcomment hresult hfatal hframe hfound, hjournal, Journal.addAll_append,
                  Journal.addAll_append]
                rfl
              · rw [items_of_frame (noted_comment hcomment old) hresult hfatal (noted_frame hframe _) hfound,
                  hnew, items_of_frame hcomment hresult hfatal hframe hfound, List.append_assoc,
                  List.append_assoc]
            | none =>
              refine ⟨remark.notes ++ outcome.notes, ?_, fun old => ?_⟩
              · rw [items_of_end hcomment hresult hfatal hframe hfound, Journal.addAll_append]
                rfl
              · rw [items_of_end (noted_comment hcomment old) hresult hfatal (noted_frame hframe _) hfound,
                  items_of_end hcomment hresult hfatal hframe hfound, List.append_assoc]

theorem items_noted (rules : Rules σ) (n : Nat) (p : Progress) (r : σ) (old : List Note) (c : Cursor) :
    items rules.noted n p (r, old) c =
      ((items rules n p r c).1, (items rules n p r c).2.1, (items rules n p r c).2.2,
        old ++ taken rules n p r c) := by
  obtain ⟨new, _, hnew⟩ := exists_items_noted rules n p r c
  rw [taken, hnew, hnew, List.nil_append]

theorem journal_items (rules : Rules σ) (n : Nat) (p : Progress) (r : σ) (c : Cursor) :
    (items rules n p r c).1.journal = p.journal.addAll (taken rules n p r c) := by
  obtain ⟨new, hjournal, hnew⟩ := exists_items_noted rules n p r c
  rw [hjournal, taken, hnew, List.nil_append]

/-! ### The notes of a round -/

theorem taken_of_comment {size : Option Canvas} {next : Cursor} (hcomment : rules.comment r c = (remark, r₁))
    (hresult : remark.result = some (size, next)) (n : Nat) :
    taken rules (n + 1) p r c =
      remark.notes ++ taken rules n ((p.note remark.notes).declare size) r₁ next := by
  rw [taken, items_of_comment (noted_comment hcomment _) hresult, items_noted, List.nil_append]

theorem taken_of_fatal (hcomment : rules.comment r c = (remark, r₁)) (hresult : remark.result = none)
    (hfatal : (p.note remark.notes).journal.fatal.isSome = true) (n : Nat) :
    taken rules (n + 1) p r c = remark.notes := by
  rw [taken, items_of_fatal (noted_comment hcomment _) hresult hfatal, List.nil_append]

theorem taken_of_frame (hcomment : rules.comment r c = (remark, r₁)) (hresult : remark.result = none)
    (hfatal : (p.note remark.notes).journal.fatal.isSome = false) (hframe : rules.frame r₁ c = (outcome, r₂))
    {f : Frame} {size : Option Canvas} {next : Cursor} (hfound : outcome.result = some ((f, size), next))
    (n : Nat) :
    taken rules (n + 1) p r c =
      remark.notes ++ outcome.notes ++ taken rules n
        ({ (p.note remark.notes).note outcome.notes with frames := f :: p.frames }.declare size) r₂ next := by
  rw [taken, items_of_frame (noted_comment hcomment _) hresult hfatal (noted_frame hframe _) hfound,
    items_noted, List.nil_append]

theorem taken_of_end (hcomment : rules.comment r c = (remark, r₁)) (hresult : remark.result = none)
    (hfatal : (p.note remark.notes).journal.fatal.isSome = false) (hframe : rules.frame r₁ c = (outcome, r₂))
    (hfound : outcome.result = none) (n : Nat) :
    taken rules (n + 1) p r c = remark.notes ++ outcome.notes := by
  rw [taken, items_of_end (noted_comment hcomment _) hresult hfatal (noted_frame hframe _) hfound,
    List.nil_append]

end Noted

theorem journal_notes (source : Bytes) : journal source = ({} : Journal).addAll (notes source) :=
  journal_items .memoized _ _ _ _

/-! ### The memo and the notes -/

theorem Matches.noted {c : Cursor} {rule : Applied σ α} {rule' : Applied τ α} {r : σ} {r' : τ}
    {found : Nat → σ → τ → Prop} {missed : σ → τ → Prop} (h : Matches c (rule r c) (rule' r' c) found missed)
    (old : List Note) :
    Matches c (noted rule (r, old) c) (noted rule' (r', old) c)
      (fun n a b => found n a.1 b.1 ∧ a.2 = b.2) (fun a b => missed a.1 b.1 ∧ a.2 = b.2) := by
  obtain ⟨hsame, hnext⟩ := h
  cases hrule : rule r c with
  | mk outcome r₁ =>
    cases hrule' : rule' r' c with
    | mk outcome' r₁' =>
      rw [hrule, hrule'] at hsame hnext
      cases hsame
      refine ⟨by simp only [Source.noted, hrule, hrule'], ?_⟩
      simp only [Source.noted, hrule, hrule']
      cases hresult : outcome.result with
      | some found =>
        simp only [hresult] at hnext
        exact ⟨hnext.1, hnext.2, trivial⟩
      | none =>
        simp only [hresult] at hnext
        exact ⟨hnext, trivial⟩

theorem Lockstep.noted {rules : Rules σ} {rules' : Rules τ} {head missed : Nat → σ → τ → Prop}
    {last : σ → τ → Prop} (h : Lockstep rules rules' head missed last) :
    Lockstep rules.noted rules'.noted (fun n a b => head n a.1 b.1 ∧ a.2 = b.2)
      (fun n a b => missed n a.1 b.1 ∧ a.2 = b.2) (fun a b => last a.1 b.1 ∧ a.2 = b.2) where
  comment := by
    rintro c ⟨r, old⟩ ⟨r', _⟩ ⟨hhead, rfl⟩
    exact (h.comment hhead).noted old
  frame := by
    rintro c ⟨r, old⟩ ⟨r', _⟩ ⟨hmissed, rfl⟩
    exact (h.frame hmissed).noted old
  last_of_head := fun hhead => ⟨h.last_of_head hhead.1, hhead.2⟩
  last_of_missed := fun hmissed => ⟨h.last_of_missed hmissed.1, hmissed.2⟩

theorem notes_eq_plain (source : Bytes) :
    notes source = taken .plain (source.length + 1) {} () (Cursor.start source) := by
  obtain ⟨_, _, _, hnotes⟩ := @Lockstep.items_eq _ _ (Rules.noted .memoized) (Rules.noted .plain) _ _ _
    (Cursor.start source) (({} : Memo), []) ((), []) lockstep_memoized.noted
    ⟨⟨ahead_empty _ _, ahead_empty _ _⟩, rfl⟩ (source.length + 1) {}
  exact hnotes

end Petscii.Source

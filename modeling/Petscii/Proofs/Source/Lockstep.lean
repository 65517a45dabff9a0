import Petscii.Proofs.Source.Scan
import Petscii.Source.Parse

/-!
# Two sets of rules in lockstep

Rules that keep different records read a text alike if their outcomes agree wherever they are applied. What
relates the records is given at the head of a round, after a failed comment and at the end; it is enough to
follow it through one application of each rule. A round moves the cursor on or is the last, so that a run
takes no more rounds than the text has bytes.
-/

namespace Petscii.Source

/-! ### Farther on -/

structure Cursor.Before (c c' : Cursor) : Prop where
  stop : c'.stop = c.stop
  offset : c.offset < c'.offset

theorem Cursor.Before.of_rest {c c' : Cursor} (hstop : c'.stop = c.stop)
    (hrest : c'.rest.length < c.rest.length) : c.Before c' := by
  refine ⟨hstop, ?_⟩
  simp only [Cursor.stop] at hstop
  omega

theorem Cursor.Before.trans {a b c : Cursor} (h : a.Before b) (h' : b.Before c) : a.Before c :=
  ⟨h'.stop.trans h.stop, h.offset.trans h'.offset⟩

theorem Cursor.Before.shortens {c c' : Cursor} (h : c.Before c') : c'.rest.length < c.rest.length := by
  obtain ⟨hstop, hoffset⟩ := h
  simp only [Cursor.stop] at hstop
  omega

/-! ### Lockstep -/

section Lockstep

variable {σ τ α : Type}

section Round

variable {rules : Rules σ} {c : Cursor} {p : Progress} {remark : Outcome (Option Canvas)} {r r₁ : σ}

theorem items_of_comment {size : Option Canvas} {next : Cursor} (hcomment : rules.comment r c = (remark, r₁))
    (hresult : remark.result = some (size, next)) (n : Nat) :
    items rules (n + 1) p r c = items rules n ((p.note remark.notes).declare size) r₁ next := by
  simp only [items, hcomment, hresult]

theorem items_of_fatal (hcomment : rules.comment r c = (remark, r₁)) (hresult : remark.result = none)
    (hfatal : (p.note remark.notes).journal.fatal.isSome = true) (n : Nat) :
    items rules (n + 1) p r c = (p.note remark.notes, c, r₁) := by
  simp only [items, hcomment, hresult, hfatal, if_true]

theorem items_of_frame (hcomment : rules.comment r c = (remark, r₁)) (hresult : remark.result = none)
    (hfatal : (p.note remark.notes).journal.fatal.isSome = false) {outcome : Outcome (Frame × Option Canvas)}
    {r₂ : σ} (hframe : rules.frame r₁ c = (outcome, r₂)) {f : Frame} {size : Option Canvas} {next : Cursor}
    (hfound : outcome.result = some ((f, size), next)) (n : Nat) :
    items rules (n + 1) p r c =
      items rules n ({ (p.note remark.notes).note outcome.notes with frames := f :: p.frames }.declare size)
        r₂ next := by
  simp only [items, hcomment, hresult, hfatal, Bool.false_eq_true, if_false, hframe, hfound]
  rfl

theorem items_of_end (hcomment : rules.comment r c = (remark, r₁)) (hresult : remark.result = none)
    (hfatal : (p.note remark.notes).journal.fatal.isSome = false) {outcome : Outcome (Frame × Option Canvas)}
    {r₂ : σ} (hframe : rules.frame r₁ c = (outcome, r₂)) (hfound : outcome.result = none) (n : Nat) :
    items rules (n + 1) p r c = ((p.note remark.notes).note outcome.notes, c, r₂) := by
  simp only [items, hcomment, hresult, hfatal, Bool.false_eq_true, if_false, hframe, hfound]

end Round

/-- Two applications of a rule at a place have one outcome. Where the rule succeeds it moves on. -/
def Matches (c : Cursor) (a : Outcome α × σ) (b : Outcome α × τ) (found : Nat → σ → τ → Prop)
    (missed : σ → τ → Prop) : Prop :=
  a.1 = b.1 ∧ match a.1.result with
    | some (_, next) => c.Before next ∧ found next.offset a.2 b.2
    | none => missed a.2 b.2

/-- The records of two sets of rules are related by `head` where a round begins, by `missed` where the
comment rule has failed, and by `last` in the end. -/
structure Lockstep (rules : Rules σ) (rules' : Rules τ) (head missed : Nat → σ → τ → Prop)
    (last : σ → τ → Prop) : Prop where
  comment : ∀ {c r r'}, head c.offset r r' →
    Matches c (rules.comment r c) (rules'.comment r' c) head (missed c.offset)
  frame : ∀ {c r r'}, missed c.offset r r' → Matches c (rules.frame r c) (rules'.frame r' c) head last
  last_of_head : ∀ {n r r'}, head n r r' → last r r'
  last_of_missed : ∀ {n r r'}, missed n r r' → last r r'

namespace Lockstep

variable {rules : Rules σ} {rules' : Rules τ} {head missed : Nat → σ → τ → Prop} {last : σ → τ → Prop}
  {c : Cursor} {r : σ} {r' : τ}

/-- A round reads on from a place farther on, or is the last. -/
theorem round (h : Lockstep rules rules' head missed last) (hhead : head c.offset r r') (p : Progress) :
    (∃ p' next r₁ r₁', c.Before next ∧ head next.offset r₁ r₁' ∧
        (∀ n, items rules (n + 1) p r c = items rules n p' r₁ next) ∧
        ∀ n, items rules' (n + 1) p r' c = items rules' n p' r₁' next) ∨
      ∃ p' r₁ r₁', last r₁ r₁' ∧ (∀ n, items rules (n + 1) p r c = (p', c, r₁)) ∧
        ∀ n, items rules' (n + 1) p r' c = (p', c, r₁') := by
  obtain ⟨hsame, hnext⟩ := h.comment hhead
  cases hcomment : rules.comment r c with
  | mk remark r₁ =>
    cases hcomment' : rules'.comment r' c with
    | mk remark' r₁' =>
      rw [hcomment, hcomment'] at hsame hnext
      cases hsame
      cases hresult : remark.result with
      | some found =>
        obtain ⟨size, next⟩ := found
        simp only [hresult] at hnext
        exact Or.inl ⟨_, next, r₁, r₁', hnext.1, hnext.2, items_of_comment hcomment hresult,
          items_of_comment hcomment' hresult⟩
      | none =>
        simp only [hresult] at hnext
        cases hfatal : (p.note remark.notes).journal.fatal.isSome with
        | true =>
          exact Or.inr ⟨_, r₁, r₁', h.last_of_missed hnext, items_of_fatal hcomment hresult hfatal,
            items_of_fatal hcomment' hresult hfatal⟩
        | false =>
          obtain ⟨hsame', hnext'⟩ := h.frame hnext
          cases hframe : rules.frame r₁ c with
          | mk outcome r₂ =>
            cases hframe' : rules'.frame r₁' c with
            | mk outcome' r₂' =>
              rw [hframe, hframe'] at hsame' hnext'
              cases hsame'
              cases hfound : outcome.result with
              | some found =>
                obtain ⟨⟨f, size⟩, next⟩ := found
                simp only [hfound] at hnext'
                exact Or.inl ⟨_, next, r₂, r₂', hnext'.1, hnext'.2,
                  items_of_frame hcomment hresult hfatal hframe hfound,
                  items_of_frame hcomment' hresult hfatal hframe' hfound⟩
              | none =>
                simp only [hfound] at hnext'
                exact Or.inr ⟨_, r₂, r₂', hnext', items_of_end hcomment hresult hfatal hframe hfound,
                  items_of_end hcomment' hresult hfatal hframe' hfound⟩

/-- The two runs end alike, and their records are related in the end. -/
theorem items_eq (h : Lockstep rules rules' head missed last) (hhead : head c.offset r r') (n : Nat)
    (p : Progress) :
    (items rules n p r c).1 = (items rules' n p r' c).1 ∧
      (items rules n p r c).2.1 = (items rules' n p r' c).2.1 ∧
      last (items rules n p r c).2.2 (items rules' n p r' c).2.2 := by
  induction n generalizing p c r r' with
  | zero => exact ⟨rfl, rfl, h.last_of_head hhead⟩
  | succ n ih =>
    rcases h.round hhead p with ⟨p', next, r₁, r₁', _, hhead', hrun, hrun'⟩ | ⟨p', r₁, r₁', hlast, hrun, hrun'⟩
    · rw [hrun, hrun']
      exact ih hhead' p'
    · rw [hrun, hrun']
      exact ⟨rfl, rfl, hlast⟩

/-- A further round moves on from where the rounds before it ended, or the run has ended. -/
theorem moves (h : Lockstep rules rules' head missed last) (hhead : head c.offset r r') (n : Nat)
    (p : Progress) :
    (items rules n p r c).2.1.Before (items rules (n + 1) p r c).2.1 ∨
      ∀ m, n < m → items rules m p r c = items rules (n + 1) p r c := by
  induction n generalizing p c r r' with
  | zero =>
    rcases h.round hhead p with ⟨p', next, r₁, r₁', hbefore, _, hrun, _⟩ | ⟨p', r₁, _, _, hrun, _⟩
    · left
      rw [hrun]
      exact hbefore
    · right
      intro m hm
      obtain ⟨m, rfl⟩ : ∃ k, m = k + 1 := ⟨m - 1, by omega⟩
      rw [hrun, hrun]
  | succ n ih =>
    rcases h.round hhead p with ⟨p', next, r₁, r₁', _, hhead', hrun, _⟩ | ⟨p', r₁, _, _, hrun, _⟩
    · rw [hrun, hrun]
      refine (ih hhead' p').imp_right fun hended m hm => ?_
      obtain ⟨m, rfl⟩ : ∃ k, m = k + 1 := ⟨m - 1, by omega⟩
      rw [hrun]
      exact hended m (by omega)
    · right
      intro m hm
      obtain ⟨m, rfl⟩ : ∃ k, m = k + 1 := ⟨m - 1, by omega⟩
      rw [hrun, hrun]

/-- Rounds beyond the length of the text change nothing. -/
theorem enough (h : Lockstep rules rules' head missed last) (hhead : head c.offset r r') {n : Nat}
    (hn : c.rest.length < n) (p : Progress) : items rules (n + 1) p r c = items rules n p r c := by
  induction n generalizing p c r r' with
  | zero => omega
  | succ n ih =>
    rcases h.round hhead p with ⟨p', next, r₁, r₁', hbefore, hhead', hrun, _⟩ | ⟨p', r₁, _, _, hrun, _⟩
    · have hlt := hbefore.shortens
      rw [hrun, hrun]
      exact ih hhead' (by omega) p'
    · rw [hrun, hrun]

end Lockstep

end Lockstep

end Petscii.Source

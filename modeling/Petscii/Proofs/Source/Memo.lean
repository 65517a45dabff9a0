import Petscii.Proofs.Source.Lockstep
import Petscii.Proofs.Source.Production

/-!
# Parsing with a memo

The memo never changes the outcome of a parse. Every rule that succeeds moves the cursor on, so that the
memo holds no result at the place where a rule is applied next, and each result is computed there.
-/

namespace Petscii.Source

/-! ### Rules move the cursor on -/

theorem comment_advances {size : Option Canvas} {c c' : Cursor} (h : (comment c).result = some (size, c')) :
    c.Before c' := by
  obtain ⟨numbers, t, hreads, rfl, _⟩ := comment_result h
  exact Cursor.Before.of_rest (Cursor.stop_behind hreads.length_lt.le) hreads.length_lt

theorem ReadsHead.length_lt {name s t : Bytes} (h : ReadsHead name s t) : t.length < s.length := by
  obtain ⟨s₁, s₂, s₃, s₄, s₅, s₆, h₁, h₂, ⟨h₃, _⟩, h₄, h₅, h₆, h₇⟩ := h
  have hle₁ := h₁.1.length_le
  have hle₂ := h₂.1.length_le
  have hle₃ := h₃.length_le
  have hlt₄ := h₄.length_lt
  have hlt₅ := h₅.length_lt
  have hlt₆ := h₆.length_lt
  have hlt₇ := h₇.length_lt
  omega

theorem frameHead_advances {name : String} {c inside : Cursor} (h : frameHead c = .ok (name, inside)) :
    c.Before inside := by
  obtain ⟨hstop, _, _, hreads⟩ := frameHead_scans.ok_iff.1 h
  exact Cursor.Before.of_rest hstop hreads.length_lt

theorem ReadsData.length_le {ns : List Nat} {s t : Bytes} (h : ReadsData ns s t) : t.length ≤ s.length := by
  obtain ⟨n, more, u, _, hnumber, hmore⟩ := h
  have hle₁ := hnumber.length_le
  have hle₂ := hmore.length_le
  omega

theorem frameBody_advances {name : String} {f : Frame} {c c' : Cursor}
    (h : (frameBody name c).result = some (f, c')) : c.Before c' := by
  cases hbody : frameBody name c with
  | mk result notes =>
    rw [hbody] at h
    cases h
    obtain ⟨hstop, ns, t, hdata, ⟨u, hbrace, hsemicolon⟩, _⟩ := frameBody_sound hbody
    have hle := hdata.length_le
    have hlt₁ := hbrace.length_lt
    have hlt₂ := hsemicolon.length_lt
    exact Cursor.Before.of_rest hstop (by omega)

/-- The comment behind the brace ends before the frame does. -/
theorem plain_frame_advances {c c' inside : Cursor} {name : String} {v : Frame × Option Canvas}
    (hhead : frameHead c = .ok (name, inside)) (h : (Rules.plain.frame () c).1.result = some (v, c')) :
    inside.Before c' := by
  rw [plain_frame_of_head hhead] at h
  cases hcomment : (comment inside).result with
  | none =>
    simp only [hcomment, Option.getD_none] at h
    obtain ⟨⟨f, next⟩, hbody, hv⟩ := Option.map_eq_some_iff.1 h
    cases hv
    exact frameBody_advances hbody
  | some p =>
    obtain ⟨size, after⟩ := p
    simp only [hcomment, Option.getD_some] at h
    obtain ⟨⟨f, next⟩, hbody, hv⟩ := Option.map_eq_some_iff.1 h
    cases hv
    exact (comment_advances hcomment).trans (frameBody_advances hbody)

theorem plain_frame_before {v : Frame × Option Canvas} {c c' : Cursor}
    (h : (Rules.plain.frame () c).1.result = some (v, c')) : c.Before c' := by
  cases hhead : frameHead c with
  | error notes =>
    simp only [Rules.plain, frame, hhead] at h
    cases h
  | ok found => exact (frameHead_advances hhead).trans (plain_frame_advances hhead h)

/-! ### The memo is empty ahead -/

/-- A table holds nothing from a place on. -/
def Ahead {β : Type} (table : Std.HashMap Nat β) (n : Nat) : Prop :=
  ∀ k, n ≤ k → table[k]? = none

theorem Ahead.insert {β : Type} {table : Std.HashMap Nat β} {n m k : Nat} (h : Ahead table n) (hn : n ≤ m)
    (hk : k < m) (v : β) : Ahead (table.insert k v) m := by
  intro i hi
  rw [Std.HashMap.getElem?_insert, if_neg (by simp only [beq_iff_eq]; omega)]
  exact h i (by omega)

theorem Ahead.mono {β : Type} {table : Std.HashMap Nat β} {n m : Nat} (h : Ahead table n) (hle : n ≤ m) :
    Ahead table m :=
  fun k hk => h k (Nat.le_trans hle hk)

theorem memo_comment_eq {memo : Memo} {c : Cursor} {n : Nat} (h : Ahead memo.comments n) (hle : n ≤ c.offset) :
    Memo.comment memo c =
      (comment c, { memo with comments := memo.comments.insert c.offset (comment c).result }) := by
  simp only [Memo.comment, h c.offset hle]

/-- The frame rule of the memo gives what the rule gives afresh, and looks no farther than the frame. -/
theorem memo_frame_eq {memo : Memo} {c : Cursor} (hcomments : Ahead memo.comments (c.offset + 1))
    (hframes : Ahead memo.frames c.offset) :
    (Memo.frame memo c).1 = (Rules.plain.frame () c).1 ∧
      ∀ v c', (Rules.plain.frame () c).1.result = some (v, c') →
        Ahead (Memo.frame memo c).2.comments c'.offset ∧ Ahead (Memo.frame memo c).2.frames c'.offset := by
  have hlookup := hframes c.offset (Nat.le_refl _)
  cases hhead : frameHead c with
  | error notes =>
    have hplain : (Rules.plain.frame () c).1 = ⟨none, notes⟩ := by simp only [Rules.plain, frame, hhead]
    rw [hplain]
    refine ⟨by simp only [Memo.frame, hlookup, frame, hhead], ?_⟩
    intro v c' h
    cases h
  | ok found =>
    obtain ⟨name, inside⟩ := found
    have hinside := (frameHead_advances hhead).offset
    -- a failed comment is in the memo by now, but the comment inside the frame lies farther on
    have hcomment := memo_comment_eq hcomments (Nat.succ_le_of_lt hinside)
    constructor
    · simp only [Memo.frame, hlookup, frame, hhead, hcomment, plain_frame_of_head hhead]
    · intro v c' h
      have hnext := (plain_frame_advances hhead h).offset
      simp only [Memo.frame, hlookup, frame, hhead, hcomment]
      exact ⟨hcomments.insert (by omega) hnext _, hframes.insert (by omega) (by omega) _⟩

/-! ### The memo and the plain rules -/

def Memo.Ahead (memo : Memo) (n : Nat) : Prop :=
  Source.Ahead memo.comments n ∧ Source.Ahead memo.frames n

/-- The memo holds nothing from a place on but that no comment stands there. -/
def Memo.Missed (memo : Memo) (n : Nat) : Prop :=
  Source.Ahead memo.comments (n + 1) ∧ Source.Ahead memo.frames n

theorem memo_comment_matches {memo : Memo} {c : Cursor} (h : memo.Ahead c.offset) :
    Matches c (Memo.comment memo c) (comment c, ()) (fun n memo _ => memo.Ahead n)
      (fun memo _ => memo.Missed c.offset) := by
  obtain ⟨hcomments, hframes⟩ := h
  rw [memo_comment_eq hcomments (Nat.le_refl _)]
  refine ⟨rfl, ?_⟩
  cases hresult : (comment c).result with
  | some found =>
    obtain ⟨size, next⟩ := found
    have hbefore := comment_advances hresult
    exact ⟨hbefore, hcomments.insert hbefore.offset.le hbefore.offset _, hframes.mono hbefore.offset.le⟩
  | none => exact ⟨hcomments.insert (Nat.le_succ _) (Nat.lt_succ_self _) _, hframes⟩

theorem memo_frame_matches {memo : Memo} {c : Cursor} (h : memo.Missed c.offset) :
    Matches c (Memo.frame memo c) (Rules.plain.frame () c) (fun n memo _ => memo.Ahead n)
      (fun _ _ => True) := by
  obtain ⟨hsame, hahead⟩ := memo_frame_eq h.1 h.2
  refine ⟨hsame, ?_⟩
  rw [hsame]
  cases hresult : (Rules.plain.frame () c).1.result with
  | some found => exact ⟨plain_frame_before hresult, hahead _ _ hresult⟩
  | none => trivial

/-- The rules with a memo go in lockstep with the plain ones. -/
theorem lockstep_memoized : Lockstep .memoized .plain (fun n memo _ => memo.Ahead n)
    (fun n memo _ => memo.Missed n) (fun _ _ => True) where
  comment := memo_comment_matches
  frame := memo_frame_matches
  last_of_head := fun _ => trivial
  last_of_missed := fun _ => trivial

/-! ### The parse -/

theorem items_memoized {rounds : Nat} {p : Progress} {memo : Memo} {c : Cursor}
    (hcomments : Ahead memo.comments c.offset) (hframes : Ahead memo.frames c.offset) :
    (items .memoized rounds p memo c).1 = (items .plain rounds p () c).1 ∧
      (items .memoized rounds p memo c).2.1 = (items .plain rounds p () c).2.1 := by
  obtain ⟨hprogress, hcursor, _⟩ := @Lockstep.items_eq _ _ .memoized .plain _ _ _ c memo () lockstep_memoized
    ⟨hcomments, hframes⟩ rounds p
  exact ⟨hprogress, hcursor⟩

theorem ahead_empty (β : Type) (n : Nat) : Ahead (∅ : Std.HashMap Nat β) n :=
  fun _ _ => Std.HashMap.getElem?_empty

/-- The memo does not show in the answer. -/
theorem parse_eq_plain (source : Bytes) : parse source = (parseWith .plain () source).1 := by
  obtain ⟨hprogress, hcursor⟩ := @items_memoized (source.length + 1) {} {} (Cursor.start source)
    (ahead_empty _ _) (ahead_empty _ _)
  have hanswer : (parseWith .memoized {} source).1 = (parseWith .plain () source).1 := by
    simp only [parseWith, hprogress, hcursor]
  rw [← hanswer, parse, parseMemoized]
  cases parseWith .memoized {} source with
  | mk answer memo =>
    cases answer with
    | ok reel => rfl
    | error e => rfl

end Petscii.Source

import Mathlib.Data.List.Nodup
import Petscii.Proofs.Source.Memo

/-!
# Where the rules are applied

The applications of the rules in a parse, written down with the memo. Along a run, each rule is applied
farther on than ever before, so that no result is ever found in the memo.
-/

namespace Petscii.Source

inductive RuleName where
  | comment
  | frame
  deriving DecidableEq, Repr

def Memo.Holds (memo : Memo) : RuleName → Nat → Prop
  | .comment, offset => offset ∈ memo.comments
  | .frame, offset => offset ∈ memo.frames

/-- One application of a rule, and whether its result was found in the memo. -/
structure Application where
  rule : RuleName
  offset : Nat
  found : Bool
  deriving DecidableEq, Repr

/-- A memo, and the applications of the rules so far, last first. -/
structure Log where
  memo : Memo := {}
  applied : List Application := []

/-- The comment rule with a memo, written down. -/
def Log.comment : Applied Log (Option Canvas) := fun log c =>
  let (outcome, memo) := Memo.comment log.memo c
  (outcome, ⟨memo, ⟨.comment, c.offset, log.memo.comments.contains c.offset⟩ :: log.applied⟩)

/-- The frame rule with a memo, written down behind the comment in it. -/
def Log.frame : Applied Log (Frame × Option Canvas) := fun log c =>
  match log.memo.frames[c.offset]? with
  | some result => (⟨result, []⟩, { log with applied := ⟨.frame, c.offset, true⟩ :: log.applied })
  | none =>
    let (outcome, log) := Source.frame Log.comment log c
    (outcome, ⟨{ log.memo with frames := log.memo.frames.insert c.offset outcome.result },
      ⟨.frame, c.offset, false⟩ :: log.applied⟩)

/-- The rules with a memo, all applications written down. -/
def Rules.logged : Rules Log where
  comment := Log.comment
  frame := Log.frame

/-- A parse after some rounds. Every round begins with the comment rule, so that the log tells a round that
goes on at its own place from a parse that has ended. -/
def run (source : Bytes) (rounds : Nat) : Progress × Cursor × Log :=
  items .logged rounds {} {} (Cursor.start source)

/-- The applications of the rules in a parse, in the order in which they ended. -/
def trace (source : Bytes) : List Application :=
  (run source (source.length + 1)).2.2.applied.reverse

/-! ### The memo of the log -/

theorem log_comment_memo (log : Log) (c : Cursor) :
    (Log.comment log c).1 = (Memo.comment log.memo c).1 ∧
      (Log.comment log c).2.memo = (Memo.comment log.memo c).2 :=
  ⟨rfl, rfl⟩

theorem log_frame_memo (log : Log) (c : Cursor) :
    (Log.frame log c).1 = (Memo.frame log.memo c).1 ∧
      (Log.frame log c).2.memo = (Memo.frame log.memo c).2 := by
  rw [Log.frame, Memo.frame]
  cases log.memo.frames[c.offset]? with
  | some result => exact ⟨rfl, rfl⟩
  | none =>
    simp only [Source.frame]
    cases frameHead c with
    | error notes => exact ⟨rfl, rfl⟩
    | ok found => exact ⟨rfl, rfl⟩

/-! ### Each rule farther on -/

def bounds (comment frame : Nat) : RuleName → Nat
  | .comment => comment
  | .frame => frame

/-- The log tells what the memo holds. No application was found there, and each was made farther on than the
one of its rule before it; all of them lie before a bound for the rule. -/
structure Log.Orderly (log : Log) (bound : RuleName → Nat) : Prop where
  holds : ∀ rule offset, log.memo.Holds rule offset ↔ ⟨rule, offset, false⟩ ∈ log.applied
  fresh : ∀ a ∈ log.applied, a.found = false
  ascends : log.applied.Pairwise fun a b => a.rule = b.rule → b.offset < a.offset
  before : ∀ a ∈ log.applied, a.offset < bound a.rule

theorem orderly_empty (bound : RuleName → Nat) : Log.Orderly {} bound where
  holds := by
    intro rule offset
    cases rule <;> simp [Memo.Holds]
  fresh := by simp
  ascends := List.Pairwise.nil
  before := by simp

namespace Log.Orderly

variable {log : Log}

theorem not_holds {bound : RuleName → Nat} (h : log.Orderly bound) {rule : RuleName} {offset : Nat}
    (hle : bound rule ≤ offset) : ¬ log.memo.Holds rule offset := by
  intro hholds
  have hlt := h.before _ ((h.holds rule offset).1 hholds)
  simp only at hlt
  omega

theorem apply {bound bound' : RuleName → Nat} {log' : Log} (h : log.Orderly bound) {rule : RuleName}
    {offset : Nat} (hle : bound rule ≤ offset) (happlied : log'.applied = ⟨rule, offset, false⟩ :: log.applied)
    (hholds : ∀ rule' offset', log'.memo.Holds rule' offset' ↔
      rule = rule' ∧ offset = offset' ∨ log.memo.Holds rule' offset')
    (hbound : bound' rule = offset + 1) (hkept : ∀ rule', rule' ≠ rule → bound rule' ≤ bound' rule') :
    log'.Orderly bound' where
  holds := by
    intro rule' offset'
    rw [hholds, happlied, List.mem_cons, h.holds]
    simp [eq_comm]
  fresh := by
    rw [happlied]
    exact List.forall_mem_cons.2 ⟨rfl, h.fresh⟩
  ascends := by
    rw [happlied]
    refine List.pairwise_cons.2 ⟨fun a ha hrule => ?_, h.ascends⟩
    have hlt := h.before a ha
    rw [← hrule] at hlt
    exact hlt.trans_le hle
  before := by
    rw [happlied]
    refine List.forall_mem_cons.2 ⟨?_, fun a ha => ?_⟩
    · rw [hbound]
      exact Nat.lt_succ_self _
    · have hlt := h.before a ha
      by_cases hrule : a.rule = rule
      · rw [hrule, hbound]
        rw [hrule] at hlt
        omega
      · exact hlt.trans_le (hkept a.rule hrule)

variable {n m : Nat} {c : Cursor}

theorem mono (h : log.Orderly (bounds n m)) {n' m' : Nat} (hn : n ≤ n') (hm : m ≤ m') :
    log.Orderly (bounds n' m') where
  holds := h.holds
  fresh := h.fresh
  ascends := h.ascends
  before := by
    intro a ha
    refine (h.before a ha).trans_le ?_
    cases a.rule with
    | comment => exact hn
    | frame => exact hm

theorem ahead_comments (h : log.Orderly (bounds n m)) : Ahead log.memo.comments n :=
  fun k hk => Std.HashMap.getElem?_eq_none (@not_holds log _ h .comment k hk)

theorem ahead_frames (h : log.Orderly (bounds n m)) : Ahead log.memo.frames m :=
  fun k hk => Std.HashMap.getElem?_eq_none (@not_holds log _ h .frame k hk)

theorem comment (h : log.Orderly (bounds n m)) (hle : n ≤ c.offset) :
    (Log.comment log c).2.Orderly (bounds (c.offset + 1) m) := by
  have habsent : c.offset ∉ log.memo.comments := @not_holds log _ h .comment _ hle
  refine @apply log _ _ _ h .comment _ hle ?_ ?_ rfl ?_
  · simp only [Log.comment, Std.HashMap.contains_eq_false_iff_not_mem.2 habsent]
  · intro rule offset
    simp only [Log.comment, memo_comment_eq h.ahead_comments hle]
    cases rule with
    | comment => simp only [Memo.Holds, Std.HashMap.mem_insert, beq_iff_eq, true_and]
    | frame => simp [Memo.Holds]
  · intro rule hrule
    cases rule with
    | comment => exact absurd rfl hrule
    | frame => exact Nat.le_refl _

theorem keepFrame (h : log.Orderly (bounds n m)) {offset : Nat} (hle : m ≤ offset)
    (result : Option ((Frame × Option Canvas) × Cursor)) :
    Log.Orderly ⟨{ log.memo with frames := log.memo.frames.insert offset result },
      ⟨.frame, offset, false⟩ :: log.applied⟩ (bounds n (offset + 1)) := by
  refine @apply log _ _ _ h .frame _ hle rfl ?_ rfl ?_
  · intro rule offset
    cases rule with
    | comment => simp [Memo.Holds]
    | frame => simp only [Memo.Holds, Std.HashMap.mem_insert, beq_iff_eq, true_and]
  · intro rule hrule
    cases rule with
    | comment => exact Nat.le_refl _
    | frame => exact absurd rfl hrule

/-- The frame rule is applied for the first time at its place, and the comment rule farther on. -/
theorem frame (h : log.Orderly (bounds (c.offset + 1) c.offset)) :
    ∃ n m, (Log.frame log c).2.Orderly (bounds n m) ∧ ∀ v next,
      (Rules.plain.frame () c).1.result = some (v, next) → n ≤ next.offset ∧ m ≤ next.offset := by
  have hlookup := h.ahead_frames c.offset (Nat.le_refl _)
  cases hhead : frameHead c with
  | error notes =>
    refine ⟨c.offset + 1, c.offset + 1, ?_, ?_⟩
    · simp only [Log.frame, hlookup, Source.frame, hhead]
      exact h.keepFrame (Nat.le_refl _) none
    · intro v next hresult
      have hnext := (plain_frame_before hresult).offset
      exact ⟨hnext, hnext⟩
  | ok found =>
    obtain ⟨name, inside⟩ := found
    have hcomment := h.comment (c := inside) (frameHead_advances hhead).offset
    refine ⟨inside.offset + 1, c.offset + 1, ?_, ?_⟩
    · simp only [Log.frame, hlookup, Source.frame, hhead]
      exact hcomment.keepFrame (Nat.le_refl _) _
    · intro v next hresult
      exact ⟨(plain_frame_advances hhead hresult).offset, (plain_frame_before hresult).offset⟩

end Log.Orderly

theorem logged_comment_matches {log : Log} {c : Cursor} (h : log.Orderly (bounds c.offset c.offset)) :
    Matches c (Log.comment log c) (Memo.comment log.memo c)
      (fun n log memo => log.memo = memo ∧ log.Orderly (bounds n n))
      (fun log memo => log.memo = memo ∧ log.Orderly (bounds (c.offset + 1) c.offset)) := by
  obtain ⟨houtcome, hmemo⟩ := log_comment_memo log c
  obtain ⟨_, hnext⟩ := memo_comment_matches ⟨h.ahead_comments, h.ahead_frames⟩
  have horderly := h.comment (Nat.le_refl _)
  refine ⟨houtcome, ?_⟩
  rw [houtcome]
  cases hresult : (Memo.comment log.memo c).1.result with
  | some found =>
    obtain ⟨size, next⟩ := found
    simp only [hresult] at hnext
    have hbefore := hnext.1
    exact ⟨hbefore, hmemo, horderly.mono hbefore.offset hbefore.offset.le⟩
  | none => exact ⟨hmemo, horderly⟩

theorem logged_frame_matches {log : Log} {c : Cursor} (h : log.Orderly (bounds (c.offset + 1) c.offset)) :
    Matches c (Log.frame log c) (Memo.frame log.memo c)
      (fun n log memo => log.memo = memo ∧ log.Orderly (bounds n n))
      (fun log memo => log.memo = memo ∧ ∃ bound, log.Orderly bound) := by
  obtain ⟨houtcome, hmemo⟩ := log_frame_memo log c
  obtain ⟨hplain, hnext⟩ := memo_frame_matches ⟨h.ahead_comments, h.ahead_frames⟩
  obtain ⟨n, m, horderly, hbounds⟩ := h.frame
  refine ⟨houtcome, ?_⟩
  rw [houtcome]
  cases hresult : (Memo.frame log.memo c).1.result with
  | some found =>
    obtain ⟨v, next⟩ := found
    simp only [hresult] at hnext
    rw [hplain] at hresult
    obtain ⟨hn, hm⟩ := hbounds v next hresult
    exact ⟨hnext.1, hmemo, horderly.mono hn hm⟩
  | none => exact ⟨hmemo, _, horderly⟩

/-- Writing the applications down changes nothing, and keeps the log in order. -/
theorem lockstep_logged : Lockstep .logged .memoized
    (fun n log memo => log.memo = memo ∧ log.Orderly (bounds n n))
    (fun n log memo => log.memo = memo ∧ log.Orderly (bounds (n + 1) n))
    (fun log memo => log.memo = memo ∧ ∃ bound, log.Orderly bound) where
  comment := by
    rintro c log _ ⟨rfl, horderly⟩
    exact logged_comment_matches horderly
  frame := by
    rintro c log _ ⟨rfl, horderly⟩
    exact logged_frame_matches horderly
  last_of_head := fun h => ⟨h.1, _, h.2⟩
  last_of_missed := fun h => ⟨h.1, _, h.2⟩

/-! ### A whole parse -/

theorem Log.Orderly.nodup {log : Log} {bound : RuleName → Nat} (h : log.Orderly bound) :
    (log.applied.map fun a => (a.rule, a.offset)).Nodup := by
  refine List.pairwise_map.2 (h.ascends.imp fun {a b} hlt hsame => ?_)
  obtain ⟨hrule, hoffset⟩ := Prod.mk.inj hsame
  exact absurd hoffset.symm (hlt hrule).ne

section Run

variable (source : Bytes)

theorem run_orderly (n : Nat) :
    items .memoized n {} {} (Cursor.start source) =
        ((run source n).1, (run source n).2.1, (run source n).2.2.memo) ∧
      ∃ bound, (run source n).2.2.Orderly bound := by
  obtain ⟨hprogress, hcursor, hmemo, horderly⟩ :=
    @Lockstep.items_eq _ _ .logged .memoized _ _ _ (Cursor.start source) ({} : Log) ({} : Memo) lockstep_logged
      ⟨rfl, orderly_empty _⟩ n {}
  exact ⟨Prod.ext hprogress.symm (Prod.ext hcursor.symm hmemo.symm), horderly⟩

theorem run_moves (n : Nat) :
    (run source n).2.1.offset < (run source (n + 1)).2.1.offset ∨
      ∀ m, n < m → run source m = run source (n + 1) := by
  have hmoves := @Lockstep.moves _ _ .logged .memoized _ _ _ (Cursor.start source) ({} : Log) ({} : Memo)
    lockstep_logged ⟨rfl, orderly_empty _⟩ n {}
  exact hmoves.imp_left Cursor.Before.offset

theorem run_enough {n : Nat} (hn : source.length < n) : run source n = run source (source.length + 1) := by
  induction n, hn using Nat.le_induction with
  | base => rfl
  | succ n hn ih =>
    have hsame := @Lockstep.enough _ _ .logged .memoized _ _ _ (Cursor.start source) ({} : Log) ({} : Memo)
      lockstep_logged ⟨rfl, orderly_empty _⟩ n hn {}
    rw [← ih]
    exact hsame

end Run

/-- A rule is applied at most once at a place, so that no result is ever found in the memo, and the memo holds
one for each application. A round moves on or is the last, and the parse ends by itself. Without a memo the
answer is the same. -/
theorem parse_applies_once (source : Bytes) :
    (∀ n, items .memoized n {} {} (Cursor.start source) =
        ((run source n).1, (run source n).2.1, (run source n).2.2.memo)) ∧
      (∀ rule offset, (parseWith .memoized {} source).2.Holds rule offset ↔
        ⟨rule, offset, false⟩ ∈ trace source) ∧
      (∀ a ∈ trace source, a.found = false) ∧
      ((trace source).map fun a => (a.rule, a.offset)).Nodup ∧
      (∀ n, (run source n).2.1.offset < (run source (n + 1)).2.1.offset ∨
        ∀ m, n < m → run source m = run source (n + 1)) ∧
      (∀ n, source.length < n → run source n = run source (source.length + 1)) ∧
      parse source = (parseWith .plain () source).1 := by
  obtain ⟨hrun, bound, horderly⟩ := run_orderly source (source.length + 1)
  refine ⟨fun n => (run_orderly source n).1, ?_, ?_, ?_, run_moves source, fun _ => run_enough source,
    parse_eq_plain source⟩
  · intro rule offset
    have hmemo : (parseWith .memoized {} source).2 = (run source (source.length + 1)).2.2.memo := by
      rw [parseWith, hrun]
    rw [hmemo, horderly.holds, trace, List.mem_reverse]
  · intro a ha
    exact horderly.fresh a (List.mem_reverse.1 ha)
  · rw [trace, List.map_reverse, List.nodup_reverse]
    exact horderly.nodup

end Petscii.Source

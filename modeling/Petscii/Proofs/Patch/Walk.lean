import Mathlib.Data.List.Nodup
import Petscii.Proofs.Patch.Transitions

/-!
# The walk through a reel

The transitions of a reel are two walks in a row: around all of its frames, and with ping-pong back from the last
to the first. Neither walk takes a step twice. A step of one is a step of the other only where the reel has two
frames, since then the way back to the first frame is also the step that closes the loop.
-/

namespace Petscii.Patch

/-! ### The two parts of the walk -/

/-- The steps around a reel, the first of which closes the loop. -/
def roundSteps (n : Nat) : List Transition :=
  (List.range n).map fun i => ⟨if i = 0 then n - 1 else i - 1, i⟩

def backSteps (n : Nat) : List Transition :=
  (List.range (n - 1)).reverse.map fun i => ⟨i + 1, i⟩

theorem transitions_eq (n : Nat) (pingPong : Bool) :
    transitions n pingPong = roundSteps n ++ if pingPong then backSteps n else [] :=
  rfl

theorem mem_roundSteps {n : Nat} {t : Transition} :
    t ∈ roundSteps n ↔ t.next < n ∧ t.prev = if t.next = 0 then n - 1 else t.next - 1 := by
  rw [roundSteps, List.mem_map]
  constructor
  · intro ⟨i, hi, heq⟩
    subst heq
    exact ⟨List.mem_range.1 hi, rfl⟩
  · intro ⟨hlt, hprev⟩
    refine ⟨t.next, List.mem_range.2 hlt, ?_⟩
    rw [← hprev]

theorem mem_backSteps {n : Nat} {t : Transition} :
    t ∈ backSteps n ↔ t.next + 1 < n ∧ t.prev = t.next + 1 := by
  rw [backSteps, List.mem_map]
  constructor
  · intro ⟨i, hi, heq⟩
    subst heq
    have hlt := List.mem_range.1 (List.mem_reverse.1 hi)
    exact ⟨Nat.add_lt_of_lt_sub hlt, rfl⟩
  · intro ⟨hlt, hprev⟩
    refine ⟨t.next, List.mem_reverse.2 (List.mem_range.2 (by omega)), ?_⟩
    rw [← hprev]

theorem nodup_roundSteps (n : Nat) : (roundSteps n).Nodup :=
  List.nodup_range.map fun _ _ heq => congrArg Transition.next heq

theorem nodup_backSteps (n : Nat) : (backSteps n).Nodup :=
  (List.nodup_reverse.2 List.nodup_range).map fun _ _ heq => congrArg Transition.next heq

/-- Only from the second of two frames does the way back take the step that closes the loop. -/
theorem mem_roundSteps_backSteps {n : Nat} {t : Transition} :
    t ∈ roundSteps n ∧ t ∈ backSteps n ↔ n = 2 ∧ t = ⟨1, 0⟩ := by
  rw [mem_roundSteps, mem_backSteps]
  constructor
  · intro ⟨⟨_, hround⟩, hlt, hback⟩
    have hclosing : t.next = 0 := by
      by_contra hne
      rw [if_neg hne] at hround
      omega
    rw [if_pos hclosing] at hround
    refine ⟨by omega, ?_⟩
    show Transition.mk t.prev t.next = ⟨1, 0⟩
    rw [hback, hclosing]
  · intro ⟨hn, ht⟩
    subst hn ht
    decide

theorem count_transitions (n : Nat) (pingPong : Bool) (t : Transition) :
    (transitions n pingPong).count t =
      (if t ∈ roundSteps n then 1 else 0) + if pingPong = true ∧ t ∈ backSteps n then 1 else 0 := by
  rw [transitions_eq, List.count_append, (nodup_roundSteps n).count]
  cases pingPong with
  | false => simp
  | true => simp [(nodup_backSteps n).count]

/-! ### Ways, step by step -/

section Way

variable {i k : Nat} {ts : List Transition}

theorem Way.head_prev (h : Way i ts k) (hne : ts ≠ []) : ts.head?.map Transition.prev = some i := by
  cases h with
  | nil => exact absurd rfl hne
  | cons h => rfl

theorem Way.isChain (h : Way i ts k) : ts.IsChain fun t t' => t.next = t'.prev := by
  induction h with
  | nil => exact .nil
  | cons h ih =>
    cases h with
    | nil => exact .singleton _
    | cons h => exact List.isChain_cons_cons.2 ⟨rfl, ih⟩

theorem Way.last_next (h : Way i ts k) (hne : ts ≠ []) : ts.getLast?.map Transition.next = some k := by
  induction h with
  | nil => exact absurd rfl hne
  | cons h ih =>
    cases h with
    | nil => rfl
    | cons h =>
      rw [List.getLast?_cons_cons]
      exact ih (List.cons_ne_nil _ _)

end Way

/-! ### The whole walk -/

/-- A walk over the steps of a reel of `n` frames: around it, and with ping-pong back again. -/
structure Walk (n : Nat) (pingPong : Bool) (ts : List Transition) : Prop where
  within : ∀ t ∈ ts, t.prev < n ∧ t.next < n
  start : ts.head?.map Transition.prev = some (n - 1)
  /-- Every step begins where the one before it ends. -/
  linked : ts.IsChain fun t t' => t.next = t'.prev
  stop : ts.getLast?.map Transition.next = some (if pingPong then 0 else n - 1)
  /-- The steps of the walk are those to the next frame, the one from the last frame to the first and, with
  ping-pong, those to the frame before. -/
  covers : ∀ t, t ∈ ts ↔
    (∃ i, 1 ≤ i ∧ i < n ∧ t = ⟨i - 1, i⟩) ∨ t = ⟨n - 1, 0⟩ ∨
      pingPong = true ∧ ∃ i, 1 ≤ i ∧ i < n ∧ t = ⟨i, i - 1⟩
  /-- No step is taken twice but one: back and forth between two frames leads to the first one twice. -/
  count : ∀ t ∈ ts, ts.count t = if n = 2 ∧ pingPong = true ∧ t = ⟨1, 0⟩ then 2 else 1

theorem mem_roundSteps_iff {n : Nat} (hn : 1 ≤ n) {t : Transition} :
    t ∈ roundSteps n ↔ (∃ i, 1 ≤ i ∧ i < n ∧ t = ⟨i - 1, i⟩) ∨ t = ⟨n - 1, 0⟩ := by
  rw [mem_roundSteps]
  constructor
  · intro ⟨hlt, hprev⟩
    by_cases hfirst : t.next = 0
    · rw [if_pos hfirst] at hprev
      right
      rw [← hprev, ← hfirst]
    · rw [if_neg hfirst] at hprev
      left
      refine ⟨t.next, by omega, hlt, ?_⟩
      rw [← hprev]
  · intro h
    obtain ⟨i, hpos, hlt, ht⟩ | ht := h
    · subst ht
      exact ⟨hlt, (if_neg (Nat.ne_of_gt hpos)).symm⟩
    · subst ht
      exact ⟨hn, rfl⟩

theorem mem_backSteps_iff {n : Nat} {t : Transition} :
    t ∈ backSteps n ↔ ∃ i, 1 ≤ i ∧ i < n ∧ t = ⟨i, i - 1⟩ := by
  rw [mem_backSteps]
  constructor
  · intro ⟨hlt, hprev⟩
    refine ⟨t.next + 1, by omega, hlt, ?_⟩
    rw [Nat.add_sub_cancel, ← hprev]
  · intro ⟨i, hpos, hlt, ht⟩
    subst ht
    dsimp only
    omega

/-- The transitions of a reel are a walk over all of its steps. -/
theorem transitions_walk {n : Nat} (hn : 1 ≤ n) (pingPong : Bool) : Walk n pingPong (transitions n pingPong) := by
  have hmem : ∀ t, t ∈ transitions n pingPong ↔ t ∈ roundSteps n ∨ pingPong = true ∧ t ∈ backSteps n := by
    intro t
    rw [transitions_eq, List.mem_append]
    cases pingPong <;> simp
  have hne : transitions n pingPong ≠ [] :=
    List.ne_nil_of_mem ((hmem ⟨n - 1, 0⟩).2 (.inl (mem_roundSteps.2 ⟨hn, rfl⟩)))
  have hway := transitions_way (n - 1) pingPong
  rw [Nat.sub_add_cancel hn] at hway
  constructor
  case within => exact fun t ht => mem_transitions ht
  case start => exact hway.head_prev hne
  case linked => exact hway.isChain
  case stop => exact hway.last_next hne
  case covers =>
    intro t
    rw [hmem, mem_roundSteps_iff hn, mem_backSteps_iff, or_assoc]
  case count =>
    intro t ht
    have htwice := @mem_roundSteps_backSteps n t
    rw [count_transitions]
    rw [hmem] at ht
    by_cases hround : t ∈ roundSteps n
    · by_cases hback : pingPong = true ∧ t ∈ backSteps n
      · obtain ⟨hn, heq⟩ := htwice.1 ⟨hround, hback.2⟩
        rw [if_pos hround, if_pos hback, if_pos ⟨hn, hback.1, heq⟩]
      · have honce : ¬ (n = 2 ∧ pingPong = true ∧ t = ⟨1, 0⟩) :=
          fun h => hback ⟨h.2.1, (htwice.2 ⟨h.1, h.2.2⟩).2⟩
        rw [if_pos hround, if_neg hback, if_neg honce]
    · have hback := ht.resolve_left hround
      have honce : ¬ (n = 2 ∧ pingPong = true ∧ t = ⟨1, 0⟩) :=
        fun h => hround (htwice.2 ⟨h.1, h.2.2⟩).1
      rw [if_neg hround, if_pos hback, if_neg honce]

theorem transitions_walk_two :
    1 ≤ 2 ∧ transitions 2 true = [⟨1, 0⟩, ⟨0, 1⟩, ⟨1, 0⟩] ∧ Walk 2 true [⟨1, 0⟩, ⟨0, 1⟩, ⟨1, 0⟩] :=
  ⟨by decide, rfl, transitions_walk (by decide) true⟩

end Petscii.Patch

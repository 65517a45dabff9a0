import Petscii.Run

/-!
# Runs of changed cells

The spans of a plane, found by a walk from the left, are those that its values make one by one from the right.
They cover exactly its changed cells, whole or cut into pieces, and the runs of both planes are those spans. A
schedule takes every run in turn; its loops walk the hull of a run and at most one rider that starts or ends
with it, so a loop is no longer than its longest run.
-/

namespace Petscii

namespace Span

def Covers (spans : List Span) (j : Int) : Prop :=
  ∃ s ∈ spans, s.first ≤ j ∧ j ≤ s.last

@[simp] theorem not_covers_nil (j : Int) : ¬ Covers [] j := by
  simp [Covers]

@[simp] theorem covers_cons (s : Span) (spans : List Span) (j : Int) :
    Covers (s :: spans) j ↔ s.first ≤ j ∧ j ≤ s.last ∨ Covers spans j := by
  simp [Covers]

theorem covers_append (a b : List Span) (j : Int) : Covers (a ++ b) j ↔ Covers a j ∨ Covers b j := by
  simp only [Covers, List.mem_append, or_and_right, exists_or]

/-! ### Maximal spans -/

/-- The spans of a list that starts at position `i`, value by value: one that is not zero joins the span behind
it or makes one of its own. -/
def changedFrom (i : Int) : List Cell → List Span
  | [] => []
  | c :: rest =>
    let later := changedFrom (i + 1) rest
    if c = 0 then later
    else match later with
      | [] => [⟨i, i⟩]
      | s :: more => if s.first = i + 1 then ⟨i, s.last⟩ :: more else ⟨i, i⟩ :: s :: more

theorem changedFrom_bounds (values : List Cell) (i : Int) :
    ∀ s ∈ changedFrom i values, i ≤ s.first ∧ s.first ≤ s.last ∧ s.last < i + values.length := by
  induction values generalizing i with
  | nil => simp [changedFrom]
  | cons c values ih =>
    have hlater := ih (i + 1)
    intro s hs
    rw [List.length_cons]
    rw [changedFrom] at hs
    split at hs
    · have := hlater s hs
      omega
    · split at hs
      · cases List.mem_singleton.1 hs
        simp only
        omega
      · next t more heq =>
        rw [heq] at hlater
        have ht := hlater t List.mem_cons_self
        split at hs
        · rcases List.mem_cons.1 hs with rfl | hs
          · simp only
            omega
          · have := hlater s (List.mem_cons_of_mem t hs)
            omega
        · rcases List.mem_cons.1 hs with rfl | hs
          · simp only
            omega
          · have := hlater s hs
            omega

/-- A changed value makes one span of its run, and the other spans are those behind it. -/
theorem changedFrom_run {c : Cell} (hc : c ≠ 0) (values : List Cell) (i : Int) :
    changedFrom i (c :: values) =
      ⟨i, i + runLength values⟩ :: changedFrom (i + 1 + runLength values) (values.drop (runLength values)) := by
  induction values generalizing c i with
  | nil => simp [changedFrom, hc, runLength]
  | cons d values ih =>
    by_cases hd : d = 0
    · -- the next span starts behind the zero, so that there is nothing to join
      have hbounds := changedFrom_bounds values (i + 1 + 1)
      simp only [runLength, if_pos hd, List.drop_zero, Int.natCast_zero, Int.add_zero]
      rw [changedFrom, if_neg hc]
      simp only [changedFrom, if_pos hd]
      cases hlater : changedFrom (i + 1 + 1) values with
      | nil => rfl
      | cons s more =>
        rw [hlater] at hbounds
        have hs := (hbounds s List.mem_cons_self).1
        simp only
        rw [if_neg (by omega)]
    · have hlater := ih hd (i + 1)
      rw [changedFrom, if_neg hc]
      simp only [hlater, if_true, runLength, if_neg hd, List.drop_succ_cons]
      congr 2
      · push_cast
        omega
      · push_cast
        omega

/-- The walk from the left makes the same spans. -/
theorem scan_eq_changedFrom (values : List Cell) (i : Int) (skip : Nat) :
    scan i skip values = changedFrom (i + skip) (values.drop skip) := by
  induction values generalizing i skip with
  | nil => simp [scan, changedFrom]
  | cons c values ih =>
    cases skip with
    | succ skip =>
      rw [scan, ih, List.drop_succ_cons]
      congr 1
      push_cast
      omega
    | zero =>
      rw [List.drop_zero, Int.natCast_zero, Int.add_zero]
      by_cases hc : c = 0
      · rw [scan, if_pos hc, ih, changedFrom]
        simp [hc]
      · rw [scan, if_neg hc, ih, changedFrom_run hc]

theorem changed_eq_changedFrom (values : List Cell) : changed values = changedFrom 0 values :=
  scan_eq_changedFrom values 0 0

theorem changed_bounds (values : List Cell) :
    ∀ s ∈ changed values, 0 ≤ s.first ∧ s.first ≤ s.last ∧ s.last < values.length := by
  intro s hs
  rw [changed_eq_changedFrom] at hs
  have hbounds := changedFrom_bounds values 0 s hs
  omega

/-- A changed cell joins the span behind it or starts one of its own. -/
theorem covers_changedFrom_cons {c : Cell} (hc : c ≠ 0) (values : List Cell) (i j : Int) :
    Covers (changedFrom i (c :: values)) j ↔ j = i ∨ Covers (changedFrom (i + 1) values) j := by
  have hbounds := changedFrom_bounds values (i + 1)
  rw [changedFrom, if_neg hc]
  split
  · next heq =>
    rw [heq, covers_cons]
    simp only [not_covers_nil, or_false]
    omega
  · next t more heq =>
    rw [heq] at hbounds ⊢
    have ht := hbounds t List.mem_cons_self
    split
    · next hjoin =>
      rw [covers_cons, covers_cons, ← or_assoc]
      apply or_congr _ Iff.rfl
      simp only
      omega
    · rw [covers_cons]
      apply or_congr _ Iff.rfl
      simp only
      omega

theorem covers_changedFrom (values : List Cell) (i j : Int) :
    Covers (changedFrom i values) j ↔ ∃ k : Nat, ∃ h : k < values.length, j = i + k ∧ values[k] ≠ 0 := by
  induction values generalizing i with
  | nil => simp [changedFrom]
  | cons c values ih =>
    have hsplit : (∃ k : Nat, ∃ h : k < (c :: values).length, j = i + k ∧ (c :: values)[k] ≠ 0) ↔
        j = i ∧ c ≠ 0 ∨ ∃ k : Nat, ∃ h : k < values.length, j = i + 1 + k ∧ values[k] ≠ 0 := by
      constructor
      · rintro ⟨k, hk, hj, hne⟩
        cases k with
        | zero => exact Or.inl ⟨by simpa using hj, hne⟩
        | succ k =>
          exact Or.inr ⟨k, by simpa using hk, by rw [hj]; push_cast; omega, by simpa using hne⟩
      · rintro (⟨hj, hne⟩ | ⟨k, hk, hj, hne⟩)
        · exact ⟨0, by simp, by simpa using hj, hne⟩
        · exact ⟨k + 1, by simpa using hk, by rw [hj]; push_cast; omega, by simpa using hne⟩
    rw [hsplit, ← ih]
    by_cases hc : c = 0
    · rw [changedFrom, if_pos hc]
      simp [hc]
    · rw [covers_changedFrom_cons hc]
      simp [hc]

/-- The maximal spans cover exactly the values that are not zero. -/
theorem covers_changed (values : List Cell) (j : Nat) :
    Covers (changed values) j ↔ ∃ h : j < values.length, values[j] ≠ 0 := by
  rw [changed_eq_changedFrom, covers_changedFrom]
  constructor
  · rintro ⟨k, hk, hj, hne⟩
    have hjk : j = k := by omega
    subst hjk
    exact ⟨hk, hne⟩
  · rintro ⟨hj, hne⟩
    exact ⟨j, hj, by omega, hne⟩

/-! ### Pieces -/

/-- A span of at most `limit` cells inside a list of `n`. -/
structure Small (s : Span) (limit n : Int) : Prop where
  low : 0 ≤ s.first
  nonempty : s.first ≤ s.last
  high : s.last < n
  short : s.last - s.first < limit

theorem Small.length_eq {s : Span} {limit n : Int} (h : s.Small limit n) (hn : n < 0x4000000000000000) :
    s.length = s.last - s.first + 1 := by
  have hlow := h.low
  have hnonempty := h.nonempty
  have hhigh := h.high
  exact wrap_eq_self (by omega) (by omega)

section Pieces

variable {limit last n : Int}

theorem pieces_small (hlimit : 0 < limit) (hlimit' : limit < 0x4000000000000000) (hlast : last < n)
    (hn : n < 0x4000000000000000) {rounds : Nat} {first : Int} (hfirst : 0 ≤ first) :
    ∀ s ∈ pieces limit last rounds first, s.Small limit n := by
  induction rounds generalizing first with
  | zero => simp [pieces]
  | succ rounds ih =>
    intro s hs
    rw [pieces] at hs
    split at hs
    · rw [wrap_eq_self (by omega) (by omega), wrap_eq_self (by omega) (by omega)] at hs
      rcases List.mem_cons.1 hs with rfl | hs
      · constructor <;> simp only <;> omega
      · exact ih (by omega) s hs
    · cases hs

theorem covers_pieces (hlimit : 0 < limit) (hlimit' : limit < 0x4000000000000000)
    (hlast : last < 0x4000000000000000) {rounds : Nat} {first : Int} (hfirst : 0 ≤ first)
    (hrounds : last - first < rounds) (j : Int) :
    Covers (pieces limit last rounds first) j ↔ first ≤ j ∧ j ≤ last := by
  induction rounds generalizing first with
  | zero =>
    rw [pieces]
    simp only [not_covers_nil, false_iff]
    omega
  | succ rounds ih =>
    rw [pieces]
    split
    · rw [wrap_eq_self (by omega) (by omega), wrap_eq_self (by omega) (by omega), covers_cons,
        ih (by omega) (by omega)]
      simp only
      omega
    · simp only [not_covers_nil, false_iff]
      omega

end Pieces

/-- Cutting spans into pieces leaves them small and covers the same cells. -/
theorem split_small {limit n : Int} (hlimit : 0 < limit) (hlimit' : limit < 0x4000000000000000)
    (hn : n < 0x4000000000000000) {spans : List Span} (hspans : ∀ s ∈ spans, 0 ≤ s.first ∧ s.last < n) :
    ∀ s ∈ split limit spans, s.Small limit n := by
  intro s hs
  obtain ⟨t, ht, hs⟩ := List.mem_flatMap.1 hs
  exact pieces_small hlimit hlimit' (hspans t ht).2 hn (hspans t ht).1 s hs

theorem covers_split {limit : Int} (hlimit : 0 < limit) (hlimit' : limit < 0x4000000000000000)
    {spans : List Span} (hspans : ∀ s ∈ spans, 0 ≤ s.first ∧ s.last < 0x4000000000000000) (j : Int) :
    Covers (split limit spans) j ↔ Covers spans j := by
  induction spans with
  | nil => simp [split]
  | cons s spans ih =>
    have hs := hspans s List.mem_cons_self
    have hrest := ih fun t ht => hspans t (List.mem_cons_of_mem s ht)
    rw [split, List.flatMap_cons, covers_append, covers_cons,
      covers_pieces hlimit hlimit' hs.2 hs.1 (by simp only [wordCount]; omega)]
    exact or_congr Iff.rfl hrest

end Span

namespace Run

/-- A run on one of the two planes with a cell at least. -/
structure Proper (r : Run) : Prop where
  plane : r.plane = .chars ∨ r.plane = .colors
  nonempty : r.span.first ≤ r.span.last

/-- A run on one of the two planes, within the screen. -/
structure OnScreen (r : Run) : Prop where
  plane : r.plane = .chars ∨ r.plane = .colors
  low : 0 ≤ r.span.first
  nonempty : r.span.first ≤ r.span.last
  high : r.span.last < Screen.cells

/-- A run on one of the two planes, within the screen and short enough for a loop. -/
structure Fits (r : Run) : Prop where
  plane : r.plane = .chars ∨ r.plane = .colors
  small : r.span.Small 255 Screen.cells

theorem OnScreen.proper {r : Run} (h : r.OnScreen) : r.Proper :=
  ⟨h.plane, h.nonempty⟩

theorem Fits.onScreen {r : Run} (h : r.Fits) : r.OnScreen :=
  ⟨h.plane, h.small.low, h.small.nonempty, h.small.high⟩

theorem OnScreen.length_eq {r : Run} (h : r.OnScreen) : r.span.length = r.span.last - r.span.first + 1 := by
  have hsmall : r.span.Small Screen.cells Screen.cells :=
    ⟨h.low, h.nonempty, h.high, by have := h.low; have := h.high; omega⟩
  exact hsmall.length_eq (by decide)

theorem OnScreen.fits {r : Run} (h : r.OnScreen) (hshort : r.span.length ≤ 255) : r.Fits := by
  rw [h.length_eq] at hshort
  exact ⟨h.plane, h.low, h.nonempty, h.high, by omega⟩

theorem mem_merge {chars colors : List Span} {r : Run} :
    r ∈ merge chars colors ↔ (∃ s ∈ chars, r = ⟨s, .chars⟩) ∨ ∃ s ∈ colors, r = ⟨s, .colors⟩ := by
  simp only [merge, List.mem_merge, List.mem_map, eq_comm]

/-! ### Riders -/

/-- A run may ride in another's loop: it is on another plane and starts or ends with it. -/
def Joins (anchor r : Run) : Prop :=
  r.plane ≠ anchor.plane ∧ (r.span.first = anchor.span.first ∨ r.span.last = anchor.span.last)

instance (anchor r : Run) : Decidable (anchor.Joins r) :=
  inferInstanceAs (Decidable (_ ∧ _))

theorem riders_le_length (anchor : Run) (planes : List Plane) (rest : List Run) :
    riders anchor planes rest ≤ rest.length := by
  induction rest generalizing planes with
  | nil => exact Nat.le_refl 0
  | cons r rest ih =>
    have hrest := ih (r.plane :: planes)
    rw [riders, List.length_cons]
    split <;> omega

theorem riders_of_both (anchor : Run) {planes : List Plane} {rest : List Run} (hchars : .chars ∈ planes)
    (hcolors : .colors ∈ planes) (hrest : ∀ r ∈ rest, r.plane = .chars ∨ r.plane = .colors) :
    riders anchor planes rest = 0 := by
  cases rest with
  | nil => rfl
  | cons r rest =>
    have htaken : r.plane ∈ planes := by
      obtain hr | hr := hrest r List.mem_cons_self
      · exact hr ▸ hchars
      · exact hr ▸ hcolors
    rw [riders, if_pos (Or.inl htaken)]

/-- With two planes only the run right behind can ride in a loop. -/
theorem riders_cons {anchor r : Run} {rest : List Run} (hanchor : anchor.plane = .chars ∨ anchor.plane = .colors)
    (hrest : ∀ q ∈ r :: rest, q.plane = .chars ∨ q.plane = .colors) :
    riders anchor [anchor.plane] (r :: rest) = if anchor.Joins r then 1 else 0 := by
  obtain ⟨hr, hrest⟩ := List.forall_mem_cons.1 hrest
  by_cases hjoins : anchor.Joins r
  · obtain ⟨hplane, hshare⟩ := hjoins
    have hboth : .chars ∈ [r.plane, anchor.plane] ∧ .colors ∈ [r.plane, anchor.plane] := by
      obtain hr | hr := hr <;> obtain ha | ha := hanchor <;> simp_all
    have htakes : ¬ (r.plane ∈ [anchor.plane] ∨
        (r.span.first ≠ anchor.span.first ∧ r.span.last ≠ anchor.span.last)) := by
      rw [List.mem_singleton]
      exact fun h => h.elim hplane fun hapart => hshare.elim hapart.1 hapart.2
    rw [if_pos ⟨hplane, hshare⟩, riders, if_neg htakes, riders_of_both anchor hboth.1 hboth.2 hrest]
  · rw [if_neg hjoins, riders, if_pos]
    rw [List.mem_singleton]
    by_cases hplane : r.plane = anchor.plane
    · exact Or.inl hplane
    · exact Or.inr ⟨fun hfirst => hjoins ⟨hplane, Or.inl hfirst⟩, fun hlast => hjoins ⟨hplane, Or.inr hlast⟩⟩

/-- With two planes a loop has at most one rider, on the other plane, that starts or ends with it. -/
theorem take_riders (anchor : Run) {rest : List Run} (hanchor : anchor.plane = .chars ∨ anchor.plane = .colors)
    (hrest : ∀ r ∈ rest, r.plane = .chars ∨ r.plane = .colors) :
    rest.take (riders anchor [anchor.plane] rest) = [] ∨
      ∃ r, rest.take (riders anchor [anchor.plane] rest) = [r] ∧ r.plane ≠ anchor.plane ∧
        (r.span.first = anchor.span.first ∨ r.span.last = anchor.span.last) := by
  cases rest with
  | nil => exact Or.inl rfl
  | cons r rest =>
    rw [riders_cons hanchor hrest]
    split
    · next hjoins => exact Or.inr ⟨r, rfl, hjoins⟩
    · exact Or.inl rfl

/-! ### Schedules -/

/-- A schedule takes every run once, in order. -/
theorem flatMap_scheduleFrom (taken : Nat) (runs : List Run) :
    (scheduleFrom taken runs).flatMap Step.runs = runs.drop taken := by
  fun_induction scheduleFrom taken runs with
  | case1 taken => simp
  | case2 taken r rest ih => simpa using ih
  | case3 r rest hone ih => simpa [Step.runs] using ih
  | case4 r rest hone n ih => simp [Step.runs, ih]

theorem flatMap_schedule (runs : List Run) : (schedule runs).flatMap Step.runs = runs :=
  flatMap_scheduleFrom 0 runs

/-- A step stores a run of one cell, or loops over a run and the riders behind it. -/
theorem mem_scheduleFrom {taken : Nat} {runs : List Run} {step : Step} (h : step ∈ scheduleFrom taken runs) :
    (∃ r ∈ runs, step = .store r ∧ r.span.length = 1) ∨
      ∃ r rest, (r :: rest) <:+ runs ∧ step = .loop r (rest.take (riders r [r.plane] rest)) := by
  fun_induction scheduleFrom taken runs with
  | case1 taken => cases h
  | case2 taken r rest ih =>
    rcases ih h with ⟨q, hq, hstep⟩ | ⟨q, more, hsuffix, hstep⟩
    · exact Or.inl ⟨q, List.mem_cons_of_mem r hq, hstep⟩
    · exact Or.inr ⟨q, more, hsuffix.trans (List.suffix_cons r rest), hstep⟩
  | case3 r rest hone ih =>
    rcases List.mem_cons.1 h with rfl | h
    · exact Or.inl ⟨r, List.mem_cons_self, rfl, hone⟩
    · rcases ih h with ⟨q, hq, hstep⟩ | ⟨q, more, hsuffix, hstep⟩
      · exact Or.inl ⟨q, List.mem_cons_of_mem r hq, hstep⟩
      · exact Or.inr ⟨q, more, hsuffix.trans (List.suffix_cons r rest), hstep⟩
  | case4 r rest hone n ih =>
    rcases List.mem_cons.1 h with rfl | h
    · exact Or.inr ⟨r, rest, List.suffix_refl _, rfl⟩
    · rcases ih h with ⟨q, hq, hstep⟩ | ⟨q, more, hsuffix, hstep⟩
      · exact Or.inl ⟨q, List.mem_cons_of_mem r hq, hstep⟩
      · exact Or.inr ⟨q, more, hsuffix.trans (List.suffix_cons r rest), hstep⟩

/-- The hull of runs that start or end together is the longer of them. -/
theorem hull_eq_or {a b : Span} (ha : a.first ≤ a.last) (hb : b.first ≤ b.last)
    (h : b.first = a.first ∨ b.last = a.last) : a.hull b = a ∨ a.hull b = b := by
  obtain ⟨afirst, alast⟩ := a
  obtain ⟨bfirst, blast⟩ := b
  simp only [Span.hull, Span.mk.injEq] at *
  omega

/-- A step walks one of its own runs, and all of them lie inside. -/
theorem schedule_span_of_proper {runs : List Run} (hruns : ∀ r ∈ runs, r.Proper) {step : Step}
    (hstep : step ∈ schedule runs) :
    (∃ r ∈ step.runs, step.span = r.span) ∧
      ∀ r ∈ step.runs, step.span.first ≤ r.span.first ∧ r.span.last ≤ step.span.last := by
  rcases mem_scheduleFrom hstep with ⟨r, _, rfl, _⟩ | ⟨r, rest, hsuffix, rfl⟩
  · simp [Step.runs, Step.span]
  · have hr := hruns r (hsuffix.subset List.mem_cons_self)
    have hrest : ∀ q ∈ rest, q.Proper := fun q hq => hruns q (hsuffix.subset (List.mem_cons_of_mem r hq))
    rcases take_riders r hr.plane fun q hq => (hrest q hq).plane with hnone | ⟨q, hone, _, hshare⟩
    · simp [hnone, Step.runs, Step.span]
    · have hq := hrest q (List.mem_of_mem_take (hone ▸ List.mem_singleton_self q))
      have hhull := hull_eq_or hr.nonempty hq.nonempty hshare
      simp only [hone, Step.runs, Step.span, List.foldl_cons, List.foldl_nil, List.mem_cons,
        List.not_mem_nil, or_false, exists_eq_or_imp, exists_eq_left, forall_eq_or_imp, forall_eq]
      refine ⟨hhull, ?_⟩
      simp only [Span.hull]
      omega

theorem schedule_span {runs : List Run} (hruns : ∀ r ∈ runs, r.OnScreen) {step : Step}
    (hstep : step ∈ schedule runs) :
    (∃ r ∈ step.runs, step.span = r.span) ∧
      ∀ r ∈ step.runs, step.span.first ≤ r.span.first ∧ r.span.last ≤ step.span.last :=
  schedule_span_of_proper (fun r hr => (hruns r hr).proper) hstep

theorem mem_of_mem_schedule {runs : List Run} {step : Step} (hstep : step ∈ schedule runs) {r : Run}
    (hr : r ∈ step.runs) : r ∈ runs := by
  rw [← flatMap_schedule runs]
  exact List.mem_flatMap.2 ⟨step, hstep, hr⟩

theorem exists_step {runs : List Run} (hruns : ∀ r ∈ runs, r.OnScreen) {r : Run} (hr : r ∈ runs) :
    ∃ step ∈ schedule runs, r ∈ step.runs ∧
      step.span.first ≤ r.span.first ∧ r.span.last ≤ step.span.last := by
  rw [← flatMap_schedule runs, List.mem_flatMap] at hr
  obtain ⟨step, hstep, hr⟩ := hr
  exact ⟨step, hstep, hr, (schedule_span hruns hstep).2 r hr⟩

/-- A step walks `count` cells from `first` on. -/
structure Step.Walks (step : Step) (first count : Nat) : Prop where
  span : step.span = ⟨first, (first : Int) + count - 1⟩
  pos : 0 < count
  short : count ≤ 255
  inside : first + count ≤ Screen.cells

/-- A step that is not too long stays within the screen and fits the index register. -/
theorem walks_of_short {runs : List Run} (hruns : ∀ r ∈ runs, r.OnScreen) {step : Step}
    (hstep : step ∈ schedule runs) (hshort : step.span.length ≤ 255) :
    ∃ first count, step.Walks first count ∧ ∀ r, step = .store r → count = 1 := by
  obtain ⟨⟨r, hr, hspan⟩, _⟩ := schedule_span hruns hstep
  have honscreen := hruns r (mem_of_mem_schedule hstep hr)
  have hlow := honscreen.low
  have hnonempty := honscreen.nonempty
  have hhigh := honscreen.high
  rw [hspan, honscreen.length_eq] at hshort
  refine ⟨r.span.first.toNat, (r.span.last - r.span.first + 1).toNat, ⟨?_, ?_, ?_, ?_⟩, ?_⟩
  · rw [hspan]
    change (⟨r.span.first, r.span.last⟩ : Span) = _
    rw [Span.mk.injEq]
    omega
  · omega
  · omega
  · omega
  · rintro q rfl
    rcases mem_scheduleFrom hstep with ⟨q', _, hq', hone⟩ | ⟨q', rest, _, hq'⟩
    · cases hq'
      cases List.mem_singleton.1 hr
      rw [honscreen.length_eq] at hone
      omega
    · cases hq'

theorem schedule_walks {runs : List Run} (hruns : ∀ r ∈ runs, r.Fits) {step : Step}
    (hstep : step ∈ schedule runs) :
    ∃ first count, step.Walks first count ∧ ∀ r, step = .store r → count = 1 := by
  have honscreen : ∀ r ∈ runs, r.OnScreen := fun r hr => (hruns r hr).onScreen
  obtain ⟨⟨r, hr, hspan⟩, _⟩ := schedule_span honscreen hstep
  have hmem := mem_of_mem_schedule hstep hr
  have hshort := (hruns r hmem).small.short
  refine walks_of_short honscreen hstep ?_
  rw [hspan, (honscreen r hmem).length_eq]
  omega

/-- A schedule has a step that is too long exactly if there is a run that is. -/
theorem exists_long_step_iff {runs : List Run} (hruns : ∀ r ∈ runs, r.OnScreen) (limit : Int) :
    (∃ step ∈ schedule runs, limit < step.span.length) ↔ ∃ r ∈ runs, limit < r.span.length := by
  constructor
  · rintro ⟨step, hstep, hlong⟩
    obtain ⟨⟨r, hr, hspan⟩, _⟩ := schedule_span hruns hstep
    exact ⟨r, mem_of_mem_schedule hstep hr, hspan ▸ hlong⟩
  · rintro ⟨r, hr, hlong⟩
    obtain ⟨step, hstep, _, hfirst, hlast⟩ := exists_step hruns hr
    obtain ⟨⟨q, hq, hspan⟩, _⟩ := schedule_span hruns hstep
    refine ⟨step, hstep, ?_⟩
    rw [hspan] at hfirst hlast ⊢
    rw [(hruns q (mem_of_mem_schedule hstep hq)).length_eq]
    rw [(hruns r hr).length_eq] at hlong
    omega

end Run

end Petscii

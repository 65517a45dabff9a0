import Petscii.Proofs.Program.Runs

/-!
# Runs in order

Merging two planes loses nothing and adds nothing: the spans of each plane are found again among the runs, in
their own order, and there is only one such list in which the runs ascend with characters before colours. The
walk over a list of runs goes on by one run behind a store and by one or two behind a loop, never past the
end, so that its steps take every run once and in order.
-/

namespace Petscii.Run

/-! ### Merging two planes -/

def Ascending (spans : List Span) : Prop :=
  spans.Pairwise fun s t => s.first ≤ t.first

instance (spans : List Span) : Decidable (Ascending spans) :=
  inferInstanceAs (Decidable (List.Pairwise _ _))

/-- A run comes before another: it starts earlier, or with it and not as colours before characters. -/
def Precedes (a b : Run) : Prop :=
  a.span.first < b.span.first ∨ a.span.first = b.span.first ∧ (a.plane = .chars ∨ b.plane = .colors)

def spansOn (p : Plane) (runs : List Run) : List Span :=
  (runs.filter fun r => r.plane = p).map Run.span

/-- Runs that are the spans of two planes, each in their own order, with every run before those that it
precedes. -/
structure Interleaves (chars colors : List Span) (runs : List Run) : Prop where
  ordered : runs.Pairwise Precedes
  planes : ∀ r ∈ runs, r.plane = .chars ∨ r.plane = .colors
  chars : spansOn .chars runs = chars
  colors : spansOn .colors runs = colors

section Merge

variable {s : Span} {chars colors : List Span} {runs : List Run}

theorem precedes_of_chars (s t : Span) (p : Plane) : Precedes ⟨s, .chars⟩ ⟨t, p⟩ ↔ s.first ≤ t.first := by
  simp only [Precedes, true_or, and_true]
  omega

theorem precedes_colors (s t : Span) : Precedes ⟨s, .colors⟩ ⟨t, .colors⟩ ↔ s.first ≤ t.first := by
  simp only [Precedes, or_true, and_true]
  omega

theorem precedes_colors_chars (s t : Span) : Precedes ⟨s, .colors⟩ ⟨t, .chars⟩ ↔ s.first < t.first := by
  simp [Precedes]

theorem spansOn_cons (p : Plane) (r : Run) (runs : List Run) :
    spansOn p (r :: runs) = spansOn p [r] ++ spansOn p runs := by
  rw [spansOn, spansOn, spansOn, ← List.map_append, ← List.filter_append, List.singleton_append]

theorem mem_spansOn {p : Plane} : s ∈ spansOn p runs ↔ ⟨s, p⟩ ∈ runs := by
  simp only [spansOn, List.mem_map, List.mem_filter, decide_eq_true_eq]
  constructor
  · intro ⟨r, ⟨hr, hplane⟩, hspan⟩
    subst hplane hspan
    exact hr
  · intro h
    exact ⟨⟨s, p⟩, ⟨h, rfl⟩, rfl⟩

theorem Interleaves.forall_iff (h : Interleaves chars colors runs) {P : Run → Prop} :
    (∀ r ∈ runs, P r) ↔ (∀ t ∈ chars, P ⟨t, .chars⟩) ∧ ∀ t ∈ colors, P ⟨t, .colors⟩ := by
  simp only [← h.chars, ← h.colors, mem_spansOn]
  constructor
  · intro hall
    exact ⟨fun t ht => hall _ ht, fun t ht => hall _ ht⟩
  · intro ⟨hchars, hcolors⟩ r hr
    obtain ⟨span, plane⟩ := r
    obtain hplane | hplane := h.planes _ hr
    · cases hplane
      exact hchars span hr
    · cases hplane
      exact hcolors span hr

/-- A run may stand in front if it precedes all the others. -/
theorem interleaves_cons {r : Run} (hplane : r.plane = .chars ∨ r.plane = .colors) :
    Interleaves (spansOn .chars [r] ++ chars) (spansOn .colors [r] ++ colors) (r :: runs) ↔
      (∀ t ∈ chars, Precedes r ⟨t, .chars⟩) ∧ (∀ t ∈ colors, Precedes r ⟨t, .colors⟩) ∧
        Interleaves chars colors runs := by
  constructor
  · intro ⟨hordered, hplanes, hchars, hcolors⟩
    obtain ⟨hfirst, hordered⟩ := List.pairwise_cons.1 hordered
    rw [spansOn_cons, List.append_cancel_left_eq] at hchars hcolors
    have hrest : Interleaves chars colors runs :=
      ⟨hordered, (List.forall_mem_cons.1 hplanes).2, hchars, hcolors⟩
    obtain ⟨hchar, hcolor⟩ := hrest.forall_iff.1 hfirst
    exact ⟨hchar, hcolor, hrest⟩
  · intro ⟨hchar, hcolor, hrest⟩
    refine ⟨List.pairwise_cons.2 ⟨hrest.forall_iff.2 ⟨hchar, hcolor⟩, hrest.ordered⟩,
      List.forall_mem_cons.2 ⟨hplane, hrest.planes⟩, ?_, ?_⟩
    · rw [spansOn_cons, hrest.chars]
    · rw [spansOn_cons, hrest.colors]

/-- A character run may stand in front of runs that do not start before it. -/
theorem interleaves_cons_chars :
    Interleaves (s :: chars) colors (⟨s, .chars⟩ :: runs) ↔
      (∀ t ∈ chars, s.first ≤ t.first) ∧ (∀ t ∈ colors, s.first ≤ t.first) ∧ Interleaves chars colors runs := by
  have hcons := @interleaves_cons chars colors runs ⟨s, .chars⟩ (Or.inl rfl)
  simp only [precedes_of_chars] at hcons
  exact hcons

/-- A colour run may stand in front of colour runs that do not start before it and of character runs that
start behind it. -/
theorem interleaves_cons_colors :
    Interleaves chars (s :: colors) (⟨s, .colors⟩ :: runs) ↔
      (∀ t ∈ chars, s.first < t.first) ∧ (∀ t ∈ colors, s.first ≤ t.first) ∧ Interleaves chars colors runs := by
  have hcons := @interleaves_cons chars colors runs ⟨s, .colors⟩ (Or.inr rfl)
  simp only [precedes_colors, precedes_colors_chars] at hcons
  exact hcons

theorem merge_cons_chars (h : ∀ t ∈ colors, s.first ≤ t.first) :
    merge (s :: chars) colors = ⟨s, .chars⟩ :: merge chars colors := by
  cases colors with
  | nil => simp [merge]
  | cons t colors =>
    have hle := h t List.mem_cons_self
    simp [merge, hle]

theorem merge_cons_colors (h : ∀ t ∈ chars, s.first < t.first) :
    merge chars (s :: colors) = ⟨s, .colors⟩ :: merge chars colors := by
  cases chars with
  | nil => simp [merge]
  | cons t chars =>
    have hlt := h t List.mem_cons_self
    simp [merge, hlt]

theorem interleaves_merge (hchars : Ascending chars) (hcolors : Ascending colors) :
    Interleaves chars colors (merge chars colors) := by
  induction chars generalizing colors with
  | nil =>
    induction colors with
    | nil => exact ⟨by simp [merge], by simp [merge], by simp [merge, spansOn], by simp [merge, spansOn]⟩
    | cons t colors ih =>
      obtain ⟨hfirst, hcolors⟩ := List.pairwise_cons.1 hcolors
      rw [merge_cons_colors (by simp)]
      exact interleaves_cons_colors.2 ⟨by simp, hfirst, ih hcolors⟩
  | cons s chars ih =>
    obtain ⟨hfirst, hchars'⟩ := List.pairwise_cons.1 hchars
    induction colors with
    | nil =>
      rw [merge_cons_chars (by simp)]
      exact interleaves_cons_chars.2 ⟨hfirst, by simp, ih hchars' hcolors⟩
    | cons t colors ih' =>
      obtain ⟨hfirst', hcolors'⟩ := List.pairwise_cons.1 hcolors
      by_cases hle : s.first ≤ t.first
      · -- all colour runs start with the first of them or behind it
        have hcolor : ∀ u ∈ t :: colors, s.first ≤ u.first :=
          List.forall_mem_cons.2 ⟨hle, fun u hu => Int.le_trans hle (hfirst' u hu)⟩
        rw [merge_cons_chars hcolor]
        exact interleaves_cons_chars.2 ⟨hfirst, hcolor, ih hchars' hcolors⟩
      · have hlt := Int.not_le.1 hle
        have hchar : ∀ u ∈ s :: chars, t.first < u.first :=
          List.forall_mem_cons.2 ⟨hlt, fun u hu => Int.lt_of_lt_of_le hlt (hfirst u hu)⟩
        rw [merge_cons_colors hchar]
        exact interleaves_cons_colors.2 ⟨hchar, hfirst', ih' hcolors'⟩

theorem Interleaves.eq_merge (h : Interleaves chars colors runs) : runs = merge chars colors := by
  induction runs generalizing chars colors with
  | nil =>
    obtain ⟨_, _, rfl, rfl⟩ := h
    simp [merge, spansOn]
  | cons r runs ih =>
    obtain ⟨span, plane⟩ := r
    obtain hplane | hplane := h.planes _ List.mem_cons_self
    · cases hplane
      obtain rfl : span :: spansOn .chars runs = chars := h.chars
      obtain ⟨_, hcolor, hrest⟩ := interleaves_cons_chars.1 h
      rw [merge_cons_chars hcolor, ← ih hrest]
    · cases hplane
      obtain rfl : span :: spansOn .colors runs = colors := h.colors
      obtain ⟨hchar, _, hrest⟩ := interleaves_cons_colors.1 h
      rw [merge_cons_colors hchar, ← ih hrest]

end Merge

/-! ### The walk over a list of runs -/

/-- How far the walk goes on from the run at `i`, if that is not a single cell: by one run, or by two if the
next one rides along. -/
structure Shares (runs : List Run) (i n : Nat) : Prop where
  one_or_two : n = 1 ∨ n = 2
  inside : i + n ≤ runs.length
  two_iff : n = 2 ↔ ∃ anchor rider, runs[i]? = some anchor ∧ runs[i + 1]? = some rider ∧ anchor.Joins rider

/-- The steps of a walk from the run at `i` to the end of the list. A run of one cell is stored; any other one
opens a loop, with those behind it that share the loop. -/
inductive Visits (runs : List Run) : Nat → List Step → Prop
  | done : Visits runs runs.length []
  | store {i : Nat} {r : Run} {steps : List Step} (hr : runs[i]? = some r) (hone : r.span.length = 1)
      (rest : Visits runs (i + 1) steps) : Visits runs i (.store r :: steps)
  | loop {i : Nat} {r : Run} {steps : List Step} (hr : runs[i]? = some r) (hmore : r.span.length ≠ 1)
      (rest : Visits runs (i + shared (runs.drop i)) steps) :
      Visits runs i (.loop r ((runs.drop (i + 1)).take (shared (runs.drop i) - 1)) :: steps)

section Walk

variable {runs : List Run} {i : Nat}

theorem shared_drop (hi : i < runs.length) :
    shared (runs.drop i) = riders runs[i] [runs[i].plane] (runs.drop (i + 1)) + 1 := by
  rw [List.drop_eq_getElem_cons hi, shared]

theorem shares_shared (hruns : ∀ r ∈ runs, r.plane = .chars ∨ r.plane = .colors) (hi : i < runs.length) :
    Shares runs i (shared (runs.drop i)) := by
  have hanchor := hruns _ (List.getElem_mem hi)
  rw [shared_drop hi]
  by_cases hnext : i + 1 < runs.length
  · have hrest : ∀ q ∈ runs.drop (i + 1), q.plane = .chars ∨ q.plane = .colors :=
      fun q hq => hruns q (List.mem_of_mem_drop hq)
    rw [List.drop_eq_getElem_cons hnext] at hrest ⊢
    rw [riders_cons hanchor hrest]
    constructor
    · split <;> simp
    · split <;> omega
    · simp [List.getElem?_eq_getElem hi, List.getElem?_eq_getElem hnext]
  · have hlast : runs.drop (i + 1) = [] := List.drop_eq_nil_of_le (by omega)
    have hnone : runs[i + 1]? = none := List.getElem?_eq_none (by omega)
    rw [hlast, riders]
    exact ⟨Or.inl rfl, by omega, by simp [hnone]⟩

/-- Runs that ride in an earlier loop are passed over. -/
theorem scheduleFrom_eq_drop (taken : Nat) (runs : List Run) :
    scheduleFrom taken runs = scheduleFrom 0 (runs.drop taken) := by
  induction runs generalizing taken with
  | nil => simp [scheduleFrom]
  | cons r runs ih =>
    cases taken with
    | zero => rfl
    | succ taken =>
      rw [scheduleFrom, List.drop_succ_cons]
      exact ih taken

theorem schedule_drop (hi : i < runs.length) :
    schedule (runs.drop i) =
      if runs[i].span.length = 1 then .store runs[i] :: schedule (runs.drop (i + 1))
      else .loop runs[i] ((runs.drop (i + 1)).take (shared (runs.drop i) - 1)) ::
        schedule (runs.drop (i + shared (runs.drop i))) := by
  rw [shared_drop hi, schedule, List.drop_eq_getElem_cons hi, scheduleFrom]
  simp only [scheduleFrom_eq_drop (riders _ _ _), List.drop_drop, Nat.add_sub_cancel]
  have hnext : i + 1 + riders runs[i] [runs[i].plane] (runs.drop (i + 1)) =
      i + (riders runs[i] [runs[i].plane] (runs.drop (i + 1)) + 1) := by omega
  rw [hnext]
  rfl

theorem shared_inside (hi : i < runs.length) : i + shared (runs.drop i) ≤ runs.length := by
  have hle := riders_le_length runs[i] [runs[i].plane] (runs.drop (i + 1))
  rw [List.length_drop] at hle
  rw [shared_drop hi]
  omega

theorem visits_schedule {i : Nat} (hi : i ≤ runs.length) : Visits runs i (schedule (runs.drop i)) := by
  by_cases hend : i < runs.length
  · have hr : runs[i]? = some runs[i] := List.getElem?_eq_getElem hend
    rw [schedule_drop hend]
    split
    · next hone => exact .store hr hone (visits_schedule hend)
    · next hmore =>
      have hinside := shared_inside hend
      -- a loop takes its own run at least, so the walk comes closer to the end
      have hpos : 0 < shared (runs.drop i) := by
        rw [shared_drop hend]
        omega
      exact .loop hr hmore (visits_schedule hinside)
  · have hi : i = runs.length := by omega
    subst hi
    rw [List.drop_length]
    exact .done
termination_by runs.length - i

theorem Visits.eq_schedule {steps : List Step} (h : Visits runs i steps) : steps = schedule (runs.drop i) := by
  induction h with
  | done =>
    rw [List.drop_length]
    rfl
  | store hr hone _ ih =>
    obtain ⟨hi, rfl⟩ := List.getElem?_eq_some_iff.1 hr
    rw [schedule_drop hi, if_pos hone, ih]
  | loop hr hmore _ ih =>
    obtain ⟨hi, rfl⟩ := List.getElem?_eq_some_iff.1 hr
    rw [schedule_drop hi, if_neg hmore, ih]

/-- The steps of a walk are those of the schedule. -/
theorem visits_iff {steps : List Step} : Visits runs 0 steps ↔ steps = schedule runs := by
  constructor
  · intro h
    exact h.eq_schedule
  · intro h
    rw [h]
    exact visits_schedule (Nat.zero_le _)

end Walk

/-- The runs of two planes are merged in the one way that keeps both in order, characters first. A loop takes
one run of two planes or two, and the walk over the runs takes each of them once, in order. -/
theorem merge_visits {chars colors : List Span} (hchars : Ascending chars) (hcolors : Ascending colors)
    {runs : List Run} (hruns : ∀ r ∈ runs, r.plane = .chars ∨ r.plane = .colors) :
    (∀ merged, Interleaves chars colors merged ↔ merged = merge chars colors) ∧
      (∀ i, i < runs.length → Shares runs i (shared (runs.drop i))) ∧
      (∀ steps, Visits runs 0 steps ↔ steps = schedule runs) ∧
      (schedule runs).flatMap Step.runs = runs := by
  refine ⟨fun merged => ⟨Interleaves.eq_merge, fun h => ?_⟩, fun i hi => shares_shared hruns hi,
    fun steps => visits_iff, flatMap_schedule runs⟩
  rw [h]
  exact interleaves_merge hchars hcolors

/-- Spans of characters, the first of them with colours that start on its first cell. -/
def dunes : List Span := [⟨0, 4⟩, ⟨10, 12⟩, ⟨15, 15⟩]

/-- Spans of colours, the second of them with characters that end on its last cell. -/
def shadows : List Span := [⟨0, 2⟩, ⟨8, 12⟩, ⟨20, 21⟩]

def desert : List Run :=
  [⟨⟨0, 4⟩, .chars⟩, ⟨⟨0, 2⟩, .colors⟩, ⟨⟨8, 12⟩, .colors⟩, ⟨⟨10, 12⟩, .chars⟩, ⟨⟨15, 15⟩, .chars⟩,
    ⟨⟨20, 21⟩, .colors⟩]

theorem merge_visits_dunes :
    Ascending dunes ∧ Ascending shadows ∧ (∀ r ∈ desert, r.plane = .chars ∨ r.plane = .colors) ∧
      Interleaves dunes shadows desert ∧ Shares desert 2 2 ∧ Shares desert 3 1 ∧
      Visits desert 0 [.loop ⟨⟨0, 4⟩, .chars⟩ [⟨⟨0, 2⟩, .colors⟩], .loop ⟨⟨8, 12⟩, .colors⟩ [⟨⟨10, 12⟩, .chars⟩],
        .store ⟨⟨15, 15⟩, .chars⟩, .loop ⟨⟨20, 21⟩, .colors⟩ []] := by
  have hchars : Ascending dunes := by decide
  have hcolors : Ascending shadows := by decide
  have hruns : ∀ r ∈ desert, r.plane = .chars ∨ r.plane = .colors := by decide
  have hmerged : desert = merge dunes shadows := by simp [merge, desert, dunes, shadows]
  obtain ⟨hmerge, hshares, hvisits, _⟩ := merge_visits hchars hcolors hruns
  exact ⟨hchars, hcolors, hruns, (hmerge _).2 hmerged, hshares 2 (by decide), hshares 3 (by decide),
    (hvisits _).2 (by decide)⟩

end Petscii.Run

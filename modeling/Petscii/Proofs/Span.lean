import Mathlib.Data.List.Forall2
import Petscii.Proofs.Program.Runs

/-!
# Maximal spans and their pieces

The changed spans of a list are the only spans that cover its changed values and nothing else with a cell
between each and the next. Cut into pieces they cover the same values, each in as many pieces as the limit
asks for, unless the walk over a span ends beyond the last position: there it wraps around and goes on from
a place before the list.
-/

namespace Petscii.Span

/-! ### Maximal spans -/

/-- A value other than zero stands at a position. -/
def ChangedAt (values : List Cell) (j : Int) : Prop :=
  ∃ k : Nat, ∃ h : k < values.length, j = k ∧ values[k] ≠ 0

/-- The maximal spans of a list: in ascending order with a cell between neighbours, within the list, and
over exactly the changed values, so that none can be extended. -/
structure Maximal (values : List Cell) (spans : List Span) : Prop where
  gaps : spans.Pairwise fun s t => s.last + 1 < t.first
  inside : ∀ s ∈ spans, 0 ≤ s.first ∧ s.first ≤ s.last ∧ s.last < values.length
  covers : ∀ j, Covers spans j ↔ ChangedAt values j
  whole : ∀ s ∈ spans, ¬ ChangedAt values (s.first - 1) ∧ ¬ ChangedAt values (s.last + 1)

/-- Spans of a cell at least, in ascending order and with a cell between neighbours. -/
structure Parted (spans : List Span) : Prop where
  nonempty : ∀ s ∈ spans, s.first ≤ s.last
  gaps : spans.Pairwise fun s t => s.last + 1 < t.first

theorem Maximal.parted {values : List Cell} {spans : List Span} (h : Maximal values spans) : Parted spans where
  nonempty s hs := (h.inside s hs).2.1
  gaps := h.gaps

section Parted

variable {s : Span} {spans : List Span}

theorem parted_cons :
    Parted (s :: spans) ↔ s.first ≤ s.last ∧ (∀ t ∈ spans, s.last + 1 < t.first) ∧ Parted spans := by
  constructor
  · rintro ⟨hnonempty, hgaps⟩
    obtain ⟨hs, hrest⟩ := List.forall_mem_cons.1 hnonempty
    obtain ⟨hgap, hgaps⟩ := List.pairwise_cons.1 hgaps
    exact ⟨hs, hgap, hrest, hgaps⟩
  · rintro ⟨hs, hgap, hrest, hgaps⟩
    exact ⟨List.forall_mem_cons.2 ⟨hs, hrest⟩, List.pairwise_cons.2 ⟨hgap, hgaps⟩⟩

/-- What the later spans cover lies behind the first one and the cell next to it. -/
theorem Parted.covers_tail (h : Parted (s :: spans)) (j : Int) :
    Covers spans j ↔ Covers (s :: spans) j ∧ s.last + 1 < j := by
  obtain ⟨_, hgap, _⟩ := parted_cons.1 h
  rw [covers_cons]
  constructor
  · rintro ⟨t, ht, hlow, hhigh⟩
    have hlt := hgap t ht
    exact ⟨Or.inr ⟨t, ht, hlow, hhigh⟩, by omega⟩
  · rintro ⟨hhere | hlater, hlt⟩
    · omega
    · exact hlater

theorem Parted.first_le (h : Parted (s :: spans)) {j : Int} (hj : Covers (s :: spans) j) : s.first ≤ j := by
  obtain ⟨hs, _, _⟩ := parted_cons.1 h
  rcases (covers_cons s spans j).1 hj with hhere | hlater
  · exact hhere.1
  · have hlt := ((h.covers_tail j).1 hlater).2
    omega

/-- A stretch of covered cells that starts in the first span or next to it ends in it. -/
theorem Parted.last_le (h : Parted (s :: spans)) {t : Span} (hfirst : t.first ≤ s.last + 1)
    (ht : ∀ j, t.first ≤ j → j ≤ t.last → Covers (s :: spans) j) : t.last ≤ s.last := by
  by_contra hlast
  have hnext := ht (s.last + 1) hfirst (by omega)
  rcases (covers_cons s spans _).1 hnext with hhere | hlater
  · omega
  · exact absurd ((h.covers_tail _).1 hlater).2 (Int.lt_irrefl _)

theorem covers_head {j : Int} (hfirst : s.first ≤ j) (hlast : j ≤ s.last) : Covers (s :: spans) j :=
  (covers_cons s spans j).2 (Or.inl ⟨hfirst, hlast⟩)

end Parted

/-- Parted spans are known by the cells they cover. -/
theorem eq_of_covers {spans spans' : List Span} (h : Parted spans) (h' : Parted spans')
    (hcovers : ∀ j, Covers spans j ↔ Covers spans' j) : spans = spans' := by
  induction spans generalizing spans' with
  | nil =>
    cases spans' with
    | nil => rfl
    | cons t spans' =>
      obtain ⟨ht, _⟩ := parted_cons.1 h'
      exact absurd ((hcovers t.first).2 (covers_head (Int.le_refl _) ht)) (not_covers_nil _)
  | cons s spans ih =>
    obtain ⟨hs, _, htail⟩ := parted_cons.1 h
    cases spans' with
    | nil => exact absurd ((hcovers s.first).1 (covers_head (Int.le_refl _) hs)) (not_covers_nil _)
    | cons t spans' =>
      obtain ⟨ht, _, htail'⟩ := parted_cons.1 h'
      have hfirst : s.first = t.first := Int.le_antisymm
        (h.first_le ((hcovers _).2 (covers_head (Int.le_refl _) ht)))
        (h'.first_le ((hcovers _).1 (covers_head (Int.le_refl _) hs)))
      have hlast : s.last = t.last := Int.le_antisymm
        (h'.last_le (by omega) fun j hlow hhigh => (hcovers j).1 (covers_head hlow hhigh))
        (h.last_le (by omega) fun j hlow hhigh => (hcovers j).2 (covers_head hlow hhigh))
      have hsame : s = t := by
        obtain ⟨first, last⟩ := s
        exact congrArg₂ Span.mk hfirst hlast
      have hrest : spans = spans' := by
        apply ih htail htail'
        intro j
        rw [h.covers_tail, h'.covers_tail, hcovers, hlast]
      rw [hsame, hrest]

theorem changedFrom_gaps (values : List Cell) (i : Int) :
    (changedFrom i values).Pairwise fun s t => s.last + 1 < t.first := by
  induction values generalizing i with
  | nil => exact List.Pairwise.nil
  | cons c values ih =>
    have hlater := ih (i + 1)
    have hbounds := changedFrom_bounds values (i + 1)
    rw [changedFrom]
    split
    · exact hlater
    · split
      · exact List.pairwise_singleton _ _
      · next s more heq =>
        rw [heq] at hlater hbounds
        obtain ⟨hgap, hmore⟩ := List.pairwise_cons.1 hlater
        split
        · exact List.pairwise_cons.2 ⟨hgap, hmore⟩
        · next hapart =>
          -- the span behind starts later than the next cell, and all others behind that one
          have hs := hbounds s List.mem_cons_self
          refine List.pairwise_cons.2 ⟨List.forall_mem_cons.2 ⟨?_, fun t ht => ?_⟩, hlater⟩
          · simp only
            omega
          · have ht := hgap t ht
            simp only
            omega

theorem changed_parted (values : List Cell) : Parted (changed values) where
  nonempty s hs := (changed_bounds values s hs).2.1
  gaps := by
    rw [changed_eq_changedFrom]
    exact changedFrom_gaps values 0

theorem covers_changed_iff (values : List Cell) (j : Int) : Covers (changed values) j ↔ ChangedAt values j := by
  rw [changed_eq_changedFrom, covers_changedFrom]
  simp only [Int.zero_add]
  rfl

/-- Of two different spans one lies before the other, with a cell between them. -/
theorem Parted.apart {spans : List Span} (h : Parted spans) :
    ∀ s ∈ spans, ∀ t ∈ spans, s = t ∨ s.last + 1 < t.first ∨ t.last + 1 < s.first := by
  induction spans with
  | nil => simp
  | cons u spans ih =>
    obtain ⟨_, hgap, hrest⟩ := parted_cons.1 h
    intro s hs t ht
    rcases List.mem_cons.1 hs with rfl | hs'
    · rcases List.mem_cons.1 ht with rfl | ht'
      · exact Or.inl rfl
      · exact Or.inr (Or.inl (hgap t ht'))
    · rcases List.mem_cons.1 ht with rfl | ht'
      · exact Or.inr (Or.inr (hgap s hs'))
      · exact ih hrest s hs' t ht'

theorem Parted.not_covers_beside {spans : List Span} (h : Parted spans) {s : Span} (hs : s ∈ spans) :
    ¬ Covers spans (s.first - 1) ∧ ¬ Covers spans (s.last + 1) := by
  have hle := h.nonempty s hs
  constructor
  · rintro ⟨t, ht, hlow, hhigh⟩
    have htle := h.nonempty t ht
    rcases h.apart s hs t ht with rfl | hbefore | hbehind <;> omega
  · rintro ⟨t, ht, hlow, hhigh⟩
    have htle := h.nonempty t ht
    rcases h.apart s hs t ht with rfl | hbefore | hbehind <;> omega

theorem changed_maximal (values : List Cell) : Maximal values (changed values) where
  gaps := (changed_parted values).gaps
  inside := changed_bounds values
  covers := covers_changed_iff values
  whole s hs := by
    rw [← covers_changed_iff, ← covers_changed_iff]
    exact (changed_parted values).not_covers_beside hs

theorem maximal_iff (values : List Cell) (spans : List Span) :
    Maximal values spans ↔ spans = changed values := by
  constructor
  · intro h
    apply eq_of_covers h.parted (changed_parted values)
    intro j
    rw [h.covers, covers_changed_iff]
  · rintro rfl
    exact changed_maximal values

/-! ### Pieces -/

/-- The number of cells, which is the length where that does not wrap around. -/
def cells (s : Span) : Int :=
  s.last - s.first + 1

/-- How many pieces of at most `limit` cells a span needs. -/
def pieceCount (limit : Int) (s : Span) : Int :=
  (s.cells + limit - 1) / limit

/-- Where a walk over a span in steps of `limit` cells ends. -/
def walkEnd (limit : Int) (s : Span) : Int :=
  s.first + s.pieceCount limit * limit

/-- A span cut into pieces: no more than it needs, all of them full but the last. -/
structure CutInto (limit : Int) (s : Span) (parts : List Span) : Prop where
  count : (parts.length : Int) = s.pieceCount limit
  full : ∀ t ∈ parts.dropLast, t.cells = limit
  sized : ∀ t ∈ parts, 1 ≤ t.cells ∧ t.cells ≤ limit
  ascending : parts.Pairwise fun t u => t.last < u.first
  covers : ∀ j, Covers parts j ↔ s.first ≤ j ∧ j ≤ s.last

/-- Spans cut into pieces: the pieces are in ascending order, cover what the spans cover and have at most
`limit` cells each, and those of each span are as many as it needs. -/
structure Cut (limit : Int) (spans parts : List Span) : Prop where
  ascending : parts.Pairwise fun t u => t.last < u.first
  covers : ∀ j, Covers parts j ↔ Covers spans j
  sized : ∀ t ∈ parts, 1 ≤ t.cells ∧ t.cells ≤ limit
  groups : ∃ groups, parts = groups.flatten ∧ List.Forall₂ (CutInto limit) spans groups

theorem wrap_lt (x : Int) : wrap x < 0x8000000000000000 := by
  have hlt := @Int.bmod_lt x wordCount (by decide)
  simp only [wrap, wordCount] at hlt ⊢
  omega

/-- The places beyond the last position are taken for the first ones. -/
theorem wrap_beyond {x : Int} (hlow : 0x8000000000000000 ≤ x) (hhigh : x < 0x10000000000000000) :
    wrap x = x - 0x10000000000000000 := by
  rw [wrap, Int.bmod_def]
  simp only [wordCount]
  omega

section Pieces

variable {limit first last : Int}

theorem pieceCount_short (hle : first ≤ last) (hshort : last < first + limit) :
    pieceCount limit ⟨first, last⟩ = 1 := by
  rw [pieceCount, cells, Int.ediv_eq_iff_of_pos (by omega)]
  simp only
  omega

theorem pieceCount_long (hlimit : 0 < limit) :
    pieceCount limit ⟨first, last⟩ = pieceCount limit ⟨first + limit, last⟩ + 1 := by
  have hsum : last - first + 1 + limit - 1 = (last - (first + limit) + 1 + limit - 1) + limit := by omega
  simp only [pieceCount, cells]
  rw [hsum, Int.add_ediv_of_dvd_right (Int.dvd_refl limit), Int.ediv_self (by omega)]

theorem walkEnd_short (hle : first ≤ last) (hshort : last < first + limit) :
    walkEnd limit ⟨first, last⟩ = first + limit := by
  rw [walkEnd, pieceCount_short hle hshort, Int.one_mul]

theorem walkEnd_long (hlimit : 0 < limit) :
    walkEnd limit ⟨first, last⟩ = walkEnd limit ⟨first + limit, last⟩ := by
  rw [walkEnd, walkEnd, pieceCount_long hlimit, Int.add_mul, Int.one_mul]
  simp only
  omega

theorem lt_walkEnd (hlimit : 0 < limit) (s : Span) : s.last < s.walkEnd limit := by
  have hlt := Int.lt_ediv_add_one_mul_self (s.last - s.first + 1 + limit - 1) hlimit
  rw [Int.add_mul, Int.one_mul] at hlt
  simp only [walkEnd, pieceCount, cells]
  omega

theorem CutInto.single (hle : first ≤ last) (hshort : last < first + limit) :
    CutInto limit ⟨first, last⟩ [⟨first, last⟩] where
  count := (pieceCount_short hle hshort).symm
  full := by simp
  sized := by
    simp only [List.mem_singleton, forall_eq, cells]
    omega
  ascending := List.pairwise_singleton _ _
  covers j := by simp

/-- A full piece in front of the pieces of what is left. -/
theorem CutInto.cons {parts : List Span} (hlimit : 0 < limit) (hlong : first + limit ≤ last)
    (h : CutInto limit ⟨first + limit, last⟩ parts) :
    CutInto limit ⟨first, last⟩ (⟨first, first + limit - 1⟩ :: parts) := by
  have hfull : cells ⟨first, first + limit - 1⟩ = limit := by
    simp only [cells]
    omega
  have hne : parts ≠ [] := by
    rintro rfl
    exact not_covers_nil _ ((h.covers last).2 ⟨hlong, Int.le_refl _⟩)
  have hbehind : ∀ t ∈ parts, first + limit ≤ t.first := by
    intro t ht
    have hsized := (h.sized t ht).1
    rw [cells] at hsized
    exact ((h.covers t.first).1 ⟨t, ht, Int.le_refl _, by omega⟩).1
  constructor
  case count =>
    rw [pieceCount_long hlimit, ← h.count, List.length_cons]
    rfl
  case full =>
    rw [List.dropLast_cons_of_ne_nil hne]
    exact List.forall_mem_cons.2 ⟨hfull, h.full⟩
  case sized =>
    refine List.forall_mem_cons.2 ⟨?_, h.sized⟩
    rw [hfull]
    omega
  case ascending =>
    refine List.pairwise_cons.2 ⟨fun t ht => ?_, h.ascending⟩
    have hlow := hbehind t ht
    simp only
    omega
  case covers =>
    intro j
    rw [covers_cons, h.covers]
    simp only
    omega

theorem pieces_of_lt (limit : Int) (rounds : Nat) (h : last < first) : pieces limit last rounds first = [] := by
  cases rounds with
  | zero => rfl
  | succ rounds => rw [pieces, if_neg (by omega)]

/-- With enough rounds, a walk that ends at a position cuts the span. -/
theorem pieces_cutInto (hlimit : 0 < limit) {rounds : Nat} (hfirst : 0 ≤ first) (hle : first ≤ last)
    (hend : walkEnd limit ⟨first, last⟩ < 0x8000000000000000) (hrounds : last - first < rounds) :
    CutInto limit ⟨first, last⟩ (pieces limit last rounds first) := by
  induction rounds generalizing first with
  | zero => omega
  | succ rounds ih =>
    rw [pieces, if_pos hle]
    by_cases hshort : last < first + limit
    · rw [walkEnd_short hle hshort] at hend
      rw [wrap_eq_self (by omega) (by omega), wrap_eq_self (by omega) (by omega),
        pieces_of_lt limit rounds hshort, Int.min_eq_right (by omega)]
      exact CutInto.single hle hshort
    · have hlong := Int.not_lt.1 hshort
      rw [walkEnd_long hlimit] at hend
      have hlt := lt_walkEnd hlimit ⟨first + limit, last⟩
      simp only at hlt
      rw [wrap_eq_self (by omega) (by omega), wrap_eq_self (by omega) (by omega),
        Int.min_eq_left (by omega)]
      exact (ih (by omega) hlong hend (by omega)).cons hlimit hlong

/-- A walk that ends beyond the last position comes to a place before the list, or begins with a piece
without cells. -/
theorem pieces_overflow (hlimit : 0 < limit) (hlimit' : limit < 0x8000000000000000) {rounds : Nat}
    (hfirst : 0 ≤ first) (hle : first ≤ last) (hend : 0x8000000000000000 ≤ walkEnd limit ⟨first, last⟩)
    (hrounds : 0x8000000000000000 < first + rounds) (hpos : 0 < rounds) :
    ∃ t ∈ pieces limit last rounds first, t.first < 0 ∨ t.cells < 1 := by
  induction rounds generalizing first with
  | zero => omega
  | succ rounds ih =>
    rw [pieces, if_pos hle]
    by_cases hhigh : first < 0x8000000000000000
    · by_cases hnext : first + limit < 0x8000000000000000
      · -- the next place is a position of the span, as the walk does not end there
        have hlong : first + limit ≤ last := by
          by_contra hshort
          rw [walkEnd_short hle (by omega)] at hend
          omega
        rw [walkEnd_long hlimit] at hend
        obtain ⟨t, ht, hbad⟩ := ih (by omega) hlong hend (by omega) (by omega)
        rw [wrap_eq_self (x := first + limit) (by omega) hnext]
        exact ⟨t, List.mem_cons_of_mem _ ht, hbad⟩
      · have hwrap := wrap_beyond (x := first + limit) (by omega) (by omega)
        obtain ⟨rounds, rfl⟩ : ∃ k, rounds = k + 1 := ⟨rounds - 1, by omega⟩
        rw [hwrap, pieces, if_pos (by omega)]
        exact ⟨_, List.mem_cons_of_mem _ List.mem_cons_self, Or.inl (by simp only; omega)⟩
    · have hlt := wrap_lt (first + limit - 1)
      refine ⟨_, List.mem_cons_self, Or.inr ?_⟩
      simp only [cells]
      omega

end Pieces

section Split

variable {limit : Int} {spans : List Span}

theorem CutInto.within {s : Span} {parts : List Span} (h : CutInto limit s parts) :
    ∀ t ∈ parts, s.first ≤ t.first ∧ t.last ≤ s.last := by
  intro t ht
  have hsized := (h.sized t ht).1
  rw [cells] at hsized
  exact ⟨((h.covers t.first).1 ⟨t, ht, Int.le_refl _, by omega⟩).1,
    ((h.covers t.last).1 ⟨t, ht, by omega, Int.le_refl _⟩).2⟩

theorem cut_flatMap {parts : Span → List Span} (hspans : Parted spans)
    (hparts : ∀ s ∈ spans, CutInto limit s (parts s)) : Cut limit spans (spans.flatMap parts) where
  ascending := by
    refine List.pairwise_flatMap.2 ⟨fun s hs => (hparts s hs).ascending, ?_⟩
    refine hspans.gaps.imp_of_mem fun {s t} hs ht hgap u hu v hv => ?_
    have hu := (hparts s hs).within u hu
    have hv := (hparts t ht).within v hv
    omega
  covers j := by
    simp only [Covers, List.mem_flatMap]
    constructor
    · rintro ⟨t, ⟨s, hs, ht⟩, hlow, hhigh⟩
      exact ⟨s, hs, ((hparts s hs).covers j).1 ⟨t, ht, hlow, hhigh⟩⟩
    · rintro ⟨s, hs, hinside⟩
      obtain ⟨t, ht, hcovers⟩ := ((hparts s hs).covers j).2 hinside
      exact ⟨t, ⟨s, hs, ht⟩, hcovers⟩
  sized t ht := by
    obtain ⟨s, hs, ht⟩ := List.mem_flatMap.1 ht
    exact (hparts s hs).sized t ht
  groups := by
    refine ⟨spans.map parts, List.flatMap_def, ?_⟩
    rw [List.forall₂_map_right_iff, List.forall₂_same]
    exact hparts

/-- Spans are cut into pieces exactly if no walk over one of them ends beyond the last position. -/
theorem split_cut_iff (hlimit : 1 ≤ limit) (hlimit' : limit < 0x8000000000000000) (hspans : Parted spans)
    (hfirst : ∀ s ∈ spans, 0 ≤ s.first) :
    Cut limit spans (split limit spans) ↔ ∀ s ∈ spans, s.walkEnd limit < 0x8000000000000000 := by
  constructor
  · intro hcut s hs
    by_contra hend
    have hlow := hfirst s hs
    have hrounds : (0x8000000000000000 : Int) < s.first + wordCount := by
      simp only [wordCount]
      omega
    obtain ⟨t, ht, hbad⟩ := pieces_overflow (by omega) hlimit' hlow (hspans.nonempty s hs) (Int.not_lt.1 hend)
      hrounds (by decide)
    have hmem : t ∈ split limit spans := List.mem_flatMap.2 ⟨s, hs, ht⟩
    have hsized := (hcut.sized t hmem).1
    rcases hbad with hneg | hempty
    · rw [cells] at hsized
      obtain ⟨u, hu, hlow, _⟩ := (hcut.covers t.first).1 ⟨t, hmem, Int.le_refl _, by omega⟩
      have := hfirst u hu
      omega
    · omega
  · intro hend
    refine cut_flatMap hspans fun s hs => ?_
    have hlow := hfirst s hs
    have hlt := lt_walkEnd (show 0 < limit by omega) s
    have hend := hend s hs
    exact pieces_cutInto (by omega) hlow (hspans.nonempty s hs) hend
      (by simp only [wordCount]; omega)

end Split

/-- The changed spans are the maximal ones and no others, and they are cut into pieces exactly if no walk
over one of them ends beyond the last position. -/
theorem changed_split_iff (values : List Cell) {limit : Int} (hlimit : 1 ≤ limit)
    (hlimit' : limit < 0x8000000000000000) :
    (∀ spans, Maximal values spans ↔ spans = changed values) ∧
      (Cut limit (changed values) (split limit (changed values)) ↔
        ∀ s ∈ changed values, s.walkEnd limit < 0x8000000000000000) :=
  ⟨maximal_iff values, split_cut_iff hlimit hlimit' (changed_parted values)
    fun s hs => ((changed_maximal values).inside s hs).1⟩

/-- A run from the first value on, twice as long as the limit below, and one of a single value at the end. -/
def ridge : List Cell := [3, 1, 4, 1, 0, 5]

theorem changed_split_iff_ridge :
    (1 : Int) ≤ 2 ∧ (2 : Int) < 0x8000000000000000 ∧ Maximal ridge [⟨0, 3⟩, ⟨5, 5⟩] ∧
      Cut 2 [⟨0, 3⟩, ⟨5, 5⟩] [⟨0, 1⟩, ⟨2, 3⟩, ⟨5, 5⟩] := by
  have hchanged : changed ridge = [⟨0, 3⟩, ⟨5, 5⟩] := by decide
  have hsplit : split 2 [⟨0, 3⟩, ⟨5, 5⟩] = [⟨0, 1⟩, ⟨2, 3⟩, ⟨5, 5⟩] := by decide +kernel
  obtain ⟨hmaximal, hcut⟩ := @changed_split_iff ridge 2 (by decide) (by decide)
  rw [hchanged, hsplit] at hcut
  exact ⟨by decide, by decide, (hmaximal _).2 hchanged.symm, hcut.2 (by decide)⟩

/-- One changed value, behind two others. -/
def spark : List Cell := [0, 0, 1]

/-- With the greatest limit the walk over the third value wraps around twice, and its pieces are wrong. -/
theorem split_spark_overflows :
    changed spark = [⟨2, 2⟩] ∧
      split 0x7fffffffffffffff (changed spark) =
        [⟨2, -0x8000000000000000⟩, ⟨-0x7fffffffffffffff, -1⟩, ⟨0, 2⟩] ∧
      ¬ Cut 0x7fffffffffffffff (changed spark) (split 0x7fffffffffffffff (changed spark)) := by
  have hchanged : changed spark = [⟨2, 2⟩] := by decide
  refine ⟨hchanged, by decide +kernel, ?_⟩
  rw [split_cut_iff (by decide) (by decide) (changed_parted spark) fun s hs =>
    ((changed_maximal spark).inside s hs).1, hchanged]
  decide

end Petscii.Span

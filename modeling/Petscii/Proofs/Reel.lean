import Petscii.Reel

/-!
# Pieces of a reel

Whatever is selected from a reel, in any number of steps and whether they succeed or not, a piece of it is
left: frames that stood together, in their old order and on the same canvas. A selection succeeds exactly if
its last frame is there and its first one does not come behind it. One that fails leaves the reel up to the
last frame asked for, because the tail is cut before the head is looked at.
-/

namespace Petscii.Reel

/-- `count` frames from number `start` on, on the same canvas. -/
def piece (start count : Nat) (r : Reel) : Reel :=
  { r with frames := (r.frames.drop start).take count }

section Piece

variable {r : Reel} {start count : Nat}

theorem length_piece (start count : Nat) (r : Reel) :
    (r.piece start count).frames.length = min count (r.frames.length - start) := by
  rw [piece, List.length_take, List.length_drop]

/-- The frames from the start on are all there are if they are not fewer than those of the reel. -/
theorem piece_zero (hcount : r.frames.length ≤ count) : r.piece 0 count = r := by
  rw [piece, List.drop_zero, List.take_of_length_le hcount]

theorem piece_piece (start count start' count' : Nat) (r : Reel) :
    (r.piece start count).piece start' count' = r.piece (start + start') (min count' (count - start')) := by
  simp only [piece, List.drop_take, List.drop_drop, List.take_take]

theorem mem_of_mem_piece {f : Frame} (hf : f ∈ (r.piece start count).frames) : f ∈ r.frames :=
  List.mem_of_mem_drop (List.mem_of_mem_take hf)

end Piece

/-! ### One selection -/

/-- The number of the last frame asked for: that of the reel's own if the bound is negative. -/
def lastAsked (last : Int) (r : Reel) : Int :=
  if last < 0 then r.frames.length - 1 else last

/-- The last frame asked for is there, and the first one is not behind it. -/
structure Admits (r : Reel) (first last : Int) : Prop where
  tail : last < 0 ∨ last < r.frames.length
  head : first < 0 ∨ first ≤ r.lastAsked last

instance (r : Reel) (first last : Int) : Decidable (r.Admits first last) :=
  decidable_of_iff ((last < 0 ∨ last < r.frames.length) ∧ (first < 0 ∨ first ≤ r.lastAsked last))
    ⟨fun h => ⟨h.1, h.2⟩, fun h => ⟨h.tail, h.head⟩⟩

def asked (first last : Int) (r : Reel) : Reel :=
  r.piece (max first 0).toNat (r.lastAsked last + 1 - max first 0).toNat

section Select

variable {r : Reel} {first last : Int}

theorem lastAsked_lt (h : last < 0 ∨ last < r.frames.length) : r.lastAsked last < r.frames.length := by
  rw [lastAsked]
  split <;> omega

theorem lastAsked_nonneg (last : Int) (hne : r.frames ≠ []) : 0 ≤ r.lastAsked last := by
  have hlength := List.length_pos_iff.2 hne
  rw [lastAsked]
  split <;> omega

theorem keepUpTo_eq_ok (h : last < 0 ∨ last < r.frames.length) :
    r.keepUpTo last = .ok (r.piece 0 (r.lastAsked last + 1).toNat) := by
  rw [keepUpTo, lastAsked]
  by_cases hlast : last < 0
  · rw [if_pos hlast, if_pos hlast, piece_zero (by omega)]
  · rw [if_neg hlast, if_neg hlast, if_neg (by omega), piece, List.drop_zero]
    have hcount : (last + 1).toNat = last.toNat + 1 := by omega
    rw [hcount]

theorem keepUpTo_eq_error (h : r.frames.length ≤ last) :
    r.keepUpTo last = .error ⟨.last, last, r.frames.length⟩ := by
  rw [keepUpTo, if_neg (by omega), if_pos h]

theorem keepFrom_eq_ok (h : first < 0 ∨ first < r.frames.length) :
    r.keepFrom first = .ok (r.piece (max first 0).toNat r.frames.length) := by
  rw [keepFrom]
  by_cases hfirst : first < 0
  · have hstart : (max first 0).toNat = 0 := by omega
    rw [if_pos hfirst, hstart, piece_zero (Nat.le_refl _)]
  · have hstart : (max first 0).toNat = first.toNat := by omega
    rw [if_neg hfirst, if_neg (by omega), piece, hstart,
      List.take_of_length_le (by rw [List.length_drop]; omega)]

theorem keepFrom_eq_error (h : r.frames.length ≤ first) :
    r.keepFrom first = .error ⟨.first, first, r.frames.length⟩ := by
  rw [keepFrom, if_neg (by omega), if_pos h]

theorem length_piece_lastAsked (h : last < 0 ∨ last < r.frames.length) :
    (r.piece 0 (r.lastAsked last + 1).toNat).frames.length = (r.lastAsked last + 1).toNat := by
  have hlt := lastAsked_lt h
  rw [length_piece]
  omega

theorem Admits.select_eq (h : r.Admits first last) : r.select first last = (r.asked first last, .ok ()) := by
  have hlength := length_piece_lastAsked h.tail
  have hhead : first < 0 ∨ first < (r.piece 0 (r.lastAsked last + 1).toNat).frames.length := by
    have hle := h.head
    omega
  simp only [select, keepUpTo_eq_ok h.tail, keepFrom_eq_ok hhead, asked, piece_piece, hlength]
  congr 2 <;> omega

theorem select_of_last (h : r.frames.length ≤ last) :
    r.select first last = (r, .error ⟨.last, last, r.frames.length⟩) := by
  simp only [select, keepUpTo_eq_error h]

/-- If only the first frame is not there, the tail is cut all the same. -/
theorem select_of_first (htail : last < 0 ∨ last < r.frames.length) (hfirst : 0 ≤ first)
    (hhead : r.lastAsked last < first) :
    r.select first last = (r.piece 0 (r.lastAsked last + 1).toNat,
      .error ⟨.first, first, (r.lastAsked last + 1).toNat⟩) := by
  have hlength := length_piece_lastAsked htail
  have hshort : (r.piece 0 (r.lastAsked last + 1).toNat).frames.length ≤ first := by omega
  simp only [select, keepUpTo_eq_ok htail, keepFrom_eq_error hshort, hlength]

/-- A selection keeps the frames asked for, or it fails and keeps those up to the last one asked for. -/
theorem select_cases (r : Reel) (first last : Int) :
    r.Admits first last ∧ r.select first last = (r.asked first last, .ok ()) ∨
      ∃ e, r.select first last = (r.piece 0 (r.lastAsked last + 1).toNat, .error e) ∧
        ¬ r.Admits first last ∧ (last < r.frames.length → r.lastAsked last < first) := by
  by_cases htail : last < 0 ∨ last < r.frames.length
  · by_cases hhead : first < 0 ∨ first ≤ r.lastAsked last
    · exact Or.inl ⟨⟨htail, hhead⟩, Admits.select_eq ⟨htail, hhead⟩⟩
    · exact Or.inr ⟨_, select_of_first htail (by omega) (by omega), fun h => hhead h.head, fun _ => by omega⟩
  · -- behind a last frame that is not there nothing is cut, so all frames up to it are all there are
    have hasked : r.lastAsked last = last := if_neg (by omega)
    refine Or.inr ⟨⟨.last, last, r.frames.length⟩, ?_, fun h => htail h.tail,
      fun hlast => absurd (Or.inr hlast) htail⟩
    rw [select_of_last (by omega), hasked, piece_zero (by omega)]

theorem select_eq_ok_iff : (r.select first last).2 = .ok () ↔ r.Admits first last := by
  obtain ⟨hadmits, hselect⟩ | ⟨e, hselect, hrefused, _⟩ := select_cases r first last
  · simp [hselect, hadmits]
  · simp [hselect, hrefused]

end Select

/-! ### Sequences of selections -/

/-- A piece of another reel, not an empty one unless that reel is empty. -/
def PieceOf (kept r : Reel) : Prop :=
  ∃ start count, start + count ≤ r.frames.length ∧ (r.frames ≠ [] → 0 < count) ∧ kept = r.piece start count

/-- The reels that a sequence of selections leaves one after the other, whatever their outcome. -/
def selections (r : Reel) : List (Int × Int) → List Reel
  | [] => []
  | (first, last) :: rest => (r.select first last).1 :: selections (r.select first last).1 rest

section PieceOf

variable {r kept : Reel}

theorem PieceOf.frames_ne_nil (h : kept.PieceOf r) (hne : r.frames ≠ []) : kept.frames ≠ [] := by
  obtain ⟨start, count, hinside, hpos, rfl⟩ := h
  have hcount := hpos hne
  apply List.ne_nil_of_length_pos
  rw [length_piece]
  omega

theorem PieceOf.trans {mid : Reel} (h : kept.PieceOf mid) (h' : mid.PieceOf r) : kept.PieceOf r := by
  have hne := h'.frames_ne_nil
  obtain ⟨start, count, hinside, hpos, rfl⟩ := h
  obtain ⟨start', count', hinside', _, rfl⟩ := h'
  rw [length_piece] at hinside
  refine ⟨start' + start, count, by omega, fun h => hpos (hne h), ?_⟩
  rw [piece_piece, Nat.min_eq_left (by omega)]

theorem pieceOf_piece {start count : Nat} (hstart : start ≤ r.frames.length)
    (hpos : r.frames ≠ [] → start < r.frames.length ∧ 0 < count) : (r.piece start count).PieceOf r := by
  refine ⟨start, min count (r.frames.length - start), by omega, fun hne => ?_, ?_⟩
  · have hpos := hpos hne
    omega
  · rw [piece, piece, ← List.length_drop, List.take_eq_take_min]

theorem select_pieceOf (r : Reel) (first last : Int) : ((r.select first last).1).PieceOf r := by
  obtain ⟨hadmits, hselect⟩ | ⟨e, hselect, _⟩ := select_cases r first last
  · have hlast := lastAsked_lt hadmits.tail
    have hhead := hadmits.head
    rw [hselect]
    apply pieceOf_piece
    · omega
    · intro hne
      have hnonneg := lastAsked_nonneg last hne
      omega
  · rw [hselect]
    apply pieceOf_piece (Nat.zero_le _)
    intro hne
    have hnonneg := lastAsked_nonneg last hne
    have hlength := List.length_pos_iff.2 hne
    omega

theorem selections_pieceOf (bounds : List (Int × Int)) (r : Reel) :
    ∀ kept ∈ r.selections bounds, kept.PieceOf r := by
  induction bounds generalizing r with
  | nil => simp [selections]
  | cons bound rest ih =>
    obtain ⟨first, last⟩ := bound
    have hstep := select_pieceOf r first last
    rw [selections]
    exact List.forall_mem_cons.2 ⟨hstep, fun kept hkept => (ih _ kept hkept).trans hstep⟩

end PieceOf

/-- After any number of selections a piece of the reel is left. A single one succeeds exactly if the reel
admits it, and then it keeps the frames asked for. -/
theorem selections_keep_piece (r : Reel) :
    (∀ bounds, ∀ kept ∈ r.selections bounds, kept.PieceOf r) ∧
      ∀ first last, ((r.select first last).2 = .ok () ↔ r.Admits first last) ∧
        (r.Admits first last → (r.select first last).1 = r.asked first last) := by
  refine ⟨fun bounds => selections_pieceOf bounds r, fun first last => ⟨select_eq_ok_iff, fun h => ?_⟩⟩
  rw [h.select_eq]

def vowels : Reel where
  frames := ["_a", "_e", "_i", "_o", "_u"].map fun name =>
    ⟨name, 0, 6, 40, 25, List.replicate 1000 32, List.replicate 1000 14⟩

/-- Frames 1 to 3, then crossing bounds, then bounds that are both negative, then a first frame far behind. -/
theorem selections_keep_piece_vowels :
    vowels.selections [(1, 3), (2, 1), (-1, -7), (9, 0)] =
        [vowels.piece 1 3, vowels.piece 1 2, vowels.piece 1 2, vowels.piece 1 1] ∧
      (vowels.piece 1 1).PieceOf vowels ∧ vowels.Admits 1 3 ∧ (vowels.select 1 3).2 = .ok () ∧
      (vowels.select 1 3).1 = vowels.asked 1 3 := by
  have hselections : vowels.selections [(1, 3), (2, 1), (-1, -7), (9, 0)] =
      [vowels.piece 1 3, vowels.piece 1 2, vowels.piece 1 2, vowels.piece 1 1] := rfl
  have hadmits : vowels.Admits 1 3 := by decide
  obtain ⟨hpieces, hsingle⟩ := selections_keep_piece vowels
  refine ⟨hselections, ?_, hadmits, (hsingle 1 3).1.2 hadmits, (hsingle 1 3).2 hadmits⟩
  apply hpieces [(1, 3), (2, 1), (-1, -7), (9, 0)]
  rw [hselections]
  simp

/-! ### Selections that fail -/

/-- Frames stand behind the last one asked for. -/
def Cuts (r : Reel) (last : Int) : Prop :=
  0 ≤ last ∧ last + 1 < r.frames.length

instance (r : Reel) (last : Int) : Decidable (r.Cuts last) :=
  inferInstanceAs (Decidable (_ ∧ _))

/-- The reel up to the last frame asked for is the whole reel unless the tail is cut. -/
theorem piece_lastAsked_eq_iff (r : Reel) (last : Int) :
    r.piece 0 (r.lastAsked last + 1).toNat = r ↔ ¬ r.Cuts last := by
  rw [lastAsked, Cuts]
  constructor
  · intro h hcuts
    have hlength := congrArg (fun r : Reel => r.frames.length) h
    simp only [length_piece, if_neg (show ¬ last < 0 by omega)] at hlength
    omega
  · intro h
    apply piece_zero
    split <;> omega

/-- A selection that fails leaves the reel as it was, unless there are frames behind the last one asked for.
Then these are cut, and nothing else is. -/
theorem select_error_cuts {r : Reel} {first last : Int} {e : RangeError}
    (h : (r.select first last).2 = .error e) :
    ((r.select first last).1 = r ↔ ¬ r.Cuts last) ∧
      (r.Cuts last → last < first ∧ (r.select first last).1 = r.piece 0 (last + 1).toNat) := by
  obtain ⟨_, hselect⟩ | ⟨e', hselect, _, hbehind⟩ := select_cases r first last
  · rw [hselect] at h
    cases h
  · rw [hselect]
    refine ⟨piece_lastAsked_eq_iff r last, fun hcuts => ?_⟩
    have hasked : r.lastAsked last = last := if_neg (Int.not_lt.2 hcuts.1)
    rw [hasked] at hbehind ⊢
    exact ⟨hbehind (by have := hcuts.2; omega), rfl⟩

/-- A first frame that is not there leaves all frames, and one behind the last cuts the tail. -/
theorem select_error_cuts_vowels :
    (vowels.select 5 (-1)).2 = .error ⟨.first, 5, 5⟩ ∧ (vowels.select 5 (-1)).1 = vowels ∧
      (vowels.select 4 2).2 = .error ⟨.first, 4, 3⟩ ∧ (vowels.select 4 2).1 = vowels.piece 0 3 := by
  have hbehind : (vowels.select 5 (-1)).2 = .error ⟨.first, 5, 5⟩ := rfl
  have hcrossed : (vowels.select 4 2).2 = .error ⟨.first, 4, 3⟩ := rfl
  exact ⟨hbehind, (select_error_cuts hbehind).1.2 (by decide), hcrossed,
    ((select_error_cuts hcrossed).2 (by decide)).2⟩

/-- The selection of frames 3 to 1 fails, and of five frames it leaves two. -/
theorem select_crossed_vowels :
    (vowels.select 3 1).2 = .error ⟨.first, 3, 2⟩ ∧ (vowels.select 3 1).1.frames = vowels.frames.take 2 ∧
      (vowels.select 3 1).1.frames ≠ vowels.frames := by
  refine ⟨rfl, rfl, fun h => ?_⟩
  have hlength : 2 = 5 := congrArg List.length h
  exact absurd hlength (by decide)

end Petscii.Reel

import Petscii.Proofs.Columns

/-!
# Changed columns of the screen

Two frames that fill the screen can always be compared. In a row without changed columns they have the same
characters; in any other row they differ in the first and in the last changed column and agree outside them.
-/

namespace Petscii.Frame

variable {f prev next : Frame} {r : Nat}

/-- What the changed columns of a row tell about two frames. -/
def RowChange (prev next : Frame) (r : Nat) : Option Columns → Prop
  | none => ∀ c, c < Screen.width →
      prev.cellAt .chars (r * Screen.width + c) = next.cellAt .chars (r * Screen.width + c)
  | some columns => columns.first ≤ columns.last ∧ columns.last < Screen.width ∧
      prev.cellAt .chars (r * Screen.width + columns.first) ≠
        next.cellAt .chars (r * Screen.width + columns.first) ∧
      prev.cellAt .chars (r * Screen.width + columns.last) ≠
        next.cellAt .chars (r * Screen.width + columns.last) ∧
      ∀ c, c < Screen.width → c < columns.first ∨ columns.last < c →
        prev.cellAt .chars (r * Screen.width + c) = next.cellAt .chars (r * Screen.width + c)

theorem Full.ample (hf : f.Full) : f.Ample where
  width := by
    rw [hf.width]
    decide
  height := by
    rw [hf.height]
    decide
  cells := by
    rw [hf.width, hf.height, hf.chars]
    decide
  positions := by
    rw [hf.chars]
    decide

theorem Tight.rowChange (hwidth : prev.width = Screen.width) {row : Option Columns}
    (h : Tight prev next r row) : RowChange prev next r row := by
  have hdiffers : ∀ c, prev.DiffersAt next r c ↔ c < Screen.width ∧
      prev.cellAt .chars (r * Screen.width + c) ≠ next.cellAt .chars (r * Screen.width + c) := by
    intro c
    rw [DiffersAt, hwidth, Int.toNat_natCast]
  cases row with
  | none =>
    intro c hc
    by_contra hne
    exact absurd (h.changed.2 ⟨c, (hdiffers c).2 ⟨hc, hne⟩⟩) (by decide)
  | some columns =>
    obtain ⟨hfirst, hbefore⟩ := h.first columns rfl
    obtain ⟨hlast, hbehind⟩ := h.last columns rfl
    obtain ⟨_, hne⟩ := (hdiffers _).1 hfirst
    obtain ⟨hinside, hne'⟩ := (hdiffers _).1 hlast
    refine ⟨hbefore hlast, hinside, hne, hne', fun c hc houtside => ?_⟩
    by_contra hdiffer
    have hmem := (hdiffers c).2 ⟨hc, hdiffer⟩
    have hlow := hbefore hmem
    have hhigh := hbehind hmem
    omega

theorem changedRows_eq (hprev : prev.Full) (hnext : next.Full) :
    ∃ rows, prev.changedRows next = .ok rows ∧ rows.length = Screen.height ∧
      ∀ r columns, rows[r]? = some columns → RowChange prev next r columns := by
  obtain ⟨rows, hrows, hlength, htight⟩ := changedRows_ok (by rw [hprev.width, hnext.width])
    (by rw [hprev.height, hnext.height]) hprev.ample hnext.ample
  rw [hprev.height] at hlength
  exact ⟨rows, hrows, Int.ofNat_inj.1 hlength, fun r columns hr => (htight r columns hr).rowChange hprev.width⟩

end Petscii.Frame

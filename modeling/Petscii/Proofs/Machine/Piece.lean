import Petscii.Machine

/-!
# Pieces of code

Generated code is put together from pieces, and a piece is understood on its own. `Performs` says that a
piece, wherever it stands in code whose labels are distinct, takes every state with one property to a state
with another and goes on behind itself. Pieces in a row compose, and a loop is a piece if its body is one.
The rest of the theory runs code only through these rules.
-/

namespace Petscii.Machine

open Asm

/-- Running `here` from `s` leads to running `there` from `t`. -/
def Reaches (code here : List Item) (s : State) (there : List Item) (t : State) : Prop :=
  ∃ n, ∀ m, run code (m + n) here s = run code m there t

theorem Reaches.refl (code here : List Item) (s : State) : Reaches code here s here s :=
  ⟨0, fun _ => rfl⟩

theorem Reaches.trans {code here there yonder : List Item} {s t u : State}
    (hfirst : Reaches code here s there t) (hsecond : Reaches code there t yonder u) :
    Reaches code here s yonder u := by
  obtain ⟨n, hn⟩ := hfirst
  obtain ⟨k, hk⟩ := hsecond
  refine ⟨k + n, fun m => ?_⟩
  rw [← Nat.add_assoc, hn, hk]

theorem reaches_label (code rest : List Item) (name : String) (s : State) :
    Reaches code (.label name :: rest) s rest s :=
  ⟨1, fun _ => rfl⟩

theorem reaches_onward {code rest : List Item} {i : Instruction UInt16} {s : State}
    (hflow : s.flow i = .onward) : Reaches code (.instruction i :: rest) s rest (s.step i) := by
  refine ⟨1, fun m => ?_⟩
  simp only [run, hflow]

theorem reaches_branch {code rest there : List Item} {i : Instruction UInt16} {s : State} {name : String}
    (hflow : s.flow i = .branch name) (hthere : behind name code = some there) :
    Reaches code (.instruction i :: rest) s there (s.step i) := by
  refine ⟨1, fun m => ?_⟩
  simp only [run, hflow, hthere]

def placed (code : List Item) : List String :=
  code.filterMap fun item =>
    match item with
    | .label name => some name
    | .instruction _ => none

@[simp] theorem placed_nil : placed [] = [] := rfl

@[simp] theorem placed_label (name : String) (rest : List Item) :
    placed (.label name :: rest) = name :: placed rest := rfl

@[simp] theorem placed_instruction (i : Instruction UInt16) (rest : List Item) :
    placed (.instruction i :: rest) = placed rest := rfl

@[simp] theorem placed_append (a b : List Item) : placed (a ++ b) = placed a ++ placed b :=
  List.filterMap_append

theorem behind_of_notMem {name : String} {before : List Item} (rest : List Item)
    (hnew : name ∉ placed before) : behind name (before ++ .label name :: rest) = some rest := by
  induction before with
  | nil => simp [behind]
  | cons item before ih =>
    cases item with
    | label other =>
      simp only [placed_label, List.mem_cons, not_or] at hnew
      rw [List.cons_append, behind, if_neg (Ne.symm hnew.1), ih hnew.2]
    | instruction i => rw [List.cons_append, behind, ih hnew]

/-- Where labels are distinct, a branch to one goes on behind it. -/
theorem behind_of_nodup {name : String} {before rest : List Item}
    (hdistinct : (placed (before ++ .label name :: rest)).Nodup) :
    behind name (before ++ .label name :: rest) = some rest := by
  apply behind_of_notMem
  rw [placed_append, placed_label, List.nodup_append] at hdistinct
  intro hmem
  exact hdistinct.2.2 name hmem name List.mem_cons_self rfl

/-- Code, run from its first line on, ends behind its last line. -/
def Ends (code : List Item) (s t : State) : Prop :=
  ∃ steps, run code steps code s = .ended t

/-- A piece of code, in any surroundings with distinct labels, takes each state with `P` to a state with
`Q` behind the piece. -/
def Performs (piece : List Item) (P Q : State → Prop) : Prop :=
  ∀ before after, (placed (before ++ piece ++ after)).Nodup → ∀ s, P s →
    ∃ t, Reaches (before ++ piece ++ after) (piece ++ after) s after t ∧ Q t

namespace Performs

variable {piece a b : List Item} {P P' Q Q' R : State → Prop}

theorem nil (h : ∀ s, P s → Q s) : Performs [] P Q := by
  intro before after _ s hs
  exact ⟨s, Reaches.refl _ _ _, h s hs⟩

theorem mono (h : Performs piece P Q) (hP : ∀ s, P' s → P s) (hQ : ∀ s, Q s → Q' s) :
    Performs piece P' Q' := by
  intro before after hdistinct s hs
  obtain ⟨t, hreach, ht⟩ := h before after hdistinct s (hP s hs)
  exact ⟨t, hreach, hQ t ht⟩

theorem append (ha : Performs a P Q) (hb : Performs b Q R) : Performs (a ++ b) P R := by
  intro before after hdistinct s hs
  have hleft : before ++ (a ++ b) ++ after = before ++ a ++ (b ++ after) := by
    simp only [List.append_assoc]
  have hright : before ++ a ++ (b ++ after) = before ++ a ++ b ++ after := by
    simp only [List.append_assoc]
  rw [hleft] at hdistinct ⊢
  obtain ⟨t, hfirst, ht⟩ := ha before (b ++ after) hdistinct s hs
  rw [hright] at hdistinct hfirst ⊢
  obtain ⟨u, hsecond, hu⟩ := hb (before ++ a) after hdistinct t ht
  rw [List.append_assoc a b after]
  exact ⟨u, hfirst.trans hsecond, hu⟩

theorem instruction {i : Instruction UInt16} (hflow : ∀ s : State, s.flow i = .onward)
    (h : ∀ s, P s → Q (s.step i)) : Performs [.instruction i] P Q := by
  intro before after _ s hs
  exact ⟨s.step i, reaches_onward (hflow s), h s hs⟩

/-- A loop closed by a branch. `I k` holds before a round when `k` rounds are left, and the branch is
taken as long as there are any. -/
theorem loop {body : List Item} {name : String} {i : Instruction UInt16} {I : Nat → State → Prop}
    (hbody : ∀ k, Performs body (I (k + 1)) fun t =>
      I k (t.step i) ∧ t.flow i = if k = 0 then .onward else .branch name)
    (n : Nat) : Performs (.label name :: body ++ [.instruction i]) (I (n + 1)) (I 0) := by
  intro before after hdistinct s hs
  have hshape : before ++ (.label name :: body ++ [.instruction i]) ++ after =
      before ++ .label name :: (body ++ .instruction i :: after) := by simp
  have hinner : before ++ .label name :: (body ++ .instruction i :: after) =
      before ++ [.label name] ++ body ++ (.instruction i :: after) := by simp
  have hhead : (.label name :: body ++ [.instruction i]) ++ after =
      .label name :: (body ++ .instruction i :: after) := by simp
  rw [hshape] at hdistinct ⊢
  rw [hhead]
  have hback := behind_of_nodup hdistinct
  have hround : ∀ k s, I (k + 1) s →
      ∃ t, Reaches (before ++ .label name :: (body ++ .instruction i :: after))
        (body ++ .instruction i :: after) s after t ∧ I 0 t := by
    intro k
    induction k with
    | zero =>
      intro s hs
      rw [hinner] at hdistinct
      obtain ⟨t, hreach, ht, hflow⟩ := hbody 0 _ _ hdistinct s hs
      rw [← hinner] at hreach
      exact ⟨t.step i, hreach.trans (reaches_onward hflow), ht⟩
    | succ k ih =>
      intro s hs
      have hdistinct' := hdistinct
      rw [hinner] at hdistinct'
      obtain ⟨t, hreach, ht, hflow⟩ := hbody (k + 1) _ _ hdistinct' s hs
      rw [← hinner] at hreach
      obtain ⟨u, hrest, hu⟩ := ih (t.step i) ht
      exact ⟨u, hreach.trans ((reaches_branch hflow hback).trans hrest), hu⟩
  obtain ⟨t, hreach, ht⟩ := hround n s hs
  exact ⟨t, (reaches_label _ _ _ _).trans hreach, ht⟩

theorem returns {name : String} {before after : List Item} (h : Performs piece P Q)
    (hdistinct : (placed (before ++ .label name :: (piece ++ .instruction .rts :: after))).Nodup)
    {s : State} (hs : P s) :
    ∃ t, Returns (before ++ .label name :: (piece ++ .instruction .rts :: after)) name s t ∧ Q t := by
  have hcall := behind_of_nodup hdistinct
  have hshape : before ++ .label name :: (piece ++ .instruction .rts :: after) =
      before ++ [.label name] ++ piece ++ (.instruction .rts :: after) := by simp
  rw [hshape] at hdistinct
  obtain ⟨t, ⟨n, hreach⟩, ht⟩ := h _ _ hdistinct s hs
  refine ⟨t, ⟨1 + n, ?_⟩, ht⟩
  rw [← hshape] at hreach
  rw [call, hcall]
  exact hreach 1

theorem ends (h : Performs piece P Q) (hdistinct : (placed piece).Nodup) {s : State} (hs : P s) :
    ∃ t, Ends piece s t ∧ Q t := by
  have hwhole : [] ++ piece ++ [] = piece := List.append_nil piece
  obtain ⟨t, ⟨n, hreach⟩, ht⟩ := h [] [] (by rw [hwhole]; exact hdistinct) s hs
  rw [hwhole, List.append_nil] at hreach
  exact ⟨t, ⟨1 + n, hreach 1⟩, ht⟩

end Performs

end Petscii.Machine

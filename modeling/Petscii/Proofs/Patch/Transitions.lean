import Petscii.Patch
import Petscii.Proofs.Patch.Rows

/-!
# The transitions of a patch script

The transitions of a reel lead from its last frame through all of its frames, and with ping-pong back to the
first one: each begins where the one before it ends. Frames that fill the screen can be compared along all of
them, so that a reel of such frames has a script.
-/

namespace Petscii.Patch

/-! ### The way through a reel -/

theorem mem_transitions {n : Nat} {pingPong : Bool} {t : Transition} (ht : t ∈ transitions n pingPong) :
    t.prev < n ∧ t.next < n := by
  rw [transitions, List.mem_append] at ht
  rcases ht with ht | ht
  · obtain ⟨i, hi, rfl⟩ := List.mem_map.1 ht
    rw [List.mem_range] at hi
    dsimp only
    split <;> omega
  · split at ht
    · obtain ⟨i, hi, rfl⟩ := List.mem_map.1 ht
      rw [List.mem_reverse, List.mem_range] at hi
      dsimp only
      omega
    · cases ht

/-- A way from frame to frame: the first transition begins at `i`, every other where the one before ends. -/
inductive Way : Nat → List Transition → Nat → Prop
  | nil (i : Nat) : Way i [] i
  | cons {i j k : Nat} {ts : List Transition} (h : Way j ts k) : Way i (⟨i, j⟩ :: ts) k

theorem Way.append {i j k : Nat} {ts us : List Transition} (h : Way i ts j) (h' : Way j us k) :
    Way i (ts ++ us) k := by
  induction h with
  | nil => exact h'
  | cons _ ih => exact .cons (ih h')

theorem way_up (i n : Nat) : Way i ((List.range' i n).map fun k => ⟨k, k + 1⟩) (i + n) := by
  induction n generalizing i with
  | zero => exact .nil i
  | succ n ih =>
    have hrest := ih (i + 1)
    rw [Nat.add_right_comm] at hrest
    rw [List.range'_succ, List.map_cons]
    exact .cons hrest

theorem way_down (n : Nat) : Way n ((List.range n).reverse.map fun k => ⟨k + 1, k⟩) 0 := by
  induction n with
  | zero => exact .nil 0
  | succ n ih =>
    rw [List.range_succ, List.reverse_append, List.reverse_singleton, List.singleton_append, List.map_cons]
    exact .cons ih

theorem way_around (n : Nat) :
    Way n ((List.range (n + 1)).map fun i => ⟨if i = 0 then n else i - 1, i⟩) n := by
  have hup := way_up 0 n
  rw [Nat.zero_add] at hup
  have hsteps : (List.range (n + 1)).map (fun i => (⟨if i = 0 then n else i - 1, i⟩ : Transition)) =
      ⟨n, 0⟩ :: (List.range' 0 n).map fun k => ⟨k, k + 1⟩ := by
    rw [List.range_succ_eq_map, List.map_cons, List.map_map, List.range_eq_range']
    rfl
  rw [hsteps]
  exact .cons hup

/-- The transitions of a reel are a way that begins at its last frame. -/
theorem transitions_way (n : Nat) (pingPong : Bool) :
    Way n (transitions (n + 1) pingPong) (if pingPong then 0 else n) := by
  rw [transitions, Nat.add_sub_cancel]
  cases pingPong with
  | false =>
    rw [if_neg Bool.false_ne_true, List.append_nil]
    exact way_around n
  | true => exact (way_around n).append (way_down n)

/-! ### Comparing along the way -/

structure Compares (frames : List Frame) (t : Transition) (c : Change) : Prop where
  transition : c.transition = t
  prev : frames[t.prev]? = some c.prev
  next : frames[t.next]? = some c.next
  rows : c.prev.changedRows c.next = .ok c.rows

theorem compare_eq {frames : List Frame} {t : Transition} {c : Change} (h : Compares frames t c) :
    compare frames t = .ok c := by
  obtain ⟨⟨⟩, hprev, hnext, hrows⟩ := h
  rw [compare, hprev, hnext]
  simp only [hrows]

theorem exists_compares {frames : List Frame} (hfull : ∀ f ∈ frames, f.Full) {t : Transition}
    (ht : t.prev < frames.length ∧ t.next < frames.length) : ∃ c, Compares frames t c := by
  obtain ⟨rows, hrows, _⟩ := Frame.changedRows_eq (hfull _ (List.getElem_mem ht.1))
    (hfull _ (List.getElem_mem ht.2))
  exact ⟨⟨t, _, _, rows⟩, rfl, List.getElem?_eq_getElem ht.1, List.getElem?_eq_getElem ht.2, hrows⟩

theorem script_eq (target : Target) (pingPong : Bool) {reel : Reel} (hne : reel.frames ≠ [])
    (hfull : ∀ f ∈ reel.frames, f.Full) :
    ∃ changes, script target pingPong reel = .ok (.ofChanges target reel changes) ∧
      List.Forall₂ (Compares reel.frames) (transitions reel.frames.length pingPong) changes := by
  obtain ⟨changes, hchanges, hall⟩ := Frame.mapM_ok (f := compare reel.frames) (P := Compares reel.frames)
    (l := transitions reel.frames.length pingPong) fun t ht => by
      obtain ⟨c, hc⟩ := exists_compares hfull (mem_transitions ht)
      exact ⟨c, compare_eq hc, hc⟩
  refine ⟨changes, ?_, hall⟩
  rw [script, if_neg hne, hchanges]
  rfl

theorem write_eq {target : Target} {pingPong : Bool} {reel : Reel} {s : Script}
    (h : script target pingPong reel = .ok s) :
    write none target pingPong reel = (utf8 s.text, .ok s.names) := by
  simp only [write, h]
  rfl

end Petscii.Patch
